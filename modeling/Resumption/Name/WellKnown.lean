import Resumption.Name.Basic

/-!
# Well known names

The classes that the virtual machine itself knows about, the runtime classes that suspendable code
talks to, and the member names that occur in them.
-/

namespace Resumption

namespace ClassName

/-! ## Library classes -/

/-- The root of all classes. -/
def object : ClassName := { text := "java/lang/Object" }
/-- Texts. -/
def string : ClassName := { text := "java/lang/String" }
/-- What a constant for a type evaluates to. -/
def classObject : ClassName := { text := "java/lang/Class" }
/-- What a constant for a method descriptor evaluates to. -/
def methodType : ClassName := { text := "java/lang/invoke/MethodType" }
/-- The root of what can be thrown. -/
def throwable : ClassName := { text := "java/lang/Throwable" }
/-- What can be copied; arrays can. -/
def cloneable : ClassName := { text := "java/lang/Cloneable" }
/-- What can be written; arrays can. -/
def serializable : ClassName := { text := "java/io/Serializable" }
/-- The class with the standard stream. -/
def system : ClassName := { text := "java/lang/System" }
/-- The class of that stream. -/
def printStream : ClassName := { text := "java/io/PrintStream" }

/-! ## Exceptions that execution raises by itself -/

/-- A division of whole numbers by zero. -/
def arithmeticException : ClassName := { text := "java/lang/ArithmeticException" }
/-- A null where an object is needed. -/
def nullPointerException : ClassName := { text := "java/lang/NullPointerException" }
/-- An index that an array does not have. -/
def arrayIndexOutOfBoundsException : ClassName :=
  { text := "java/lang/ArrayIndexOutOfBoundsException" }
/-- A cast to a type that an object is not of. -/
def classCastException : ClassName := { text := "java/lang/ClassCastException" }
/-- An array of negative length. -/
def negativeArraySizeException : ClassName := { text := "java/lang/NegativeArraySizeException" }
/-- The exit of a monitor that is not held. -/
def illegalMonitorStateException : ClassName :=
  { text := "java/lang/IllegalMonitorStateException" }
/-- A state that does not belong to the code. -/
def illegalStateException : ClassName := { text := "java/lang/IllegalStateException" }

/-! ## Runtime classes of suspendable code -/

/-- The handle that is passed along to every method that may suspend. -/
def continuation : ClassName := { text := "coroutines/user/Continuation" }
/-- One saved activation. -/
def methodState : ClassName := { text := "coroutines/user/MethodState" }
/-- Monitors held by an activation. -/
def lockState : ClassName := { text := "coroutines/user/LockState" }
/-- Saved values, by kind. -/
def data : ClassName := { text := "coroutines/user/Data" }
/-- Annotation of methods that may suspend. -/
def suspendable : ClassName := { text := "coroutines/user/Suspendable" }
/-- Observer whose methods record what running code passes to them. -/
def probe : ClassName := { text := "coroutines/test/Probe" }

end ClassName

namespace MemberName

/-- The name of constructors. -/
def init : MemberName := { text := "<init>" }
/-- The name of the code that makes a class ready. -/
def classInit : MemberName := { text := "<clinit>" }
/-- The standard stream. -/
def out : MemberName := { text := "out" }
/-- Prints a line. -/
def println : MemberName := { text := "println" }
/-- The entry point of a coroutine. -/
def run : MemberName := { text := "run" }
/-- What an exception says. -/
def message : MemberName := { text := "message" }
/-- Records a value. -/
def record : MemberName := { text := "record" }
/-- Records the monitors that are held. -/
def monitors : MemberName := { text := "monitors" }

/-! ## Members of the runtime classes -/

/-- Comes to a stop. -/
def suspend : MemberName := { text := "suspend" }
/-- Reads the mode. -/
def getMode : MemberName := { text := "getMode" }
/-- Writes the mode. -/
def setMode : MemberName := { text := "setMode" }
/-- Undoes a restore that failed. -/
def reset : MemberName := { text := "reset" }
/-- Gives the next state. -/
def loadNextMethodState : MemberName := { text := "loadNextMethodState" }
/-- Takes a new state. -/
def pushNewMethodState : MemberName := { text := "pushNewMethodState" }
/-- Makes the exception for a state that does not belong to the code. -/
def invalidContinuationPoint : MemberName := { text := "invalidContinuationPoint" }
/-- Makes a new object. -/
def create : MemberName := { text := "create" }
/-- The point in a state. -/
def getContinuationPoint : MemberName := { text := "getContinuationPoint" }
/-- The method in a state. -/
def getMethodId : MemberName := { text := "getMethodId" }
/-- The version in a state. -/
def getMethodVersion : MemberName := { text := "getMethodVersion" }
/-- The monitors in a state. -/
def getLockState : MemberName := { text := "getLockState" }
/-- The variables in a state. -/
def getLocals : MemberName := { text := "getLocals" }
/-- The operands in a state. -/
def getStack : MemberName := { text := "getStack" }
/-- The values of kind int. -/
def getInts : MemberName := { text := "getInts" }
/-- The values of kind long. -/
def getLongs : MemberName := { text := "getLongs" }
/-- The values of kind float. -/
def getFloats : MemberName := { text := "getFloats" }
/-- The values of kind double. -/
def getDoubles : MemberName := { text := "getDoubles" }
/-- The references. -/
def getObjects : MemberName := { text := "getObjects" }
/-- Enters a monitor. -/
def enter : MemberName := { text := "enter" }
/-- Exits a monitor. -/
def exit : MemberName := { text := "exit" }
/-- Gives the recorded monitors. -/
def toArray : MemberName := { text := "toArray" }
/-- Makes an array for values of kind int. -/
def allocateIntArray : MemberName := { text := "allocateIntArray" }
/-- Makes an array for values of kind long. -/
def allocateLongArray : MemberName := { text := "allocateLongArray" }
/-- Makes an array for values of kind float. -/
def allocateFloatArray : MemberName := { text := "allocateFloatArray" }
/-- Makes an array for values of kind double. -/
def allocateDoubleArray : MemberName := { text := "allocateDoubleArray" }
/-- Makes an array for references. -/
def allocateObjectArray : MemberName := { text := "allocateObjectArray" }
/-- Keeps what was allocated. -/
def commit : MemberName := { text := "commit" }
/-- Gives up what was allocated. -/
def rollback : MemberName := { text := "rollback" }

end MemberName

end Resumption
