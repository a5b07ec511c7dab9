import Resumption.Code.Instruction

/-!
# The runtime interface of suspendable code

The methods of the runtime classes that suspendable code calls, and those of an allocator for the
arrays in which frames are saved.
-/

namespace Resumption.Interface

/-- A method of a class. -/
def method (owner : ClassName) (name : MemberName) (parameters : List FieldType)
    (result : Option FieldType) : MethodRef :=
  { owner, name, descriptor := { parameters, result } }

/-- Saved numbers of kind int, bytes, shorts and characters among them. -/
def ints : FieldType := .array .int
/-- Saved numbers of kind long. -/
def longs : FieldType := .array .long
/-- Saved numbers of kind float. -/
def floats : FieldType := .array .float
/-- Saved numbers of kind double. -/
def doubles : FieldType := .array .double
/-- Saved references. -/
def objects : FieldType := .array (.object .object)

namespace Continuation

/-- The call at which suspendable code comes to a stop. -/
def suspend : MethodRef := method .continuation .suspend [] none
/-- Tells whether code runs, is being saved, or is being restored. -/
def getMode : MethodRef := method .continuation .getMode [] (some .int)
/-- Changes the mode. -/
def setMode : MethodRef := method .continuation .setMode [.int] none
/-- Gives the state of the next activation to be restored. -/
def loadNextMethodState : MethodRef :=
  method .continuation .loadNextMethodState [] (some (.object .methodState))
/-- Takes the state of an activation that is being saved. -/
def pushNewMethodState : MethodRef :=
  method .continuation .pushNewMethodState [.object .methodState] none
/-- Undoes a restore that failed. -/
def reset : MethodRef := method .continuation .reset [] none
/-- Makes the exception that is thrown when a state does not belong to the code. -/
def invalidContinuationPoint : MethodRef :=
  method .continuation .invalidContinuationPoint [] (some (.object .illegalStateException))

end Continuation

namespace MethodState

/-- Makes the state of an activation. -/
def create : MethodRef :=
  method .methodState .create
    [.object .string, .int, .int, .int, .object .lockState, .object .data, .object .data]
    (some (.object .methodState))
/-- The point at which the activation has stopped. -/
def getContinuationPoint : MethodRef := method .methodState .getContinuationPoint [] (some .int)
/-- Which method of its class it is. -/
def getMethodId : MethodRef := method .methodState .getMethodId [] (some .int)
/-- The version of the body that has saved the state. -/
def getMethodVersion : MethodRef := method .methodState .getMethodVersion [] (some .int)
/-- The monitors that the activation holds. -/
def getLockState : MethodRef := method .methodState .getLockState [] (some (.object .lockState))
/-- The saved variables. -/
def getLocals : MethodRef := method .methodState .getLocals [] (some (.object .data))
/-- The saved operands. -/
def getStack : MethodRef := method .methodState .getStack [] (some (.object .data))

end MethodState

namespace Data

/-- Puts the arrays of saved values together. -/
def create : MethodRef :=
  method .data .create [ints, longs, floats, doubles, objects] (some (.object .data))
/-- The saved values of kind int. -/
def getInts : MethodRef := method .data .getInts [] (some ints)
/-- The saved values of kind long. -/
def getLongs : MethodRef := method .data .getLongs [] (some longs)
/-- The saved values of kind float. -/
def getFloats : MethodRef := method .data .getFloats [] (some floats)
/-- The saved values of kind double. -/
def getDoubles : MethodRef := method .data .getDoubles [] (some doubles)
/-- The saved references. -/
def getObjects : MethodRef := method .data .getObjects [] (some objects)

end Data

namespace LockState

/-- Makes a record of no monitors. -/
def create : MethodRef := method .lockState .create [] (some (.object .lockState))
/-- Enters a monitor and records it. -/
def enter : MethodRef := method .lockState .enter [.object .object] none
/-- Exits a monitor and forgets it. -/
def exit : MethodRef := method .lockState .exit [.object .object] none
/-- The recorded monitors, in the order in which they were entered. -/
def toArray : MethodRef := method .lockState .toArray [] (some objects)

end LockState

namespace Print

/-- The stream that text is printed on. -/
def out : FieldRef := ⟨.system, .out, .object .printStream⟩
/-- Prints a line. -/
def println : MethodRef := method .printStream .println [.object .string] none

end Print

/-- All methods that suspendable code calls, apart from those of an allocator. -/
def methods : List MethodRef :=
  [Continuation.suspend, Continuation.getMode, Continuation.setMode,
   Continuation.loadNextMethodState, Continuation.pushNewMethodState, Continuation.reset,
   Continuation.invalidContinuationPoint, MethodState.create, MethodState.getContinuationPoint,
   MethodState.getMethodId, MethodState.getMethodVersion, MethodState.getLockState,
   MethodState.getLocals, MethodState.getStack, Data.create, Data.getInts, Data.getLongs,
   Data.getFloats, Data.getDoubles, Data.getObjects, LockState.create, LockState.enter,
   LockState.exit, LockState.toArray, Print.println]

/-! ## Allocators -/

/-- The name of the method that allocates arrays with elements of a type, and the element type of
those arrays. -/
def allocated : FieldType → MemberName × FieldType
  | .base .int => (.allocateIntArray, .int)
  | .base .long => (.allocateLongArray, .long)
  | .base .float => (.allocateFloatArray, .float)
  | .base .double => (.allocateDoubleArray, .double)
  | _ => (.allocateObjectArray, .object .object)

/-- The method of an allocator class for arrays with elements of a type. -/
def allocator (owner : ClassName) (element : FieldType) : MethodRef :=
  let (name, element) := allocated element
  method owner name [.int] (some (.array element))

/-- Called once a frame has been pushed. -/
def commit (owner : ClassName) : MethodRef := method owner .commit [] none

/-- Called when loading a frame has failed. -/
def rollback (owner : ClassName) : MethodRef := method owner .rollback [] none

end Resumption.Interface
