import Resumption.Hierarchy.Subtyping

/-!
# The built-in library types

Super types of the library classes that ordinary code meets, and of the runtime classes of
suspendable code. Every class that the table mentions is in the table.
-/

namespace Resumption.Library

/-! ## Classes with subtypes in the table -/

/-- A resource that is closed at the end of a block. -/
def autoCloseable : ClassName := { text := "java/lang/AutoCloseable" }
/-- What has an order of its own. -/
def comparable : ClassName := { text := "java/lang/Comparable" }
/-- Strings, and what can be read like them. -/
def charSequence : ClassName := { text := "java/lang/CharSequence" }
/-- Boxed numbers. -/
def number : ClassName := { text := "java/lang/Number" }
/-- Failures that programs are not expected to handle. -/
def error : ClassName := { text := "java/lang/Error" }
/-- Failures that programs may handle. -/
def exception : ClassName := { text := "java/lang/Exception" }
/-- Failures that need not be declared. -/
def runtimeException : ClassName := { text := "java/lang/RuntimeException" }
/-- An index that is not in range. -/
def indexOutOfBoundsException : ClassName := { text := "java/lang/IndexOutOfBoundsException" }
/-- A stream that can be closed. -/
def closeable : ClassName := { text := "java/io/Closeable" }
/-- A stream that can be flushed. -/
def flushable : ClassName := { text := "java/io/Flushable" }
/-- A sink of bytes. -/
def outputStream : ClassName := { text := "java/io/OutputStream" }
/-- A sink that hands on to another one. -/
def filterOutputStream : ClassName := { text := "java/io/FilterOutputStream" }
/-- A sink of characters. -/
def appendable : ClassName := { text := "java/lang/Appendable" }
/-- What can be gone through. -/
def iterable : ClassName := { text := "java/lang/Iterable" }
/-- A group of objects. -/
def collection : ClassName := { text := "java/util/Collection" }
/-- What collections have in common. -/
def abstractCollection : ClassName := { text := "java/util/AbstractCollection" }
/-- A collection with an order. -/
def list : ClassName := { text := "java/util/List" }
/-- What lists have in common. -/
def abstractList : ClassName := { text := "java/util/AbstractList" }
/-- A table from keys to values. -/
def map : ClassName := { text := "java/util/Map" }
/-- What tables have in common. -/
def abstractMap : ClassName := { text := "java/util/AbstractMap" }
/-- The interface of all annotations. -/
def annotationType : ClassName := { text := "java/lang/annotation/Annotation" }

/-- A class. -/
def ofClass (name : ClassName) (superclass : ClassName) (interfaces : List ClassName) : TypeInfo :=
  { name, superclass := some superclass, interfaces, isInterface := false }

/-- An interface, with the interfaces it extends. -/
def ofInterface (name : ClassName) (interfaces : List ClassName) : TypeInfo :=
  { name, superclass := some .object, interfaces, isInterface := true }

/-- Classes of the standard library. -/
def javaTypes : List TypeInfo := [
  { name := .object, superclass := none, interfaces := [], isInterface := false },
  ofInterface charSequence [],
  ofInterface comparable [],
  ofInterface .cloneable [],
  ofInterface { text := "java/lang/Runnable" } [],
  ofInterface iterable [],
  ofInterface autoCloseable [],
  ofInterface .serializable [],
  ofInterface closeable [autoCloseable],
  ofInterface flushable [],
  ofInterface annotationType [],
  ofClass .string .object [.serializable, comparable, charSequence],
  ofClass .classObject .object [.serializable],
  ofClass .system .object [],
  ofClass { text := "java/lang/Math" } .object [],
  ofClass number .object [.serializable],
  ofClass { text := "java/lang/Integer" } number [comparable],
  ofClass { text := "java/lang/Long" } number [comparable],
  ofClass { text := "java/lang/Float" } number [comparable],
  ofClass { text := "java/lang/Double" } number [comparable],
  ofClass { text := "java/lang/Boolean" } .object [.serializable, comparable],
  ofClass { text := "java/lang/Character" } .object [.serializable, comparable],
  ofClass .throwable .object [.serializable],
  ofClass error .throwable [],
  ofClass { text := "java/lang/AssertionError" } error [],
  ofClass exception .throwable [],
  ofClass runtimeException exception [],
  ofClass .illegalStateException runtimeException [],
  ofClass { text := "java/lang/IllegalArgumentException" } runtimeException [],
  ofClass .illegalMonitorStateException runtimeException [],
  ofClass .arithmeticException runtimeException [],
  ofClass .nullPointerException runtimeException [],
  ofClass .classCastException runtimeException [],
  ofClass { text := "java/lang/UnsupportedOperationException" } runtimeException [],
  ofClass indexOutOfBoundsException runtimeException [],
  ofClass .arrayIndexOutOfBoundsException indexOutOfBoundsException [],
  ofClass .negativeArraySizeException runtimeException [],
  ofClass outputStream .object [closeable, flushable],
  ofClass filterOutputStream outputStream [],
  ofClass .printStream filterOutputStream [appendable, closeable],
  ofInterface appendable [],
  ofClass .methodType .object [.serializable],
  ofClass { text := "java/lang/invoke/MethodHandle" } .object [],
  ofInterface collection [iterable],
  ofInterface list [collection],
  ofInterface map [],
  ofClass abstractCollection .object [collection],
  ofClass abstractList abstractCollection [list],
  ofClass { text := "java/util/ArrayList" } abstractList [list, .cloneable, .serializable],
  ofClass abstractMap .object [map],
  ofClass { text := "java/util/HashMap" } abstractMap [map, .cloneable, .serializable]]

/-- Runtime classes of suspendable code. -/
def runtimeTypes : List TypeInfo := [
  ofClass .continuation .object [.serializable],
  ofInterface { text := "coroutines/user/Coroutine" } [.serializable],
  ofClass .methodState .object [.serializable],
  ofClass .lockState .object [.serializable],
  ofClass .data .object [.serializable],
  ofInterface .suspendable [annotationType]]

/-- All built-in types. -/
def types : List TypeInfo := javaTypes ++ runtimeTypes

/-- The hierarchy of the built-in types. -/
def hierarchy : Hierarchy := ⟨types⟩

end Resumption.Library
