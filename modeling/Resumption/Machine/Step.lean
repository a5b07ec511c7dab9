import Resumption.Machine.Activation
import Resumption.Machine.Arithmetic
import Resumption.Machine.Arrays

/-!
# Steps

What each instruction does. Calling methods and initializing classes lead to other activations; they
are handed in as `Callees`, so that a step is defined without them.
-/

namespace Resumption

/-- What an activation asks of others. -/
structure Callees where
  /-- calls a method with its arguments, the receiver first -/
  call : CallKind → MethodRef → List Value → Run (Option Value)
  /-- makes sure that a class is initialized -/
  prepare : ClassName → Run Unit

/-- Where an activation goes after a step. -/
inductive Progress where
  /-- with the next instruction -/
  | next
  /-- at a label -/
  | jump (target : Label)
  /-- no further, with a result if there is one -/
  | done (result : Option Value)
deriving DecidableEq, Repr, Inhabited

namespace Run

/-- A class that the hierarchy misses is a failure. -/
def liftKnown {α : Type} : Known α → Run α
  | .ok a => pure a
  | .error e => fail (.code (.missingClass e.name))

/-- Is the object an instance of the type? -/
def isInstance (r : Ref) (type : RefType) : Run Bool := do
  let found := (← object r).type
  let h := (← get).hierarchy
  match found, type with
  | .object sub, .object super => liftKnown (h.isSubclass sub super)
  | _, _ => liftKnown (h.isAssignable found type)

/-- The instance fields of a class and its superclasses at their zero values, from a class on; of
two fields with one name that of the subclass counts. -/
def zeroFields (classes : List Class) : (fuel : Nat) → Option ClassName → FieldValues → FieldValues
  | 0, _, fields => fields
  | _, none, fields => fields
  | fuel + 1, some name, fields =>
    match classes.find? (·.name = name) with
    | none => fields
    | some c =>
      let own := c.fields.filter (!·.isStatic)
      zeroFields classes fuel c.superclass
        (own.foldl (fun fields f => fields.setNew f.name (Value.zero f.type)) fields)

/-- A new instance of an initialized class. -/
def newInstance (owner : ClassName) : Run Ref := do
  let classes := (← get).classes
  alloc (.instance owner (zeroFields classes (classes.length + 1) (some owner) []))

/-- The fields of an instance. -/
def instanceFields (r : Ref) : Run (ClassName × FieldValues) := do
  match ← object r with
  | .instance owner fields => return (owner, fields)
  | _ => fail (.badReference (.noFields r))

/-- What a field holds; zero if it was never written. -/
def getField (r : Ref) (field : FieldRef) : Run Value := do
  let (_, fields) ← instanceFields r
  return (fields.get? field.name).getD (Value.zero field.type)

/-- Writes a field of an instance. -/
def putField (r : Ref) (field : FieldRef) (v : Value) : Run Unit := do
  let (owner, fields) ← instanceFields r
  setObject r (.instance owner (fields.set field.name v))

/-- What a static field holds; zero if it was never written. -/
def getStatic (field : FieldRef) : Run Value := do
  return ((← get).statics.lookup (field.owner, field.name)).getD (Value.zero field.type)

/-- Sets a static field. -/
def setStatic (key : ClassName × MemberName) (v : Value) :
    List ((ClassName × MemberName) × Value) → List ((ClassName × MemberName) × Value)
  | [] => [(key, v)]
  | (other, old) :: rest =>
    if other = key then (key, v) :: rest else (other, old) :: setStatic key v rest

/-- Writes a static field. -/
def putStatic (field : FieldRef) (v : Value) : Run Unit :=
  modify fun m => { m with statics := setStatic (field.owner, field.name) v m.statics }

/-- How many elements an array has. -/
def arrayLength (r : Ref) : Run Nat := do return (← elements r).2.size

/-- Raises an exception unless null or an instance of the type. -/
def checkCast (v : Value) (type : RefType) : Run Unit := do
  match v with
  | .ref r =>
    if !(← isInstance r type) then
      let found := (← object r).type
      raise .classCastException s!"{found.render} cannot be cast to {type.render}"
  | _ => return ()

/-- Enters the monitor of an object, once more if it was entered already. -/
def enterMonitor (r : Ref) : Run Unit :=
  modify fun m => { m with monitors := m.monitors.enter r }

/-- Exits the monitor of an object, which has to be held. -/
def exitMonitor (r : Ref) : Run Unit := do
  match (← get).monitors.exit? r with
  | some monitors => modify fun m => { m with monitors }
  | none => raise .illegalMonitorStateException "current thread is not owner"

end Run

namespace Step

/-- The result of a division, which is missing if the divisor was zero. -/
def quotient {α : Type} : Option α → Step α
  | some a => return a
  | none => lift (Run.raise .arithmeticException "/ by zero")

/-- Pops two numbers and pushes what comes of them. -/
def arith (op : ArithOp) : NumericKind → Step Unit
  | .int => do
    let b ← popInt
    let a ← popInt
    push (.int (← quotient (op.int? a b)))
  | .long => do
    let b ← popLong
    let a ← popLong
    push (.long (← quotient (op.long? a b)))
  | .float => do
    let b ← popFloat
    let a ← popFloat
    push (.float (op.float a b))
  | .double => do
    let b ← popDouble
    let a ← popDouble
    push (.double (op.double a b))

/-- Pops a number and pushes its negation. -/
def neg : NumericKind → Step Unit
  | .int => do push (.int (-(← popInt)))
  | .long => do push (.long (-(← popLong)))
  | .float => do push (.float (UInt32.ofNat (Number.Ieee.single.neg (← popFloat).toNat)))
  | .double => do push (.double (UInt64.ofNat (Number.Ieee.double.neg (← popDouble).toNat)))

/-- Pops an amount and a number, and pushes the number with its bits moved. -/
def shift (op : ShiftOp) : IntegralKind → Step Unit
  | .int => do
    let amount ← popInt
    let a ← popInt
    push (.int (op.int a amount))
  | .long => do
    let amount ← popInt
    let a ← popLong
    push (.long (op.long a amount))

/-- Pops two numbers and pushes what comes of their bits. -/
def bitwise (op : BitOp) : IntegralKind → Step Unit
  | .int => do
    let b ← popInt
    let a ← popInt
    push (.int (op.int a b))
  | .long => do
    let b ← popLong
    let a ← popLong
    push (.long (op.long a b))

open Number.Ieee in
/-- Pops a number of one kind and pushes it as one of another kind. -/
def convert : Conversion → Step Unit
  | .intToLong => do push (.long (← popInt).toInt64)
  | .intToFloat => do push (.float (UInt32.ofNat (single.ofInt (← popInt).toInt)))
  | .intToDouble => do push (.double (UInt64.ofNat (double.ofInt (← popInt).toInt)))
  | .longToInt => do push (.int (← popLong).toInt32)
  | .longToFloat => do push (.float (UInt32.ofNat (single.ofInt (← popLong).toInt)))
  | .longToDouble => do push (.double (UInt64.ofNat (double.ofInt (← popLong).toInt)))
  | .floatToInt => do push (.int (truncated32 single (← popFloat).toNat))
  | .floatToLong => do push (.long (truncated64 single (← popFloat).toNat))
  | .floatToDouble => do push (.double (UInt64.ofNat (widen (← popFloat).toNat)))
  | .doubleToInt => do push (.int (truncated32 double (← popDouble).toNat))
  | .doubleToLong => do push (.long (truncated64 double (← popDouble).toNat))
  | .doubleToFloat => do push (.float (UInt32.ofNat (narrow (← popDouble).toNat)))
  | .intToByte => do push (.int (signedByte (← popInt)))
  | .intToChar => do push (.int (unsignedChar (← popInt)))
  | .intToShort => do push (.int (signedShort (← popInt)))

/-- Pops two numbers and pushes how they compare. -/
def compareFloat (nan : NaNOrder) : FloatKind → Step Unit
  | .float => do
    let b ← popFloat
    let a ← popFloat
    push (.int (nan.compare Number.Ieee.single a.toNat b.toNat))
  | .double => do
    let b ← popDouble
    let a ← popDouble
    push (.int (nan.compare Number.Ieee.double a.toNat b.toNat))

/-- Moves words at the top of the stack. Wide values are not split. -/
def rearrange (op : StackOp) : Step Unit :=
  match op with
  | .pop => discard (popWords 1)
  | .pop2 => discard (popWords 2)
  | .dup => copyWords 1 0
  | .dupX1 => copyWords 1 1
  | .dupX2 => copyWords 1 2
  | .dup2 => copyWords 2 0
  | .dup2X1 => copyWords 2 1
  | .dup2X2 => copyWords 2 2
  | .swap => do
    let upper ← pop
    let lower ← pop
    pushAll [upper, lower]

/-- A value as it is stored in an array with such elements. -/
def narrowed : ElementKind → Value → Value
  | .byte, .int n => .int (signedByte n)
  | .char, .int n => .int (unsignedChar n)
  | .short, .int n => .int (signedShort n)
  | _, v => v

/-- Pops an index and an array, and pushes the element. -/
def arrayLoad : Step Unit := do
  let index ← popInt
  let array ← popRef
  push (← Run.arrayElement array index)

/-- Pops a value, an index and an array, and writes the element. -/
def arrayStore (element : ElementKind) : Step Unit := do
  let v ← pop
  let index ← popInt
  let array ← popRef
  Run.setArrayElement array index (narrowed element v)

/-- Adds to a variable of kind int. -/
def increment (slot : Nat) (delta : Int16) : Step Unit := do
  match ← load slot with
  | .int n => store slot (.int (n + delta.toInt32))
  | v => fault (.incrementOf v)

/-- Lengths of the dimensions of an array, the first one first. -/
def popCounts : Nat → List Int32 → Step (List Int32)
  | 0, counts => return counts
  | n + 1, counts => do popCounts n ((← popInt) :: counts)

/-- The target of a jump table. -/
def tableTarget (low : Int32) (default : Label) (targets : List Label) (n : Int32) : Label :=
  if low.toInt ≤ n.toInt then targets.getD (n.toInt - low.toInt).toNat default else default

/-- Jumps if the condition holds. -/
def jumpIf (holds : Bool) (target : Label) : Progress := if holds then .jump target else .next

/-- Goes on with the next instruction. -/
def andNext (step : Step Unit) : Step Progress := do
  step
  return .next

/-- What an instruction does. -/
def execute (callees : Callees) : Instruction → Step Progress
  | .label _ | .lineNumber _ | .nop => return .next
  | .pushNull => andNext (push .null)
  | .pushInt n => andNext (push (.int n))
  | .pushLong n => andNext (push (.long n))
  | .pushFloat bits => andNext (push (.float bits))
  | .pushDouble bits => andNext (push (.double bits))
  | .pushConstant (.string s) => andNext do push (.ref (← Run.intern s))
  | .pushConstant c => lift (Run.fail (.unsupported (.constant c)))
  | .load _ slot => andNext do push (← load slot)
  | .store _ slot => andNext do store slot (← pop)
  | .arrayLoad _ => andNext arrayLoad
  | .arrayStore element => andNext (arrayStore element)
  | .stack op => andNext (rearrange op)
  | .arith op kind => andNext (arith op kind)
  | .neg kind => andNext (neg kind)
  | .shift op kind => andNext (shift op kind)
  | .bitwise op kind => andNext (bitwise op kind)
  | .increment slot delta => andNext (increment slot delta)
  | .convert c => andNext (convert c)
  | .compareLong => andNext do
    let b ← popLong
    let a ← popLong
    push (.int (orderNumber (compare a.toInt b.toInt)))
  | .compareFloat kind nan => andNext (compareFloat nan kind)
  | .getStatic field => andNext do
    callees.prepare field.owner
    push (← Run.getStatic field)
  | .putStatic field => andNext do
    callees.prepare field.owner
    let v ← pop
    Run.putStatic field v
  | .getField field => andNext do
    let r ← popObject
    push (← Run.getField r field)
  | .putField field => andNext do
    let v ← pop
    let r ← popObject
    Run.putField r field v
  | .invoke kind method => andNext do
    let receiver := if kind = .static then 0 else 1
    let arguments ← popArguments (method.descriptor.parameters.length + receiver)
    match ← callees.call kind method arguments with
    | some v => push v
    | none => return ()
  | .invokeDynamic _ => lift (Run.fail (.unsupported .dynamicCall))
  | .new owner => andNext do
    callees.prepare owner
    push (.ref (← Run.newInstance owner))
  | .newArray element => andNext do
    let count ← popInt
    push (.ref (← Run.allocateArray (.array (.base element)) count))
  | .newRefArray element => andNext do
    let count ← popInt
    push (.ref (← Run.allocateArray (.array (.ref element)) count))
  | .newMultiArray type dimensions => andNext do
    let counts ← popCounts dimensions []
    push (.ref (← Run.allocateArrays type counts))
  | .arrayLength => andNext do
    let r ← popObject
    push (.int (Int32.ofNat (← Run.arrayLength r)))
  | .checkCast type => andNext do
    let v ← pop
    Run.checkCast v type
    push v
  | .instanceOf type => andNext do
    let holds ← match ← pop with
      | .ref r => Run.isInstance r type
      | _ => pure false
    push (.int (if holds then 1 else 0))
  | .monitorEnter => andNext do
    let r ← popObject
    Run.enterMonitor r
  | .monitorExit => andNext do
    let r ← popObject
    Run.exitMonitor r
  | .ifZero comparison target => do
    let a ← popInt
    return jumpIf (comparison.holds (compare a.toInt 0)) target
  | .ifInt comparison target => do
    let b ← popInt
    let a ← popInt
    return jumpIf (comparison.holds (compare a.toInt b.toInt)) target
  | .ifRef equality target => do
    let b ← pop
    let a ← pop
    return jumpIf (equality.holds (a.same b)) target
  | .ifNull equality target => do
    let a ← pop
    return jumpIf (equality.holds (a == .null)) target
  | .goto target => return .jump target
  | .jsr _ | .ret _ => lift (Run.fail (.unsupported .subroutine))
  | .tableSwitch low default targets => do
    return .jump (tableTarget low default targets (← popInt))
  | .lookupSwitch default cases => do
    return .jump ((cases.lookup (← popInt)).getD default)
  | .returnValue _ => do return .done (some (← pop))
  | .returnVoid => return .done none
  | .throw => do
    let r ← popObject
    throw (.exception r)

end Step

end Resumption
