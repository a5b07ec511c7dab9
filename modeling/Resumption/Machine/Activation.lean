import Resumption.Machine.Basic

/-!
# Activations

One call of a method that is under way: its locals, its operand stack and the next instruction.
Operations on the operand stack are in `Step`; a fault in them is a failure that names the method
and the instruction.
-/

namespace Resumption

/-- A call that is under way. -/
structure Activation where
  /-- class and signature of the method -/
  method : String
  /-- the variables; those that were never written hold nothing -/
  locals : Array Value
  /-- top first -/
  stack : List Value
  /-- index of the instruction -/
  index : Nat
deriving DecidableEq, Repr, Inhabited

namespace Activation

/-- Stores into a local. A local of two words that loses a half holds nothing after that. -/
def store (a : Activation) (slot : Nat) (v : Value) : Activation :=
  let missing := slot + v.width - a.locals.size
  let locals := a.locals ++ Array.replicate missing Value.top
  let locals :=
    if 0 < slot && (locals.getD (slot - 1) .top).width = 2 then locals.setIfInBounds (slot - 1) .top
    else locals
  let locals := locals.setIfInBounds slot v
  { a with locals := if v.width = 2 then locals.setIfInBounds (slot + 1) .top else locals }

end Activation

/-- A computation inside of an activation. -/
abbrev Step := StateT Activation Run

namespace Step

variable {α : Type}

/-- A computation that leaves the activation alone. -/
def lift (run : Run α) : Step α := StateT.lift run

/-- Ends with a fault of the code. -/
def fault (f : CodeFault) : Step α := do
  let a ← get
  throw (.failure (.badCode a.method a.index f))

/-- Puts a value on the stack. -/
def push (v : Value) : Step Unit := modify fun a => { a with stack := v :: a.stack }

/-- Pushes values, the last one on top. -/
def pushAll (vs : List Value) : Step Unit :=
  modify fun a => { a with stack := vs.reverse ++ a.stack }

/-- Takes the topmost value. -/
def pop : Step Value := do
  let a ← get
  match a.stack with
  | [] => fault .stackUnderflow
  | v :: rest =>
    set { a with stack := rest }
    return v

/-- Takes a number of kind int. -/
def popInt : Step Int32 := do
  match ← pop with
  | .int n => return n
  | v => fault (.unexpected "int" v)

/-- Takes a number of kind long. -/
def popLong : Step Int64 := do
  match ← pop with
  | .long n => return n
  | v => fault (.unexpected "long" v)

/-- Takes a number of kind float. -/
def popFloat : Step UInt32 := do
  match ← pop with
  | .float bits => return bits
  | v => fault (.unexpected "float" v)

/-- Takes a number of kind double. -/
def popDouble : Step UInt64 := do
  match ← pop with
  | .double bits => return bits
  | v => fault (.unexpected "double" v)

/-- An object, or nothing for null. -/
def popRef : Step (Option Ref) := do
  match ← pop with
  | .ref r => return some r
  | .null => return none
  | v => fault (.unexpected "reference" v)

/-- An object; null raises an exception. -/
def popObject : Step Ref := do
  let r ← popRef
  Run.nonNull r

/-- Values that take this many words together, the last one from the top. -/
def popWords : (words : Nat) → Step (List Value)
  | 0 => return []
  | 1 => do
    let v ← pop
    if v.width = 1 then return [v] else fault .splitWide
  | words + 2 => do
    let v ← pop
    if v.width = 1 then return (← popWords (words + 1)) ++ [v]
    else return (← popWords words) ++ [v]

/-- The arguments of a call, first one first. -/
def popArguments (count : Nat) : Step (List Value) := do
  let a ← get
  if a.stack.length < count then fault .missingArguments
  set { a with stack := a.stack.drop count }
  return (a.stack.take count).reverse

/-- Repeats the top words, with the copy some words further down. -/
def copyWords (top under : Nat) : Step Unit := do
  let above ← popWords top
  let below ← popWords under
  pushAll (above ++ below ++ above)

/-- What a variable holds; something has to have been stored there. -/
def load (slot : Nat) : Step Value := do
  match (← get).locals.getD slot .top with
  | .top => fault (.uninitializedLocal slot)
  | v => return v

/-- Writes a variable. Wide values take two. -/
def store (slot : Nat) (v : Value) : Step Unit := modify (·.store slot v)

end Step

end Resumption
