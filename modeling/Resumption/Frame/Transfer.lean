import Resumption.Frame.Basic

/-!
# The effect of an instruction on a frame

`Frame.step` gives the frame after an instruction, or the reason why the instruction cannot run in
the frame before. Most instructions take values of fixed types off the stack and put values of fixed
types on it (`fixedEffect?`); the rest look at what they find.
-/

namespace Resumption

/-- Reasons why an instruction cannot run in a frame. -/
inductive FrameError where
  /-- there is no operand left -/
  | emptyStack
  /-- an operand is wider or narrower than it may be -/
  | invalidWidth (found : Nat)
  /-- an operand is no array -/
  | notArrayType
  /-- there is no such variable -/
  | invalidIndex
  /-- an operand is of another type -/
  | invalidType
deriving DecidableEq, Repr

/-- The error as it is written in messages. -/
def FrameError.describe : FrameError → String
  | .emptyStack => "EmptyStack"
  | .invalidWidth found => s!"InvalidWidth({found})"
  | .notArrayType => "NotArrayType"
  | .invalidIndex => "InvalidIndex"
  | .invalidType => "InvalidType"

/-- What the effect of an instruction depends on besides the frame. -/
structure MethodContext where
  /-- the class of the method -/
  owner : ClassName
  /-- what the method returns -/
  result : Option FieldType
deriving Repr, Inhabited

/-! ## Slot types of the kinds of values -/

/-- The slot type of a number. -/
def NumericKind.slot : NumericKind → SlotType
  | .int => .integer
  | .long => .long
  | .float => .float
  | .double => .double

/-- The slot type of an integer. -/
def IntegralKind.slot : IntegralKind → SlotType
  | .int => .integer
  | .long => .long

/-- The slot type of a floating point number. -/
def FloatKind.slot : FloatKind → SlotType
  | .float => .float
  | .double => .double

/-- The slot type of a value that is no reference. -/
def ValueKind.slot? : ValueKind → Option SlotType
  | .int => some .integer
  | .long => some .long
  | .float => some .float
  | .double => some .double
  | .object => none

/-- The slot type of an element that is no reference. -/
def ElementKind.slot? : ElementKind → Option SlotType
  | .int | .byte | .char | .short => some .integer
  | .long => some .long
  | .float => some .float
  | .double => some .double
  | .object => none

/-- What a conversion takes and gives. -/
def Conversion.slots : Conversion → SlotType × SlotType
  | .intToLong => (.integer, .long)
  | .intToFloat => (.integer, .float)
  | .intToDouble => (.integer, .double)
  | .longToInt => (.long, .integer)
  | .longToFloat => (.long, .float)
  | .longToDouble => (.long, .double)
  | .floatToInt => (.float, .integer)
  | .floatToLong => (.float, .long)
  | .floatToDouble => (.float, .double)
  | .doubleToInt => (.double, .integer)
  | .doubleToLong => (.double, .long)
  | .doubleToFloat => (.double, .float)
  | .intToByte | .intToChar | .intToShort => (.integer, .integer)

/-- The type of a constant. -/
def Constant.slot : Constant → SlotType
  | .string _ => .ofClass .string
  | .type _ => .ofClass .classObject
  | .methodType _ => .ofClass .methodType

/-- For the operations that copy: how many words are copied, and under how many the copy goes. -/
def StackOp.copy? : StackOp → Option (Nat × Nat)
  | .dup => some (1, 0)
  | .dupX1 => some (1, 1)
  | .dupX2 => some (1, 2)
  | .dup2 => some (2, 0)
  | .dup2X1 => some (2, 1)
  | .dup2X2 => some (2, 2)
  | .pop | .pop2 | .swap => none

/-- Types taken off the stack, top first, and types put on it, for the instructions that always take
and put the same. -/
def Instruction.fixedEffect? : Instruction → Option (List SlotType × List SlotType)
  | .label _ | .lineNumber _ | .nop | .goto _ => some ([], [])
  | .pushNull => some ([], [.null])
  | .pushInt _ => some ([], [.integer])
  | .pushLong _ => some ([], [.long])
  | .pushFloat _ => some ([], [.float])
  | .pushDouble _ => some ([], [.double])
  | .pushConstant c => some ([], [c.slot])
  | .arith _ kind => some ([kind.slot, kind.slot], [kind.slot])
  | .neg kind => some ([kind.slot], [kind.slot])
  | .shift _ kind => some ([.integer, kind.slot], [kind.slot])
  | .bitwise _ kind => some ([kind.slot, kind.slot], [kind.slot])
  | .convert c => some ([c.slots.1], [c.slots.2])
  | .compareLong => some ([.long, .long], [.integer])
  | .compareFloat kind _ => some ([kind.slot, kind.slot], [.integer])
  | .getStatic field => some ([], [.ofField field.type])
  | .newArray element => some ([.integer], [.object (.array (.base element))])
  | .newRefArray element => some ([.integer], [.object (.array (.ref element))])
  | .ifZero _ _ | .tableSwitch .. | .lookupSwitch .. => some ([.integer], [])
  | .ifInt _ _ => some ([.integer, .integer], [])
  | _ => none

namespace Frame

/-! ## Taking values off the stack -/

/-- The top of the stack and the rest. -/
def pop : List SlotType → Except FrameError (SlotType × List SlotType)
  | [] => .error .emptyStack
  | t :: stack => .ok (t, stack)

/-- Takes off a value for which `p` holds. -/
def popWhere (p : SlotType → Bool) (stack : List SlotType) :
    Except FrameError (SlotType × List SlotType) := do
  let (t, stack) ← pop stack
  if p t then return (t, stack) else throw .invalidType

/-- Takes off values of exactly these types, top first. -/
def popExactly : List SlotType → List SlotType → Except FrameError (List SlotType)
  | [], stack => .ok stack
  | t :: wanted, stack => do
    let (_, stack) ← popWhere (· = t) stack
    popExactly wanted stack

/-- Takes off values that fit the parameters, given last first. -/
def popFitting : List FieldType → List SlotType → Except FrameError (List SlotType)
  | [], stack => .ok stack
  | t :: parameters, stack => do
    let (_, stack) ← popWhere (·.fits (.ofField t)) stack
    popFitting parameters stack

/-- Takes off a value of one word. -/
def popNarrow (stack : List SlotType) : Except FrameError (SlotType × List SlotType) := do
  let (t, stack) ← pop stack
  if t.width = 1 then return (t, stack) else throw (.invalidWidth t.width)

/-- Takes off values of `words` words together, zero to two, without splitting a wide one. They are
given top first. -/
def popWords : (words : Nat) → List SlotType → Except FrameError (List SlotType × List SlotType)
  | 0, stack => .ok ([], stack)
  | 1, stack => do
    let (t, stack) ← popNarrow stack
    return ([t], stack)
  | _, stack => do
    let (t, stack) ← pop stack
    if t.width = 1 then
      let (u, stack) ← popNarrow stack
      return ([t, u], stack)
    else return ([t], stack)

/-- Takes off an array: its type, or `none` for null. -/
def popArray (stack : List SlotType) : Except FrameError (Option RefType × List SlotType) := do
  let (t, stack) ← pop stack
  match t with
  | .null => return (none, stack)
  | .object type => if type.isArray then return (some type, stack) else throw .notArrayType
  | _ => throw .invalidType

/-! ## Locals -/

/-- The type of a local. -/
def local? (f : Frame) (slot : Nat) : Except FrameError SlotType :=
  match f.locals[slot]? with
  | some t => .ok t
  | none => .error .invalidIndex

/-- A wide value whose second half is about to be overwritten is ruined. -/
def ruinBefore (locals : List SlotType) (slot : Nat) : List SlotType :=
  if 0 < slot && (locals[slot - 1]?.map SlotType.width) = some 2 then locals.set (slot - 1) .top
  else locals

/-- Stores into a local. -/
def storeLocal (locals : List SlotType) (slot : Nat) (t : SlotType) :
    Except FrameError (List SlotType) :=
  if locals.length < slot + t.width then .error .invalidIndex
  else
    let locals := ruinBefore locals slot
    let locals := if t.width = 2 then locals.set (slot + 1) .top else locals
    .ok (locals.set slot t)

/-- Replaces a type everywhere. -/
def replaceAll (f : Frame) (old new : SlotType) : Frame :=
  let replace (t : SlotType) := if t = old then new else t
  { locals := f.locals.map replace, stack := f.stack.map replace }

/-! ## Instructions that look at what they find -/

/-- Is this the type of a value of the kind? -/
def holdsKind (kind : ValueKind) (t : SlotType) : Bool :=
  match kind.slot? with
  | some wanted => t = wanted
  | none => t.isReference

/-- May a value of this type be put into an array with elements of the kind? -/
def fitsElement (element : ElementKind) (t : SlotType) : Bool :=
  match element.slot? with
  | some wanted => t = wanted
  | none => t.fits (.ofClass .object)

/-- A load pushes the type of the local. -/
def load (f : Frame) (kind : ValueKind) (slot : Nat) : Except FrameError Frame := do
  let t ← f.local? slot
  if holdsKind kind t then return { f with stack := t :: f.stack } else throw .invalidType

/-- A store moves the top of the stack into a local. -/
def store (f : Frame) (kind : ValueKind) (slot : Nat) : Except FrameError Frame := do
  let (t, stack) ← popWhere (holdsKind kind) f.stack
  return { locals := ← storeLocal f.locals slot t, stack }

/-- An array load pushes the element type. -/
def arrayLoad (f : Frame) (element : ElementKind) : Except FrameError Frame := do
  let stack ← popExactly [.integer] f.stack
  let (array, stack) ← popArray stack
  match element.slot?, array with
  | some t, _ => return { f with stack := t :: stack }
  | none, none => return { f with stack := .null :: stack }
  | none, some type =>
    match type.element? with
    | some (.ref inner) => return { f with stack := .object inner :: stack }
    | _ => throw .notArrayType

/-- An array store takes the value, the index and the array. -/
def arrayStore (f : Frame) (element : ElementKind) : Except FrameError Frame := do
  let (_, stack) ← popWhere (fitsElement element) f.stack
  let stack ← popExactly [.integer] stack
  let (_, stack) ← popArray stack
  return { f with stack }

/-- Rearranges the stack. -/
def rearrange (f : Frame) (op : StackOp) : Except FrameError Frame := do
  match op.copy? with
  | some (count, under) =>
    let (copied, stack) ← popWords count f.stack
    let (between, stack) ← popWords under stack
    return { f with stack := copied ++ between ++ copied ++ stack }
  | none =>
    match op with
    | .pop =>
      let (_, stack) ← popWords 1 f.stack
      return { f with stack }
    | .pop2 =>
      let (_, stack) ← popWords 2 f.stack
      return { f with stack }
    | _ =>
      let (t, stack) ← popNarrow f.stack
      let (u, stack) ← popNarrow stack
      return { f with stack := u :: t :: stack }

/-- Pushes the result of a call. -/
def pushResult (result : Option FieldType) (stack : List SlotType) : List SlotType :=
  (result.map SlotType.ofField).toList ++ stack

/-- A call takes the arguments and the receiver and pushes the result. A constructor initializes its
receiver, wherever that occurs in the frame. -/
def invoke (f : Frame) (context : MethodContext) (kind : CallKind) (m : MethodRef) :
    Except FrameError Frame := do
  let stack ← popFitting m.descriptor.parameters.reverse f.stack
  if kind = .special && m.name = .init then
    let (t, stack) ← pop stack
    let rest : Frame := { f with stack }
    let after ← match t with
      | .uninitializedThis => pure (rest.replaceAll t (.ofClass context.owner))
      | .uninitialized name _ => pure (rest.replaceAll t (.ofClass name))
      | _ => throw .invalidType
    if m.descriptor.result.isSome then throw .invalidType
    return after
  else if kind = .static then
    return { f with stack := pushResult m.descriptor.result stack }
  else
    let (_, stack) ← popWhere (·.fits (.ofClass .object)) stack
    return { f with stack := pushResult m.descriptor.result stack }

/-- A return has to give what the method declares. -/
def returnValue (f : Frame) (context : MethodContext) (kind : ValueKind) :
    Except FrameError Frame := do
  match kind.slot? with
  | some t =>
    let stack ← popExactly [t] f.stack
    if context.result.map SlotType.ofField = some t then return { f with stack }
    else throw .invalidType
  | none =>
    let (t, stack) ← pop f.stack
    match context.result with
    | some (.ref type) =>
      if t.fits (.object type) then return { f with stack } else throw .invalidType
    | _ => throw .invalidType

/-- The frame after an instruction, which has this index in the code. -/
def step (context : MethodContext) (index : Nat) (f : Frame) (i : Instruction) :
    Except FrameError Frame := do
  match i.fixedEffect? with
  | some (taken, put) =>
    let stack ← popExactly taken f.stack
    return { f with stack := put ++ stack }
  | none =>
    match i with
    | .load kind slot => f.load kind slot
    | .store kind slot => f.store kind slot
    | .arrayLoad element => f.arrayLoad element
    | .arrayStore element => f.arrayStore element
    | .stack op => f.rearrange op
    | .increment slot _ =>
      if (← f.local? slot) = .integer then return f else throw .invalidType
    | .putStatic field =>
      let stack ← popFitting [field.type] f.stack
      return { f with stack }
    | .getField field =>
      let (_, stack) ← popWhere SlotType.isReference f.stack
      return { f with stack := .ofField field.type :: stack }
    | .putField field =>
      let stack ← popFitting [field.type] f.stack
      let (_, stack) ← popWhere SlotType.isReference stack
      return { f with stack }
    | .invoke kind m => f.invoke context kind m
    | .invokeDynamic site =>
      let stack ← popFitting site.descriptor.parameters.reverse f.stack
      return { f with stack := pushResult site.descriptor.result stack }
    | .new name => return { f with stack := .uninitialized name index :: f.stack }
    | .newMultiArray type dimensions =>
      if dimensions = 0 || !type.isArray then throw .notArrayType
      let stack ← popExactly (List.replicate dimensions .integer) f.stack
      return { f with stack := .object type :: stack }
    | .arrayLength =>
      let (_, stack) ← popArray f.stack
      return { f with stack := .integer :: stack }
    | .checkCast type =>
      let (_, stack) ← popWhere SlotType.isReference f.stack
      return { f with stack := .object type :: stack }
    | .instanceOf _ =>
      let (_, stack) ← popWhere SlotType.isReference f.stack
      return { f with stack := .integer :: stack }
    | .monitorEnter | .monitorExit | .ifNull _ _ =>
      let (_, stack) ← popWhere SlotType.isReference f.stack
      return { f with stack }
    | .ifRef _ _ =>
      let (t, stack) ← pop f.stack
      let (u, stack) ← pop stack
      if t.isReference && u.isReference then return { f with stack } else throw .invalidType
    | .returnValue kind => f.returnValue context kind
    | .returnVoid => if context.result.isNone then return f else throw .invalidType
    | .throw =>
      let (t, _) ← popWhere SlotType.isReference f.stack
      return { f with stack := [t] }
    | _ => throw .invalidType

end Frame

end Resumption
