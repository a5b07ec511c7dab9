import Resumption.Code.Basic
import Resumption.Frame.Basic
import Resumption.Symbolic.Tree

/-!
# Code as trees

An instruction is its name, or a list of its name and its operands. A body is a record of its
instructions, its handlers and what was computed about it.
-/

namespace Resumption

instance : ToTree Label := ⟨fun l => .number l.id⟩
instance : OfTree Label := ⟨fun t => Label.mk <$> ofTree t⟩

/-! ## Types of slots and frames -/

instance : ToTree SlotType where
  toTree
    | .object t => .tagged "Object" [t]
    | .uninitialized c index => .tagged "Uninitialized" [c, index]
    | t => .text t.describe

instance : OfTree SlotType where
  ofTree t := do
    match t.tag with
    | "Object" => return .object (← t.nth 1)
    | "Uninitialized" => return .uninitialized (← t.nth 1) (← t.nth 2)
    | _ =>
      t.oneOf SlotType.describe [.top, .integer, .float, .double, .long, .null, .uninitializedThis]

/-- The stack is bottom first. -/
instance : ToTree Frame where
  toTree f := .record [("locals", f.locals), ("stack", f.stack.reverse)]

instance : OfTree Frame where
  ofTree t := do return { locals := ← t.field "locals", stack := List.reverse (← t.field "stack") }

instance : ToTree StackMapEntry where
  toTree
    | .same l => .tagged "Same" [l]
    | .sameLocalsOneStack l t => .tagged "SameLocalsOneStack" [l, t]
    | .chop l count => .tagged "Chop" [l, count]
    | .append l locals => .tagged "Append" [l, locals]
    | .full l locals stack => .tagged "Full" [l, locals, stack]

/-! ## Instructions -/

instance : OfTree CallKind :=
  ⟨Tree.oneOf CallKind.describe [.virtual, .special, .static, .interface]⟩
instance : OfTree Comparison := ⟨Tree.oneOf Comparison.describe [.eq, .ne, .lt, .ge, .gt, .le]⟩
instance : OfTree Equality := ⟨Tree.oneOf Equality.describe [.eq, .ne]⟩
instance : OfTree ShiftOp := ⟨Tree.oneOf ShiftOp.describe [.left, .arithmeticRight, .logicalRight]⟩
instance : OfTree NaNOrder := ⟨Tree.oneOf NaNOrder.describe [.less, .greater]⟩
instance : OfTree ValueKind := ⟨Tree.oneOf ValueKind.describe ValueKind.all⟩

/-- Class, name and type of a field, from an item of a list on. -/
def FieldRef.ofItems (t : Tree) (first : Nat) : Tree.Result FieldRef := do
  return ⟨← t.nth first, ← t.nth (first + 1), ← t.nth (first + 2)⟩

/-- Class, name and descriptor of a method, from an item of a list on. -/
def MethodRef.ofItems (t : Tree) (first : Nat) : Tree.Result MethodRef := do
  return ⟨← t.nth first, ← t.nth (first + 1), ← t.nth (first + 2)⟩

namespace Constant

/-- A constant as the items of its instruction. -/
def operandTrees : Constant → List Tree
  | .string s => ["String", s]
  | .type t => ["Class", t]
  | .methodType d => ["MethodType", d]

/-- The constant in the items of an instruction. -/
def ofItems (t : Tree) : Tree.Result Constant := do
  match (t.item 1).tag with
  | "String" => return .string (← t.nth 2)
  | "Class" => return .type (← t.nth 2)
  | "MethodType" => return .methodType (← t.nth 2)
  | _ => Tree.fail "a constant"

end Constant

namespace Instruction

/-- The operands of an instruction as trees. -/
def operandTrees : Instruction → List Tree
  | .label l | .goto l | .jsr l => [l]
  | .lineNumber n | .load _ n | .store _ n | .ret n => [n]
  | .pushInt n => [n]
  | .pushLong n => [n]
  | .pushFloat bits => [bits]
  | .pushDouble bits => [bits]
  | .pushConstant c => c.operandTrees
  | .increment slot delta => [slot, delta]
  | .shift op _ => [op.describe]
  | .compareFloat _ nan => [nan.describe]
  | .getStatic f | .putStatic f | .getField f | .putField f => [f.owner, f.name, f.type]
  | .invoke kind m => [kind.describe, m.owner, m.name, m.descriptor]
  | .invokeDynamic site => [site.name, site.descriptor]
  | .new c => [c]
  | .newArray t => [t]
  | .newRefArray t | .checkCast t | .instanceOf t => [t]
  | .newMultiArray t n => [t, n]
  | .ifZero c l | .ifInt c l => [c.describe, l]
  | .ifRef e l | .ifNull e l => [e.describe, l]
  | .tableSwitch low default targets => [low, default, targets]
  | .lookupSwitch default cases => [default, cases]
  | _ => []

/-- The instruction that loads or stores a local, by name. -/
def loadOrStore? (name : String) (slot : Nat) : Option Instruction :=
  (ValueKind.all.flatMap fun kind => [load kind slot, store kind slot]).find? (·.mnemonic == name)

/-- The instruction with operands that a tagged list stands for. -/
def ofItems (t : Tree) : Tree.Result Instruction := do
  match t.tag with
  | "Label" => return .label (← t.nth 1)
  | "LineNumber" => return .lineNumber (← t.nth 1)
  | "IConst" => return .pushInt (← t.nth 1)
  | "LConst" => return .pushLong (← t.nth 1)
  | "FConst" => return .pushFloat (← t.nth 1)
  | "DConst" => return .pushDouble (← t.nth 1)
  | "Ldc" => return .pushConstant (← Constant.ofItems t)
  | "Ret" => return .ret (← t.nth 1)
  | "IInc" => return .increment (← t.nth 1) (← t.nth 2)
  | "ISh" => return .shift (← t.nth 1) .int
  | "LSh" => return .shift (← t.nth 1) .long
  | "FCmp" => return .compareFloat .float (← t.nth 1)
  | "DCmp" => return .compareFloat .double (← t.nth 1)
  | "GetStatic" => return .getStatic (← FieldRef.ofItems t 1)
  | "PutStatic" => return .putStatic (← FieldRef.ofItems t 1)
  | "GetField" => return .getField (← FieldRef.ofItems t 1)
  | "PutField" => return .putField (← FieldRef.ofItems t 1)
  | "Invoke" => return .invoke (← t.nth 1) (← MethodRef.ofItems t 2)
  | "InvokeDynamic" => return .invokeDynamic ⟨← t.nth 1, ← t.nth 2⟩
  | "New" => return .new (← t.nth 1)
  | "NewArray" => return .newArray (← t.nth 1)
  | "ANewArray" => return .newRefArray (← t.nth 1)
  | "MultiANewArray" => return .newMultiArray (← t.nth 1) (← t.nth 2)
  | "CheckCast" => return .checkCast (← t.nth 1)
  | "InstanceOf" => return .instanceOf (← t.nth 1)
  | "If" => return .ifZero (← t.nth 1) (← t.nth 2)
  | "IfICmp" => return .ifInt (← t.nth 1) (← t.nth 2)
  | "IfACmp" => return .ifRef (← t.nth 1) (← t.nth 2)
  | "IfNull" => return .ifNull (← t.nth 1) (← t.nth 2)
  | "Goto" => return .goto (← t.nth 1)
  | "Jsr" => return .jsr (← t.nth 1)
  | "TableSwitch" => return .tableSwitch (← t.nth 1) (← t.nth 2) (← t.nth 3)
  | "LookupSwitch" => return .lookupSwitch (← t.nth 1) (← t.nth 2)
  | name =>
    match loadOrStore? name (← t.nth 1) with
    | some i => return i
    | none => Tree.fail "an instruction"

end Instruction

instance : ToTree Instruction where
  toTree i :=
    match i.operandTrees with
    | [] => .text i.mnemonic
    | operands => .tagged i.mnemonic operands

instance : OfTree Instruction where
  ofTree
    | .text name =>
      match Instruction.ofMnemonic? name with
      | some i => .ok i
      | none => Tree.fail "an instruction"
    | t => Instruction.ofItems t

/-! ## Bodies -/

instance : ToTree Handler := ⟨fun h => .list [h.start, h.stop, h.entry, h.caught]⟩

instance : OfTree Handler where
  ofTree t := do
    return { start := ← t.nth 0, stop := ← t.nth 1, entry := ← t.nth 2, caught := ← t.nth 3 }

instance : ToTree Code where
  toTree c := .record [("instructions", c.instructions), ("handlers", c.handlers),
    ("max_locals", c.maxLocals), ("max_stack", c.maxStack), ("stack_map", c.stackMap),
    ("next_label", c.nextLabel)]

/-- A body as it is written, without what was computed about it. -/
instance : OfTree Code where
  ofTree t := do
    let code := Code.ofInstructions (← t.field "instructions") (← t.field "handlers")
    return { code with maxLocals := ← t.fieldD "max_locals" code.maxLocals }

end Resumption
