import Resumption.Code.Instruction
import Resumption.Number.Shortest
import Resumption.Text.Quoted

/-!
# Descriptions of instructions

The text of an instruction: its mnemonic, followed by its operands in parentheses, or between braces
where the operands have names. The version of a method is a digest of these texts. Names stand in them
as they are, and all values that are not numbers have one text.
-/

namespace Resumption

namespace ValueKind

/-- The kind as it is written in an instruction. -/
def describe : ValueKind → String
  | .int => "Int"
  | .long => "Long"
  | .float => "Float"
  | .double => "Double"
  | .object => "Object"

/-- The letter that the kind has in the name of an instruction. -/
def letter : ValueKind → String
  | .int => "I"
  | .long => "L"
  | .float => "F"
  | .double => "D"
  | .object => "A"

end ValueKind

/-- The letter that elements of the kind have in the name of an instruction. -/
def ElementKind.letter : ElementKind → String
  | .int => "I"
  | .long => "L"
  | .float => "F"
  | .double => "D"
  | .object => "A"
  | .byte => "B"
  | .char => "C"
  | .short => "S"

/-- The letter of numbers of the kind. -/
def NumericKind.letter : NumericKind → String
  | .int => "I"
  | .long => "L"
  | .float => "F"
  | .double => "D"

/-- The letter of whole numbers of the kind. -/
def IntegralKind.letter : IntegralKind → String
  | .int => "I"
  | .long => "L"

/-- The letter of floating point numbers of the kind. -/
def FloatKind.letter : FloatKind → String
  | .float => "F"
  | .double => "D"

/-- The name of the instruction that rearranges the stack. -/
def StackOp.describe : StackOp → String
  | .pop => "Pop"
  | .pop2 => "Pop2"
  | .dup => "Dup"
  | .dupX1 => "DupX1"
  | .dupX2 => "DupX2"
  | .dup2 => "Dup2"
  | .dup2X1 => "Dup2X1"
  | .dup2X2 => "Dup2X2"
  | .swap => "Swap"

/-- The name of the operation, in front of the letter of its kind. -/
def ArithOp.describe : ArithOp → String
  | .add => "Add"
  | .sub => "Sub"
  | .mul => "Mul"
  | .div => "Div"
  | .rem => "Rem"

/-- The name of the operation on bits, in front of the letter of its kind. -/
def BitOp.describe : BitOp → String
  | .and => "And"
  | .or => "Or"
  | .xor => "Xor"

/-- The name of the shift. -/
def ShiftOp.describe : ShiftOp → String
  | .left => "Left"
  | .arithmeticRight => "ArithmeticRight"
  | .logicalRight => "LogicalRight"

/-- The name of the instruction that converts a number. -/
def Conversion.describe : Conversion → String
  | .intToLong => "I2L"
  | .intToFloat => "I2F"
  | .intToDouble => "I2D"
  | .longToInt => "L2I"
  | .longToFloat => "L2F"
  | .longToDouble => "L2D"
  | .floatToInt => "F2I"
  | .floatToLong => "F2L"
  | .floatToDouble => "F2D"
  | .doubleToInt => "D2I"
  | .doubleToLong => "D2L"
  | .doubleToFloat => "D2F"
  | .intToByte => "I2B"
  | .intToChar => "I2C"
  | .intToShort => "I2S"

/-- The letter that says how a comparison with something that is not a number ends. -/
def NaNOrder.describe : NaNOrder → String
  | .less => "L"
  | .greater => "G"

/-- The comparison as it is written in a jump. -/
def Comparison.describe : Comparison → String
  | .eq => "EQ"
  | .ne => "NE"
  | .lt => "LT"
  | .ge => "GE"
  | .gt => "GT"
  | .le => "LE"

/-- The comparison of references as it is written in a jump. -/
def Equality.describe : Equality → String
  | .eq => "EQ"
  | .ne => "NE"

/-- The kind of call as it is written in an instruction. -/
def CallKind.describe : CallKind → String
  | .virtual => "Virtual"
  | .special => "Special"
  | .static => "Static"
  | .interface => "Interface"

/-- The text of a 32 bit floating point number. -/
def describeFloat (bits : UInt32) : String := Number.Shortest.text Number.Ieee.single bits.toNat

/-- The text of a 64 bit floating point number. -/
def describeDouble (bits : UInt64) : String := Number.Shortest.text Number.Ieee.double bits.toNat

/-- The field as it is written in an instruction. -/
def FieldRef.describe (f : FieldRef) : String :=
  s!"FieldRef \x7b class: {f.owner.text}, name: {f.name.text}, " ++
    s!"descriptor: {f.type.describe} \x7d"

/-- The method as it is written in an instruction. -/
def MethodRef.describe (m : MethodRef) : String :=
  s!"MethodRef \x7b class: {m.owner.text}, name: {m.name.text}, " ++
    s!"descriptor: {m.descriptor.describe} \x7d"

/-- The dynamic call site as it is written in an instruction. -/
def CallSite.describe (c : CallSite) : String :=
  s!"InvokeDynamicRef \x7b name: {c.name.text}, descriptor: {c.descriptor.describe} \x7d"

/-- The constant as it is written in an instruction. -/
def Constant.describe : Constant → String
  | .string s => s!"String({Text.Quoted.quote s})"
  | .type t => s!"Class({t.describe})"
  | .methodType d => s!"MethodType({d.describe})"

namespace Instruction

/-- The name of the instruction. -/
def mnemonic : Instruction → String
  | .label _ => "Label"
  | .lineNumber _ => "LineNumber"
  | .nop => "Nop"
  | .pushNull => "AConstNull"
  | .pushInt _ => "IConst"
  | .pushLong _ => "LConst"
  | .pushFloat _ => "FConst"
  | .pushDouble _ => "DConst"
  | .pushConstant _ => "Ldc"
  | .load kind _ => kind.letter ++ "Load"
  | .store kind _ => kind.letter ++ "Store"
  | .arrayLoad element => element.letter ++ "ALoad"
  | .arrayStore element => element.letter ++ "AStore"
  | .stack op => op.describe
  | .arith op kind => kind.letter ++ op.describe
  | .neg kind => kind.letter ++ "Neg"
  | .shift _ kind => kind.letter ++ "Sh"
  | .bitwise op kind => kind.letter ++ op.describe
  | .increment _ _ => "IInc"
  | .convert c => c.describe
  | .compareLong => "LCmp"
  | .compareFloat kind _ => kind.letter ++ "Cmp"
  | .getStatic _ => "GetStatic"
  | .putStatic _ => "PutStatic"
  | .getField _ => "GetField"
  | .putField _ => "PutField"
  | .invoke _ _ => "Invoke"
  | .invokeDynamic _ => "InvokeDynamic"
  | .new _ => "New"
  | .newArray _ => "NewArray"
  | .newRefArray _ => "ANewArray"
  | .newMultiArray _ _ => "MultiANewArray"
  | .arrayLength => "ArrayLength"
  | .checkCast _ => "CheckCast"
  | .instanceOf _ => "InstanceOf"
  | .monitorEnter => "MonitorEnter"
  | .monitorExit => "MonitorExit"
  | .ifZero _ _ => "If"
  | .ifInt _ _ => "IfICmp"
  | .ifRef _ _ => "IfACmp"
  | .ifNull _ _ => "IfNull"
  | .goto _ => "Goto"
  | .jsr _ => "Jsr"
  | .ret _ => "Ret"
  | .tableSwitch .. => "TableSwitch"
  | .lookupSwitch .. => "LookupSwitch"
  | .returnValue kind => kind.letter ++ "Return"
  | .returnVoid => "Return"
  | .throw => "AThrow"

/-- The operands between parentheses, if the instruction has any without names. -/
def operands : Instruction → List String
  | .label l | .goto l | .jsr l => [l.describe]
  | .lineNumber n | .load _ n | .store _ n | .ret n => [toString n]
  | .pushInt n => [toString n.toInt]
  | .pushLong n => [toString n.toInt]
  | .pushFloat bits => [describeFloat bits]
  | .pushDouble bits => [describeDouble bits]
  | .pushConstant c => [c.describe]
  | .shift op _ => [op.describe]
  | .increment slot delta => [toString slot, toString delta.toInt]
  | .compareFloat _ nan => [nan.describe]
  | .getStatic f | .putStatic f | .getField f | .putField f => [f.describe]
  | .invoke kind m => [kind.describe, m.describe]
  | .invokeDynamic site => [site.describe]
  | .new owner => [owner.text]
  | .newArray t => [t.describe]
  | .newRefArray t | .checkCast t | .instanceOf t => [t.describe]
  | .newMultiArray t dimensions => [t.describe, toString dimensions]
  | .ifZero c l | .ifInt c l => [c.describe, l.describe]
  | .ifRef e l | .ifNull e l => [e.describe, l.describe]
  | _ => []

/-- The text of an instruction. -/
def describe : Instruction → String
  | .tableSwitch low default targets =>
    s!"TableSwitch \x7b low: {low.toInt}, default: {default.describe}, " ++
      s!"targets: {describeList Label.describe targets} \x7d"
  | .lookupSwitch default cases =>
    let shown := describeList (fun (key, l) => s!"({Int32.toInt key}, {Label.describe l})") cases
    s!"LookupSwitch \x7b default: {default.describe}, targets: {shown} \x7d"
  | i =>
    match i.operands with
    | [] => i.mnemonic
    | operands => i.mnemonic ++ "(" ++ ", ".intercalate operands ++ ")"

/-- The instructions that are complete without operands. -/
def plain : List Instruction :=
  ([.nop, .pushNull, .compareLong, .arrayLength, .monitorEnter, .monitorExit, .returnVoid,
    .throw] : List Instruction) ++
  ([.int, .long, .float, .double, .object, .byte, .char, .short] : List ElementKind).flatMap
    (fun e => ([.arrayLoad e, .arrayStore e] : List Instruction)) ++
  ([.pop, .pop2, .dup, .dupX1, .dupX2, .dup2, .dup2X1, .dup2X2, .swap] : List StackOp).map .stack ++
  ([.int, .long, .float, .double] : List NumericKind).flatMap
    (fun k => .neg k :: ([.add, .sub, .mul, .div, .rem] : List ArithOp).map (.arith · k)) ++
  ([.int, .long] : List IntegralKind).flatMap
    (fun k => ([.and, .or, .xor] : List BitOp).map (.bitwise · k)) ++
  ([.intToLong, .intToFloat, .intToDouble, .longToInt, .longToFloat, .longToDouble, .floatToInt,
    .floatToLong, .floatToDouble, .doubleToInt, .doubleToLong, .doubleToFloat, .intToByte,
    .intToChar, .intToShort] : List Conversion).map .convert ++
  ValueKind.all.map .returnValue

/-- The instruction without operands that has this name. -/
def ofMnemonic? (name : String) : Option Instruction := plain.find? (·.mnemonic == name)

end Instruction

end Resumption
