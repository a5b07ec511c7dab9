import Mathlib
import Resumption.Instrument.Marker
import Resumption.Proofs.Code.Operands

/-!
# What the text behind a version tells

The version of a method is a digest of the text of its body. An instruction is its **form** and its
**operands** (`Instruction.form`, `Instruction.filling`, `Instruction.fill_filling`). The name at the
beginning of its text tells the form, since the names of all forms are different
(`Instruction.form_of_mnemonic`). The form tells which sorts of operands come next, and operands of
known sorts are readable (`Operands.split`). So instructions are readable, and handlers.

Bodies with the same text therefore have the same instructions and handlers, but for the patterns of
constants that are not numbers (`Code.describe_eq_iff`). This takes names that are words: a class name
may be written like a part of a body, and then it reads like one (`Code.describe_ambiguous`).
-/

namespace Resumption

open Text

/-! ## Forms -/

namespace Instruction

/-- The instruction with its operands left out. -/
def form : Instruction → Instruction
  | .label _ => .label default
  | .lineNumber _ => .lineNumber 0
  | .pushInt _ => .pushInt 0
  | .pushLong _ => .pushLong 0
  | .pushFloat _ => .pushFloat 0
  | .pushDouble _ => .pushDouble 0
  | .pushConstant _ => .pushConstant default
  | .load kind _ => .load kind 0
  | .store kind _ => .store kind 0
  | .shift _ kind => .shift default kind
  | .increment _ _ => .increment 0 0
  | .compareFloat kind _ => .compareFloat kind default
  | .getStatic _ => .getStatic default
  | .putStatic _ => .putStatic default
  | .getField _ => .getField default
  | .putField _ => .putField default
  | .invoke _ _ => .invoke default default
  | .invokeDynamic _ => .invokeDynamic default
  | .new _ => .new default
  | .newArray _ => .newArray default
  | .newRefArray _ => .newRefArray default
  | .newMultiArray _ _ => .newMultiArray default 0
  | .checkCast _ => .checkCast default
  | .instanceOf _ => .instanceOf default
  | .ifZero _ _ => .ifZero default default
  | .ifInt _ _ => .ifInt default default
  | .ifRef _ _ => .ifRef default default
  | .ifNull _ _ => .ifNull default default
  | .goto _ => .goto default
  | .jsr _ => .jsr default
  | .ret _ => .ret 0
  | .tableSwitch _ _ _ => .tableSwitch 0 default []
  | .lookupSwitch _ _ => .lookupSwitch default []
  | i => i

/-- All forms of instructions. -/
def forms : List Instruction :=
  plain ++ ValueKind.all.flatMap (fun k => ([.load k 0, .store k 0] : List Instruction)) ++
  ([.label default, .lineNumber 0, .pushInt 0, .pushLong 0, .pushFloat 0, .pushDouble 0,
    .pushConstant default, .shift default .int, .shift default .long, .increment 0 0,
    .compareFloat .float default, .compareFloat .double default, .getStatic default,
    .putStatic default, .getField default, .putField default, .invoke default default,
    .invokeDynamic default, .new default, .newArray default, .newRefArray default,
    .newMultiArray default 0, .checkCast default, .instanceOf default, .ifZero default default,
    .ifInt default default, .ifRef default default, .ifNull default default, .goto default,
    .jsr default, .ret 0, .tableSwitch 0 default [], .lookupSwitch default []] : List Instruction)

/-- There are no other forms. -/
theorem form_mem (i : Instruction) : i.form ∈ forms := by
  cases i <;> dsimp only [form]
  case stack op | convert op => cases op <;> decide +kernel
  case load kind _ | store kind _ | returnValue kind | arrayLoad kind | arrayStore kind | neg kind
    | shift _ kind | compareFloat kind _ => cases kind <;> decide +kernel
  case arith op kind | bitwise op kind => cases op <;> cases kind <;> decide +kernel
  all_goals decide +kernel

/-- All names of forms are different. -/
theorem mnemonics_nodup : (forms.map mnemonic).Nodup := by decide +kernel

/-- Names of instructions are words. -/
theorem mnemonics_words : ∀ f ∈ forms, (f.mnemonic.toList.all isWord && !f.mnemonic.isEmpty) = true := by
  decide +kernel

/-- The name does not depend on the operands. -/
theorem mnemonic_form (i : Instruction) : i.form.mnemonic = i.mnemonic := by
  cases i <;> rfl

/-- The name of an instruction tells its form. -/
theorem form_of_mnemonic {i j : Instruction} (h : i.mnemonic = j.mnemonic) : i.form = j.form := by
  rw [← mnemonic_form i, ← mnemonic_form j] at h
  exact List.inj_on_of_nodup_map mnemonics_nodup (form_mem i) (form_mem j) h

end Instruction

/-! ## Operands -/

/-- An operand of an instruction. -/
inductive Operand where
  /-- a label -/
  | label (l : Label)
  /-- a number that is not negative -/
  | number (n : Nat)
  /-- a number of 16 bits -/
  | short (n : Int16)
  /-- a number of 32 bits -/
  | int (n : Int32)
  /-- a number of 64 bits -/
  | long (n : Int64)
  /-- a floating point number of 32 bits -/
  | float (bits : UInt32)
  /-- a floating point number of 64 bits -/
  | double (bits : UInt64)
  /-- a constant -/
  | constant (c : Constant)
  /-- the direction of a shift -/
  | shift (op : ShiftOp)
  /-- what is said of something that is not a number -/
  | nan (order : NaNOrder)
  /-- a comparison of numbers -/
  | comparison (c : Comparison)
  /-- a comparison of references -/
  | equality (e : Equality)
  /-- a kind of call -/
  | call (kind : CallKind)
  /-- a field -/
  | field (f : FieldRef)
  /-- a method -/
  | method (m : MethodRef)
  /-- a dynamic call site -/
  | site (s : CallSite)
  /-- a class -/
  | owner (c : ClassName)
  /-- a primitive type -/
  | base (t : BaseType)
  /-- a reference type -/
  | ref (t : RefType)

/-- All operands of an instruction. -/
inductive Operands where
  /-- no operand -/
  | none
  /-- one operand -/
  | one (o : Operand)
  /-- two operands -/
  | two (o p : Operand)
  /-- the targets for consecutive numbers -/
  | table (low : Int32) (default : Label) (targets : List Label)
  /-- the targets for some numbers -/
  | lookup (default : Label) (cases : List (Int32 × Label))

namespace Operand

/-- The operand as it is written. -/
def describe : Operand → String
  | label l => l.describe
  | number n => toString n
  | short n => toString n.toInt
  | int n => toString n.toInt
  | long n => toString n.toInt
  | float bits => describeFloat bits
  | double bits => describeDouble bits
  | constant c => c.describe
  | shift op => op.describe
  | nan order => order.describe
  | comparison c => c.describe
  | equality e => e.describe
  | call kind => kind.describe
  | field f => f.describe
  | method m => m.describe
  | site s => s.describe
  | owner c => c.text
  | base t => t.describe
  | ref t => t.describe

end Operand

namespace Operands

/-- The operands as they are written, in parentheses if there are any. -/
def describe : Operands → String
  | none => ""
  | one o => "(" ++ (o.describe ++ ")")
  | two o p => "(" ++ (o.describe ++ (", " ++ (p.describe ++ ")")))
  | table low default targets =>
    " \x7b low: " ++ (toString low.toInt ++ (", default: " ++ (default.describe ++
      (", targets: " ++ (describeList Label.describe targets ++ " \x7d")))))
  | lookup default cases =>
    " \x7b default: " ++ (default.describe ++ (", targets: " ++
      (describeList (fun (key, l) => s!"({Int32.toInt key}, {Label.describe l})") cases ++ " \x7d")))

end Operands

namespace Instruction

/-- The operands that the form leaves out. -/
def filling : Instruction → Operands
  | .label l | .goto l | .jsr l => .one (.label l)
  | .lineNumber n | .load _ n | .store _ n | .ret n => .one (.number n)
  | .pushInt n => .one (.int n)
  | .pushLong n => .one (.long n)
  | .pushFloat bits => .one (.float bits)
  | .pushDouble bits => .one (.double bits)
  | .pushConstant c => .one (.constant c)
  | .shift op _ => .one (.shift op)
  | .increment slot delta => .two (.number slot) (.short delta)
  | .compareFloat _ nan => .one (.nan nan)
  | .getStatic f | .putStatic f | .getField f | .putField f => .one (.field f)
  | .invoke kind m => .two (.call kind) (.method m)
  | .invokeDynamic site => .one (.site site)
  | .new owner => .one (.owner owner)
  | .newArray t => .one (.base t)
  | .newRefArray t | .checkCast t | .instanceOf t => .one (.ref t)
  | .newMultiArray t dimensions => .two (.ref t) (.number dimensions)
  | .ifZero c l | .ifInt c l => .two (.comparison c) (.label l)
  | .ifRef e l | .ifNull e l => .two (.equality e) (.label l)
  | .tableSwitch low default targets => .table low default targets
  | .lookupSwitch default cases => .lookup default cases
  | _ => .none

/-- The instruction of a form with these operands. -/
def fill : Instruction → Operands → Option Instruction
  | .label _, .one (.label l) => some (.label l)
  | .goto _, .one (.label l) => some (.goto l)
  | .jsr _, .one (.label l) => some (.jsr l)
  | .lineNumber _, .one (.number n) => some (.lineNumber n)
  | .load kind _, .one (.number n) => some (.load kind n)
  | .store kind _, .one (.number n) => some (.store kind n)
  | .ret _, .one (.number n) => some (.ret n)
  | .pushInt _, .one (.int n) => some (.pushInt n)
  | .pushLong _, .one (.long n) => some (.pushLong n)
  | .pushFloat _, .one (.float bits) => some (.pushFloat bits)
  | .pushDouble _, .one (.double bits) => some (.pushDouble bits)
  | .pushConstant _, .one (.constant c) => some (.pushConstant c)
  | .shift _ kind, .one (.shift op) => some (.shift op kind)
  | .increment _ _, .two (.number slot) (.short delta) => some (.increment slot delta)
  | .compareFloat kind _, .one (.nan order) => some (.compareFloat kind order)
  | .getStatic _, .one (.field f) => some (.getStatic f)
  | .putStatic _, .one (.field f) => some (.putStatic f)
  | .getField _, .one (.field f) => some (.getField f)
  | .putField _, .one (.field f) => some (.putField f)
  | .invoke _ _, .two (.call kind) (.method m) => some (.invoke kind m)
  | .invokeDynamic _, .one (.site s) => some (.invokeDynamic s)
  | .new _, .one (.owner c) => some (.new c)
  | .newArray _, .one (.base t) => some (.newArray t)
  | .newRefArray _, .one (.ref t) => some (.newRefArray t)
  | .checkCast _, .one (.ref t) => some (.checkCast t)
  | .instanceOf _, .one (.ref t) => some (.instanceOf t)
  | .newMultiArray _ _, .two (.ref t) (.number n) => some (.newMultiArray t n)
  | .ifZero _ _, .two (.comparison c) (.label l) => some (.ifZero c l)
  | .ifInt _ _, .two (.comparison c) (.label l) => some (.ifInt c l)
  | .ifRef _ _, .two (.equality e) (.label l) => some (.ifRef e l)
  | .ifNull _ _, .two (.equality e) (.label l) => some (.ifNull e l)
  | .tableSwitch _ _ _, .table low default targets => some (.tableSwitch low default targets)
  | .lookupSwitch _ _, .lookup default cases => some (.lookupSwitch default cases)
  | i, .none => some i
  | _, _ => none

/-- An instruction is its form with its operands filled in. -/
theorem fill_filling (i : Instruction) : i.form.fill i.filling = some i := by
  cases i <;> rfl

theorem describe_tableSwitch (low : Int32) (default : Label) (targets : List Label) :
    (tableSwitch low default targets).describe =
      "TableSwitch \x7b low: " ++ toString low.toInt ++ ", default: " ++ default.describe ++ ", " ++
        ("targets: " ++ describeList Label.describe targets ++ " \x7d") := rfl

theorem describe_lookupSwitch (default : Label) (cases : List (Int32 × Label)) :
    (lookupSwitch default cases).describe =
      "LookupSwitch \x7b default: " ++ default.describe ++ ", targets: " ++
        describeList (fun (key, l) => s!"({Int32.toInt key}, {Label.describe l})") cases ++
        " \x7d" := rfl

/-- The text of an instruction is its name and the text of its operands. -/
theorem toList_describe (i : Instruction) :
    i.describe.toList = i.mnemonic.toList ++ i.filling.describe.toList := by
  have hform : i.describe =
      match i.filling with
      | .none => i.mnemonic
      | .one o => i.mnemonic ++ "(" ++ o.describe ++ ")"
      | .two o p => i.mnemonic ++ "(" ++ (o.describe ++ ", " ++ p.describe) ++ ")"
      | .table low default targets => describe (.tableSwitch low default targets)
      | .lookup default cases => describe (.lookupSwitch default cases) := by
    cases i <;> rfl
  have hname :
      match i.filling with
      | .table _ _ _ => i.mnemonic = "TableSwitch"
      | .lookup _ _ => i.mnemonic = "LookupSwitch"
      | _ => True := by
    cases i <;> trivial
  rw [hform]
  cases hfilling : i.filling with
  | none => simp [Operands.describe]
  | one | two => simp [Operands.describe, List.append_assoc]
  | table low default targets =>
    rw [hfilling] at hname
    simp only [hname, describe_tableSwitch, Operands.describe, String.toList_append, List.append_assoc]
    rfl
  | lookup default cases =>
    rw [hfilling] at hname
    simp only [hname, describe_lookupSwitch, Operands.describe, String.toList_append, List.append_assoc]
    rfl

end Instruction

namespace Operand

/-- The names in an operand. -/
def names : Operand → List String
  | constant c => c.names
  | field f => f.names
  | method m => m.names
  | site s => s.names
  | owner c => [c.text]
  | ref t => t.names
  | _ => []

/-- The operand with one pattern for all that is not a number. -/
def canonical : Operand → Operand
  | float bits => .float (canonicalFloat bits)
  | double bits => .double (canonicalDouble bits)
  | o => o

/-- Operands of one sort are readable. -/
theorem split {o p : Operand} (hsort : o.ctorIdx = p.ctorIdx) (ho : ∀ n ∈ o.names, IsWord n)
    (hp : ∀ n ∈ p.names, IsWord n) {s t : List Char} (hs : Ends isWord s) (ht : Ends isWord t)
    (h : o.describe.toList ++ s = p.describe.toList ++ t) : o.canonical = p.canonical ∧ s = t := by
  cases o <;> cases p <;> try cases hsort
  case label.label =>
    exact (Label.readable.read trivial trivial hs ht h).imp_left (congrArg label)
  case number.number =>
    exact (nat_readable.read trivial trivial hs ht h).imp_left (congrArg number)
  case short.short =>
    exact (int16_readable.read trivial trivial hs ht h).imp_left (congrArg short)
  case int.int =>
    exact (int32_readable.read trivial trivial hs ht h).imp_left (congrArg int)
  case long.long =>
    exact (int64_readable.read trivial trivial hs ht h).imp_left (congrArg long)
  case float.float =>
    exact (float_readable.read trivial trivial hs ht h).imp_left (congrArg float)
  case double.double =>
    exact (double_readable.read trivial trivial hs ht h).imp_left (congrArg double)
  case constant.constant =>
    exact (Constant.readable.read ho hp hs ht h).imp_left (congrArg constant)
  case shift.shift =>
    exact (ShiftOp.readable.read trivial trivial hs ht h).imp_left (congrArg shift)
  case nan.nan =>
    exact (NaNOrder.readable.read trivial trivial hs ht h).imp_left (congrArg nan)
  case comparison.comparison =>
    exact (Comparison.readable.read trivial trivial hs ht h).imp_left (congrArg comparison)
  case equality.equality =>
    exact (Equality.readable.read trivial trivial hs ht h).imp_left (congrArg equality)
  case call.call =>
    exact (CallKind.readable.read trivial trivial hs ht h).imp_left (congrArg call)
  case field.field =>
    exact (FieldRef.readable.read ho hp hs ht h).imp_left (congrArg field)
  case method.method =>
    exact (MethodRef.readable.read ho hp hs ht h).imp_left (congrArg method)
  case site.site =>
    exact (CallSite.readable.read ho hp hs ht h).imp_left (congrArg site)
  case owner.owner =>
    exact (ClassName.readable.read (ho _ List.mem_cons_self) (hp _ List.mem_cons_self) hs ht
      h).imp_left (congrArg owner)
  case base.base =>
    exact (BaseType.readable.read trivial trivial hs ht h).imp_left (congrArg base)
  case ref.ref =>
    exact (RefType.readable.read ho hp hs ht h).imp_left (congrArg ref)

end Operand

namespace Operands

/-- The names in operands. -/
def names : Operands → List String
  | one o => o.names
  | two o p => o.names ++ p.names
  | _ => []

/-- Which sorts of operands there are. -/
def sorts : Operands → List Nat
  | none => [0]
  | one o => [1, o.ctorIdx]
  | two o p => [2, o.ctorIdx, p.ctorIdx]
  | table _ _ _ => [3]
  | lookup _ _ => [4]

/-- The operands with one pattern for all that is not a number. -/
def canonical : Operands → Operands
  | one o => .one o.canonical
  | two o p => .two o.canonical p.canonical
  | os => os

/-- A case of a switch is known from its text. -/
theorem case_readable :
    Readable (fun (key, l) => s!"({Int32.toInt key}, {Label.describe l})") (fun _ => True) Eq := by
  refine ⟨fun {a b} _ _ {s t} _ _ h => ?_⟩
  obtain ⟨key, l⟩ := a
  obtain ⟨key', l'⟩ := b
  change ("(" ++ toString key.toInt ++ ", " ++ l.describe ++ ")").toList ++ s =
    ("(" ++ toString key'.toInt ++ ", " ++ l'.describe ++ ")").toList ++ t at h
  simp only [String.toList_append, List.append_assoc] at h
  obtain ⟨rfl, hlabel⟩ := int32_readable.part separates_comma trivial trivial
    (List.append_cancel_left h)
  obtain ⟨rfl, hrest⟩ := Label.readable.part separates_close trivial trivial hlabel
  exact ⟨rfl, hrest⟩

theorem label_opens : Opens Label.describe := fun l =>
  ⟨'l', by rw [l.toList_describe]; rfl, by decide⟩

theorem case_opens : Opens (fun (key, l) => s!"({Int32.toInt key}, {Label.describe l})") := by
  rintro ⟨key, l⟩
  refine ⟨'(', ?_, by decide⟩
  change ("(" ++ toString key.toInt ++ ", " ++ l.describe ++ ")").toList.head? = _
  simp only [String.toList_append, List.append_assoc]
  rfl

/-- Operands of the same sorts are readable. -/
theorem split {os ps : Operands} (hsorts : os.sorts = ps.sorts) (ho : ∀ n ∈ os.names, IsWord n)
    (hp : ∀ n ∈ ps.names, IsWord n) {s t : List Char}
    (h : os.describe.toList ++ s = ps.describe.toList ++ t) :
    os.canonical = ps.canonical ∧ s = t := by
  cases os <;> cases ps <;> try cases hsorts
  case none.none => exact ⟨rfl, h⟩
  case one.one o p =>
    simp only [describe, String.toList_append, List.append_assoc] at h
    have hsort := (List.cons.inj (List.cons.inj hsorts).2).1
    obtain ⟨hsame, hrest⟩ := Operand.split hsort ho hp (separates_close.ends s)
      (separates_close.ends t) (List.append_cancel_left h)
    exact ⟨congrArg one hsame, List.append_cancel_left hrest⟩
  case two.two o o' p p' =>
    simp only [describe, String.toList_append, List.append_assoc] at h
    obtain ⟨hsort, htail⟩ := List.cons.inj (List.cons.inj hsorts).2
    rw [names, List.forall_mem_append] at ho hp
    obtain ⟨hfirst, hsecond⟩ := Operand.split hsort ho.1 hp.1 (separates_comma.ends _)
      (separates_comma.ends _) (List.append_cancel_left h)
    obtain ⟨hsecond, hrest⟩ := Operand.split (List.cons.inj htail).1 ho.2 hp.2
      (separates_close.ends s) (separates_close.ends t) (List.append_cancel_left hsecond)
    exact ⟨congrArg₂ two hfirst hsecond, List.append_cancel_left hrest⟩
  case table.table =>
    simp only [describe, String.toList_append, List.append_assoc] at h
    obtain ⟨rfl, hdefault⟩ := int32_readable.part ⟨',', " default: ".toList, rfl, rfl⟩ trivial trivial
      (List.append_cancel_left h)
    obtain ⟨rfl, htargets⟩ := Label.readable.part ⟨',', " targets: ".toList, rfl, rfl⟩ trivial trivial
      hdefault
    obtain ⟨hsame, hrest⟩ := (Label.readable.list label_opens).part separates_space_brace
      (fun _ _ => trivial) (fun _ _ => trivial) htargets
    cases List.forall₂_eq_eq_eq ▸ hsame
    exact ⟨rfl, hrest⟩
  case lookup.lookup =>
    simp only [describe, String.toList_append, List.append_assoc] at h
    obtain ⟨rfl, hcases⟩ := Label.readable.part ⟨',', " targets: ".toList, rfl, rfl⟩ trivial trivial
      (List.append_cancel_left h)
    obtain ⟨hsame, hrest⟩ := (case_readable.list case_opens).part separates_space_brace
      (fun _ _ => trivial) (fun _ _ => trivial) hcases
    cases List.forall₂_eq_eq_eq ▸ hsame
    exact ⟨rfl, hrest⟩

/-- What comes after the name of an instruction is not part of a word. -/
theorem ends (os : Operands) {s : List Char} (hs : Ends isWord s) :
    Ends isWord (os.describe.toList ++ s) := by
  cases os with
  | none => exact hs
  | _ =>
    simp only [describe, String.toList_append, List.append_assoc]
    exact .cons rfl _

end Operands

/-! ## Bodies -/

namespace Instruction

/-- The names in an instruction. -/
def names (i : Instruction) : List String := i.filling.names

/-- The instruction with one pattern for all that is not a number. -/
def canonical : Instruction → Instruction
  | .pushFloat bits => .pushFloat (canonicalFloat bits)
  | .pushDouble bits => .pushDouble (canonicalDouble bits)
  | i => i

/-- Operands are made canonical one by one. -/
theorem filling_canonical (i : Instruction) : i.canonical.filling = i.filling.canonical := by
  cases i <;> rfl

/-- Making an instruction canonical leaves its form alone. -/
theorem form_canonical (i : Instruction) : i.canonical.form = i.form := by
  cases i <;> rfl

/-- The form tells the sorts of the operands. -/
theorem sorts_form (i : Instruction) : i.form.filling.sorts = i.filling.sorts := by
  cases i <;> rfl

/-- Names of instructions are words. -/
theorem mnemonic_word (i : Instruction) : ∀ c ∈ i.mnemonic.toList, isWord c = true := by
  have hword := mnemonics_words i.form (form_mem i)
  rw [mnemonic_form, Bool.and_eq_true] at hword
  exact List.all_eq_true.mp hword.1

/-- **Instructions.** -/
theorem readable : Readable describe (fun i => ∀ n ∈ i.names, IsWord n)
    (fun i j => i.canonical = j.canonical) := by
  refine ⟨fun {i j} hi hj {s t} hs ht h => ?_⟩
  rw [toList_describe, toList_describe, List.append_assoc, List.append_assoc] at h
  obtain ⟨hname, hoperands⟩ := split_word (mnemonic_word i) (mnemonic_word j)
    (i.filling.ends hs) (j.filling.ends ht) h
  -- the same name, so the same form and the same sorts of operands
  have hform := form_of_mnemonic (String.toList_inj.mp hname)
  have hsorts : i.filling.sorts = j.filling.sorts := by rw [← sorts_form, hform, sorts_form]
  obtain ⟨hsame, hrest⟩ := Operands.split hsorts hi hj hoperands
  have hfill := fill_filling i.canonical
  rw [form_canonical, filling_canonical, hform, hsame, ← form_canonical, ← filling_canonical,
    fill_filling] at hfill
  exact ⟨(Option.some.inj hfill).symm, hrest⟩

theorem opens : Opens describe := by
  intro i
  have hname := mnemonics_words i.form (form_mem i)
  rw [mnemonic_form, Bool.and_eq_true] at hname
  cases hchars : i.mnemonic.toList with
  | nil =>
    rw [String.toList_eq_nil_iff.mp hchars] at hname
    exact absurd hname.2 (by decide)
  | cons c rest =>
    refine ⟨c, by rw [toList_describe, hchars]; rfl, ?_⟩
    rintro rfl
    exact absurd (mnemonic_word i ']' (by rw [hchars]; exact List.mem_cons_self)) (by decide)

/-- A pattern that is not a number may be any other one of these. -/
theorem describe_canonical (i : Instruction) : i.canonical.describe = i.describe := by
  cases i with
  | pushFloat bits =>
    exact congrArg (fun t => "FConst" ++ "(" ++ ", ".intercalate [t] ++ ")")
      (describeFloat_canonical bits)
  | pushDouble bits =>
    exact congrArg (fun t => "DConst" ++ "(" ++ ", ".intercalate [t] ++ ")")
      (describeDouble_canonical bits)
  | _ => rfl

end Instruction

namespace Handler

/-- The names in a handler. -/
def names (h : Handler) : List String := (h.caught.map ClassName.text).toList

theorem describe_eq (h : Handler) : h.describe =
    "ExceptionHandler \x7b start: " ++ h.start.describe ++ ", end: " ++ h.stop.describe ++ ", " ++
      ("handler: " ++ h.entry.describe ++ ", catch_type: " ++ describeOption ClassName.text h.caught ++
        " \x7d") := rfl

/-- **Handlers.** -/
theorem readable : Readable describe (fun h => ∀ n ∈ h.names, IsWord n) Eq := by
  refine ⟨fun {a b} ha hb {s t} _ _ h => ?_⟩
  have hcaught : ∀ {h : Handler}, (∀ n ∈ h.names, IsWord n) → ∀ c ∈ h.caught, IsWord c.text :=
    fun hh c hc => hh c.text (by rw [names, Option.mem_def.mp hc]; exact List.mem_cons_self)
  simp only [describe_eq, String.toList_append, List.append_assoc] at h
  obtain ⟨hstart, hstop⟩ := Label.readable.part ⟨',', " end: ".toList, rfl, rfl⟩ trivial trivial
    (List.append_cancel_left h)
  obtain ⟨hstop, hentry⟩ := Label.readable.part separates_comma trivial trivial hstop
  obtain ⟨hentry, htype⟩ := Label.readable.part ⟨',', " catch_type: ".toList, rfl, rfl⟩ trivial
    trivial (List.append_cancel_left hentry)
  obtain ⟨htype, hrest⟩ := ClassName.readable.option.part separates_space_brace (hcaught ha)
    (hcaught hb) htype
  cases a
  cases b
  cases hstart
  cases hstop
  cases hentry
  cases htype
  exact ⟨rfl, hrest⟩

theorem opens : Opens describe := by
  intro h
  rw [describe_eq]
  refine ⟨'E', ?_, by decide⟩
  simp only [String.toList_append, List.append_assoc]
  rfl

end Handler

namespace Code

/-- The names in a body. -/
def names (c : Code) : List String :=
  c.instructions.toList.flatMap Instruction.names ++ c.handlers.flatMap Handler.names

theorem names_instructions {c : Code} (hc : ∀ n ∈ c.names, IsWord n) :
    ∀ i ∈ c.instructions.toList, ∀ n ∈ i.names, IsWord n := fun i hi n hn =>
  hc n (List.mem_append_left _ (List.mem_flatMap.mpr ⟨i, hi, hn⟩))

theorem names_handlers {c : Code} (hc : ∀ n ∈ c.names, IsWord n) :
    ∀ h ∈ c.handlers, ∀ n ∈ h.names, IsWord n := fun h hh n hn =>
  hc n (List.mem_append_right _ (List.mem_flatMap.mpr ⟨h, hh, hn⟩))

/-- **Versions.** If all names are words, the text behind the version of a body tells the body's
instructions and handlers, except for the patterns of constants that are not numbers. -/
theorem describe_eq_iff {c c' : Code} (hc : ∀ n ∈ c.names, IsWord n) (hc' : ∀ n ∈ c'.names, IsWord n) :
    c.describe = c'.describe ↔
      c.instructions.toList.map Instruction.canonical =
        c'.instructions.toList.map Instruction.canonical ∧ c.handlers = c'.handlers := by
  constructor
  · intro h
    have hlists : (describeList Instruction.describe c.instructions.toList).toList ++
          (describeList Handler.describe c.handlers).toList =
        (describeList Instruction.describe c'.instructions.toList).toList ++
          (describeList Handler.describe c'.handlers).toList := by
      rw [← String.toList_append, ← String.toList_append]
      exact congrArg String.toList h
    have hbracket : ∀ hs : List Handler,
        Ends isWord (describeList Handler.describe hs).toList := fun hs => by
      rw [toList_describeList]
      exact .cons rfl _
    obtain ⟨hinstructions, hhandlers⟩ := (Instruction.readable.list Instruction.opens).read
      (names_instructions hc) (names_instructions hc') (hbracket _) (hbracket _) hlists
    obtain ⟨hsame, -⟩ := (Handler.readable.list Handler.opens).read (names_handlers hc)
      (names_handlers hc') (.nil _) (.nil _) (congrArg (· ++ []) hhandlers)
    refine ⟨?_, List.forall₂_eq_eq_eq ▸ hsame⟩
    rw [← List.forall₂_eq_eq_eq, List.forall₂_map_left_iff, List.forall₂_map_right_iff]
    exact hinstructions
  · rintro ⟨hinstructions, hhandlers⟩
    have hdescribe : ∀ is : List Instruction, describeList Instruction.describe is =
        describeList Instruction.describe (is.map Instruction.canonical) := fun is => by
      rw [describeList, describeList, List.map_map]
      congr 3
      exact List.map_congr_left fun i _ => i.describe_canonical.symm
    rw [describe, describe, hdescribe, hinstructions, ← hdescribe, hhandlers]

/-- A body with these instructions, which then pops a value and returns. -/
def dropping (instructions : List Instruction) : Code :=
  .ofInstructions (instructions ++ [.stack .pop, .returnVoid]) []

/-- A body that makes an instance, drops it, and pushes a constant. -/
def making (c : ClassName) (bits : UInt32) : Code := dropping [.new c, .stack .pop, .pushFloat bits]

/-- Constants that are different numbers are told apart, and so are different classes. Patterns that
are not numbers are not. -/
theorem describe_eq_iff_constants :
    (making { text := "me/A" } 0x3f800000).describe ≠ (making { text := "me/A" } 0x40000000).describe ∧
      (making { text := "me/A" } 0x3f800000).describe ≠ (making { text := "me/B" } 0x3f800000).describe ∧
      (making { text := "me/A" } 0x7fc00000).describe = (making { text := "me/A" } 0x7fc00001).describe := by
  have hwords (c : ClassName) (hc : IsWord c.text) (bits : UInt32) :
      ∀ n ∈ (making c bits).names, IsWord n := fun n hn => by
    obtain rfl := List.mem_singleton.mp hn
    exact hc
  have hplainA : ("me/A".toList.all isWord) = true := by rw [String.toList_ofList]; decide
  have hplainB : ("me/B".toList.all isWord) = true := by rw [String.toList_ofList]; decide
  have hA := hwords { text := "me/A" } (List.all_eq_true.mp hplainA)
  have hB := hwords { text := "me/B" } (List.all_eq_true.mp hplainB)
  refine ⟨fun h => ?_, fun h => ?_, (describe_eq_iff (hA _) (hA _)).mpr ?_⟩
  · exact absurd ((describe_eq_iff (hA _) (hA _)).mp h).1 (by decide)
  · exact absurd ((describe_eq_iff (hA _) (hB _)).mp h).1 (by decide)
  · decide

/-- Without plain names there are different bodies with one text: one class name with parentheses and
commas in it is taken for the instructions it looks like. -/
theorem describe_ambiguous :
    (dropping [.new { text := "me/A" }, .stack .pop, .new { text := "me/B" }]).instructions ≠
        (dropping [.new { text := "me/A), Pop, New(me/B" }]).instructions ∧
      (dropping [.new { text := "me/A" }, .stack .pop, .new { text := "me/B" }]).describe =
        (dropping [.new { text := "me/A), Pop, New(me/B" }]).describe := by
  decide +kernel

end Code

end Resumption
