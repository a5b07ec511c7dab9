import Mathlib
import Resumption.Code.Basic
import Resumption.Proofs.Number.Decimals
import Resumption.Proofs.Text.Reading

/-!
# Operands are known from their text

Names stand in a description as they are, so a name with a comma or a parenthesis in it can look like
several operands. Where all names are plain (`IsWord`), types, members and constants are readable, and
so is every number, but for one thing: what is not a number has the text `NaN` whatever its pattern
(`describeFloat_eq_iff`).
-/

namespace Resumption

open Text

/-- All characters can stand in a word. -/
def IsWord (text : String) : Prop := ∀ c ∈ text.toList, isWord c = true

/-- Digits can stand in a word. -/
theorem isWord_of_isDigit {c : Char} (h : c.isDigit = true) : isWord c = true := by
  have hne : ∀ d : Char, d.isDigit = false → (c != d) = true := fun d hd => by
    rw [bne_iff_ne]
    rintro rfl
    rw [h] at hd
    cases hd
  simp only [isWord, Bool.and_eq_true]
  exact ⟨⟨⟨⟨⟨hne _ rfl, hne _ rfl⟩, hne _ rfl⟩, hne _ rfl⟩, hne _ rfl⟩, hne _ rfl⟩

/-- Numbers are words. -/
theorem isWord_toString_nat (n : Nat) : IsWord (toString n) := fun c hc =>
  isWord_of_isDigit (toString_nat_digits n c hc)

/-- Negative numbers are words as well. -/
theorem isWord_toString_int (n : Int) : IsWord (toString n) := fun c hc => by
  have hnumeral := toString_int_numeral n c hc
  rw [isNumeral, Bool.or_eq_true] at hnumeral
  rcases hnumeral with hdigit | hminus
  · exact isWord_of_isDigit hdigit
  · rw [beq_iff_eq.mp hminus]
    rfl

/-! ## Names and types -/

/-- A class name that is a word is known from its text. -/
theorem ClassName.readable : Readable ClassName.text (fun c => IsWord c.text) Eq :=
  .word (fun _ h => h) fun a b _ _ h => by
    cases a
    cases b
    cases h
    rfl

/-- Names that are words can be read back. -/
theorem MemberName.readable : Readable MemberName.text (fun c => IsWord c.text) Eq :=
  .word (fun _ h => h) fun a b _ _ h => by
    cases a
    cases b
    cases h
    rfl

/-- Numbers can be read back. -/
theorem nat_readable : Readable (fun n : Nat => toString n) (fun _ => True) Eq :=
  .word (fun n _ => isWord_toString_nat n) fun _ _ _ _ h => Nat.repr_inj.mp h

theorem Label.toList_describe (l : Label) : l.describe.toList = 'l' :: (toString l.id).toList := by
  simp only [Label.describe, String.toList_append]
  rfl

/-- A label is known from its text. -/
theorem Label.readable : Readable Label.describe (fun _ => True) Eq := by
  refine ⟨fun {l l'} _ _ {s t} hs ht h => ?_⟩
  rw [Label.toList_describe, Label.toList_describe] at h
  obtain ⟨hid, hrest⟩ := nat_readable.read trivial trivial hs ht (List.cons.inj h).2
  cases l
  cases l'
  cases hid
  exact ⟨rfl, hrest⟩

theorem BaseType.readable : Readable BaseType.describe (fun _ => True) Eq :=
  .enum (fun a => by cases a <;> rfl) fun a b h => by
    cases a <;> cases b <;> first | rfl | exact absurd h (by decide)

theorem ShiftOp.readable : Readable ShiftOp.describe (fun _ => True) Eq :=
  .enum (fun a => by cases a <;> rfl) fun a b h => by
    cases a <;> cases b <;> first | rfl | exact absurd h (by decide)

theorem NaNOrder.readable : Readable NaNOrder.describe (fun _ => True) Eq :=
  .enum (fun a => by cases a <;> rfl) fun a b h => by
    cases a <;> cases b <;> first | rfl | exact absurd h (by decide)

theorem Comparison.readable : Readable Comparison.describe (fun _ => True) Eq :=
  .enum (fun a => by cases a <;> rfl) fun a b h => by
    cases a <;> cases b <;> first | rfl | exact absurd h (by decide)

theorem Equality.readable : Readable Equality.describe (fun _ => True) Eq :=
  .enum (fun a => by cases a <;> rfl) fun a b h => by
    cases a <;> cases b <;> first | rfl | exact absurd h (by decide)

theorem CallKind.readable : Readable CallKind.describe (fun _ => True) Eq :=
  .enum (fun a => by cases a <;> rfl) fun a b h => by
    cases a <;> cases b <;> first | rfl | exact absurd h (by decide)

/-- What is between two fixed texts. -/
theorem separates_space_brace : Separates " \x7d" := ⟨' ', ['\x7d'], rfl, rfl⟩

theorem separates_close : Separates ")" := ⟨')', [], rfl, rfl⟩

namespace RefType

/-- The class names in a type. -/
def names : RefType → List String
  | .object name => [name.text]
  | .objectArray _ element => [element.text]
  | .primitiveArray _ _ => []

theorem describe_eq (t : RefType) : t.describe =
    match t with
    | .object name => "Object(" ++ name.text ++ ")"
    | .objectArray extra element =>
      "ObjectArray(" ++ ("ArrayType \x7b additional_dimensions: " ++ toString extra ++
        ", element_type: " ++ element.text ++ " \x7d") ++ ")"
    | .primitiveArray extra element =>
      "PrimitiveArray(" ++ ("ArrayType \x7b additional_dimensions: " ++ toString extra ++
        ", element_type: " ++ element.describe ++ " \x7d") ++ ")" := by
  cases t <;> rfl

/-- A type is known from its text if its names are words. -/
theorem readable : Readable describe (fun t => ∀ n ∈ t.names, IsWord n) Eq := by
  refine ⟨fun {a b} ha hb {s t} _ _ h => ?_⟩
  have hcomma : Separates ", element_type: " := ⟨',', " element_type: ".toList, rfl, rfl⟩
  rw [describe_eq, describe_eq] at h
  cases a with
  | object name =>
    cases b with
    | object name' =>
      simp only [String.toList_append, List.append_assoc] at h
      obtain ⟨rfl, hrest⟩ := ClassName.readable.part separates_close (ha _ List.mem_cons_self)
        (hb _ List.mem_cons_self) (List.append_cancel_left h)
      exact ⟨rfl, hrest⟩
    | objectArray =>
      simp only [String.toList_append, List.append_assoc] at h
      exact absurd (congrArg (·[6]?) h : some '(' = some 'A') (by decide)
    | primitiveArray =>
      simp only [String.toList_append, List.append_assoc] at h
      exact absurd (congrArg (·[0]?) h : some 'O' = some 'P') (by decide)
  | objectArray extra element =>
    cases b with
    | object =>
      simp only [String.toList_append, List.append_assoc] at h
      exact absurd (congrArg (·[6]?) h : some 'A' = some '(') (by decide)
    | objectArray extra' element' =>
      simp only [String.toList_append, List.append_assoc] at h
      obtain ⟨rfl, helement⟩ := nat_readable.part hcomma trivial trivial
        (List.append_cancel_left (List.append_cancel_left h))
      obtain ⟨rfl, hrest⟩ := ClassName.readable.part separates_space_brace
        (ha _ List.mem_cons_self) (hb _ List.mem_cons_self) helement
      exact ⟨rfl, List.append_cancel_left hrest⟩
    | primitiveArray =>
      simp only [String.toList_append, List.append_assoc] at h
      exact absurd (congrArg (·[0]?) h : some 'O' = some 'P') (by decide)
  | primitiveArray extra element =>
    cases b with
    | object | objectArray =>
      simp only [String.toList_append, List.append_assoc] at h
      exact absurd (congrArg (·[0]?) h : some 'P' = some 'O') (by decide)
    | primitiveArray extra' element' =>
      simp only [String.toList_append, List.append_assoc] at h
      obtain ⟨rfl, helement⟩ := nat_readable.part hcomma trivial trivial
        (List.append_cancel_left (List.append_cancel_left h))
      obtain ⟨rfl, hrest⟩ := BaseType.readable.part separates_space_brace trivial trivial helement
      exact ⟨rfl, List.append_cancel_left hrest⟩

end RefType

namespace FieldType

/-- The class names in a type. -/
def names : FieldType → List String
  | .base _ => []
  | .ref t => t.names

theorem describe_eq (t : FieldType) : t.describe =
    match t with
    | .base t => "Base(" ++ t.describe ++ ")"
    | .ref t => "Ref(" ++ t.describe ++ ")" := by
  cases t <;> rfl

/-- A type of fields is known from its text if its names are words. -/
theorem readable : Readable describe (fun t => ∀ n ∈ t.names, IsWord n) Eq := by
  refine ⟨fun {a b} ha hb {s t} _ _ h => ?_⟩
  rw [describe_eq, describe_eq] at h
  cases a <;> cases b <;> simp only [String.toList_append, List.append_assoc] at h
  case base.base =>
    obtain ⟨rfl, hrest⟩ := BaseType.readable.part separates_close trivial trivial
      (List.append_cancel_left h)
    exact ⟨rfl, hrest⟩
  case base.ref => exact absurd (congrArg (·[0]?) h : some 'B' = some 'R') (by decide)
  case ref.base => exact absurd (congrArg (·[0]?) h : some 'R' = some 'B') (by decide)
  case ref.ref =>
    obtain ⟨rfl, hrest⟩ := RefType.readable.part separates_close ha hb (List.append_cancel_left h)
    exact ⟨rfl, hrest⟩

/-- The text of a type does not start with a closing bracket. -/
theorem opens : Opens describe := by
  intro t
  rw [describe_eq]
  cases t with
  | base => exact ⟨'B', by simp only [String.toList_append]; rfl, by decide⟩
  | ref => exact ⟨'R', by simp only [String.toList_append]; rfl, by decide⟩

end FieldType

namespace MethodDescriptor

/-- The class names in a descriptor. -/
def names (d : MethodDescriptor) : List String :=
  d.parameters.flatMap FieldType.names ++ d.result.toList.flatMap FieldType.names

theorem describe_eq (d : MethodDescriptor) : d.describe =
    "MethodDescriptor \x7b parameters: " ++ describeList FieldType.describe d.parameters ++
      ", return_type: " ++ describeOption FieldType.describe d.result ++ " \x7d" := rfl

/-- A descriptor is known from its text if its names are words. -/
theorem readable : Readable describe (fun d => ∀ n ∈ d.names, IsWord n) Eq := by
  refine ⟨fun {a b} ha hb {s t} _ _ h => ?_⟩
  have hcomma : Separates ", return_type: " := ⟨',', " return_type: ".toList, rfl, rfl⟩
  have hparameters : ∀ {d : MethodDescriptor}, (∀ n ∈ d.names, IsWord n) →
      ∀ t ∈ d.parameters, ∀ n ∈ t.names, IsWord n := fun hd t ht n hn =>
    hd n (List.mem_append_left _ (List.mem_flatMap.mpr ⟨t, ht, hn⟩))
  have hresult : ∀ {d : MethodDescriptor}, (∀ n ∈ d.names, IsWord n) →
      ∀ t ∈ d.result, ∀ n ∈ t.names, IsWord n := fun hd t ht n hn =>
    hd n (List.mem_append_right _ (List.mem_flatMap.mpr ⟨t, Option.mem_toList.mpr ht, hn⟩))
  simp only [describe_eq, String.toList_append, List.append_assoc] at h
  obtain ⟨hsame, htail⟩ := (FieldType.readable.list FieldType.opens).part hcomma
    (hparameters ha) (hparameters hb) (List.append_cancel_left h)
  obtain ⟨hsame', hrest⟩ := FieldType.readable.option.part separates_space_brace (hresult ha)
    (hresult hb) htail
  cases a
  cases b
  cases List.forall₂_eq_eq_eq ▸ hsame
  cases hsame'
  exact ⟨rfl, hrest⟩

end MethodDescriptor

/-! ## Members and constants -/

theorem separates_name : Separates ", name: " := ⟨',', " name: ".toList, rfl, rfl⟩

theorem separates_comma : Separates ", " := ⟨',', [' '], rfl, rfl⟩

theorem separates_descriptor : Separates ", descriptor: " := ⟨',', " descriptor: ".toList, rfl, rfl⟩

/-- The class, the name and the type of a member are read one after the other. -/
theorem member_split {α : Type} {f : α → String} {P : α → Prop} (hf : Readable f P Eq)
    {c c' : ClassName} {n n' : MemberName} {x x' : α} (hc : IsWord c.text) (hc' : IsWord c'.text)
    (hn : IsWord n.text) (hn' : IsWord n'.text) (hx : P x) (hx' : P x') {s t : List Char}
    (h : c.text.toList ++ (", name: ".toList ++ (n.text.toList ++ (", ".toList ++
        ("descriptor: ".toList ++ ((f x).toList ++ (" \x7d".toList ++ s)))))) =
      c'.text.toList ++ (", name: ".toList ++ (n'.text.toList ++ (", ".toList ++
        ("descriptor: ".toList ++ ((f x').toList ++ (" \x7d".toList ++ t))))))) :
    (c = c' ∧ n = n' ∧ x = x') ∧ s = t := by
  obtain ⟨howner, hname⟩ := ClassName.readable.part separates_name hc hc' h
  obtain ⟨hsame, htype⟩ := MemberName.readable.part separates_comma hn hn' hname
  obtain ⟨htype, hrest⟩ := hf.part separates_space_brace hx hx' (List.append_cancel_left htype)
  exact ⟨⟨howner, hsame, htype⟩, hrest⟩

namespace FieldRef

/-- The names in a reference to a field. -/
def names (f : FieldRef) : List String := f.owner.text :: f.name.text :: f.type.names

theorem describe_eq (f : FieldRef) : f.describe =
    "FieldRef \x7b class: " ++ f.owner.text ++ ", name: " ++ f.name.text ++ ", " ++
      ("descriptor: " ++ f.type.describe ++ " \x7d") := rfl

/-- A field is known from its text if its names are words. -/
theorem readable : Readable describe (fun f => ∀ n ∈ f.names, IsWord n) Eq := by
  refine ⟨fun {a b} ha hb {s t} _ _ h => ?_⟩
  simp only [names, List.forall_mem_cons] at ha hb
  simp only [describe_eq, String.toList_append, List.append_assoc] at h
  obtain ⟨⟨howner, hname, htype⟩, hrest⟩ := member_split FieldType.readable ha.1 hb.1 ha.2.1 hb.2.1
    ha.2.2 hb.2.2 (List.append_cancel_left h)
  cases a
  cases b
  cases howner
  cases hname
  cases htype
  exact ⟨rfl, hrest⟩

end FieldRef

namespace MethodRef

/-- The names in a reference to a method. -/
def names (m : MethodRef) : List String := m.owner.text :: m.name.text :: m.descriptor.names

theorem describe_eq (m : MethodRef) : m.describe =
    "MethodRef \x7b class: " ++ m.owner.text ++ ", name: " ++ m.name.text ++ ", " ++
      ("descriptor: " ++ m.descriptor.describe ++ " \x7d") := rfl

/-- A method is known from its text if its names are words. -/
theorem readable : Readable describe (fun m => ∀ n ∈ m.names, IsWord n) Eq := by
  refine ⟨fun {a b} ha hb {s t} _ _ h => ?_⟩
  simp only [names, List.forall_mem_cons] at ha hb
  simp only [describe_eq, String.toList_append, List.append_assoc] at h
  obtain ⟨⟨howner, hname, htype⟩, hrest⟩ := member_split MethodDescriptor.readable ha.1 hb.1 ha.2.1 hb.2.1
    ha.2.2 hb.2.2 (List.append_cancel_left h)
  cases a
  cases b
  cases howner
  cases hname
  cases htype
  exact ⟨rfl, hrest⟩

end MethodRef

namespace CallSite

/-- The names in a call site. -/
def names (c : CallSite) : List String := c.name.text :: c.descriptor.names

theorem describe_eq (c : CallSite) : c.describe =
    "InvokeDynamicRef \x7b name: " ++ c.name.text ++ ", descriptor: " ++ c.descriptor.describe ++
      " \x7d" := rfl

/-- A dynamic call site is known from its text if its names are words. -/
theorem readable : Readable describe (fun c => ∀ n ∈ c.names, IsWord n) Eq := by
  refine ⟨fun {a b} ha hb {s t} _ _ h => ?_⟩
  simp only [names, List.forall_mem_cons] at ha hb
  simp only [describe_eq, String.toList_append, List.append_assoc] at h
  obtain ⟨hname, htype⟩ := MemberName.readable.part separates_descriptor ha.1 hb.1
    (List.append_cancel_left h)
  obtain ⟨htype, hrest⟩ := MethodDescriptor.readable.part separates_space_brace ha.2 hb.2 htype
  cases a
  cases b
  cases hname
  cases htype
  exact ⟨rfl, hrest⟩

end CallSite

namespace Constant

/-- The class names in a constant. -/
def names : Constant → List String
  | .string _ => []
  | .type t => t.names
  | .methodType d => d.names

theorem describe_eq (c : Constant) : c.describe =
    match c with
    | .string s => "String(" ++ Quoted.quote s ++ ")"
    | .type t => "Class(" ++ t.describe ++ ")"
    | .methodType d => "MethodType(" ++ d.describe ++ ")" := by
  cases c <;> rfl

/-- A constant is known from its text if its names are words. -/
theorem readable : Readable describe (fun c => ∀ n ∈ c.names, IsWord n) Eq := by
  refine ⟨fun {a b} ha hb {s t} _ _ h => ?_⟩
  rw [describe_eq, describe_eq] at h
  cases a <;> cases b <;> simp only [String.toList_append, List.append_assoc] at h
  case string.string =>
    obtain ⟨rfl, hrest⟩ := Quoted.quote_split (List.append_cancel_left h)
    exact ⟨rfl, List.append_cancel_left hrest⟩
  case type.type =>
    obtain ⟨rfl, hrest⟩ := RefType.readable.part separates_close ha hb (List.append_cancel_left h)
    exact ⟨rfl, hrest⟩
  case methodType.methodType =>
    obtain ⟨rfl, hrest⟩ := MethodDescriptor.readable.part separates_close ha hb
      (List.append_cancel_left h)
    exact ⟨rfl, hrest⟩
  case string.type => exact absurd (congrArg (·[0]?) h : some 'S' = some 'C') (by decide)
  case string.methodType => exact absurd (congrArg (·[0]?) h : some 'S' = some 'M') (by decide)
  case type.string => exact absurd (congrArg (·[0]?) h : some 'C' = some 'S') (by decide)
  case type.methodType => exact absurd (congrArg (·[0]?) h : some 'C' = some 'M') (by decide)
  case methodType.string => exact absurd (congrArg (·[0]?) h : some 'M' = some 'S') (by decide)
  case methodType.type => exact absurd (congrArg (·[0]?) h : some 'M' = some 'C') (by decide)

end Constant

/-! ## Numbers -/

/-- Short integers can be read back. -/
theorem int16_readable : Readable (fun n : Int16 => toString n.toInt) (fun _ => True) Eq :=
  .word (fun n _ => isWord_toString_int n.toInt) fun _ _ _ _ h =>
    Int16.toInt_inj.mp (Int.repr_inj.mp h)

/-- Integers can be read back. -/
theorem int32_readable : Readable (fun n : Int32 => toString n.toInt) (fun _ => True) Eq :=
  .word (fun n _ => isWord_toString_int n.toInt) fun _ _ _ _ h =>
    Int32.toInt_inj.mp (Int.repr_inj.mp h)

/-- Long integers can be read back. -/
theorem int64_readable : Readable (fun n : Int64 => toString n.toInt) (fun _ => True) Eq :=
  .word (fun n _ => isWord_toString_int n.toInt) fun _ _ _ _ h =>
    Int64.toInt_inj.mp (Int.repr_inj.mp h)

section

open Number Number.Ieee Number.Shortest

/-- Decimals are words. -/
theorem Number.Shortest.Spells.isWord {s : List Char} {x : ℚ} (h : Spells s x) :
    ∀ c ∈ s, isWord c = true := by
  have hexponent : ∀ n : Int, ∀ c ∈ 'e' :: (toString n).toList, Text.isWord c = true := fun n =>
    List.forall_mem_cons.mpr ⟨rfl, isWord_toString_int n⟩
  cases h with
  | positional hwhole hfraction =>
    refine List.forall_mem_append.mpr ⟨fun c hc => isWord_of_isDigit (hwhole c hc),
      List.forall_mem_cons.mpr ⟨rfl, fun c hc => isWord_of_isDigit (hfraction c hc)⟩⟩
  | single exponent hc =>
    exact List.forall_mem_cons.mpr ⟨isWord_of_isDigit hc, hexponent exponent⟩
  | scientific exponent hc hrest =>
    refine List.forall_mem_append.mpr ⟨List.forall_mem_cons.mpr ⟨isWord_of_isDigit hc,
      List.forall_mem_cons.mpr ⟨rfl, fun c hc => isWord_of_isDigit (hrest c hc)⟩⟩, hexponent exponent⟩

/-- The text of a floating point value is a word. -/
theorem Number.Shortest.isWord_text {f : Format} (hf : Fits f) (bits : Nat) : IsWord (text f bits) := by
  have hbody : ∀ c ∈ body f bits, isWord c = true := by
    cases hfinite : f.isInfinite bits with
    | true =>
      rw [body_infinite hfinite]
      exact List.all_eq_true.mp (by decide)
    | false =>
      obtain ⟨x, hspells, -⟩ := body_spells hf hfinite
      exact hspells.isWord
  rw [IsWord, text_eq]
  split
  · exact List.all_eq_true.mp (by decide)
  · rw [String.toList_ofList, signed]
    split
    · exact List.forall_mem_cons.mpr ⟨rfl, hbody⟩
    · exact hbody

end

/-- The bits of a float, with one pattern for all that is not a number. -/
def canonicalFloat (bits : UInt32) : UInt32 :=
  if Number.Ieee.single.isNaN bits.toNat then 0x7fc00000 else bits

/-- The bits of a double, with one pattern for all that is not a number. -/
def canonicalDouble (bits : UInt64) : UInt64 :=
  if Number.Ieee.double.isNaN bits.toNat then 0x7ff8000000000000 else bits

/-- With one pattern for all that is not a number, the text tells the patterns apart. -/
theorem Number.Shortest.text_eq_iff {α : Type} {f : Number.Ieee.Format} (hf : Fits f)
    {bits : α → Nat} (hbits : ∀ a, bits a < 2 * f.signBit) (hinjective : Function.Injective bits)
    {nan : α} (hnan : f.isNaN (bits nan) = true) (a b : α) :
    text f (bits a) = text f (bits b) ↔
      (if f.isNaN (bits a) then nan else a) = if f.isNaN (bits b) then nan else b := by
  rw [text_inj hf (hbits a) (hbits b), hinjective.eq_iff]
  cases ha : f.isNaN (bits a) <;> cases hb : f.isNaN (bits b) <;>
    simp only [if_true, if_false, Bool.false_eq_true, and_true, and_false, or_false, or_true]
  · exact iff_of_false (by rintro rfl; rw [ha] at hb; cases hb)
      (by rintro rfl; rw [hnan] at ha; cases ha)
  · exact iff_of_false (by rintro rfl; rw [ha] at hb; cases hb)
      (by rintro rfl; rw [hnan] at hb; cases hb)

/-- **Floats** with the same text are the same, or neither is a number. -/
theorem describeFloat_eq_iff {a b : UInt32} :
    describeFloat a = describeFloat b ↔ canonicalFloat a = canonicalFloat b :=
  Number.Shortest.text_eq_iff Number.Shortest.single_fits (fun c => c.toNat_lt)
    (fun _ _ => UInt32.toNat_inj.mp) (by decide) a b

/-- **Doubles** with the same text are the same, or neither is a number. -/
theorem describeDouble_eq_iff {a b : UInt64} :
    describeDouble a = describeDouble b ↔ canonicalDouble a = canonicalDouble b :=
  Number.Shortest.text_eq_iff Number.Shortest.double_fits (fun c => c.toNat_lt)
    (fun _ _ => UInt64.toNat_inj.mp) (by decide) a b

/-- Patterns that are not numbers have one text. -/
theorem describeFloat_canonical (bits : UInt32) :
    describeFloat (canonicalFloat bits) = describeFloat bits := by
  rw [describeFloat_eq_iff]
  unfold canonicalFloat
  split <;> rfl

/-- Every NaN is described as the canonical one is. -/
theorem describeDouble_canonical (bits : UInt64) :
    describeDouble (canonicalDouble bits) = describeDouble bits := by
  rw [describeDouble_eq_iff]
  unfold canonicalDouble
  split <;> rfl

/-- A floating point number is known from its text, patterns that are not numbers apart. -/
theorem float_readable :
    Readable describeFloat (fun _ => True) (fun a b => canonicalFloat a = canonicalFloat b) :=
  .word (fun bits _ => Number.Shortest.isWord_text Number.Shortest.single_fits bits.toNat)
    fun _ _ _ _ h => describeFloat_eq_iff.mp h

/-- A floating point number of 64 bits is known from its text as well. -/
theorem double_readable :
    Readable describeDouble (fun _ => True) (fun a b => canonicalDouble a = canonicalDouble b) :=
  .word (fun bits _ => Number.Shortest.isWord_text Number.Shortest.double_fits bits.toNat)
    fun _ _ _ _ h => describeDouble_eq_iff.mp h

end Resumption
