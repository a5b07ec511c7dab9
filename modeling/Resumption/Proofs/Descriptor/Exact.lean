import Mathlib
import Resumption.Descriptor.Parse
import Resumption.Proofs.Frame.WellFormed

/-!
# Reading accepts exactly what is written

A name that exists is a name again when it is read (`ClassName.ofString_text`,
`MemberName.ofString_text`). No name contains the `;` that ends it in a descriptor
(`ClassName.no_semicolon`), so a reference type is what its descriptor says (`RefType.parse_render`).

A reader is *exact* (`DescriptorReader.Exact`) when it takes a value off the front of a text if and
only if the text starts with the characters of that value, and leaves what comes after them. This
says two things at once: what was written is read back, whatever follows it, and nothing else is
read. Exact readers compose, so each kind of descriptor takes one lemma:

* **names** end at the first `;`, which is in no name (`ClassName.readTerminated_exact`);
* **arrays** have as many dimensions as there are brackets before the first other character
  (`RefType.read_exact`);
* **parameters** end at the first character that starts no type (`MethodDescriptor.readParameters_iff`).

`parse_iff_render` puts them together for whole texts.
-/

namespace Resumption

/-! ## Names and types are read as they were rendered -/

/-- The text of a name is read as the name. -/
theorem MemberName.ofString_text (name : MemberName) : ofString name.text = .ok name :=
  dif_pos name.valid

/-- The text of a class name is read as the name. -/
theorem ClassName.ofString_text (c : ClassName) : ofString c.text = .ok c := dif_pos c.valid

namespace Name

/-- The parts between slashes hold all other characters. -/
theorem mem_segments {cs : List Char} {c : Char} (hc : c ∈ cs) (hslash : c ≠ '/') :
    ∃ part ∈ segments cs, c ∈ part := by
  induction cs with
  | nil => cases hc
  | cons d cs ih =>
    simp only [segments]
    split
    · rename_i hd
      rcases List.mem_cons.mp hc with rfl | hc
      · exact absurd hd hslash
      · obtain ⟨part, hpart, hmem⟩ := ih hc
        exact ⟨part, List.mem_cons_of_mem _ hpart, hmem⟩
    · cases hparts : segments cs with
      | nil =>
        rcases List.mem_cons.mp hc with rfl | hc
        · exact ⟨[c], List.mem_cons_self .., List.mem_cons_self ..⟩
        · obtain ⟨part, hpart, -⟩ := ih hc
          rw [hparts] at hpart
          cases hpart
      | cons first rest =>
        rcases List.mem_cons.mp hc with rfl | hc
        · exact ⟨c :: first, List.mem_cons_self .., List.mem_cons_self ..⟩
        · obtain ⟨part, hpart, hmem⟩ := ih hc
          rw [hparts] at hpart
          rcases List.mem_cons.mp hpart with rfl | hpart
          · exact ⟨d :: part, List.mem_cons_self .., List.mem_cons_of_mem _ hmem⟩
          · exact ⟨part, List.mem_cons_of_mem _ hpart, hmem⟩

end Name

/-- The character that ends a class name in a descriptor is in no class name. -/
theorem ClassName.no_semicolon (name : ClassName) : ∀ c ∈ name.text.toList, (c != ';') = true := by
  intro c hc
  by_cases hslash : c = '/'
  · subst hslash
    rfl
  · obtain ⟨part, hpart, hmem⟩ := Name.mem_segments hc hslash
    have hsegment := List.all_eq_true.mp name.valid part hpart
    simp only [Name.isSegment, Bool.and_eq_true] at hsegment
    have hplain := List.all_eq_true.mp hsegment.1 c hmem
    simp only [Name.isPlain, Bool.and_eq_true] at hplain
    exact hplain.1.1.2

/-- A name up to the character that ends it. -/
theorem ClassName.readTerminated_append (name : ClassName) (rest : List Char) :
    readTerminated (name.text.toList ++ ';' :: rest) = .ok (name, rest) := by
  have htake : (name.text.toList ++ ';' :: rest).takeWhile (· != ';') = name.text.toList := by
    rw [List.takeWhile_append_of_pos name.no_semicolon]
    simp
  have hdrop : (name.text.toList ++ ';' :: rest).dropWhile (· != ';') = ';' :: rest := by
    rw [List.dropWhile_append_of_pos name.no_semicolon]
    simp
  simp only [readTerminated, htake, hdrop, String.ofList_toList, ofString_text]

namespace RefType

theorem readElement_base (extra : Nat) (t : BaseType) :
    readElement extra [t.letter] = .ok (.primitiveArray extra t, []) := by
  cases t <;> rfl

/-- Brackets are counted up to the first character that is none. -/
theorem read_brackets (extra : Nat) {c : Char} (hc : (c == '[') = false) (rest : List Char) :
    read (List.replicate (extra + 1) '[' ++ c :: rest) = readElement extra (c :: rest) := by
  have hbrackets : ∀ d ∈ List.replicate extra '[', (d == '[') = true := by
    intro d hd
    obtain rfl := List.eq_of_mem_replicate hd
    rfl
  have htake : (List.replicate extra '[' ++ c :: rest).takeWhile (· == '[') =
      List.replicate extra '[' := by
    rw [List.takeWhile_append_of_pos hbrackets, List.takeWhile_cons_of_neg (by simp [hc]),
      List.append_nil]
  have hdrop : (List.replicate extra '[' ++ c :: rest).dropWhile (· == '[') = c :: rest := by
    rw [List.dropWhile_append_of_pos hbrackets, List.dropWhile_cons_of_neg (by simp [hc])]
  rw [List.replicate_succ, List.cons_append]
  simp only [read, htake, hdrop, List.length_replicate]

/-- What is rendered of a type is read as the type. -/
theorem read_chars (t : RefType) : read t.chars = .ok (t, []) := by
  cases t with
  | object name =>
    simp only [chars, ClassName.descriptor, List.cons_append, read,
      ClassName.readTerminated_append, bind, Except.bind]
    rfl
  | objectArray extra element =>
    simp only [chars, ClassName.descriptor, List.cons_append]
    rw [read_brackets extra rfl]
    simp only [readElement, ClassName.readTerminated_append, bind, Except.bind]
    rfl
  | primitiveArray extra element =>
    have hletter : (element.letter == '[') = false := by cases element <;> rfl
    simp only [chars]
    rw [read_brackets extra hletter, readElement_base]

/-- **Reference types.** -/
theorem parse_render (t : RefType) : parse t.render = .ok t := by
  simp only [parse, DescriptorReader.whole, render, String.toList_ofList, read_chars]

end RefType

/-! ## Exact readers -/

namespace DescriptorReader

variable {α : Type}

/-- Takes off the front of a text what `chars` writes, and nothing else. -/
def Exact (reader : DescriptorReader α) (chars : α → List Char) : Prop :=
  ∀ cs x rest, reader cs = .ok (x, rest) ↔ cs = chars x ++ rest

/-- **Whole texts.** With an exact reader a text has a meaning if it is what the meaning is written
as. -/
theorem Exact.whole {reader : DescriptorReader α} {chars : α → List Char}
    (h : reader.Exact chars) (s : String) (x : α) :
    reader.whole s = .ok x ↔ s = String.ofList (chars x) := by
  have hread : reader.whole s = .ok x ↔ reader s.toList = .ok (x, []) := by
    simp only [DescriptorReader.whole]
    split
    · rename_i e he
      simp [he]
    · rename_i y hy
      simp [hy]
    · rename_i y c rest hy
      simp [hy]
  rw [hread, h, List.append_nil]
  constructor
  · intro hs
    rw [← hs, String.ofList_toList]
  · intro hs
    rw [hs, String.toList_ofList]

end DescriptorReader

/-! ## Primitive types -/

/-- A letter is that of one primitive type. -/
theorem BaseType.ofLetter?_iff {c : Char} {t : BaseType} : ofLetter? c = some t ↔ c = t.letter := by
  constructor
  · intro h
    simp only [ofLetter?] at h
    split at h <;> cases h <;> rfl
  · rintro rfl
    cases t <;> rfl

/-- No type starts with another letter than its own. -/
theorem BaseType.letter_ne (t : BaseType) : t.letter ≠ 'L' ∧ t.letter ≠ '[' ∧ t.letter ≠ ')' ∧
    t.letter ≠ 'V' := by
  cases t <;> decide

/-- Exactly the letters are read as primitive types. -/
theorem BaseType.read_exact : DescriptorReader.Exact read fun t => [t.letter] := by
  intro cs t rest
  cases cs with
  | nil => simp [read]
  | cons c cs =>
    simp only [read]
    split
    · rename_i u hu
      obtain rfl := ofLetter?_iff.mp hu
      simp only [Except.ok.injEq, Prod.mk.injEq, List.cons_append, List.nil_append,
        List.cons.injEq]
      constructor
      · rintro ⟨rfl, rfl⟩
        exact ⟨rfl, rfl⟩
      · rintro ⟨hletter, rfl⟩
        have htype : some u = some t := hu.symm.trans (ofLetter?_iff.mpr hletter)
        exact ⟨Option.some.inj htype, rfl⟩
    · rename_i hnone
      constructor
      · exact nofun
      · intro h
        cases h
        rw [ofLetter?_iff.mpr rfl] at hnone
        cases hnone

/-! ## Class names -/

namespace ClassName

/-- Only the text of a class name is read as it. -/
theorem ofString_iff {s : String} {c : ClassName} : ofString s = .ok c ↔ s = c.text := by
  constructor
  · intro h
    simp only [ofString] at h
    split at h
    · cases h
      rfl
    · split at h <;> cases h
  · rintro rfl
    exact ofString_text c

/-- A name is everything up to the first `;`, which is dropped. -/
theorem readTerminated_exact :
    DescriptorReader.Exact readTerminated fun c => c.text.toList ++ [';'] := by
  intro cs c rest
  constructor
  · intro h
    have hsplit : cs = cs.takeWhile (· != ';') ++ cs.dropWhile (· != ';') :=
      List.takeWhile_append_dropWhile.symm
    simp only [readTerminated] at h
    split at h
    · cases h
    · rename_i d after hafter
      -- what ends the name is not kept by the test, so it is a semicolon
      have hend : d = ';' := by
        have hhead := List.head_dropWhile_not (p := (· != ';')) (l := cs) (by simp [hafter])
        simpa [hafter] using hhead
      split at h
      · rename_i name hname
        cases h
        rw [hsplit, hafter, hend]
        simp [← ofString_iff.mp hname]
      · cases h
  · rintro rfl
    simp only [List.append_assoc, List.singleton_append]
    exact readTerminated_append c rest

/-- Exactly the descriptors of classes are read as classes. -/
theorem readDescriptor_exact : DescriptorReader.Exact readDescriptor descriptor := by
  intro cs c rest
  simp only [readDescriptor]
  split
  · rw [readTerminated_exact]
    simp [descriptor]
  · rename_i hother
    constructor
    · intro h
      cases h
    · intro h
      exact absurd h (hother _)

end ClassName

/-! ## Reference types -/

namespace RefType

/-- What comes after brackets is a class or a primitive type. -/
theorem readElement_iff (extra : Nat) {cs rest : List Char} {t : RefType} :
    readElement extra cs = .ok (t, rest) ↔
      (∃ name : ClassName, t = .objectArray extra name ∧ cs = name.descriptor ++ rest) ∨
        ∃ element : BaseType, t = .primitiveArray extra element ∧ cs = element.letter :: rest := by
  simp only [readElement]
  split
  · rename_i cs
    rw [Except.bind_ok]
    constructor
    · rintro ⟨⟨name, after⟩, hname, h⟩
      cases h
      rw [(ClassName.readTerminated_exact _ _ _).mp hname]
      exact .inl ⟨name, rfl, by simp [ClassName.descriptor]⟩
    · rintro (⟨name, rfl, h⟩ | ⟨element, rfl, h⟩)
      · refine ⟨(name, rest), (ClassName.readTerminated_exact _ _ _).mpr ?_, rfl⟩
        simpa [ClassName.descriptor] using h
      · exact absurd (List.cons.inj h).1.symm element.letter_ne.1
  · rename_i hother
    rw [Except.bind_ok]
    constructor
    · rintro ⟨⟨element, after⟩, helement, h⟩
      cases h
      exact .inr ⟨element, rfl, (BaseType.read_exact _ _ _).mp helement⟩
    · rintro (⟨name, rfl, h⟩ | ⟨element, rfl, h⟩)
      · exact absurd h (hother _)
      · exact ⟨(element, rest), (BaseType.read_exact _ _ _).mpr h, rfl⟩

/-- Brackets that are counted can be put back. -/
theorem replicate_takeWhile (cs : List Char) :
    List.replicate (cs.takeWhile (· == '[')).length '[' ++ cs.dropWhile (· == '[') = cs := by
  have hall : cs.takeWhile (· == '[') = List.replicate (cs.takeWhile (· == '[')).length '[' := by
    apply List.eq_replicate_of_mem
    intro c hc
    simpa using List.mem_takeWhile_imp hc
  rw [← hall]
  exact List.takeWhile_append_dropWhile

/-- Exactly what is rendered of a reference type is read as it. -/
theorem read_exact : DescriptorReader.Exact read chars := by
  intro cs t rest
  constructor
  · intro h
    simp only [read] at h
    split at h
    · cases h
    · obtain ⟨⟨name, after⟩, hname, h⟩ := Except.bind_ok.mp h
      cases h
      rw [(ClassName.readTerminated_exact _ _ _).mp hname]
      simp [chars, ClassName.descriptor]
    · rename_i cs
      rw [← replicate_takeWhile cs]
      rcases (readElement_iff _).mp h with ⟨name, rfl, hcs⟩ | ⟨element, rfl, hcs⟩
      · simp [hcs, chars, List.replicate_succ]
      · simp [hcs, chars, List.replicate_succ]
    · cases h
  · rintro rfl
    cases t with
    | object name =>
      simp only [chars, ClassName.descriptor, List.cons_append, List.append_assoc, List.nil_append,
        read, ClassName.readTerminated_append, bind, Except.bind]
      rfl
    | objectArray extra name =>
      have hbrackets := read_brackets extra (c := 'L') rfl (name.text.toList ++ ';' :: rest)
      simp only [chars, ClassName.descriptor, List.append_assoc, List.cons_append, List.nil_append]
      rw [hbrackets]
      exact (readElement_iff extra).mpr (.inl ⟨name, rfl, by simp [ClassName.descriptor]⟩)
    | primitiveArray extra element =>
      have hletter : (element.letter == '[') = false := by simpa using element.letter_ne.2.1
      simp only [chars, List.append_assoc, List.singleton_append]
      rw [read_brackets extra hletter]
      exact (readElement_iff extra).mpr (.inr ⟨element, rfl, rfl⟩)

/-- A reference type starts with `L` or with a bracket. -/
theorem chars_head (t : RefType) : ∃ c cs, t.chars = c :: cs ∧ (c = 'L' ∨ c = '[') := by
  cases t with
  | object name => exact ⟨'L', _, rfl, .inl rfl⟩
  | objectArray extra name => exact ⟨'[', _, rfl, .inr rfl⟩
  | primitiveArray extra element => exact ⟨'[', _, rfl, .inr rfl⟩

end RefType

/-! ## Field types -/

namespace FieldType

/-- Exactly what is rendered of a type is read as it. -/
theorem read_exact : DescriptorReader.Exact read chars := by
  intro cs t rest
  cases cs with
  | nil =>
    cases t with
    | base b => simp [read, chars]
    | ref r =>
      obtain ⟨c, cs, hchars, -⟩ := r.chars_head
      simp [read, chars, hchars]
  | cons c cs =>
    simp only [read]
    split
    · rename_i b hb
      obtain rfl := BaseType.ofLetter?_iff.mp hb
      constructor
      · intro h
        cases h
        rfl
      · intro h
        cases t with
        | base b' =>
          obtain ⟨hletter, rfl⟩ := List.cons.inj h
          rw [BaseType.ofLetter?_iff.mpr hletter] at hb
          rw [Option.some.inj hb]
        | ref r =>
          -- the letter of a primitive type starts no reference type
          obtain ⟨d, ds, hchars, hd⟩ := r.chars_head
          simp only [chars, hchars, List.cons_append, List.cons.injEq] at h
          rcases hd with rfl | rfl
          · exact absurd h.1 b.letter_ne.1
          · exact absurd h.1 b.letter_ne.2.1
    · rename_i hnone
      have hbase : ∀ b : BaseType, c ≠ b.letter := by
        rintro b rfl
        rw [BaseType.ofLetter?_iff.mpr rfl] at hnone
        cases hnone
      split
      · rw [Except.bind_ok]
        constructor
        · rintro ⟨⟨r, after⟩, hr, h⟩
          cases h
          exact (RefType.read_exact _ _ _).mp hr
        · intro h
          cases t with
          | base b => exact absurd (List.cons.inj h).1 (hbase b)
          | ref r => exact ⟨(r, rest), (RefType.read_exact _ _ _).mpr h, rfl⟩
      · rename_i hother
        constructor
        · exact nofun
        · intro h
          cases t with
          | base b => exact absurd (List.cons.inj h).1 (hbase b)
          | ref r =>
            obtain ⟨d, ds, hchars, hd⟩ := r.chars_head
            simp only [chars, hchars, List.cons_append, List.cons.injEq] at h
            rw [h.1] at hother
            simp [hd] at hother

/-- A type takes a character at least, and none starts with `)` or `V`. -/
theorem chars_head (t : FieldType) : ∃ c cs, t.chars = c :: cs ∧ c ≠ ')' ∧ c ≠ 'V' := by
  cases t with
  | base b => exact ⟨b.letter, [], rfl, b.letter_ne.2.2⟩
  | ref r =>
    obtain ⟨c, cs, hchars, hc⟩ := r.chars_head
    refine ⟨c, cs, hchars, ?_⟩
    rcases hc with rfl | rfl <;> decide

end FieldType

/-! ## Methods -/

namespace MethodDescriptor

/-- What ends the parameters: the closing parenthesis, or the end of the text. -/
def EndsParameters (rest : List Char) : Prop := rest = [] ∨ ∃ after, rest = ')' :: after

/-- Where parameters can end no other one begins. -/
theorem EndsParameters.nil {cs rest : List Char} (hcs : EndsParameters cs) {more : List FieldType}
    (h : cs = more.flatMap FieldType.chars ++ rest) : more = [] := by
  cases more with
  | nil => rfl
  | cons t more =>
    obtain ⟨c, ts, hchars, hne, -⟩ := t.chars_head
    rw [List.flatMap_cons, hchars] at h
    rcases hcs with rfl | ⟨after, rfl⟩
    · cases h
    · exact absurd (List.cons.inj h).1.symm hne

/-- There no parameter is read. -/
theorem EndsParameters.read_iff {cs rest : List Char} (hcs : EndsParameters cs)
    {before all : List FieldType} :
    (.ok (before.reverse, cs) : Except DescriptorError _) = .ok (all, rest) ↔
      ∃ more, all = before.reverse ++ more ∧ cs = more.flatMap FieldType.chars ++ rest ∧
        EndsParameters rest := by
  constructor
  · intro h
    cases h
    exact ⟨[], by simp, rfl, hcs⟩
  · rintro ⟨more, rfl, h, -⟩
    obtain rfl := hcs.nil h
    rw [h]
    simp

/-- **Parameters.** Those that were read before stay; more follow up to the first place where
parameters can end. -/
theorem readParameters_iff {fuel : Nat} {before all : List FieldType} {cs rest : List Char}
    (hfuel : cs.length ≤ fuel) :
    readParameters fuel before cs = .ok (all, rest) ↔
      ∃ more, all = before.reverse ++ more ∧ cs = more.flatMap FieldType.chars ++ rest ∧
        EndsParameters rest := by
  -- induction on the characters that are left; every parameter takes one
  induction fuel generalizing before cs with
  | zero =>
    obtain rfl := List.length_eq_zero_iff.mp (Nat.le_zero.mp hfuel)
    exact EndsParameters.read_iff (.inl rfl)
  | succ fuel ih =>
    simp only [readParameters]
    split
    · exact EndsParameters.read_iff (.inl rfl)
    · exact EndsParameters.read_iff (.inr ⟨_, rfl⟩)
    · rename_i hnonempty hopen
      rw [Except.bind_ok]
      constructor
      · rintro ⟨⟨t, after⟩, ht, h⟩
        obtain rfl := (FieldType.read_exact _ _ _).mp ht
        have hlength : after.length ≤ fuel := by
          obtain ⟨c, ts, hchars, -⟩ := t.chars_head
          rw [hchars] at hfuel
          simp only [List.length_append, List.length_cons] at hfuel
          omega
        obtain ⟨more, rfl, rfl, hrest⟩ := (ih hlength).mp h
        exact ⟨t :: more, by simp, by simp, hrest⟩
      · rintro ⟨more, rfl, rfl, hrest⟩
        cases more with
        | nil =>
          rcases hrest with rfl | ⟨after, rfl⟩
          · exact absurd rfl hnonempty
          · exact absurd rfl (hopen after)
        | cons t more =>
          have hlength : (more.flatMap FieldType.chars ++ rest).length ≤ fuel := by
            obtain ⟨c, ts, hchars, -⟩ := t.chars_head
            rw [List.flatMap_cons, hchars] at hfuel
            simp only [List.length_append, List.length_cons] at hfuel ⊢
            omega
          refine ⟨(t, more.flatMap FieldType.chars ++ rest),
            (FieldType.read_exact _ _ _).mpr (by simp), ?_⟩
          exact (ih hlength).mpr ⟨more, by simp, rfl, hrest⟩

/-- The characters of a result. -/
def resultChars : Option FieldType → List Char
  | none => ['V']
  | some t => t.chars

/-- Exactly what is rendered of a result is read as it. -/
theorem readResult_exact : DescriptorReader.Exact readResult resultChars := by
  intro cs result rest
  simp only [readResult]
  split
  · constructor
    · intro h
      cases h
      rfl
    · intro h
      cases result with
      | none =>
        obtain rfl := (List.cons.inj h).2
        rfl
      | some t =>
        obtain ⟨c, ts, hchars, -, hne⟩ := t.chars_head
        rw [resultChars, hchars] at h
        exact absurd (List.cons.inj h).1.symm hne
  · rename_i hother
    rw [Except.bind_ok]
    constructor
    · rintro ⟨⟨t, after⟩, ht, h⟩
      cases h
      exact (FieldType.read_exact _ _ _).mp ht
    · intro h
      cases result with
      | none => exact absurd h (hother _)
      | some t => exact ⟨(t, rest), (FieldType.read_exact _ _ _).mpr h, rfl⟩

theorem chars_eq (d : MethodDescriptor) :
    d.chars = '(' :: (d.parameters.flatMap FieldType.chars ++ ')' :: resultChars d.result) := by
  rw [chars]
  cases d.result <;> rfl

/-- Exactly what is rendered of a descriptor is read as it. -/
theorem read_exact : DescriptorReader.Exact read chars := by
  intro cs d rest
  rw [chars_eq]
  simp only [read]
  split
  · rename_i cs
    rw [Except.bind_ok]
    constructor
    · rintro ⟨⟨parameters, after⟩, hparameters, h⟩
      obtain ⟨more, rfl, rfl, -⟩ := (readParameters_iff le_rfl).mp hparameters
      simp only at h
      split at h
      · obtain ⟨⟨result, after⟩, hresult, h⟩ := Except.bind_ok.mp h
        cases h
        rw [(readResult_exact _ _ _).mp hresult]
        simp
      · cases h
    · intro h
      obtain ⟨-, rfl⟩ := List.cons.inj h
      refine ⟨(d.parameters, ')' :: (resultChars d.result ++ rest)),
        (readParameters_iff le_rfl).mpr ⟨d.parameters, rfl, by simp, .inr ⟨_, rfl⟩⟩, ?_⟩
      exact Except.bind_ok.mpr ⟨(d.result, rest), (readResult_exact _ _ _).mpr rfl, rfl⟩
  · rename_i hother
    constructor
    · exact nofun
    · intro h
      exact absurd h (hother _)

end MethodDescriptor

/-- **Reading accepts exactly what is written.** A text is the descriptor of a primitive type, a
class, a reference type, a field type or a method if and only if it is how that is rendered; so each
text has one meaning at most, and what is rendered always has one. -/
theorem parse_iff_render (s : String) :
    (∀ t, BaseType.parse s = .ok t ↔ s = String.ofList [t.letter]) ∧
    (∀ c, ClassName.parseDescriptor s = .ok c ↔ s = String.ofList c.descriptor) ∧
    (∀ t, RefType.parse s = .ok t ↔ s = t.render) ∧
    (∀ t, FieldType.parse s = .ok t ↔ s = t.render) ∧
    ∀ d, MethodDescriptor.parse s = .ok d ↔ s = d.render :=
  ⟨BaseType.read_exact.whole s, ClassName.readDescriptor_exact.whole s, RefType.read_exact.whole s,
    FieldType.read_exact.whole s, MethodDescriptor.read_exact.whole s⟩

/-- The text of a descriptor with two array types among its parameters. -/
example : MethodDescriptor.parse "([[IJ[LA;)V" =
    .ok ⟨[.array (.array .int), .long, .array (.object { text := "A" })], none⟩ := by
  rfl

end Resumption
