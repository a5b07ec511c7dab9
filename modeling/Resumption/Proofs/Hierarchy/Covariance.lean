import Resumption.Proofs.Machine.Instances

/-!
# Arrays where arrays are wanted

Checking code lets a value go to a type by the number of dimensions and by the classes of the
elements. What it lets go is said once by rules (`Fits`), and the questions are answered by them:

* **`isAssignable_iff`**: every question is answered, and by the rules. A walk along superclasses that
  never go round meets a class that it has not met before with every step, so it ends in time.
* **`isAssignable_covariant`**: arrays may go where their elements may, a type may go where it is
  wanted itself, and two steps make one, as long as nothing but the root is above an interface and
  above the classes of arrays (`Capped`).
* **`isAssignable_breaks`**: without that, an interface is a way to a class that there is no direct
  way to; and where an array stands in the place of an element, interfaces that arrays do not have
  are forgotten (`Overlooked`).
-/

namespace Resumption

namespace Hierarchy

variable {h : Hierarchy} {a b c d : ClassName} {s t u : RefType}

/-! ## Superclasses -/

/-- **The walk along superclasses** finds what is above, as long as superclasses do not go round. The
classes that were passed are all below the one that is reached, so that one is new. -/
theorem hasSuperclass_iff (hclosed : h.Closed) (hacyclic : ∀ c, ¬ Relation.TransGen h.Inherits c c)
    {info : TypeInfo} (hinfo : h.lookup a = some info) {passed : List ClassName}
    (hpassed : ∀ b ∈ passed, Relation.TransGen h.Inherits b a) (c : ClassName) {fuel : Nat}
    (hfuel : h.unseen passed ≤ fuel) :
    ∃ found, h.hasSuperclass c fuel info = .ok found ∧
      (found = true ↔ Relation.TransGen h.Inherits a c) := by
  -- Classes passed on the way are all below the present one, so each step passes a new class and no
  -- more steps are needed than there are classes.
  induction fuel generalizing a info passed with
  | zero =>
    have hnew : a ∉ passed := fun hmem => hacyclic a (hpassed a hmem)
    have hmem : a ∈ h.names.filter (· ∉ passed) := by
      simp [mem_names, hnew, show h.Knows a from ⟨info, hinfo⟩]
    exact absurd (List.length_pos_of_mem hmem) (Nat.not_lt.mpr hfuel)
  | succ fuel ih =>
    cases hsuper : info.superclass with
    | none =>
      refine ⟨false, by simp only [hasSuperclass, hsuper], nofun, fun hac => ?_⟩
      obtain ⟨d, ⟨info', hinfo', hd⟩, -⟩ := Relation.TransGen.head'_iff.mp hac
      obtain rfl := Option.some.inj (hinfo.symm.trans hinfo')
      rw [hsuper] at hd
      cases hd
    | some d =>
      have had : h.Inherits a d := ⟨info, hinfo, hsuper⟩
      by_cases heq : d = c
      · subst heq
        exact ⟨true, by simp only [hasSuperclass, hsuper, if_true], fun _ => .single had,
          fun _ => rfl⟩
      · obtain ⟨next, hnext⟩ := hclosed _ _ had.super
        have hpassed' : ∀ b ∈ a :: passed, Relation.TransGen h.Inherits b d := by
          intro b hb
          rcases List.mem_cons.mp hb with rfl | hb
          · exact .single had
          · exact (hpassed b hb).tail had
        have hfewer : h.unseen ([a] ++ passed) + [a].length = h.unseen passed := by
          apply unseen_append (List.nodup_singleton a)
          intro b hb
          obtain rfl := List.mem_singleton.mp hb
          exact ⟨⟨info, hinfo⟩, fun hmem => hacyclic b (hpassed b hmem)⟩
        have hfuel' : h.unseen (a :: passed) ≤ fuel := by
          rw [List.singleton_append, List.length_singleton] at hfewer
          omega
        obtain ⟨found, hfound, hiff⟩ := ih hnext hpassed' hfuel'
        refine ⟨found, ?_, hiff.trans ⟨.head had, fun hac => ?_⟩⟩
        · simp only [hasSuperclass, hsuper, if_neg heq, typeInfo_of_lookup hnext, bind, Except.bind]
          exact hfound
        · obtain ⟨e, hae, hec⟩ := Relation.TransGen.head'_iff.mp hac
          obtain rfl := had.unique hae
          rcases Relation.reflTransGen_iff_eq_or_transGen.mp hec with rfl | hec
          · exact absurd rfl heq
          · exact hec

/-- A hierarchy in which superclasses lead up, and lead from interfaces and from the classes of
arrays to nothing but the root. -/
structure Capped (h : Hierarchy) : Prop where
  /-- what is above a type is known -/
  closed : h.Closed
  /-- no class extends itself, at once or by others -/
  acyclic : ∀ c, ¬ Relation.TransGen h.Inherits c c
  /-- interfaces, and what arrays implement, extend the root alone -/
  capped : ∀ c d, h.Inherits c d → h.IsInterface c ∨ isArraySuper c = true → d = .object

/-- Such a class has the root above it, or nothing. -/
theorem Capped.eq_object (hh : h.Capped) (hc : h.IsInterface c ∨ isArraySuper c = true)
    (hcd : Relation.TransGen h.Inherits c d) : d = .object := by
  obtain ⟨e, hce, hed⟩ := Relation.TransGen.head'_iff.mp hcd
  obtain rfl := hh.capped c e hce hc
  rcases Relation.reflTransGen_iff_eq_or_transGen.mp hed with rfl | hed
  · rfl
  · -- above the root there is nothing: it would be the root again
    obtain ⟨e, hroot, -⟩ := Relation.TransGen.head'_iff.mp hed
    have heq : e = .object := hh.capped _ e hroot (.inr rfl)
    exact absurd (.single (heq ▸ hroot)) (hh.acyclic .object)

/-! ## What goes where -/

/-- May an instance of the first class go where the second is wanted? -/
def Goes (h : Hierarchy) (a b : ClassName) : Prop :=
  a = b ∨ b = .object ∨ h.IsInterface b ∨ Relation.TransGen h.Inherits a b

/-- Going from class to class is transitive where interfaces are capped. -/
theorem Goes.trans (hh : h.Capped) (hab : h.Goes a b) (hbc : h.Goes b c) : h.Goes a c := by
  rcases hbc with rfl | rfl | hc | hbc
  · exact hab
  · exact .inr (.inl rfl)
  · exact .inr (.inr (.inl hc))
  · rcases hab with rfl | rfl | hb | hab
    · exact .inr (.inr (.inr hbc))
    · exact .inr (.inl (hh.eq_object (.inr rfl) hbc))
    · exact .inr (.inl (hh.eq_object (.inl hb) hbc))
    · exact .inr (.inr (.inr (hab.trans hbc)))

/-- What an array goes to is a class of arrays or an interface, and so is all that this goes to. -/
theorem Goes.ofArray (hh : h.Capped) (hb : isArraySuper b = true ∨ h.IsInterface b)
    (hbc : h.Goes b c) : isArraySuper c = true ∨ h.IsInterface c := by
  rcases hbc with rfl | rfl | hc | hbc
  · exact hb
  · exact .inl rfl
  · exact .inr hc
  · exact .inl (hh.eq_object hb.symm hbc ▸ rfl)

/-- A class is assignable exactly where it goes. -/
theorem isAssignableClass_goes (hclosed : h.Closed)
    (hacyclic : ∀ c, ¬ Relation.TransGen h.Inherits c c) (ha : h.Knows a) (hb : h.Knows b) :
    ∃ found, h.isAssignableClass a b = .ok found ∧ (found = true ↔ h.Goes a b) := by
  obtain ⟨info, hinfo⟩ := ha
  obtain ⟨info', hinfo'⟩ := hb
  simp only [isAssignableClass, Bool.or_eq_true, decide_eq_true_eq]
  split
  · rename_i heq
    exact ⟨true, rfl, fun _ => heq.imp_right .inl, fun _ => rfl⟩
  rename_i hne
  simp only [typeInfo_of_lookup hinfo, typeInfo_of_lookup hinfo', bind, Except.bind]
  split
  · rename_i hinterface
    exact ⟨true, rfl, fun _ => .inr (.inr (.inl ⟨info', hinfo', hinterface⟩)), fun _ => rfl⟩
  rename_i hclass
  have hfuel : h.unseen [] ≤ h.types.length + 1 := by
    have hle := (h.names.filter_sublist (p := (· ∉ ([] : List ClassName)))).length_le
    have hnames := h.length_names_le
    simp only [unseen]
    omega
  have hnone : ∀ c ∈ ([] : List ClassName), Relation.TransGen h.Inherits c a :=
    List.forall_mem_nil _
  obtain ⟨found, hfound, hiff⟩ := hasSuperclass_iff hclosed hacyclic hinfo hnone b hfuel
  refine ⟨found, hfound, hiff.trans ⟨fun hab => .inr (.inr (.inr hab)), ?_⟩⟩
  rintro (heq | heq | ⟨found', hfound', hinterface⟩ | hab)
  · exact absurd (.inl heq) hne
  · exact absurd (.inr heq) hne
  · exact absurd (Option.some.inj (hfound'.symm.trans hinfo') ▸ hinterface) hclass
  · exact hab

/-- **The rules for checking code**: may a value of the first type go where the second is wanted? -/
inductive Fits (h : Hierarchy) : RefType → RefType → Prop
  /-- as classes are above one another -/
  | object {a b : ClassName} (hab : h.Goes a b) : Fits h (.object a) (.object b)
  /-- what all arrays are -/
  | array {t : RefType} {c : ClassName} (ht : t.isArray = true)
    (hc : isArraySuper c = true ∨ h.IsInterface c) : Fits h t (.object c)
  /-- an array of a primitive type is only of that type -/
  | primitive (n : Nat) (e : BaseType) : Fits h (.primitiveArray n e) (.primitiveArray n e)
  /-- as the classes of the elements are above one another -/
  | elements {n : Nat} {a b : ClassName} (hab : h.Goes a b) :
    Fits h (.objectArray n a) (.objectArray n b)
  /-- what has more dimensions has arrays for elements -/
  | fewer {t : RefType} {n : Nat} {c : ClassName} (hn : n + 1 < t.dimensions)
    (hc : isArraySuper c = true) : Fits h t (.objectArray n c)

/-- A type with dimensions is an array. -/
theorem isArray_of_dimensions {n : Nat} (hn : n < t.dimensions) : t.isArray = true := by
  cases t with
  | object _ => cases hn
  | _ => rfl

/-- An array fits the supertypes of arrays and interfaces only. -/
theorem fits_array_object (ht : t.isArray = true) :
    h.Fits t (.object c) ↔ isArraySuper c = true ∨ h.IsInterface c := by
  refine ⟨fun hfits => ?_, .array ht⟩
  cases hfits with
  | object _ => cases ht
  | array _ hc => exact hc

/-- **Every question has an answer**, and it is that of the rules. -/
theorem isAssignable_iff (hclosed : h.Closed)
    (hacyclic : ∀ c, ¬ Relation.TransGen h.Inherits c c) (hs : h.KnowsType s) (ht : h.KnowsType t) :
    ∃ found, h.isAssignable s t = .ok found ∧ (found = true ↔ h.Fits s t) := by
  -- one case for each pair of shapes, as in the definition
  cases t with
  | object c =>
    cases s with
    | object a =>
      obtain ⟨found, hfound, hiff⟩ := isAssignableClass_goes hclosed hacyclic hs ht
      exact ⟨found, hfound, hiff.trans ⟨.object, fun hfits => by
        cases hfits with
        | object hab => exact hab
        | array harray _ => cases harray⟩⟩
    | primitiveArray m a =>
      obtain ⟨found, hfound, hiff⟩ := isAssignable_array ht (t := .primitiveArray m a) rfl
      exact ⟨found, hfound, hiff.trans (fits_array_object rfl).symm⟩
    | objectArray m a =>
      obtain ⟨found, hfound, hiff⟩ := isAssignable_array ht (t := .objectArray m a) rfl
      exact ⟨found, hfound, hiff.trans (fits_array_object rfl).symm⟩
  | primitiveArray n e =>
    cases s with
    | primitiveArray m a =>
      refine ⟨decide (m = n) && decide (a = e), by simp only [isAssignable], ?_⟩
      rw [Bool.and_eq_true, decide_eq_true_eq, decide_eq_true_eq]
      constructor
      · rintro ⟨rfl, rfl⟩
        exact .primitive m a
      · intro hfits
        cases hfits
        exact ⟨rfl, rfl⟩
    | _ =>
      refine ⟨false, rfl, fun hf => absurd hf Bool.false_ne_true, fun hfits => ?_⟩
      cases hfits
  | objectArray n c =>
    cases s with
    | object a =>
      refine ⟨false, rfl, fun hf => absurd hf Bool.false_ne_true, fun hfits => ?_⟩
      cases hfits with
      | fewer hn _ => cases hn
    | primitiveArray m a =>
      refine ⟨decide (n < m) && isArraySuper c, by simp only [isAssignable], ?_⟩
      rw [Bool.and_eq_true, decide_eq_true_eq]
      constructor
      · rintro ⟨hn, hc⟩
        exact .fewer (Nat.succ_lt_succ hn) hc
      · intro hfits
        cases hfits with
        | fewer hn hc => exact ⟨Nat.lt_of_succ_lt_succ hn, hc⟩
    | objectArray m a =>
      rcases Nat.lt_trichotomy m n with hlt | rfl | hgt
      · refine ⟨false, by simp only [isAssignable, if_pos hlt],
          fun hf => absurd hf Bool.false_ne_true, fun hfits => ?_⟩
        cases hfits with
        | elements _ => exact absurd hlt (Nat.lt_irrefl n)
        | fewer hn _ => exact absurd (Nat.lt_of_succ_lt_succ hn) (Nat.lt_asymm hlt)
      · obtain ⟨found, hfound, hiff⟩ := isAssignableClass_goes hclosed hacyclic hs ht
        refine ⟨found, ?_, hiff.trans ⟨.elements, fun hfits => ?_⟩⟩
        · simp only [isAssignable, Nat.lt_irrefl, if_false, if_true]
          exact hfound
        · cases hfits with
          | elements hab => exact hab
          | fewer hn _ => exact absurd hn (Nat.lt_irrefl _)
      · refine ⟨isArraySuper c, ?_, .fewer (Nat.succ_lt_succ hgt), fun hfits => ?_⟩
        · simp only [isAssignable, if_neg (Nat.lt_asymm hgt), if_neg (Nat.ne_of_gt hgt)]
        · cases hfits with
          | elements _ => exact absurd hgt (Nat.lt_irrefl n)
          | fewer _ hc => exact hc

/-! ## Covariance -/

/-- An array with more dimensions than one of interfaces, and these are none that arrays have. Such
an array has arrays for elements, which go to every interface. -/
inductive Overlooked (h : Hierarchy) : RefType → RefType → Prop
  /-- an array of arrays as an array of an interface -/
  | interfaces {t : RefType} {n : Nat} {c : ClassName} (hn : n + 1 < t.dimensions)
    (hc : h.IsInterface c) (hno : isArraySuper c = false) : Overlooked h t (.objectArray n c)

/-- Every type fits itself. -/
theorem Fits.refl (t : RefType) : h.Fits t t := by
  cases t with
  | object c => exact .object (.inl rfl)
  | primitiveArray n e => exact .primitive n e
  | objectArray n c => exact .elements (.inl rfl)

/-- Fitting is transitive, apart from what is overlooked. -/
theorem Fits.trans (hh : h.Capped) (hst : h.Fits s t) (htu : h.Fits t u)
    (hsu : ¬ h.Overlooked s u) : h.Fits s u := by
  cases hst with
  | object hab =>
    cases htu with
    | object hbc => exact .object (hab.trans hh hbc)
    | array harray _ => cases harray
    | fewer hn _ => cases hn
  | array harray hb =>
    cases htu with
    | object hbc => exact .array harray (hbc.ofArray hh hb)
    | array harray' _ => cases harray'
    | fewer hn _ => cases hn
  | primitive n e => exact htu
  | elements hab =>
    cases htu with
    | array _ hc => exact .array rfl hc
    | elements hbc => exact .elements (hab.trans hh hbc)
    | fewer hn hc => exact .fewer hn hc
  | fewer hn hb =>
    cases htu with
    | array _ hc => exact .array (isArray_of_dimensions (Nat.lt_of_succ_lt hn)) hc
    | @elements _ _ c hbc =>
      -- an interface that arrays do not have is the one place where the middle type is needed
      cases hc : isArraySuper c with
      | true => exact .fewer hn hc
      | false =>
        rcases hbc.ofArray hh (.inl hb) with hsuper | hinterface
        · rw [hsuper] at hc
          cases hc
        · exact absurd (.interfaces hn hinterface hc) hsu
    | fewer hn' hc => exact .fewer (Nat.lt_trans hn' hn) hc

/-- An array has one dimension more than its elements. -/
theorem dimensions_array (t : RefType) : (RefType.array (.ref t)).dimensions = t.dimensions + 1 := by
  cases t <;> rfl

/-- **Arrays along their elements.** -/
theorem fits_array_iff (hst : t.isArray = false →
      ¬ h.Overlooked (.array (.ref s)) (.array (.ref t))) :
    h.Fits (.array (.ref s)) (.array (.ref t)) ↔ h.Fits s t := by
  have hdimensions := dimensions_array s
  cases t with
  | object c =>
    constructor
    · intro hfits
      cases s with
      | object a =>
        cases hfits with
        | elements hab => exact .object hab
        | fewer hn _ => exact absurd hn (Nat.lt_irrefl 1)
      | _ =>
        cases hfits with
        | fewer hn hc => exact .array rfl (.inl hc)
    · intro hfits
      cases hfits with
      | object hab => exact .elements hab
      -- an array fits an interface; one level deeper that is what was overlooked
      | array harray hc =>
        have hn : 0 + 1 < (RefType.array (.ref s)).dimensions := by
          cases s with
          | object _ => cases harray
          | _ => exact Nat.succ_lt_succ (Nat.succ_pos _)
        cases hsuper : isArraySuper c with
        | true => exact .fewer hn hsuper
        | false =>
          rcases hc with hc | hinterface
          · rw [hsuper] at hc
            cases hc
          · exact absurd (.interfaces hn hinterface hsuper) (hst rfl)
  | primitiveArray n e =>
    constructor
    · intro hfits
      cases s with
      | primitiveArray m a =>
        cases hfits
        exact .primitive n e
      | _ => cases hfits
    · intro hfits
      cases hfits
      exact .primitive (n + 1) e
  | objectArray n c =>
    constructor
    · intro hfits
      cases s with
      | object a =>
        cases hfits with
        | fewer hn _ => exact absurd hn (by simp [RefType.array, RefType.dimensions])
      | primitiveArray m a =>
        cases hfits with
        | fewer hn hc => exact .fewer (Nat.lt_of_succ_lt_succ hn) hc
      | objectArray m a =>
        cases hfits with
        | elements hab => exact .elements hab
        | fewer hn hc => exact .fewer (Nat.lt_of_succ_lt_succ hn) hc
    · intro hfits
      cases hfits with
      | elements hab => exact .elements hab
      | fewer hn hc => exact .fewer (by omega) hc

/-- **Arrays are covariant, and assignment is transitive.** Every question is answered. An array may
go where one is wanted just when its elements may; every type may go where it is wanted itself; and
what may go by way of another type may go directly. Nothing is said where an array would go for an
element that is an interface which arrays do not have. -/
theorem isAssignable_covariant (hh : h.Capped) (hs : h.KnowsType s) (ht : h.KnowsType t)
    (hu : h.KnowsType u) :
    (∃ found, h.isAssignable s t = .ok found ∧
      ((t.isArray = false → ¬ h.Overlooked (.array (.ref s)) (.array (.ref t))) →
        h.isAssignable (.array (.ref s)) (.array (.ref t)) = .ok found)) ∧
    h.isAssignable s s = .ok true ∧
    (h.isAssignable s t = .ok true → h.isAssignable t u = .ok true → ¬ h.Overlooked s u →
      h.isAssignable s u = .ok true) := by
  have hanswer {s t : RefType} (hs : h.KnowsType s) (ht : h.KnowsType t) :=
    isAssignable_iff hh.closed hh.acyclic hs ht
  have hyes {s t : RefType} (hs : h.KnowsType s) (ht : h.KnowsType t) :
      h.isAssignable s t = .ok true ↔ h.Fits s t := by
    obtain ⟨found, hfound, hiff⟩ := hanswer hs ht
    rw [hfound, ← hiff, Except.ok.injEq]
  have harray {t : RefType} (ht : h.KnowsType t) : h.KnowsType (.array (.ref t)) := by
    cases t <;> exact ht
  obtain ⟨found, hfound, hiff⟩ := hanswer hs ht
  refine ⟨⟨found, hfound, fun hst => ?_⟩, (hyes hs hs).mpr (.refl s), fun hst htu hsu => ?_⟩
  · obtain ⟨found', hfound', hiff'⟩ := hanswer (harray hs) (harray ht)
    rw [hfound', Except.ok.injEq, Bool.eq_iff_iff, hiff', hiff]
    exact fits_array_iff hst
  · exact (hyes hs hu).mpr (((hyes hs ht).mp hst).trans hh ((hyes ht hu).mp htu) hsu)

/-- Superclasses are declared as they should be if all that arrays have are the root and interfaces. -/
theorem Declared.toCapped (hd : h.Declared)
    (harrays : ∀ c, isArraySuper c = true → c = .object ∨ h.IsInterface c) : h.Capped where
  closed := hd.rooted.closed
  acyclic c hc := hd.rooted.acyclic c (above_of_inherits hc)
  capped := by
    rintro c d hcd hc
    rcases hc.elim .inr (harrays c) with rfl | ⟨info, hinfo, hinterface⟩
    · exact absurd hcd.super (hd.rooted.grounded.top d)
    · obtain ⟨info', hinfo', hsuper⟩ := hcd
      obtain rfl := Option.some.inj (hinfo.symm.trans hinfo')
      exact Option.some.inj (hsuper.symm.trans (hd.interfaces c info hinfo hinterface))

end Hierarchy

namespace Library

theorem isInterface_of_lookup {c : ClassName}
    (hc : (hierarchy.lookup c).any (·.isInterface) = true) : hierarchy.IsInterface c := by
  cases hlookup : hierarchy.lookup c with
  | none => simp [hlookup] at hc
  | some info => exact ⟨info, hlookup, by simpa [hlookup] using hc⟩

theorem capped : hierarchy.Capped := by
  apply listed.declared.toCapped
  intro c hc
  simp only [Hierarchy.isArraySuper, Bool.or_eq_true, decide_eq_true_eq] at hc
  rcases hc with (rfl | rfl) | rfl
  · exact .inl rfl
  · exact .inr (isInterface_of_lookup (by decide +kernel))
  · exact .inr (isInterface_of_lookup (by decide +kernel))

end Library

namespace Hierarchy

open Library in
/-- Tables of numbers, as arrays of objects, and as something that can be written out. -/
theorem isAssignable_covariant_tables :
    hierarchy.isAssignable (.primitiveArray 2 .int) (.objectArray 1 .object) = .ok true ∧
    hierarchy.isAssignable (.primitiveArray 1 .int) (.object .serializable) = .ok true := by
  have hobject : hierarchy.Knows .object := Option.isSome_iff_exists.mp (by decide +kernel)
  have hserializable : hierarchy.Knows .serializable :=
    Option.isSome_iff_exists.mp (by decide +kernel)
  obtain ⟨⟨found, hfound, harray⟩, -, htrans⟩ := isAssignable_covariant capped
    (s := .primitiveArray 1 .int) (t := .objectArray 0 .object) (u := .object .serializable)
    trivial hobject hserializable
  have hfirst : hierarchy.isAssignable (.primitiveArray 1 .int) (.objectArray 0 .object) =
      .ok true := by
    decide +kernel
  have hthen : hierarchy.isAssignable (.objectArray 0 .object) (.object .serializable) =
      .ok true := by
    decide +kernel
  obtain rfl := Except.ok.inj (hfound.symm.trans hfirst)
  exact ⟨harray nofun, htrans hfirst hthen nofun⟩

namespace Declarations

/-- An interface that has for its superclass a class that is not the root. -/
def slanted : Hierarchy where
  types := [⟨.object, none, [], false⟩, ⟨figure, some .object, [], false⟩,
    ⟨round, some figure, [], true⟩, ⟨tile, some .object, [], false⟩]

theorem slanted_closed : slanted.Closed := by
  rintro c d ⟨info, hinfo, hd⟩
  have hall : ∀ info ∈ slanted.types, ∀ d ∈ info.supers, (slanted.lookup d).isSome = true := by
    decide +kernel
  exact Option.isSome_iff_exists.mp (hall info (mem_of_lookup hinfo).1 d hd)

/-- How far from the root a type is, with an interface below a class. -/
def slantedRank (c : ClassName) : Nat :=
  if c = .object then 0 else if c = round then 2 else 1

theorem slanted_acyclic (c : ClassName) : ¬ Relation.TransGen slanted.Inherits c c := by
  have hlower : ∀ info ∈ slanted.types, ∀ d ∈ info.supers,
      slantedRank d < slantedRank info.name := by
    decide +kernel
  exact fun hc => acyclic_of_lower hlower c (above_of_inherits hc)

end Declarations

open Declarations Library in
/-- **Where it breaks.** A tile goes where something round is wanted, since that is an interface; what
is round is a figure by its superclass; but no tile is a figure. And an array of numbers goes where
something is wanted that can be run, while an array of such arrays does not go for an array of what
can be run, not even by way of an array of objects, which does. -/
theorem isAssignable_breaks :
    (slanted.Closed ∧ (∀ c, ¬ Relation.TransGen slanted.Inherits c c) ∧
      slanted.Knows tile ∧ slanted.Knows round ∧ slanted.Knows figure ∧
      slanted.isAssignable (.object tile) (.object round) = .ok true ∧
      slanted.isAssignable (.object round) (.object figure) = .ok true ∧
      slanted.isAssignable (.object tile) (.object figure) = .ok false) ∧
    hierarchy.Closed ∧ (∀ c, ¬ Relation.TransGen hierarchy.Inherits c c) ∧
      hierarchy.Knows runnable ∧ hierarchy.Knows .object ∧
      hierarchy.isAssignable (.primitiveArray 0 .int) (.object runnable) = .ok true ∧
      hierarchy.isAssignable (.array (.ref (.primitiveArray 0 .int))) (.array (.ref (.object runnable))) =
        .ok false ∧
      hierarchy.isAssignable (.primitiveArray 1 .int) (.objectArray 0 .object) = .ok true ∧
      hierarchy.isAssignable (.objectArray 0 .object) (.objectArray 0 runnable) = .ok true := by
  refine ⟨⟨slanted_closed, slanted_acyclic, ?_, ?_, ?_, ?_, ?_, ?_⟩, capped.closed, capped.acyclic,
    ?_, ?_, ?_, ?_, ?_, ?_⟩
  · exact Option.isSome_iff_exists.mp (by decide +kernel)
  · exact Option.isSome_iff_exists.mp (by decide +kernel)
  · exact Option.isSome_iff_exists.mp (by decide +kernel)
  · decide +kernel
  · decide +kernel
  · decide +kernel
  · exact Option.isSome_iff_exists.mp (by decide +kernel)
  · exact Option.isSome_iff_exists.mp (by decide +kernel)
  · decide +kernel
  · decide +kernel
  · decide +kernel
  · decide +kernel

end Hierarchy

end Resumption
