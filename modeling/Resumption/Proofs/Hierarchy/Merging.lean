import Resumption.Proofs.Frame.WellFormed
import Resumption.Proofs.Hierarchy.Subclass

/-!
# Merging reference types

Merging is not associative once interfaces meet, so it is no least upper bound. What holds in every
orderly hierarchy (`Orderly`) is enough for an analysis to settle:

* **`merge_covers`**: both types are under the merged one, in the order `Under`, which is
  transitive (`Under.trans`);
* **`merge_absorbs`**: merging what is already under a type leaves that type unchanged.

Transitivity apart this takes no more than a root (`Rooted`).

`Under` goes along the real subtype relation, but sees in an array of more dimensions nothing but
objects, as merging does.
-/

namespace Resumption

namespace Hierarchy

variable {h : Hierarchy}

/-- A hierarchy in which super types are known and never lead back, and the root is the one class
without a superclass. -/
structure Rooted (h : Hierarchy) : Prop where
  /-- what is above a type is known -/
  closed : h.Closed
  /-- no type is above itself -/
  acyclic : ∀ c, ¬ Relation.TransGen h.Super c c
  /-- only the root extends nothing -/
  root : ∀ c, (∃ info, h.lookup c = some info ∧ info.superclass = none) ↔ c = .object

/-- A hierarchy as a consistent class path gives it: super types are known and never lead back, the
root is the one class without a superclass, and it alone is above the interfaces of arrays. -/
structure Orderly (h : Hierarchy) : Prop where
  /-- what is above a type is known -/
  closed : h.Closed
  /-- no type is above itself -/
  acyclic : ∀ c, ¬ Relation.TransGen h.Super c c
  /-- only the root extends nothing -/
  root : ∀ c, (∃ info, h.lookup c = some info ∧ info.superclass = none) ↔ c = .object
  /-- above what arrays implement there is only the root -/
  cloneable : ∀ c, h.Super .cloneable c → c = .object
  /-- above what arrays implement there is only the root -/
  serializable : ∀ c, h.Super .serializable c → c = .object

/-- An orderly hierarchy is rooted. -/
theorem Orderly.rooted (ho : h.Orderly) : h.Rooted := ⟨ho.closed, ho.acyclic, ho.root⟩

/-- A property that passes from the super types of a known class to the class holds of all. -/
theorem Rooted.induction (hr : h.Rooted) {P : ClassName → Prop}
    (hP : ∀ c, h.Knows c → (∀ d, h.Super c d → P d) → P c) {c : ClassName} (hc : h.Knows c) : P c := by
  let above (x y : {c // h.Knows c}) : Prop := Relation.TransGen h.Super y.1 x.1
  have : Finite {c // h.Knows c} := by
    refine Finite.of_injective (fun x : {c // h.Knows c} => (⟨x.1, mem_names.mpr x.2⟩ : {c // c ∈ h.names}))
      fun x y hxy => Subtype.ext ?_
    exact congrArg (fun z : {c // c ∈ h.names} => z.1) hxy
  have : IsTrans _ above := ⟨fun _ _ _ hxy hyz => hyz.trans hxy⟩
  have : Std.Irrefl above := ⟨fun x => hr.acyclic x.1⟩
  have hwf : WellFounded above := Finite.wellFounded_of_trans_of_irrefl above
  suffices ∀ x : {c // h.Knows c}, P x.1 from this ⟨c, hc⟩
  intro x
  induction x using hwf.induction with
  | _ x ih => exact hP x.1 x.2 fun d hd => ih ⟨d, hr.closed _ _ hd⟩ (.single hd)

/-- A rooted hierarchy knows `Object`. -/
theorem Rooted.knows_object (hr : h.Rooted) : h.Knows .object := by
  obtain ⟨info, hinfo, -⟩ := (hr.root .object).mpr rfl
  exact ⟨info, hinfo⟩

/-- Every known class is below `Object`. -/
theorem Rooted.below_object (hr : h.Rooted) {c : ClassName} (hc : h.Knows c) :
    h.Below c .object := by
  refine hr.induction (P := fun c => h.Below c .object) (fun c ⟨info, hinfo⟩ ih => ?_) hc
  cases hsuper : info.superclass with
  | none => exact (hr.root c).mp ⟨info, hinfo, hsuper⟩ ▸ .refl
  | some d =>
    have hd : h.Super c d := ⟨info, hinfo, by simp [TypeInfo.supers, hsuper]⟩
    exact .head hd (ih d hd)

/-- Nothing but `Object` is above `Object`. -/
theorem Rooted.eq_object (hr : h.Rooted) {c : ClassName} (hc : h.Below .object c) :
    c = .object := by
  cases hc.cases_head with
  | inl heq => exact heq.symm
  | inr hstep =>
    obtain ⟨d, hd, -⟩ := hstep
    have hback := hr.below_object (hr.closed _ _ hd)
    exact absurd (Relation.TransGen.head' hd hback) (hr.acyclic _)

/-- Above the classes that every array is an instance of there are only such classes. -/
theorem Orderly.isArraySuper (ho : h.Orderly) {c d : ClassName} (hc : isArraySuper c = true)
    (hcd : h.Below c d) : isArraySuper d = true := by
  have hobject : ∀ {d}, h.Below .object d → Hierarchy.isArraySuper d = true :=
    fun hd => by rw [ho.rooted.eq_object hd]; rfl
  simp only [Hierarchy.isArraySuper, Bool.or_eq_true, decide_eq_true_eq, or_assoc] at hc
  rcases hcd.cases_head with rfl | ⟨e, he, hed⟩
  · simpa [Hierarchy.isArraySuper, or_assoc] using hc
  · rcases hc with rfl | rfl | rfl
    · exact hobject (.head he hed)
    · rw [ho.cloneable e he] at hed
      exact hobject hed
    · rw [ho.serializable e he] at hed
      exact hobject hed

/-! ## Classes -/

/-- An answer about subclasses is right. -/
theorem isSubclass_ok {sub super : ClassName} {b : Bool} (hr : h.Rooted) (hsub : h.Knows sub)
    (hok : h.isSubclass sub super = .ok b) : b = true ↔ h.Below sub super := by
  obtain ⟨b', hok', hb⟩ := isSubclass_iff hr.closed hsub super
  rw [hok] at hok'
  cases hok'
  exact hb

/-- A class that is below is found to be a subclass. -/
theorem isSubclass_of_below {sub super : ClassName} (hr : h.Rooted) (hsub : h.Knows sub)
    (hbelow : h.Below sub super) : h.isSubclass sub super = .ok true := by
  obtain ⟨b, hok, hb⟩ := isSubclass_iff hr.closed hsub super
  rw [hok, hb.mpr hbelow]

/-- The walk up from a class ends above it and above the other class. -/
theorem firstSuperOf_above (hr : h.Rooted) {a b c : ClassName} {info : TypeInfo}
    (hinfo : h.lookup a = some info) (hb : h.Knows b) {fuel : Nat}
    (hok : h.firstSuperOf b fuel info = .ok c) : h.Below a c ∧ h.Below b c := by
  induction fuel generalizing a info with
  | zero =>
    cases hok
    exact ⟨hr.below_object ⟨info, hinfo⟩, hr.below_object hb⟩
  | succ fuel ih =>
    simp only [firstSuperOf] at hok
    split at hok
    · cases hok
      exact ⟨hr.below_object ⟨info, hinfo⟩, hr.below_object hb⟩
    · rename_i d hsuper
      have hd : h.Super a d := ⟨info, hinfo, by simp [TypeInfo.supers, hsuper]⟩
      obtain ⟨found, hfound, hok⟩ := Except.bind_ok.mp hok
      cases found with
      | true =>
        cases hok
        exact ⟨.single hd, (isSubclass_ok hr hb hfound).mp rfl⟩
      | false =>
        obtain ⟨next, hnext⟩ := hr.closed _ _ hd
        simp only [Bool.false_eq_true, if_false, typeInfo_of_lookup hnext, bind, Except.bind] at hok
        obtain ⟨hdc, hbc⟩ := ih hnext hok
        exact ⟨.head hd hdc, hbc⟩

/-- The common superclass is above both. -/
theorem commonSuperclass_above (hr : h.Rooted) {a b c : ClassName} (ha : h.Knows a)
    (hb : h.Knows b) (hok : h.commonSuperclass a b = .ok c) : h.Below a c ∧ h.Below b c := by
  simp only [commonSuperclass] at hok
  split at hok
  · rename_i heq
    cases hok
    exact ⟨.refl, heq ▸ .refl⟩
  obtain ⟨below, hbelow, hok⟩ := Except.bind_ok.mp hok
  cases below with
  | true =>
    cases hok
    exact ⟨.refl, (isSubclass_ok hr hb hbelow).mp rfl⟩
  | false =>
    obtain ⟨above, habove, hok⟩ := Except.bind_ok.mp hok
    cases above with
    | true =>
      cases hok
      exact ⟨(isSubclass_ok hr ha habove).mp rfl, .refl⟩
    | false =>
      obtain ⟨info, hinfo⟩ := ha
      obtain ⟨info', hinfo'⟩ := id hb
      have hroot : h.Below a .object ∧ h.Below b .object :=
        ⟨hr.below_object ⟨info, hinfo⟩, hr.below_object hb⟩
      simp only [Bool.false_eq_true, if_false, typeInfo_of_lookup hinfo, typeInfo_of_lookup hinfo',
        bind, Except.bind] at hok
      split at hok
      · cases hok
        exact hroot
      split at hok
      · cases hok
        exact hroot
      · exact firstSuperOf_above hr hinfo hb hok

/-- The common superclass of a class and one below it is the class. -/
theorem commonSuperclass_absorbs (hr : h.Rooted) {a b : ClassName} (hb : h.Knows b)
    (hba : h.Below b a) : h.commonSuperclass a b = .ok a := by
  simp only [commonSuperclass]
  split
  · rfl
  · rw [isSubclass_of_below hr hb hba]
    rfl

/-! ## Reference types -/

/-- The classes that a type is made of are known. -/
def KnowsType (h : Hierarchy) : RefType → Prop
  | .object c | .objectArray _ c => h.Knows c
  | .primitiveArray _ _ => True

/-- May a value of the first type be described by the second? -/
inductive Under (h : Hierarchy) : RefType → RefType → Prop
  /-- as classes are below one another -/
  | object {a b : ClassName} (hab : h.Below a b) : Under h (.object a) (.object b)
  /-- as the classes of the elements are below one another -/
  | elements {n : Nat} {a b : ClassName} (hab : h.Below a b) :
    Under h (.objectArray n a) (.objectArray n b)
  /-- an array of a primitive type is under itself -/
  | primitive (n : Nat) (a : BaseType) : Under h (.primitiveArray n a) (.primitiveArray n a)
  /-- arrays are objects -/
  | array {t : RefType} {c : ClassName} (ht : t.isArray = true) (hc : isArraySuper c = true) :
    Under h t (.object c)
  /-- and so are the elements of an array that are arrays -/
  | fewer {t : RefType} {n : Nat} (hn : n + 1 < t.dimensions) : Under h t (.objectArray n .object)

/-- Every type is under itself. -/
theorem Under.refl (t : RefType) : h.Under t t := by
  cases t with
  | object c => exact .object .refl
  | objectArray n c => exact .elements .refl
  | primitiveArray n a => exact .primitive n a

/-- Being under is transitive. -/
theorem Under.trans (ho : h.Orderly) {a b c : RefType} (hab : h.Under a b) (hbc : h.Under b c) :
    h.Under a c := by
  cases hab with
  | object hab =>
    cases hbc with
    | object hbc => exact .object (Relation.ReflTransGen.trans hab hbc)
    | array ht _ => cases ht
    | fewer hn => cases hn
  | elements hab =>
    cases hbc with
    | elements hbc => exact .elements (Relation.ReflTransGen.trans hab hbc)
    | array _ hc => exact .array rfl hc
    | fewer hn => exact .fewer hn
  | primitive n a => exact hbc
  | array ht hb =>
    cases hbc with
    | object hbc => exact .array ht (ho.isArraySuper hb hbc)
    | array ht' _ => cases ht'
    | fewer hn => cases hn
  | fewer hn =>
    cases hbc with
    | elements hbc =>
      rw [ho.rooted.eq_object hbc]
      exact .fewer hn
    | array _ hc =>
      refine .array ?_ hc
      cases a with
      | object _ => cases hn
      | _ => rfl
    | fewer hn' => exact .fewer (Nat.lt_trans hn' hn)

/-- A description of two types that is made of known classes. -/
def Covers (h : Hierarchy) (a b m : RefType) : Prop := h.Under a m ∧ h.Under b m ∧ h.KnowsType m

/-- What covers two types covers them in either order. -/
theorem Covers.symm {a b m : RefType} (hm : h.Covers a b m) : h.Covers b a m := ⟨hm.2.1, hm.1, hm.2.2⟩

/-- What is under an array of objects, from the number of dimensions on. -/
theorem under_objectArray {m n : Nat} {c : ClassName} (hc : h.Below c .object) (hle : n ≤ m) :
    h.Under (.objectArray m c) (.objectArray n .object) := by
  rcases Nat.lt_or_eq_of_le hle with hlt | rfl
  · exact .fewer (Nat.succ_lt_succ hlt)
  · exact .elements hc

/-- The common type of arrays covers them. -/
theorem commonArray_covers (hr : h.Rooted) (m n : Nat) (a b : BaseType) :
    h.Covers (.primitiveArray m a) (.primitiveArray n b) (commonArray m n) := by
  simp only [commonArray]
  split
  · exact ⟨.array rfl rfl, .array rfl rfl, hr.knows_object⟩
  · exact ⟨.fewer (by simp only [RefType.dimensions]; omega),
      .fewer (by simp only [RefType.dimensions]; omega), hr.knows_object⟩

/-- What an array of primitives and one of objects have in common. -/
theorem mixedArrays_covers (hr : h.Rooted) {m n : Nat} {a : BaseType} {c : ClassName} {t : RefType}
    (hc : h.Knows c)
    (hok : (match m with
      | 0 => .ok (.object .object)
      | k + 1 => .ok (.objectArray (min k n) .object) : Known RefType) = .ok t) :
    h.Covers (.primitiveArray m a) (.objectArray n c) t := by
  cases m with
  | zero =>
    cases hok
    exact ⟨.array rfl rfl, .array rfl rfl, hr.knows_object⟩
  | succ k =>
    cases hok
    exact ⟨.fewer (by simp only [RefType.dimensions]; omega),
      under_objectArray (hr.below_object hc) (Nat.min_le_right k n), hr.knows_object⟩

/-- What a class and an array have in common. -/
theorem classAndArray_covers (hr : h.Rooted) {c : ClassName} {t m : RefType} (hc : h.Knows c)
    (ht : t.isArray = true)
    (hok : (if c = .cloneable || c = .serializable then .ok (.object c) else
      .ok (.object .object) : Known RefType) = .ok m) :
    h.Covers (.object c) t m := by
  split at hok
  · rename_i hsuper
    cases hok
    refine ⟨.object .refl, .array ht ?_, hc⟩
    simpa [isArraySuper, or_assoc] using Or.inr hsuper
  · cases hok
    exact ⟨.object (hr.below_object hc), .array ht rfl, hr.knows_object⟩

/-- **Upper bounds.** Both types are under the merged one. -/
theorem merge_covers (hr : h.Rooted) {a b m : RefType} (ha : h.KnowsType a) (hb : h.KnowsType b)
    (hok : h.merge a b = .ok m) : h.Covers a b m := by
  simp only [merge] at hok
  split at hok
  · rename_i heq
    cases hok
    exact ⟨.refl _, heq ▸ .refl _, ha⟩
  cases a with
  | object c =>
    cases b with
    | object d =>
      obtain ⟨e, he, hok⟩ := Except.bind_ok.mp hok
      cases hok
      obtain ⟨hce, hde⟩ := commonSuperclass_above hr ha hb he
      exact ⟨.object hce, .object hde, hce.knows hr.closed ha⟩
    | _ => exact classAndArray_covers hr ha rfl hok
  | objectArray n c =>
    cases b with
    | object d => exact (classAndArray_covers hr hb rfl hok).symm
    | objectArray k d =>
      simp only at hok
      split at hok
      · rename_i hsame
        obtain ⟨e, he, hok⟩ := Except.bind_ok.mp hok
        cases hok
        obtain ⟨hce, hde⟩ := commonSuperclass_above hr ha hb he
        exact ⟨.elements hce, hsame ▸ .elements hde, hce.knows hr.closed ha⟩
      · cases hok
        exact ⟨under_objectArray (hr.below_object ha) (Nat.min_le_left ..),
          under_objectArray (hr.below_object hb) (Nat.min_le_right ..), hr.knows_object⟩
    | primitiveArray k d => exact (mixedArrays_covers hr ha hok).symm
  | primitiveArray n c =>
    cases b with
    | object d => exact (classAndArray_covers hr hb rfl hok).symm
    | objectArray k d => exact mixedArrays_covers hr hb hok
    | primitiveArray k d =>
      cases hok
      exact commonArray_covers hr n k c d

/-- **Absorption.** Merging what is under a type leaves the type unchanged. -/
theorem merge_absorbs (hr : h.Rooted) {a b : RefType} (hb : h.KnowsType b) (hba : h.Under b a) :
    h.merge a b = .ok a := by
  simp only [merge]
  split
  · rfl
  rename_i hne
  cases hba with
  | object hba =>
    simp only [commonSuperclass_absorbs hr hb hba]
    rfl
  | elements hba =>
    simp only [if_true, commonSuperclass_absorbs hr hb hba]
    rfl
  | primitive n a => exact absurd rfl hne
  | @array _ c ht hc =>
    have hmerged : (if c = .cloneable || c = .serializable then .ok (.object c) else
        .ok (.object .object) : Known RefType) = .ok (.object c) := by
      split
      · rfl
      · rename_i hnot
        simp only [isArraySuper, Bool.or_eq_true, decide_eq_true_eq, or_assoc] at hc hnot
        rw [hc.resolve_right hnot]
    cases b with
    | object _ => cases ht
    | _ => exact hmerged
  | @fewer _ n hn =>
    cases b with
    | object _ => cases hn
    | objectArray k c =>
      have hlt : n < k := Nat.lt_of_succ_lt_succ hn
      simp only [if_neg (Nat.ne_of_lt hlt), Nat.min_eq_left (Nat.le_of_lt hlt)]
    | primitiveArray k c =>
      cases k with
      | zero => cases hn with | step hn => cases hn
      | succ k => simp only [Nat.min_eq_right (Nat.le_of_lt_succ (Nat.lt_of_succ_lt_succ hn))]

end Hierarchy

end Resumption
