import Resumption.Proofs.Hierarchy.Walks
import Resumption.Proofs.Hierarchy.Merging

/-!
# Merging in either order

To find what two classes have in common, the superclasses of the first one are tried in turn. That
the second one could as well have come first is not to be seen from that. It holds where interfaces
and classes are kept apart (`Sorted`), because then there is but one way up from a class to a class,
along superclasses (`Below.inherits`), and the two ways meet in one place.

* **`Common`** says what two classes have in common, whichever of them comes first; there is one such
  class (`Common.unique`), and it is what `commonSuperclass` finds (`commonSuperclass_common`).
* **`merge_joins`**: so merging reference types is commutative, gives a type to which both can be
  assigned, and absorbs both.
* **`merge_inherits_interface`**: with an interface in the place of a superclass the order matters.
-/

namespace Resumption.Hierarchy

variable {h : Hierarchy} {a b c d : ClassName}

/-! ## Classes and interfaces kept apart -/

/-- Is the class known to be an interface? -/
def IsInterface (h : Hierarchy) (c : ClassName) : Prop :=
  ∃ info, h.lookup c = some info ∧ info.isInterface = true

/-- The second class is the superclass of the first. -/
def Inherits (h : Hierarchy) (c d : ClassName) : Prop :=
  ∃ info, h.lookup c = some info ∧ info.superclass = some d

/-- A hierarchy with a root in which only interfaces are implemented, and interfaces have no
superclass but the root. -/
structure Declared (h : Hierarchy) : Prop where
  /-- there is one root, and no cycle -/
  rooted : h.Rooted
  /-- what is implemented is an interface -/
  implemented : ∀ c info, h.lookup c = some info → ∀ d ∈ info.interfaces, h.IsInterface d
  /-- interfaces extend the root alone -/
  interfaces : ∀ c info, h.lookup c = some info → info.isInterface = true →
    info.superclass = some .object

/-- In addition no class has an interface for its superclass. -/
structure Sorted (h : Hierarchy) : Prop extends h.Declared where
  /-- what is extended is no interface -/
  superclasses : ∀ c d, h.Inherits c d → ¬ h.IsInterface d

/-- A rooted hierarchy has no cycles. -/
theorem Rooted.grounded (hr : h.Rooted) : h.Grounded where
  acyclic := hr.acyclic
  top c hc := by
    have heq := hr.eq_object (.single hc)
    exact hr.acyclic _ (.single (heq ▸ hc))

/-- The superclass is a direct supertype. -/
theorem Inherits.super (hcd : h.Inherits c d) : h.Super c d := by
  obtain ⟨info, hinfo, hd⟩ := hcd
  exact ⟨info, hinfo, by simp [TypeInfo.supers, hd]⟩

/-- A class has one superclass. -/
theorem Inherits.unique (hcd : h.Inherits c d) {e : ClassName} (hce : h.Inherits c e) : d = e := by
  obtain ⟨info, hinfo, hd⟩ := hcd
  obtain ⟨info', hinfo', he⟩ := hce
  obtain rfl := Option.some.inj (hinfo.symm.trans hinfo')
  exact Option.some.inj (hd.symm.trans he)

/-- Superclasses are above. -/
theorem below_of_inherits (hcd : Relation.ReflTransGen h.Inherits c d) : h.Below c d :=
  Relation.ReflTransGen.mono (fun _ _ => Inherits.super) _ _ hcd

/-- Proper superclasses are properly above. -/
theorem above_of_inherits (hcd : Relation.TransGen h.Inherits c d) :
    Relation.TransGen h.Super c d :=
  Relation.TransGen.mono (fun _ _ => Inherits.super) _ _ hcd

/-- Above an interface there are interfaces and the root. -/
theorem Declared.below_interface (hd : h.Declared) (hc : h.IsInterface c) (hcd : h.Below c d) :
    h.IsInterface d ∨ d = .object := by
  induction hcd with
  | refl => exact .inl hc
  | tail _ hstep ih =>
    obtain ⟨info, hinfo, hmem⟩ := hstep
    rcases ih with hinterface | rfl
    · obtain ⟨info', hinfo', hflag⟩ := hinterface
      obtain rfl := Option.some.inj (hinfo.symm.trans hinfo')
      simp only [TypeInfo.supers, hd.interfaces _ _ hinfo hflag, Option.toList_some,
        List.singleton_append, List.mem_cons] at hmem
      rcases hmem with rfl | hmem
      · exact .inr rfl
      · exact .inl (hd.implemented _ _ hinfo _ hmem)
    · exact absurd ⟨info, hinfo, hmem⟩ (hd.rooted.grounded.top _)

/-- Every known class inherits from `Object`. -/
theorem Rooted.inherits_object (hr : h.Rooted) (hc : h.Knows c) :
    Relation.ReflTransGen h.Inherits c .object := by
  refine hr.induction (P := fun c => Relation.ReflTransGen h.Inherits c .object)
    (fun c ⟨info, hinfo⟩ ih => ?_) hc
  cases hsuper : info.superclass with
  | none => exact (hr.root c).mp ⟨info, hinfo, hsuper⟩ ▸ .refl
  | some d =>
    have hcd : h.Inherits c d := ⟨info, hinfo, hsuper⟩
    exact .head hcd (ih d hcd.super)

/-- **The way to a class** goes along superclasses. -/
theorem Below.inherits (hd : h.Declared) (hcd : h.Below c d) (hc : h.Knows c)
    (hclass : ¬ h.IsInterface d) : Relation.ReflTransGen h.Inherits c d := by
  induction hcd using Relation.ReflTransGen.head_induction_on with
  | refl => exact .refl
  | head hstep hrest ih =>
    rename_i e _
    have he := hd.rooted.closed _ _ hstep
    obtain ⟨info, hinfo, hmem⟩ := hstep
    rcases List.mem_append.mp hmem with hsuper | himplemented
    · exact .head ⟨info, hinfo, by simpa using hsuper⟩ (ih he)
    · -- from an interface no class but the root is reached
      have hinterface := hd.implemented _ _ hinfo _ himplemented
      rcases hd.below_interface hinterface hrest with hagain | rfl
      · exact absurd hagain hclass
      · exact hd.rooted.inherits_object hc

/-! ## What two classes have in common -/

/-- What two classes have in common: the higher one if there is one, else the first superclass of
both, of which interfaces have none but the root. -/
inductive Common (h : Hierarchy) (a b : ClassName) : ClassName → Prop
  /-- the first one, if the other is below it -/
  | first (hba : h.Below b a) : Common h a b a
  /-- the second one, if the other is below it -/
  | second (hab : h.Below a b) : Common h a b b
  /-- the root, if one is an interface -/
  | interface (hab : ¬ h.Below a b) (hba : ¬ h.Below b a) (h' : h.IsInterface a ∨ h.IsInterface b) :
    Common h a b .object
  /-- the first superclass that is above both -/
  | superclass {c : ClassName} (hab : ¬ h.Below a b) (hba : ¬ h.Below b a)
    (ha : ¬ h.IsInterface a) (hb : ¬ h.IsInterface b) (hac : Relation.TransGen h.Inherits a c)
    (hbc : Relation.TransGen h.Inherits b c)
    (least : ∀ d, Relation.TransGen h.Inherits a d → Relation.TransGen h.Inherits b d →
      Relation.ReflTransGen h.Inherits c d) : Common h a b c

/-- A common superclass is one in either order. -/
theorem Common.symm (hc : h.Common a b c) : h.Common b a c := by
  cases hc with
  | first hba => exact .second hba
  | second hab => exact .first hab
  | interface hab hba h' => exact .interface hba hab h'.symm
  | superclass hab hba ha hb hac hbc least =>
    exact .superclass hba hab hb ha hbc hac fun d hbd had => least d had hbd

/-- Below each other are only classes that are the same. -/
theorem Rooted.antisymm (hr : h.Rooted) (hcd : h.Below c d) (hdc : h.Below d c) : c = d := by
  rcases Relation.reflTransGen_iff_eq_or_transGen.mp hcd with heq | hcd
  · exact heq.symm
  · exact absurd (hcd.trans_left hdc) (hr.acyclic c)

/-- Two classes have one common superclass. -/
theorem Common.unique (hr : h.Rooted) (hc : h.Common a b c) (hd : h.Common a b d) : c = d := by
  cases hc with
  | first hba =>
    cases hd with
    | first => rfl
    | second hab => exact hr.antisymm hab hba
    | interface _ hnot _ => exact absurd hba hnot
    | superclass _ hnot => exact absurd hba hnot
  | second hab =>
    cases hd with
    | first hba => exact hr.antisymm hba hab
    | second => rfl
    | interface hnot _ _ => exact absurd hab hnot
    | superclass hnot => exact absurd hab hnot
  | interface hab hba h' =>
    cases hd with
    | first hnot => exact absurd hnot hba
    | second hnot => exact absurd hnot hab
    | interface => rfl
    | superclass _ _ ha hb => exact absurd h' (not_or.mpr ⟨ha, hb⟩)
  | superclass hab hba ha hb hac hbc least =>
    cases hd with
    | first hnot => exact absurd hnot hba
    | second hnot => exact absurd hnot hab
    | interface _ _ h' => exact absurd h' (not_or.mpr ⟨ha, hb⟩)
    | superclass _ _ _ _ had hbd least' =>
      exact hr.antisymm (below_of_inherits (least _ had hbd)) (below_of_inherits (least' _ hac hbc))

/-- **The walk up** from a class finds the first of its superclasses that the other class is below. -/
theorem firstSuperOf_least (hr : h.Rooted) {info : TypeInfo} (hinfo : h.lookup a = some info)
    (hb : h.Knows b) (hroot : a ≠ .object) {fuel : Nat} (hfuel : h.height a ≤ fuel) :
    ∃ c, h.firstSuperOf b fuel info = .ok c ∧ Relation.TransGen h.Inherits a c ∧ h.Below b c ∧
      ∀ d, Relation.TransGen h.Inherits a d → h.Below b d → Relation.ReflTransGen h.Inherits c d := by
  -- each step goes to the superclass, whose height is less
  induction fuel generalizing a info with
  | zero => exact absurd (Nat.le_zero.mp hfuel) (Nat.pos_iff_ne_zero.mp (height_pos ⟨info, hinfo⟩))
  | succ fuel ih =>
    cases hsuper : info.superclass with
    | none => exact absurd ((hr.root a).mp ⟨info, hinfo, hsuper⟩) hroot
    | some e =>
      have hae : h.Inherits a e := ⟨info, hinfo, hsuper⟩
      obtain ⟨next, hnext⟩ := hr.closed _ _ hae.super
      obtain ⟨found, hfound, hbelow⟩ := isSubclass_iff hr.closed hb e
      cases found with
      | true =>
        refine ⟨e, ?_, .single hae, hbelow.mp rfl, ?_⟩
        · simp only [firstSuperOf, hsuper, hfound, bind, Except.bind]
          rfl
        · intro d had _
          obtain ⟨e', hae', hed⟩ := Relation.TransGen.head'_iff.mp had
          exact hae.unique hae' ▸ hed
      | false =>
        have hnot : ¬ h.Below b e := fun hbe => by cases hbelow.mpr hbe
        have he : e ≠ .object := by
          rintro rfl
          exact hnot (hr.below_object hb)
        have hless := hr.grounded.top.height_lt (hr.grounded.rises (.single hae.super))
        obtain ⟨c, hc, hec, hbc, hleast⟩ := ih hnext he (by omega)
        refine ⟨c, ?_, .head hae hec, hbc, ?_⟩
        · simp only [firstSuperOf, hsuper, hfound, typeInfo_of_lookup hnext, bind, Except.bind]
          exact hc
        · intro d had hbd
          obtain ⟨e', hae', hed⟩ := Relation.TransGen.head'_iff.mp had
          obtain rfl := hae.unique hae'
          rcases Relation.reflTransGen_iff_eq_or_transGen.mp hed with rfl | hed
          · exact absurd hbd hnot
          · exact hleast d hed hbd

/-- No interface is a superclass. -/
theorem Sorted.not_interface_of_inherits (hs : h.Sorted)
    (hcd : Relation.TransGen h.Inherits c d) : ¬ h.IsInterface d := by
  obtain ⟨e, -, hed⟩ := Relation.TransGen.tail'_iff.mp hcd
  exact hs.superclasses e d hed

/-- A class that is not below the other has a way up to what both are below. -/
theorem Sorted.above_of_not_below (hs : h.Sorted) (ha : h.Knows a) (hac : h.Below a c)
    (hcb : Relation.TransGen h.Inherits b c) (hba : ¬ h.Below b a) :
    Relation.TransGen h.Inherits a c := by
  have hway := hac.inherits hs.toDeclared ha (hs.not_interface_of_inherits hcb)
  rcases Relation.reflTransGen_iff_eq_or_transGen.mp hway with rfl | hway
  · exact absurd (below_of_inherits hcb.to_reflTransGen) hba
  · exact hway

/-- **What is found** is what the classes have in common. -/
theorem commonSuperclass_common (hs : h.Sorted) (ha : h.Knows a) (hb : h.Knows b) :
    ∃ c, h.commonSuperclass a b = .ok c ∧ h.Common a b c := by
  have hr := hs.rooted
  obtain ⟨below, hbelow, hba⟩ := isSubclass_iff hr.closed hb a
  obtain ⟨above, habove, hab⟩ := isSubclass_iff hr.closed ha b
  by_cases heq : a = b
  · subst heq
    exact ⟨a, if_pos rfl, .first .refl⟩
  obtain ⟨info, hinfo⟩ := id ha
  obtain ⟨info', hinfo'⟩ := id hb
  simp only [commonSuperclass, if_neg heq, hbelow, habove, typeInfo_of_lookup hinfo,
    typeInfo_of_lookup hinfo', bind, Except.bind]
  cases below with
  | true => exact ⟨a, rfl, .first (hba.mp rfl)⟩
  | false =>
    have hnotba : ¬ h.Below b a := fun hbelow => by cases hba.mpr hbelow
    cases above with
    | true => exact ⟨b, rfl, .second (hab.mp rfl)⟩
    | false =>
      have hnotab : ¬ h.Below a b := fun hbelow => by cases hab.mpr hbelow
      simp only [Bool.false_eq_true, if_false]
      split
      · rename_i hinterface
        exact ⟨.object, rfl, .interface hnotab hnotba (.inl ⟨info, hinfo, hinterface⟩)⟩
      · rename_i hclass
        split
        · rename_i hinterface
          exact ⟨.object, rfl, .interface hnotab hnotba (.inr ⟨info', hinfo', hinterface⟩)⟩
        · rename_i hclass'
          have hroot : a ≠ .object := by
            rintro rfl
            exact hnotba (hr.below_object hb)
          obtain ⟨c, hc, hac, hbc, hleast⟩ := firstSuperOf_least hr hinfo hb hroot (h.height_le a)
          refine ⟨c, hc, .superclass hnotab hnotba ?_ ?_ hac
            (hs.above_of_not_below hb hbc hac hnotab) ?_⟩
          · rintro ⟨i, hi, hinterface⟩
            exact hclass (Option.some.inj (hi.symm.trans hinfo) ▸ hinterface)
          · rintro ⟨i, hi, hinterface⟩
            exact hclass' (Option.some.inj (hi.symm.trans hinfo') ▸ hinterface)
          · intro d had hbd
            exact hleast d had (below_of_inherits hbd.to_reflTransGen)

/-- The order of classes does not matter for their common superclass. -/
theorem commonSuperclass_comm (hs : h.Sorted) (ha : h.Knows a) (hb : h.Knows b) :
    h.commonSuperclass a b = h.commonSuperclass b a := by
  obtain ⟨c, hc, hcommon⟩ := commonSuperclass_common hs ha hb
  obtain ⟨d, hd, hcommon'⟩ := commonSuperclass_common hs hb ha
  rw [hc, hd, hcommon.unique hs.rooted hcommon'.symm]

/-! ## Assignment -/

theorem hasSuperclass_of_inherits (hr : h.Rooted) {info : TypeInfo} (hinfo : h.lookup a = some info)
    (hac : Relation.TransGen h.Inherits a c) {fuel : Nat} (hfuel : h.height a ≤ fuel) :
    h.hasSuperclass c fuel info = .ok true := by
  induction fuel generalizing a info with
  | zero => exact absurd (Nat.le_zero.mp hfuel) (Nat.pos_iff_ne_zero.mp (height_pos ⟨info, hinfo⟩))
  | succ fuel ih =>
    obtain ⟨e, hae, hec⟩ := Relation.TransGen.head'_iff.mp hac
    obtain ⟨next, hnext⟩ := hr.closed _ _ hae.super
    obtain ⟨info', hinfo', hsuper⟩ := id hae
    obtain rfl := Option.some.inj (hinfo.symm.trans hinfo')
    simp only [hasSuperclass, hsuper]
    split
    · rfl
    · rename_i hne
      have hless := hr.grounded.top.height_lt (hr.grounded.rises (.single hae.super))
      rw [typeInfo_of_lookup hnext]
      rcases Relation.reflTransGen_iff_eq_or_transGen.mp hec with rfl | hec
      · exact absurd rfl hne
      · exact ih hnext hec (by omega)

/-- What is below a class can be assigned to it. -/
theorem isAssignableClass_of_below (hd : h.Declared) (ha : h.Knows a) (hc : h.Knows c)
    (hac : h.Below a c) : h.isAssignableClass a c = .ok true := by
  obtain ⟨info, hinfo⟩ := id ha
  obtain ⟨info', hinfo'⟩ := hc
  simp only [isAssignableClass]
  split
  · rfl
  · rename_i hne
    simp only [typeInfo_of_lookup hinfo, typeInfo_of_lookup hinfo', bind, Except.bind]
    split
    · rfl
    · rename_i hclass
      have hnot : ¬ h.IsInterface c := by
        rintro ⟨i, hi, hinterface⟩
        exact hclass (Option.some.inj (hi.symm.trans hinfo') ▸ hinterface)
      rcases Relation.reflTransGen_iff_eq_or_transGen.mp (hac.inherits hd ha hnot) with rfl | hway
      · simp at hne
      · exact hasSuperclass_of_inherits hd.rooted hinfo hway (h.height_le a)

/-- What is under a type can be assigned to it. -/
theorem isAssignable_of_under (hd : h.Declared) {t u : RefType} (ht : h.KnowsType t)
    (hu : h.KnowsType u) (htu : h.Under t u) : h.isAssignable t u = .ok true := by
  cases htu with
  | object hab => exact isAssignableClass_of_below hd ht hu hab
  | elements hab =>
    simp only [isAssignable, Nat.lt_irrefl, if_false, if_true]
    exact isAssignableClass_of_below hd ht hu hab
  | primitive n e => simp [isAssignable]
  | array hisArray hc =>
    cases t with
    | object _ => cases hisArray
    | _ => simp [isAssignable, hc]
  | @fewer _ n hn =>
    cases t with
    | object _ => cases hn
    | objectArray k e =>
      have hlt : n < k := Nat.lt_of_succ_lt_succ hn
      simp only [isAssignable, if_neg (Nat.lt_asymm hlt), if_neg (Nat.ne_of_gt hlt)]
      rfl
    | primitiveArray k e =>
      have hlt : n < k := Nat.lt_of_succ_lt_succ hn
      simp only [isAssignable, hlt, decide_true, Bool.true_and]
      rfl

/-! ## Reference types -/

/-- What a class and an array have in common does not depend on which comes first, nor do two arrays
of different kinds; so it is all left to classes. -/
theorem merge_comm (hs : h.Sorted) {t u : RefType} (ht : h.KnowsType t) (hu : h.KnowsType u) :
    h.merge t u = h.merge u t := by
  by_cases heq : t = u
  · rw [heq]
  have heq' : u ≠ t := fun h => heq h.symm
  simp only [merge, if_neg heq, if_neg heq']
  cases t with
  | object c =>
    cases u with
    | object d => simp only [commonSuperclass_comm hs ht hu]
    | _ => rfl
  | objectArray n c =>
    cases u with
    | object d => rfl
    | objectArray m d =>
      by_cases hdim : n = m
      · subst hdim
        simp only [commonSuperclass_comm hs ht hu]
      · have hdim' : ¬ m = n := fun heq => hdim heq.symm
        simp only [if_neg hdim, if_neg hdim', Nat.min_comm]
    | primitiveArray m d => rfl
  | primitiveArray n c =>
    cases u with
    | object d => rfl
    | objectArray m d => rfl
    | primitiveArray m d => simp only [commonArray, Nat.min_comm]

/-- Known types can be merged. -/
theorem merge_ok (hs : h.Sorted) {t u : RefType} (ht : h.KnowsType t) (hu : h.KnowsType u) :
    ∃ m, h.merge t u = .ok m := by
  simp only [merge]
  split
  · exact ⟨t, rfl⟩
  cases t with
  | object c =>
    cases u with
    | object d =>
      obtain ⟨e, he, -⟩ := commonSuperclass_common hs ht hu
      exact ⟨.object e, by simp only [he, bind, Except.bind]; rfl⟩
    | _ => simp only; split <;> exact ⟨_, rfl⟩
  | objectArray n c =>
    cases u with
    | object d => simp only; split <;> exact ⟨_, rfl⟩
    | objectArray m d =>
      simp only
      split
      · obtain ⟨e, he, -⟩ := commonSuperclass_common hs ht hu
        exact ⟨.objectArray n e, by simp only [he, bind, Except.bind]; rfl⟩
      · exact ⟨_, rfl⟩
    | primitiveArray m d => cases m <;> exact ⟨_, rfl⟩
  | primitiveArray n c =>
    cases u with
    | object d => simp only; split <;> exact ⟨_, rfl⟩
    | objectArray m d => cases n <;> exact ⟨_, rfl⟩
    | primitiveArray m d => exact ⟨_, rfl⟩

/-- **A commutative upper bound that absorbs.** Two types that are made of known classes have one type
in common, in whatever order they come. Both can be assigned to it, and merging it with either of
them again gives it back. -/
theorem merge_joins (hs : h.Sorted) {t u : RefType} (ht : h.KnowsType t) (hu : h.KnowsType u) :
    (∃ m, h.merge t u = .ok m ∧ h.merge u t = .ok m ∧
      h.isAssignable t m = .ok true ∧ h.isAssignable u m = .ok true ∧
      h.merge m t = .ok m ∧ h.merge m u = .ok m ∧ h.merge t m = .ok m ∧ h.merge u m = .ok m) ∧
    h.merge t t = .ok t := by
  refine ⟨?_, by simp only [merge, if_true]⟩
  obtain ⟨m, hm⟩ := merge_ok hs ht hu
  obtain ⟨htm, hum, hknown⟩ := merge_covers hs.rooted ht hu hm
  have hmt := merge_absorbs hs.rooted ht htm
  have hmu := merge_absorbs hs.rooted hu hum
  refine ⟨m, hm, (merge_comm hs hu ht).trans hm, isAssignable_of_under hs.toDeclared ht hknown htm,
    isAssignable_of_under hs.toDeclared hu hknown hum, hmt, hmu, ?_, ?_⟩
  · exact (merge_comm hs ht hknown).trans hmt
  · exact (merge_comm hs hu hknown).trans hmu

/-! ## Hierarchies given as lists -/

/-- No class is above itself if numbers go down on the way up. -/
theorem acyclic_of_lower {rank : ClassName → Nat}
    (hlower : ∀ info ∈ h.types, ∀ d ∈ info.supers, rank d < rank info.name) (c : ClassName) :
    ¬ Relation.TransGen h.Super c c := by
  have hstep : ∀ {c d}, h.Super c d → rank d < rank c := by
    rintro c d ⟨info, hinfo, hd⟩
    obtain ⟨hmem, rfl⟩ := mem_of_lookup hinfo
    exact hlower info hmem d hd
  have hway : ∀ {d}, Relation.TransGen h.Super c d → rank d < rank c := by
    intro d hd
    induction hd with
    | single hcd => exact hstep hcd
    | tail _ hcd ih => exact Nat.lt_trans (hstep hcd) ih
  exact fun hc => Nat.lt_irrefl _ (hway hc)

/-- What is declared about classes one by one, with numbers that go down on the way up. -/
structure Listed (h : Hierarchy) (rank : ClassName → Nat) : Prop where
  /-- the root extends nothing -/
  root : h.lookup .object = some ⟨.object, none, [], false⟩
  /-- what is above a type is known -/
  known : ∀ info ∈ h.types, ∀ d ∈ info.supers, (h.lookup d).isSome = true
  /-- and nearer to the root -/
  lower : ∀ info ∈ h.types, ∀ d ∈ info.supers, rank d < rank info.name
  /-- only the root extends nothing -/
  rootless : ∀ info ∈ h.types, info.superclass = none → info.name = .object
  /-- what is implemented is an interface -/
  implemented : ∀ info ∈ h.types, ∀ d ∈ info.interfaces,
    (h.lookup d).any (·.isInterface) = true
  /-- interfaces extend the root -/
  interfaces : ∀ info ∈ h.types, info.isInterface = true → info.superclass = some .object

theorem Listed.declared {rank : ClassName → Nat} (hl : h.Listed rank) : h.Declared where
  rooted := {
    closed := by
      rintro c d ⟨info, hinfo, hd⟩
      exact Option.isSome_iff_exists.mp (hl.known info (mem_of_lookup hinfo).1 d hd)
    acyclic := acyclic_of_lower hl.lower
    root := by
      intro c
      constructor
      · rintro ⟨info, hinfo, hnone⟩
        obtain ⟨hmem, rfl⟩ := mem_of_lookup hinfo
        exact hl.rootless info hmem hnone
      · rintro rfl
        exact ⟨_, hl.root, rfl⟩ }
  implemented := by
    intro c info hinfo d hd
    have hany := hl.implemented info (mem_of_lookup hinfo).1 d hd
    cases hlookup : h.lookup d with
    | none => simp [hlookup] at hany
    | some found => exact ⟨found, hlookup, by simpa [hlookup] using hany⟩
  interfaces := by
    intro c info hinfo hflag
    exact hl.interfaces info (mem_of_lookup hinfo).1 hflag

namespace Declarations

/-- A class, or an interface that is made to look like one. -/
def figure : ClassName := { text := "Figure" }
/-- An interface. -/
def round : ClassName := { text := "Round" }
/-- A class below the figures. -/
def disc : ClassName := { text := "Disc" }
/-- Another class. -/
def tile : ClassName := { text := "Tile" }

/-- How far from the root a type is, with figures right below the root. -/
def rank (c : ClassName) : Nat := if c = .object then 0 else if c = figure then 1 else 2

/-- Two classes with a superclass in common, one of which implements an interface. -/
def figures : Hierarchy where
  types := [⟨.object, none, [], false⟩, ⟨round, some .object, [], true⟩,
    ⟨figure, some .object, [], false⟩, ⟨disc, some figure, [round], false⟩,
    ⟨tile, some figure, [], false⟩]

/-- A class that has for its superclass the interface that another one implements. -/
def tangled : Hierarchy where
  types := [⟨.object, none, [], false⟩, ⟨figure, some .object, [], true⟩,
    ⟨disc, some figure, [], false⟩, ⟨tile, some .object, [figure], false⟩]

/-- How far from the root a type is, with the interface right below the root as well. -/
def figuresRank (c : ClassName) : Nat :=
  if c = .object then 0 else if c = figure ∨ c = round then 1 else 2

theorem figures_listed : figures.Listed figuresRank := by
  constructor <;> decide +kernel

theorem tangled_listed : tangled.Listed rank := by
  constructor <;> decide +kernel

theorem figures_sorted : figures.Sorted where
  toDeclared := figures_listed.declared
  superclasses := by
    rintro c d ⟨info, hinfo, hd⟩ ⟨found, hfound, hinterface⟩
    have hall : ∀ info ∈ figures.types, info.superclass.all fun d =>
        !(figures.lookup d).any (·.isInterface) := by
      decide +kernel
    have hclass := hall info (mem_of_lookup hinfo).1
    simp [hd, hfound, hinterface] at hclass

end Declarations

open Declarations in
/-- Arrays of the two classes that have a superclass in common. -/
theorem merge_joins_figures : ∃ m,
    figures.merge (.objectArray 0 disc) (.objectArray 0 tile) = .ok m ∧
    figures.merge (.objectArray 0 tile) (.objectArray 0 disc) = .ok m ∧
    figures.isAssignable (.objectArray 0 tile) m = .ok true ∧ m = .objectArray 0 figure := by
  have hdisc : figures.Knows disc := Option.isSome_iff_exists.mp (by decide +kernel)
  have htile : figures.Knows tile := Option.isSome_iff_exists.mp (by decide +kernel)
  obtain ⟨⟨m, hm, hm', -, hassign, -⟩, -⟩ := merge_joins figures_sorted
    (t := .objectArray 0 disc) (u := .objectArray 0 tile) hdisc htile
  have hfigure : figures.merge (.objectArray 0 disc) (.objectArray 0 tile) =
      .ok (.objectArray 0 figure) := by
    decide +kernel
  exact ⟨m, hm, hm', hassign, Except.ok.inj (hm.symm.trans hfigure)⟩

open Declarations in
/-- **Interfaces as superclasses.** The walk up from the class that inherits the interface meets it at
once; the walk up from the class that implements it never does. So the two orders give different
types, although the hierarchy is declared as it should be in all else. -/
theorem merge_inherits_interface : tangled.Declared ∧ tangled.Knows disc ∧ tangled.Knows tile ∧
    tangled.merge (.object disc) (.object tile) = .ok (.object figure) ∧
    tangled.merge (.object tile) (.object disc) = .ok (.object .object) := by
  refine ⟨tangled_listed.declared, ?_, ?_, ?_, ?_⟩
  · exact Option.isSome_iff_exists.mp (by decide +kernel)
  · exact Option.isSome_iff_exists.mp (by decide +kernel)
  · decide +kernel
  · decide +kernel

end Resumption.Hierarchy
