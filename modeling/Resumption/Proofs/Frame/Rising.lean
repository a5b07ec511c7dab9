import Mathlib.Data.Prod.Lex
import Resumption.Proofs.Frame.Order
import Resumption.Proofs.Hierarchy.Walks

/-!
# Frames rise when they are replaced

A merge gives no least upper bound, but what it gives is never beside its first argument: it is that
argument, or strictly above it (`Frame.merge_rises`). This holds in every hierarchy. In the order in
which it is above (`Frame.Rises`), null is below objects, an object is below objects of the classes
above its own (`Hierarchy.Rises`) and below whatever has fewer array dimensions, and everything is
below `top`.

* **`Frame.wellFounded_rises`**: if nothing is above the root, nothing rises for ever. Null has no
  place among the numbers, since objects of any number of dimensions are above it. So the nulls of a
  frame are counted first, and then what is above its other entries.
* **`Frame.climb_lt`**: where the dimensions are bounded, one number is enough, and it says how often
  a frame can still rise.
-/

namespace Resumption

variable {h : Hierarchy}

/-! ## Classes -/

namespace Hierarchy

variable {a b c : ClassName}

/-- Whatever the search meets, what it finds is there. -/
theorem searchSupers_below {target : ClassName} {fuel : Nat} {toVisit seen : List ClassName}
    (hok : h.searchSupers target fuel toVisit seen = .ok true) :
    ∃ c ∈ toVisit, h.Below c target := by
  -- whatever waits to be visited is above a class that waited before
  induction fuel generalizing toVisit seen with
  | zero => cases hok
  | succ fuel ih =>
    cases toVisit with
    | nil => cases hok
    | cons c rest =>
      simp only [searchSupers] at hok
      split at hok
      · rename_i heq
        exact ⟨c, List.mem_cons_self .., heq ▸ .refl⟩
      · obtain ⟨info, hinfo, hok⟩ := Except.bind_ok.mp hok
        obtain ⟨new, henqueue, -, hnew, -⟩ := enqueue_eq info.supers rest seen
        rw [henqueue] at hok
        obtain ⟨d, hd, hbelow⟩ := ih hok
        rcases List.mem_append.mp hd with hd | hd
        · have hsuper : h.Super c d := ⟨info, lookup_of_typeInfo hinfo, (hnew d hd).1⟩
          exact ⟨c, List.mem_cons_self .., .head hsuper hbelow⟩
        · exact ⟨d, List.mem_cons_of_mem _ hd, hbelow⟩

/-- A class that is found above is above. -/
theorem below_of_isSubclass (hok : h.isSubclass a b = .ok true) : h.Below a b := by
  obtain ⟨c, hc, hbelow⟩ := searchSupers_below hok
  rwa [List.mem_singleton.mp hc] at hbelow

/-- Every class is `Object` or rises to it. -/
theorem rises_object (h : Hierarchy) (c : ClassName) : .object = c ∨ h.Rises c .object := by
  by_cases hc : c = .object
  · exact .inl hc.symm
  · exact .inr (.inr ⟨rfl, hc⟩)

/-- The walk along superclasses ends above the class at which it starts, and above the other one; or
it ends at the root. -/
theorem firstSuperOf_below {info : TypeInfo} {fuel : Nat} (hinfo : h.lookup a = some info)
    (hok : h.firstSuperOf b fuel info = .ok c) : (h.Below a c ∧ h.Below b c) ∨ c = .object := by
  induction fuel generalizing a info with
  | zero =>
    cases hok
    exact .inr rfl
  | succ fuel ih =>
    simp only [firstSuperOf] at hok
    split at hok
    · cases hok
      exact .inr rfl
    · rename_i d hsuper
      have hd : h.Super a d := ⟨info, hinfo, by simp [TypeInfo.supers, hsuper]⟩
      obtain ⟨below, hbelow, hok⟩ := Except.bind_ok.mp hok
      cases below with
      | true =>
        cases hok
        exact .inl ⟨.single hd, below_of_isSubclass hbelow⟩
      | false =>
        obtain ⟨next, hnext, hok⟩ := Except.bind_ok.mp hok
        exact (ih (lookup_of_typeInfo hnext) hok).imp_left fun hc => ⟨.head hd hc.1, hc.2⟩

/-- **Classes.** The common superclass is the first class, or strictly above it. -/
theorem commonSuperclass_rises (hok : h.commonSuperclass a b = .ok c) : c = a ∨ h.Rises a c := by
  simp only [commonSuperclass] at hok
  split at hok
  · cases hok
    exact .inl rfl
  obtain ⟨below, hbelow, hok⟩ := Except.bind_ok.mp hok
  cases below with
  | true =>
    cases hok
    exact .inl rfl
  | false =>
    -- the second class is not below the first, so nothing that it is below is
    have hnot : ∀ {c}, h.Below b c → ¬ h.Below c a := fun hbc hca =>
      not_below_of_isSubclass hbelow (hbc.trans hca)
    obtain ⟨above, habove, hok⟩ := Except.bind_ok.mp hok
    cases above with
    | true =>
      cases hok
      exact .inr (.inl ⟨below_of_isSubclass habove, hnot .refl⟩)
    | false =>
      obtain ⟨info, hinfo, hok⟩ := Except.bind_ok.mp hok
      split at hok
      · cases hok
        exact h.rises_object a
      · obtain ⟨info', -, hok⟩ := Except.bind_ok.mp hok
        split at hok
        · cases hok
          exact h.rises_object a
        · rcases firstSuperOf_below (lookup_of_typeInfo hinfo) hok with ⟨hac, hbc⟩ | rfl
          · exact .inr (.inl ⟨hac, hnot hbc⟩)
          · exact h.rises_object a

end Hierarchy

/-! ## Reference types -/

namespace RefType

variable {t u : RefType}

/-- The second type is above the first: its class is, or it has lost dimensions. -/
inductive Rises (h : Hierarchy) : RefType → RefType → Prop
  /-- to a class above -/
  | object {c d : ClassName} (hcd : h.Rises c d) : Rises h (.object c) (.object d)
  /-- to an array of a class above -/
  | elements {n : Nat} {c d : ClassName} (hcd : h.Rises c d) :
    Rises h (.objectArray n c) (.objectArray n d)
  /-- to a type with fewer dimensions -/
  | fewer {t u : RefType} (hfewer : u.dimensions < t.dimensions) : Rises h t u

/-- Rising never adds a dimension. -/
theorem Rises.dimensions_le (htu : Rises h t u) : u.dimensions ≤ t.dimensions := by
  cases htu with
  | object _ => exact Nat.le_refl _
  | elements _ => exact Nat.le_refl _
  | fewer hfewer => exact Nat.le_of_lt hfewer

/-- How much there is above the class of a type. -/
noncomputable def elementHeight (h : Hierarchy) : RefType → Nat
  | .object c | .objectArray _ c => h.height c
  | .primitiveArray _ _ => 0

/-- Heights of elements are bounded by the number of known classes. -/
theorem elementHeight_lt (h : Hierarchy) (t : RefType) :
    t.elementHeight h < h.types.length + 2 := by
  cases t with
  | object c => exact Nat.lt_succ_of_le (h.height_le c)
  | objectArray n c => exact Nat.lt_succ_of_le (h.height_le c)
  | primitiveArray n a => exact Nat.succ_pos _

/-- How often a type can rise: through all classes for each number of dimensions. -/
noncomputable def rank (h : Hierarchy) (t : RefType) : Nat :=
  (h.types.length + 2) * t.dimensions + t.elementHeight h

/-- A type of few dimensions has a small rank. -/
theorem rank_lt_of_dimensions_lt {n : Nat} (h : Hierarchy) (ht : t.dimensions < n) :
    t.rank h < (h.types.length + 2) * n := by
  have hheight := t.elementHeight_lt h
  calc t.rank h < (h.types.length + 2) * t.dimensions + (h.types.length + 2) :=
        Nat.add_lt_add_left hheight _
    _ = (h.types.length + 2) * (t.dimensions + 1) := rfl
    _ ≤ (h.types.length + 2) * n := Nat.mul_le_mul_left _ ht

/-- Rising lowers the rank, so no type rises for ever. -/
theorem Rises.rank_lt (ht : h.Topped) (htu : Rises h t u) : u.rank h < t.rank h := by
  cases htu with
  | object hcd => exact Nat.add_lt_add_left (ht.height_lt hcd) _
  | elements hcd => exact Nat.add_lt_add_left (ht.height_lt hcd) _
  | fewer hfewer => exact Nat.lt_of_lt_of_le (rank_lt_of_dimensions_lt h hfewer) (Nat.le_add_right ..)

/-- Arrays of objects are what remains of arrays of no more dimensions. -/
theorem rises_objectArray {n : Nat} (h : Hierarchy) (c : ClassName) {m : Nat} (hle : m ≤ n) :
    .objectArray m .object = RefType.objectArray n c ∨
      Rises h (.objectArray n c) (.objectArray m .object) := by
  rcases Nat.lt_or_eq_of_le hle with hlt | rfl
  · exact .inr (.fewer (Nat.succ_lt_succ hlt))
  · rcases h.rises_object c with rfl | hrises
    · exact .inl rfl
    · exact .inr (.elements hrises)

/-- What is left of a class that meets an array. -/
theorem rises_class {c : ClassName} {m : RefType}
    (hok : (if c = .cloneable || c = .serializable then .ok (.object c) else
      .ok (.object .object) : Known RefType) = .ok m) : m = .object c ∨ Rises h (.object c) m := by
  split at hok
  · cases hok
    exact .inl rfl
  · cases hok
    rcases h.rises_object c with rfl | hrises
    · exact .inl rfl
    · exact .inr (.object hrises)

/-- What is left of an array that meets a class. -/
theorem rises_array {c : ClassName} {m : RefType} (ht : 0 < t.dimensions)
    (hok : (if c = .cloneable || c = .serializable then .ok (.object c) else
      .ok (.object .object) : Known RefType) = .ok m) : Rises h t m := by
  split at hok
  · cases hok
    exact .fewer ht
  · cases hok
    exact .fewer ht

/-- **Reference types.** The merged type is the first one, or strictly above it. -/
theorem merge_rises {a b m : RefType} (hok : h.merge a b = .ok m) : m = a ∨ Rises h a m := by
  simp only [Hierarchy.merge] at hok
  split at hok
  · cases hok
    exact .inl rfl
  cases a with
  | object c =>
    cases b with
    | object d =>
      obtain ⟨e, he, hok⟩ := Except.bind_ok.mp hok
      cases hok
      rcases Hierarchy.commonSuperclass_rises he with rfl | hrises
      · exact .inl rfl
      · exact .inr (.object hrises)
    | _ => exact rises_class hok
  | objectArray n c =>
    cases b with
    | object d => exact .inr (rises_array (Nat.succ_pos n) hok)
    | objectArray k d =>
      simp only at hok
      split at hok
      · obtain ⟨e, he, hok⟩ := Except.bind_ok.mp hok
        cases hok
        rcases Hierarchy.commonSuperclass_rises he with rfl | hrises
        · exact .inl rfl
        · exact .inr (.elements hrises)
      · cases hok
        exact rises_objectArray h c (Nat.min_le_left n k)
    | primitiveArray k d =>
      cases k with
      | zero =>
        cases hok
        exact .inr (.fewer (Nat.succ_pos n))
      | succ k =>
        cases hok
        exact rises_objectArray h c (Nat.min_le_right k n)
  | primitiveArray n c =>
    -- an array of primitive values loses a dimension to every other type
    cases b with
    | object d => exact .inr (rises_array (Nat.succ_pos n) hok)
    | objectArray k d =>
      cases n with
      | zero =>
        cases hok
        exact .inr (.fewer (Nat.succ_pos 0))
      | succ n =>
        cases hok
        exact .inr (.fewer (by simp only [dimensions]; omega))
    | primitiveArray k d =>
      cases hok
      refine .inr (.fewer ?_)
      simp only [Hierarchy.commonArray]
      split <;> simp only [dimensions] <;> omega

end RefType

/-! ## Types of slots -/

namespace SlotType

variable {t u s : SlotType} {dims : Nat}

/-- The second type is above the first. -/
inductive Rises (h : Hierarchy) : SlotType → SlotType → Prop
  /-- to what is unknown -/
  | top {t : SlotType} (ht : t ≠ .top) : Rises h t .top
  /-- from null to a type of objects -/
  | null (type : RefType) : Rises h .null (.object type)
  /-- to a type above -/
  | object {a b : RefType} (hab : a.Rises h b) : Rises h (.object a) (.object b)

/-- The same type, or one above it. -/
def Reaches (h : Hierarchy) (t u : SlotType) : Prop := t = u ∨ Rises h t u

theorem reaches_top (h : Hierarchy) (t : SlotType) : Reaches h t .top := by
  by_cases ht : t = .top
  · exact .inl ht
  · exact .inr (.top ht)

/-- How often a type that is not null can rise. -/
noncomputable def rank (h : Hierarchy) : SlotType → Nat
  | .top | .null => 0
  | .object type => type.rank h + 1
  | _ => 1

theorem rank_pos (ht : t ≠ .top) (hnull : t ≠ .null) : 0 < t.rank h := by
  cases t with
  | top => exact absurd rfl ht
  | null => exact absurd rfl hnull
  | _ => exact Nat.succ_pos _

theorem Rises.ne_null (htu : Rises h t u) : u ≠ .null := by
  cases htu <;> nofun

/-- What is not null comes to rank less. -/
theorem Rises.rank_lt (htop : h.Topped) (ht : t ≠ .null) (htu : Rises h t u) :
    u.rank h < t.rank h := by
  cases htu with
  | top hne => exact rank_pos hne ht
  | null type => exact absurd rfl ht
  | object hab => exact Nat.succ_lt_succ (hab.rank_lt htop)

/-- Is it null, and if not, how often can it rise? -/
noncomputable def degree (h : Hierarchy) (t : SlotType) : ℕ ×ₗ ℕ :=
  toLex (if t = .null then 1 else 0, t.rank h)

theorem Rises.degree_lt (htop : h.Topped) (htu : Rises h t u) : u.degree h < t.degree h := by
  rw [degree, degree, Prod.Lex.toLex_lt_toLex, if_neg htu.ne_null]
  by_cases ht : t = .null
  · exact .inl (by simp [ht])
  · exact .inr ⟨by simp [ht], htu.rank_lt htop ht⟩

/-- How often a type can rise to types of so many dimensions. -/
noncomputable def climb (h : Hierarchy) (dims : Nat) (t : SlotType) : Nat :=
  if t = .null then (h.types.length + 2) * (dims + 1) + 1 else t.rank h

theorem rank_le (h : Hierarchy) (ht : t.dimensions ≤ dims) :
    t.rank h ≤ (h.types.length + 2) * (dims + 1) := by
  have hpos : 0 < (h.types.length + 2) * (dims + 1) := Nat.mul_pos (Nat.succ_pos _) (Nat.succ_pos _)
  cases t with
  | object type => exact RefType.rank_lt_of_dimensions_lt h (Nat.lt_succ_of_le ht)
  | top | null => exact Nat.zero_le _
  | _ => exact hpos

theorem climb_le (h : Hierarchy) (ht : t.dimensions ≤ dims) :
    t.climb h dims ≤ (h.types.length + 2) * (dims + 1) + 1 := by
  simp only [climb]
  split
  · exact Nat.le_refl _
  · exact Nat.le_succ_of_le (rank_le h ht)

theorem Rises.climb_lt (htop : h.Topped) (hu : u.dimensions ≤ dims) (htu : Rises h t u) :
    u.climb h dims < t.climb h dims := by
  simp only [climb, if_neg htu.ne_null]
  split
  · exact Nat.lt_succ_of_le (rank_le h hu)
  · rename_i ht
    exact htu.rank_lt htop ht

/-- **Types of slots.** The merged type is the first one, or strictly above it. -/
theorem merge_reaches (hok : merge h t u = .ok s) : Reaches h t s := by
  simp only [merge] at hok
  split at hok
  · cases hok
    exact .inl rfl
  split at hok
  · cases hok
    exact .inr (.null _)
  · cases hok
    exact .inl rfl
  · obtain ⟨type, htype, hok⟩ := Except.bind_ok.mp hok
    cases hok
    rcases RefType.merge_rises htype with rfl | hrises
    · exact .inl rfl
    · exact .inr (.object hrises)
  · cases hok
    exact reaches_top h t

/-- Merging brings no more dimensions. -/
theorem merge_dimensions (ht : t.dimensions ≤ dims) (hu : u.dimensions ≤ dims)
    (hok : merge h t u = .ok s) : s.dimensions ≤ dims := by
  rcases merge_reaches hok with rfl | hrises
  · exact ht
  cases hrises with
  | top _ => exact Nat.zero_le _
  | object hab => exact Nat.le_trans hab.dimensions_le ht
  | null type =>
    -- null takes on the type that it meets
    cases u with
    | object type' =>
      cases hok
      exact hu
    | _ => cases hok

end SlotType

/-! ## Frames -/

namespace Frame

variable {f g a b m : Frame} {dims : Nat}

/-- The second frame is above the first: some entries are, and the others are the same. -/
def Rises (h : Hierarchy) (f g : Frame) : Prop :=
  Pointwise (SlotType.Reaches h) f g ∧ f ≠ g

/-- **Replacing.** A merge of frames with as many locals gives the first one, or one strictly above
it. -/
theorem merge_rises (hlength : a.locals.length = b.locals.length) (hok : merge h a b = .ok m)
    (hne : m ≠ a) : Rises h a m := by
  obtain ⟨hdepth, hstack, locals, hlocals, heq⟩ := (merge_iff hlength).mp hok
  -- nothing is said of the second frame: of two classes it is the first whose superclasses are tried
  obtain ⟨hup, -⟩ := forall₂_of_zip (R := SlotType.Reaches h) (S := fun _ _ => True) hdepth hstack
    fun _ _ _ _ _ hs => ⟨SlotType.merge_reaches hs.1, trivial⟩
  obtain ⟨hup', -⟩ := forall₂_of_zip (R := SlotType.Reaches h) (S := fun _ _ => True) hlength hlocals
    fun _ _ _ _ _ hs => ⟨SlotType.merge_reaches hs, trivial⟩
  constructor
  · exact ⟨heq ▸ forall₂_withoutHalves (SlotType.reaches_top h) hup', hup⟩
  · intro heq
    exact hne heq.symm

/-! ### Sums over entries -/

section Sums

variable {R : Type} [AddCommMonoid R] [PartialOrder R] [IsOrderedCancelAddMonoid R]
  {rank : SlotType → R}

/-- What the entries of a frame come to together. -/
def sum (rank : SlotType → R) (f : Frame) : R := (f.locals.map rank).sum + (f.stack.map rank).sum

/-- If some entries come to less and the others are the same, all come to less. -/
theorem sum_lt_of_forall₂ {xs ys : List SlotType}
    (hall : List.Forall₂ (fun t u => t = u ∨ rank u < rank t) xs ys) :
    xs = ys ∨ (ys.map rank).sum < (xs.map rank).sum := by
  induction hall with
  | nil => exact .inl rfl
  | cons hfirst _ ih =>
    simp only [List.map_cons, List.sum_cons]
    rcases hfirst with rfl | hfirst
    · rcases ih with rfl | hrest
      · exact .inl rfl
      · exact .inr (add_lt_add_right hrest _)
    · rcases ih with rfl | hrest
      · exact .inr (add_lt_add_left hfirst _)
      · exact .inr (add_lt_add hfirst hrest)

theorem sum_lt (hall : Pointwise (fun t u => t = u ∨ rank u < rank t) f g) (hne : f ≠ g) :
    sum rank g < sum rank f := by
  obtain ⟨locals, stack⟩ := f
  obtain ⟨locals', stack'⟩ := g
  simp only [sum]
  rcases sum_lt_of_forall₂ hall.locals with rfl | hlocals
  · rcases sum_lt_of_forall₂ hall.stack with rfl | hstack
    · exact absurd rfl hne
    · exact add_lt_add_right hstack _
  · rcases sum_lt_of_forall₂ hall.stack with rfl | hstack
    · exact add_lt_add_left hlocals _
    · exact add_lt_add hlocals hstack

end Sums

theorem Pointwise.imp_of_mem {P Q : SlotType → SlotType → Prop} (hall : Pointwise P f g)
    (himp : ∀ t u, (u ∈ g.locals ∨ u ∈ g.stack) → P t u → Q t u) : Pointwise Q f g := by
  have hlists : ∀ {xs ys : List SlotType}, (∀ u ∈ ys, u ∈ g.locals ∨ u ∈ g.stack) →
      List.Forall₂ P xs ys → List.Forall₂ Q xs ys := by
    intro xs ys hmem hxy
    induction hxy with
    | nil => exact .nil
    | cons hfirst _ ih =>
      have hrest := ih fun u hu => hmem u (List.mem_cons_of_mem _ hu)
      exact .cons (himp _ _ (hmem _ (List.mem_cons_self ..)) hfirst) hrest
  exact ⟨hlists (fun _ => .inl) hall.locals, hlists (fun _ => .inr) hall.stack⟩

/-- **No frame rises for ever.** -/
theorem wellFounded_rises (ht : h.Topped) : WellFounded fun g f => Rises h f g := by
  refine (InvImage.wf (sum (SlotType.degree h)) wellFounded_lt).mono fun g f hfg => ?_
  refine sum_lt (hfg.1.imp_of_mem fun t u _ htu => ?_) hfg.2
  exact htu.imp_right fun hrises => hrises.degree_lt ht

/-- How often a frame can rise to frames with types of so many dimensions. -/
noncomputable def climb (h : Hierarchy) (dims : Nat) (f : Frame) : Nat :=
  sum (SlotType.climb h dims) f

theorem climb_lt (ht : h.Topped) (hdims : g.All (·.dimensions ≤ dims)) (hfg : Rises h f g) :
    g.climb h dims < f.climb h dims := by
  refine sum_lt (hfg.1.imp_of_mem fun t u hu htu => ?_) hfg.2
  exact htu.imp_right fun hrises => hrises.climb_lt ht (hu.elim (hdims.1 u) (hdims.2 u))

/-- The entries can rise one by one. -/
theorem climb_le (h : Hierarchy) (hdims : f.All (·.dimensions ≤ dims)) :
    f.climb h dims ≤ (f.locals.length + f.stack.length) * ((h.types.length + 2) * (dims + 1) + 1) := by
  have hlist : ∀ xs : List SlotType, (∀ t ∈ xs, t.dimensions ≤ dims) →
      (xs.map (SlotType.climb h dims)).sum ≤
        xs.length * ((h.types.length + 2) * (dims + 1) + 1) := by
    intro xs hxs
    have hsum := List.sum_le_card_nsmul (xs.map (SlotType.climb h dims))
      ((h.types.length + 2) * (dims + 1) + 1) fun n hn => by
        obtain ⟨t, ht, rfl⟩ := List.mem_map.mp hn
        exact SlotType.climb_le h (hxs t ht)
    simpa using hsum
  rw [Nat.add_mul]
  exact Nat.add_le_add (hlist f.locals hdims.1) (hlist f.stack hdims.2)

end Frame

end Resumption
