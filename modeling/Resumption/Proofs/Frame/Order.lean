import Resumption.Proofs.Frame.WellFormed
import Resumption.Proofs.Hierarchy.Merging

/-!
# Orders of frames

Frames are compared entry by entry (`Frame.Pointwise`), in an order of slot types that has `top`
above everything.

* **`merge_iff`** says what merging two frames of one size does to their entries.
* **`merge_pointwise`**: if merging slot types gives something above both, so does merging frames.
* **`SlotType.Under`** is the order for which merging absorbs: a frame under another can be merged
  into it without a change (`Frame.merge_absorbs`).
-/

namespace Resumption

/-! ## Lists -/

/-- A traversal succeeds if and only if every step does. -/
theorem mapM_ok_iff {ε α β : Type} {f : α → Except ε β} {xs : List α} {ys : List β} :
    xs.mapM f = .ok ys ↔ List.Forall₂ (fun x y => f x = .ok y) xs ys := by
  induction xs generalizing ys with
  | nil =>
    rw [List.forall₂_nil_left_iff]
    exact ⟨fun h => by cases h; rfl, fun h => by rw [h]; rfl⟩
  | cons x xs ih =>
    rw [List.mapM_cons, Except.bind_ok, List.forall₂_cons_left_iff]
    constructor
    · rintro ⟨y, hy, h⟩
      obtain ⟨ys', hys, h⟩ := Except.bind_ok.mp h
      cases h
      exact ⟨y, ys', hy, ih.mp hys, rfl⟩
    · rintro ⟨y, ys', hy, hys, rfl⟩
      exact ⟨y, hy, Except.bind_ok.mpr ⟨ys', ih.mpr hys, rfl⟩⟩

/-- Pairs that are related to a list, one side at a time. -/
theorem forall₂_of_zip {α β γ : Type} {P : α × β → γ → Prop} {R : α → γ → Prop} {S : β → γ → Prop}
    {xs : List α} {ys : List β} {zs : List γ} (hlength : xs.length = ys.length)
    (hzs : List.Forall₂ P (xs.zip ys) zs)
    (hP : ∀ x ∈ xs, ∀ y ∈ ys, ∀ z, P (x, y) z → R x z ∧ S y z) :
    List.Forall₂ R xs zs ∧ List.Forall₂ S ys zs := by
  induction xs generalizing ys zs with
  | nil =>
    obtain rfl := List.length_eq_zero_iff.mp hlength.symm
    cases hzs
    exact ⟨.nil, .nil⟩
  | cons x xs ih =>
    cases ys with
    | nil => cases hlength
    | cons y ys =>
      cases hzs with
      | cons hfirst hrest =>
        obtain ⟨hx, hy⟩ := hP x (List.mem_cons_self ..) y (List.mem_cons_self ..) _ hfirst
        obtain ⟨hxs, hys⟩ := ih (Nat.succ.inj hlength) hrest fun x hx y hy =>
          hP x (List.mem_cons_of_mem _ hx) y (List.mem_cons_of_mem _ hy)
        exact ⟨.cons hx hxs, .cons hy hys⟩

theorem forall₂_zip_self {α β : Type} {P : α × β → α → Prop} {R : β → α → Prop} {xs : List α}
    {ys : List β} (h : List.Forall₂ R ys xs) (hP : ∀ x ∈ xs, ∀ y ∈ ys, R y x → P (x, y) x) :
    List.Forall₂ P (xs.zip ys) xs := by
  induction h with
  | nil => exact .nil
  | cons hfirst _ ih =>
    exact .cons (hP _ (List.mem_cons_self ..) _ (List.mem_cons_self ..) hfirst)
      (ih fun x hx y hy => hP x (List.mem_cons_of_mem _ hx) y (List.mem_cons_of_mem _ hy))

namespace Frame

variable {h : Hierarchy} {size : Nat} {a b m : Frame}

/-! ## Merging, entry by entry -/

/-- A type that is known is known without looking further. -/
theorem known_ok {α : Type} {x : Known α} {y : α} : known x = .ok y ↔ x = .ok y := by
  cases x with
  | ok z => exact ⟨fun h => by cases h; rfl, fun h => by cases h; rfl⟩
  | error e => exact ⟨nofun, nofun⟩

/-- Operands are merged to something that is known. -/
theorem mergeOnStack_ok {t u s : SlotType} :
    mergeOnStack h t u = .ok s ↔ SlotType.merge h t u = .ok s ∧ s ≠ .top := by
  rw [mergeOnStack, Except.bind_ok]
  constructor
  · rintro ⟨merged, hmerged, hs⟩
    split at hs
    · cases hs
    · cases hs
      exact ⟨known_ok.mp hmerged, ‹_›⟩
  · rintro ⟨hmerged, hs⟩
    refine ⟨s, known_ok.mpr hmerged, ?_⟩
    rw [if_neg hs]
    rfl

/-- Stacks are merged operand by operand. -/
theorem mergeStacks_ok {s t merged : List SlotType} :
    mergeStacks h s t = .ok merged ↔
      List.Forall₂ (fun p u => SlotType.merge h p.1 p.2 = .ok u ∧ u ≠ .top) (s.zip t) merged := by
  have hback : ∀ merged', ((s.zip t).reverse.mapM fun p => mergeOnStack h p.1 p.2) = .ok merged' ↔
      List.Forall₂ (fun p u => SlotType.merge h p.1 p.2 = .ok u ∧ u ≠ .top) (s.zip t)
        merged'.reverse := by
    intro merged'
    rw [mapM_ok_iff, ← List.forall₂_reverse_iff, List.reverse_reverse]
    exact ⟨fun hall => hall.imp fun _ _ => mergeOnStack_ok.mp,
      fun hall => hall.imp fun _ _ => mergeOnStack_ok.mpr⟩
  rw [mergeStacks, Except.bind_ok]
  constructor
  · rintro ⟨merged', hmerged, heq⟩
    cases heq
    exact (hback merged').mp hmerged
  · intro hall
    refine ⟨merged.reverse, (hback _).mpr (by rwa [List.reverse_reverse]), ?_⟩
    rw [List.reverse_reverse]
    rfl

theorem padded_self {locals : List SlotType} : padded locals.length locals = locals := by
  simp [padded]

/-- Variables are merged one by one. -/
theorem mergeLocals_ok {s t merged : List SlotType} (hlength : s.length = t.length) :
    mergeLocals h s t = .ok merged ↔
      List.Forall₂ (fun p u => SlotType.merge h p.1 p.2 = .ok u) (s.zip t) merged := by
  have ht : padded s.length t = t := by rw [hlength, padded_self]
  rw [mergeLocals, ← hlength, Nat.max_self, padded_self, ht, mapM_ok_iff]

/-- **Merging.** Entries are merged one by one; a stack entry stays usable, and a local that lost
its other half is given up. -/
theorem merge_iff (hlength : a.locals.length = b.locals.length) :
    merge h a b = .ok m ↔ a.stack.length = b.stack.length ∧
      List.Forall₂ (fun p u => SlotType.merge h p.1 p.2 = .ok u ∧ u ≠ .top) (a.stack.zip b.stack)
        m.stack ∧
      ∃ locals, List.Forall₂ (fun p u => SlotType.merge h p.1 p.2 = .ok u)
        (a.locals.zip b.locals) locals ∧ m.locals = withoutHalves locals := by
  rw [merge]
  split
  · rename_i hdepth
    exact ⟨fun hm => (by cases hm), fun hm => absurd hm.1 hdepth⟩
  rename_i hdepth
  have hsame : a.stack.length = b.stack.length := Classical.not_not.mp hdepth
  simp only [Except.bind_ok, mergeStacks_ok, known_ok, mergeLocals_ok hlength]
  constructor
  · rintro ⟨stack, hstack, locals, hlocals, heq⟩
    cases heq
    exact ⟨hsame, hstack, locals, hlocals, rfl⟩
  · rintro ⟨-, hstack, locals, hlocals, heq⟩
    refine ⟨m.stack, hstack, locals, hlocals, ?_⟩
    rw [← heq]
    rfl

/-! ## Entry by entry -/

/-- All entries of a frame. -/
def All (P : SlotType → Prop) (f : Frame) : Prop :=
  (∀ t ∈ f.locals, P t) ∧ ∀ t ∈ f.stack, P t

/-- Frames of one shape, whose entries are related one by one. -/
structure Pointwise (R : SlotType → SlotType → Prop) (f g : Frame) : Prop where
  /-- variable by variable -/
  locals : List.Forall₂ R f.locals g.locals
  /-- operand by operand -/
  stack : List.Forall₂ R f.stack g.stack

variable {R : SlotType → SlotType → Prop} {P : SlotType → Prop}

/-- A frame is related to itself if types are. -/
theorem Pointwise.refl (hR : ∀ t, R t t) (f : Frame) : Pointwise R f f :=
  ⟨List.forall₂_same.mpr fun t _ => hR t, List.forall₂_same.mpr fun t _ => hR t⟩

/-- Frames are related across another one if types are. -/
theorem Pointwise.trans (hR : ∀ s t u, R s t → R t u → R s u) {f g k : Frame}
    (hfg : Pointwise R f g) (hgk : Pointwise R g k) : Pointwise R f k := by
  have hlists : ∀ {xs ys zs : List SlotType}, List.Forall₂ R xs ys → List.Forall₂ R ys zs →
      List.Forall₂ R xs zs := by
    intro xs ys zs hxy hyz
    induction hxy generalizing zs with
    | nil => exact hyz
    | cons hfirst _ ih =>
      cases hyz with
      | cons hfirst' hrest' => exact .cons (hR _ _ _ hfirst hfirst') (ih hrest')
  exact ⟨hlists hfg.locals hgk.locals, hlists hfg.stack hgk.stack⟩

/-- Giving up halves of wide locals goes up. -/
theorem forall₂_withoutHalves (htop : ∀ t, R t .top) {xs ys : List SlotType}
    (hall : List.Forall₂ R xs ys) : List.Forall₂ R xs (withoutHalves ys) := by
  rw [List.forall₂_iff_get] at hall ⊢
  refine ⟨hall.1.trans (withoutHalves_length ys).symm, fun i hx hy => ?_⟩
  have hi : i < ys.length := hall.1 ▸ hx
  have hget := withoutHalves_getElem? ys i
  rw [List.getElem?_eq_getElem hi, List.getElem?_eq_getElem hy, Option.map_some,
    Option.some.injEq] at hget
  simp only [List.get_eq_getElem, hget, unlessHalf]
  split
  · exact htop _
  · exact hall.2 i hx hi

/-- Merged frames are above both, entry by entry, if merged slot types are. -/
theorem merge_pointwise (htop : ∀ t, R t .top)
    (hmerge : ∀ {t u s}, P t → P u → SlotType.merge h t u = .ok s → R t s ∧ R u s)
    (hlength : a.locals.length = b.locals.length) (ha : a.All P) (hb : b.All P)
    (hok : merge h a b = .ok m) : Pointwise R a m ∧ Pointwise R b m := by
  obtain ⟨hdepth, hstack, locals, hlocals, heq⟩ := (merge_iff hlength).mp hok
  obtain ⟨hastack, hbstack⟩ := forall₂_of_zip (R := R) (S := R) hdepth hstack
    fun t ht u hu s hs => hmerge (ha.2 t ht) (hb.2 u hu) hs.1
  obtain ⟨halocals, hblocals⟩ := forall₂_of_zip (R := R) (S := R) hlength hlocals
    fun t ht u hu s hs => hmerge (ha.1 t ht) (hb.1 u hu) hs
  exact ⟨⟨heq ▸ forall₂_withoutHalves htop halocals, hastack⟩,
    ⟨heq ▸ forall₂_withoutHalves htop hblocals, hbstack⟩⟩

/-- What merging keeps true of entries. -/
theorem merge_all (htop : P .top)
    (hmerge : ∀ {t u s}, P t → P u → SlotType.merge h t u = .ok s → P s)
    (hlength : a.locals.length = b.locals.length) (ha : a.All P) (hb : b.All P)
    (hok : merge h a b = .ok m) : m.All P := by
  obtain ⟨hm, -⟩ := merge_pointwise (R := fun _ s => P s) (fun _ => htop)
    (fun ht hu hs => ⟨hmerge ht hu hs, hmerge ht hu hs⟩) hlength ha hb hok
  have hall : ∀ {xs ys : List SlotType}, List.Forall₂ (fun _ s => P s) xs ys → ∀ s ∈ ys, P s := by
    intro xs ys hxy
    induction hxy with
    | nil => exact nofun
    | cons hfirst _ ih => exact List.forall_mem_cons.mpr ⟨hfirst, ih⟩
  exact ⟨hall hm.locals, hall hm.stack⟩

end Frame

/-! ## The order in which merging absorbs -/

namespace SlotType

variable {h : Hierarchy} {t u s : SlotType}

/-- The classes that a slot type is made of are known. -/
def KnownIn (h : Hierarchy) : SlotType → Prop
  | .object type => h.KnowsType type
  | .uninitialized c _ => h.Knows c
  | _ => True

/-- May a value of the first type be described by the second? -/
inductive Under (h : Hierarchy) : SlotType → SlotType → Prop
  /-- every type is under itself -/
  | refl (t : SlotType) : Under h t t
  /-- everything is under what is unknown -/
  | top (t : SlotType) : Under h t .top
  /-- null is under every type of objects -/
  | null (type : RefType) : Under h .null (.object type)
  /-- types of objects are under one another as the hierarchy says -/
  | object {a b : RefType} (hab : h.Under a b) : Under h (.object a) (.object b)

/-- What is under a type is under everything that the type is under. -/
theorem Under.trans (ho : h.Orderly) (hst : Under h s t) (htu : Under h t u) : Under h s u := by
  cases hst with
  | refl => exact htu
  | top =>
    cases htu with
    | refl | top => exact .top s
  | null type =>
    cases htu with
    | refl => exact .null type
    | top => exact .top _
    | object _ => exact .null _
  | object hab =>
    cases htu with
    | refl => exact .object hab
    | top => exact .top _
    | object hbc => exact .object (hab.trans ho hbc)

/-- Both slot types are under the merged one, which is made of known classes. -/
theorem merge_covers (ho : h.Orderly) (ht : t.KnownIn h) (hu : u.KnownIn h)
    (hok : merge h t u = .ok s) : (Under h t s ∧ Under h u s) ∧ s.KnownIn h := by
  simp only [merge] at hok
  split at hok
  · rename_i heq
    cases hok
    exact ⟨⟨.refl t, heq ▸ .refl t⟩, ht⟩
  split at hok
  · cases hok
    exact ⟨⟨.null _, .refl _⟩, hu⟩
  · cases hok
    exact ⟨⟨.refl _, .null _⟩, ht⟩
  · obtain ⟨type, htype, hok⟩ := Except.bind_ok.mp hok
    cases hok
    obtain ⟨hleft, hright, hknown⟩ := Hierarchy.merge_covers ho.rooted ht hu htype
    exact ⟨⟨.object hleft, .object hright⟩, hknown⟩
  · cases hok
    exact ⟨⟨.top t, .top u⟩, trivial⟩

/-- Merging what is under a slot type leaves it unchanged. -/
theorem merge_absorbs (ho : h.Orderly) (hu : u.KnownIn h) (hut : Under h u t) :
    merge h t u = .ok t := by
  cases hut with
  | refl => simp only [merge, if_true]
  | top =>
    simp only [merge]
    split
    · rfl
    · rfl
  | null type => rfl
  | object hab =>
    simp only [merge]
    split
    · rfl
    · rw [Hierarchy.merge_absorbs ho.rooted hu hab]
      rfl

end SlotType

namespace Frame

variable {h : Hierarchy} {size : Nat} {a b m : Frame}

/-- A frame that merging can be applied to: well-formed, and made of known classes. -/
structure Sound (h : Hierarchy) (size : Nat) (f : Frame) : Prop where
  /-- the frame has a shape that is known -/
  wellFormed : f.WellFormed size
  /-- its classes are known -/
  known : f.All (SlotType.KnownIn h)

/-- May the second frame stand for the first? -/
def Under (h : Hierarchy) : Frame → Frame → Prop := Pointwise (SlotType.Under h)

/-- **Upper bounds.** -/
theorem merge_under (ho : h.Orderly) (ha : a.Sound h size) (hb : b.Sound h size)
    (hok : merge h a b = .ok m) : Under h a m ∧ Under h b m :=
  merge_pointwise SlotType.Under.top (fun ht hu hs => (SlotType.merge_covers ho ht hu hs).1)
    (ha.wellFormed.length.trans hb.wellFormed.length.symm) ha.known hb.known hok

/-- Merging keeps frames well formed and their classes known. -/
theorem merge_sound (ho : h.Orderly) (ha : a.Sound h size) (hb : b.Sound h size)
    (hok : merge h a b = .ok m) : m.Sound h size :=
  ⟨merge_wellFormed ha.wellFormed hb.wellFormed hok,
    merge_all trivial (fun ht hu hs => (SlotType.merge_covers ho ht hu hs).2)
      (ha.wellFormed.length.trans hb.wellFormed.length.symm) ha.known hb.known hok⟩

/-- A frame in which no half of a wide local is alone loses nothing. -/
theorem withoutHalves_of_halves {locals : List SlotType} (hhalves : HalvesMatch locals) :
    withoutHalves locals = locals := by
  refine List.ext_getElem? fun i => ?_
  rw [withoutHalves_getElem?]
  cases hi : locals[i]? with
  | none => rfl
  | some t =>
    rw [Option.map_some, Option.some.injEq, unlessHalf, if_neg]
    intro hhalf
    simp only [Bool.and_eq_true, decide_eq_true_eq] at hhalf
    exact hhalf.2 (hhalves i t hi hhalf.1)

/-- **Absorption.** Merging a frame into one that may stand for it changes nothing. -/
theorem merge_absorbs (ho : h.Orderly) (ha : a.WellFormed size) (hb : b.All (SlotType.KnownIn h))
    (hba : Under h b a) : merge h a b = .ok a := by
  refine (merge_iff hba.locals.length_eq.symm).mpr ⟨hba.stack.length_eq.symm, ?_, a.locals, ?_,
    (withoutHalves_of_halves ha.halves).symm⟩
  · exact forall₂_zip_self hba.stack fun t ht u hu hut =>
      ⟨SlotType.merge_absorbs ho (hb.2 u hu) hut, ha.stack t ht⟩
  · exact forall₂_zip_self hba.locals fun t _ u hu hut => SlotType.merge_absorbs ho (hb.1 u hu) hut

end Frame

end Resumption
