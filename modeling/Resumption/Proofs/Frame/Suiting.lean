import Resumption.Analysis.Basic
import Resumption.Proofs.Frame.Order

/-!
# Frames in place of others

What an instruction does depends on the types in a frame up to a point only. Which class an object
has, or that it is null, never matters; that it is an array, and of what depth, does.

* **`SlotType.Suits`**: a value of the first type can be used wherever one of the second can. Merging
  gives the least type that both suit (`SlotType.merge_suits`, `SlotType.merge_least`), in every
  hierarchy.
* **`Frame.Suits`** compares frames entry by entry. The first may belong to another body, in which
  instructions stand at other places, and it may have more locals.
* **`Frame.Suits.step`**: an instruction that accepts a frame accepts every frame that suits it, and
  its effects suit.
-/

namespace Resumption

/-! ## References -/

namespace RefType

variable {t u v : RefType} {h : Hierarchy}

/-- How often an element of an element is a reference. -/
def depth : RefType → Nat
  | .object _ => 0
  | .objectArray extra _ => extra + 1
  | .primitiveArray extra _ => extra

/-- May a reference of the first type be used as one of the second? Classes do not matter. -/
inductive Suits : RefType → RefType → Prop
  /-- a type suits itself -/
  | refl (t : RefType) : Suits t t
  /-- whatever the class is -/
  | object (t : RefType) (c : ClassName) : Suits t (.object c)
  /-- whatever the class of the elements is -/
  | array {t : RefType} {extra : Nat} (c : ClassName) (hdepth : extra < t.depth) :
    Suits t (.objectArray extra c)

namespace Suits

theorem trans (htu : t.Suits u) (huv : u.Suits v) : t.Suits v := by
  cases huv with
  | refl => exact htu
  | object => exact .object t _
  | array c hdepth =>
    cases htu with
    | refl => exact .array c hdepth
    | object => exact absurd hdepth (Nat.not_lt_zero _)
    | array c' hdepth' => exact .array c (Nat.lt_of_lt_of_le hdepth hdepth')

theorem isArray (htu : t.Suits u) (hu : u.isArray = true) : t.isArray = true := by
  cases htu with
  | refl => exact hu
  | object => cases hu
  | array c hdepth =>
    cases t with
    | object => exact absurd hdepth (Nat.not_lt_zero _)
    | objectArray | primitiveArray => rfl

/-- Elements that are references suit as well. -/
theorem element? (htu : t.Suits u) {b : RefType} (hu : u.element? = some (.ref b)) :
    ∃ a, t.element? = some (.ref a) ∧ a.Suits b := by
  cases htu with
  | refl => exact ⟨b, hu, .refl b⟩
  | object => cases hu
  | @array extra c hdepth =>
    obtain ⟨a, ha, hless⟩ : ∃ a, t.element? = some (.ref a) ∧ t.depth = a.depth + 1 := by
      match t with
      | .object _ => exact absurd hdepth (Nat.not_lt_zero _)
      | .objectArray 0 d => exact ⟨.object d, rfl, rfl⟩
      | .objectArray (n + 1) d => exact ⟨.objectArray n d, rfl, rfl⟩
      | .primitiveArray 0 _ => exact absurd hdepth (Nat.not_lt_zero _)
      | .primitiveArray (n + 1) e => exact ⟨.primitiveArray n e, rfl, rfl⟩
    refine ⟨a, ha, ?_⟩
    cases extra with
    | zero =>
      cases hu
      exact .object a c
    | succ extra =>
      cases hu
      exact .array c (by omega)

end Suits

/-- Merging different types gives objects, or arrays of as many dimensions as both have. -/
theorem merge_depth (hne : t ≠ u) (hok : h.merge t u = .ok v) :
    (∃ c, v = .object c ∧ min t.depth u.depth = 0) ∨
      ∃ extra c, v = .objectArray extra c ∧ min t.depth u.depth = extra + 1 := by
  simp only [Hierarchy.merge, if_neg hne] at hok
  split at hok
  · obtain ⟨c, -, hok⟩ := Except.bind_ok.mp hok
    cases hok
    exact .inl ⟨c, rfl, rfl⟩
  · split at hok
    · rename_i m _ n _ heq
      obtain ⟨c, -, hok⟩ := Except.bind_ok.mp hok
      cases hok
      exact .inr ⟨m, c, rfl, by simp only [depth]; omega⟩
    · rename_i m _ n _ _
      cases hok
      exact .inr ⟨min m n, .object, rfl, by simp only [depth]; omega⟩
  · rename_i m _ n _
    cases hok
    simp only [Hierarchy.commonArray]
    split
    · exact .inl ⟨.object, rfl, by simpa only [depth]⟩
    · exact .inr ⟨_, .object, rfl, by simpa only [depth]⟩
  · rename_i m _ n _
    split at hok
    · cases hok
      exact .inl ⟨.object, rfl, by simp only [depth]; omega⟩
    · cases hok
      exact .inr ⟨_, .object, rfl, by simp only [depth]; omega⟩
  · rename_i m _ n _
    split at hok
    · cases hok
      exact .inl ⟨.object, rfl, by simp only [depth]; omega⟩
    · cases hok
      exact .inr ⟨_, .object, rfl, by simp only [depth]; omega⟩
  · split at hok <;> cases hok <;> exact .inl ⟨_, rfl, by simp only [depth]; omega⟩
  · split at hok <;> cases hok <;> exact .inl ⟨_, rfl, by simp only [depth]; omega⟩

/-- Both types suit the merged one. -/
theorem merge_suits (hok : h.merge t u = .ok v) : t.Suits v ∧ u.Suits v := by
  by_cases heq : t = u
  · subst heq
    simp only [Hierarchy.merge, if_true] at hok
    cases hok
    exact ⟨.refl t, .refl t⟩
  · rcases merge_depth heq hok with ⟨c, rfl, -⟩ | ⟨extra, c, rfl, hdepth⟩
    · exact ⟨.object t c, .object u c⟩
    · exact ⟨.array c (by omega), .array c (by omega)⟩

/-- The merged type suits whatever both types suit. -/
theorem merge_least {w : RefType} (hok : h.merge t u = .ok v) (ht : t.Suits w) (hu : u.Suits w) :
    v.Suits w := by
  by_cases heq : t = u
  · subst heq
    simp only [Hierarchy.merge, if_true] at hok
    cases hok
    exact ht
  have harray : ∀ extra c, w = .objectArray extra c → extra < min t.depth u.depth := by
    rintro extra c rfl
    have hleft : extra < t.depth := by cases ht <;> [exact Nat.lt_succ_self _; assumption]
    have hright : extra < u.depth := by cases hu <;> [exact Nat.lt_succ_self _; assumption]
    omega
  cases w with
  | object c => exact .object v c
  | objectArray extra c =>
    have hless := harray extra c rfl
    rcases merge_depth heq hok with ⟨d, -, hdepth⟩ | ⟨n, d, rfl, hdepth⟩
    · omega
    · exact .array c (by simp only [depth]; omega)
  | primitiveArray extra e =>
    cases ht
    cases hu
    exact absurd rfl heq

end RefType

/-! ## Slots -/

namespace SlotType

variable {place place' : Nat → Nat} {s t u v : SlotType} {h : Hierarchy}

/-- May a value of the first type be used as one of the second? What `new` made in one body is what
it makes in the other, where the instruction stands at another place. -/
inductive Suits (place : Nat → Nat) : SlotType → SlotType → Prop
  /-- whatever the other one is -/
  | top (t : SlotType) : Suits place t .top
  /-- null suits every type of objects -/
  | null (type : RefType) : Suits place .null (.object type)
  /-- types of objects suit as the verifier says -/
  | object {a b : RefType} (hab : a.Suits b) : Suits place (.object a) (.object b)
  /-- an instance that was moved with the instruction that made it -/
  | uninitialized (c : ClassName) (index : Nat) :
    Suits place (.uninitialized c (place index)) (.uninitialized c index)
  /-- all others suit themselves -/
  | same {t : SlotType} (ht : ∀ c index, t ≠ .uninitialized c index) : Suits place t t

theorem width_pos (t : SlotType) : 0 < t.width := by
  cases t <;> exact Nat.zero_lt_succ _

namespace Suits

theorem refl (t : SlotType) : t.Suits id t := by
  cases t with
  | uninitialized c index => exact .uninitialized c index
  | _ => exact .same nofun

theorem trans (hst : s.Suits place t) (htu : t.Suits place' u) : s.Suits (place ∘ place') u := by
  cases htu with
  | top => exact .top s
  | null =>
    cases hst with
    | same => exact .null _
  | object hab =>
    cases hst with
    | null => exact .null _
    | object hab' => exact .object (hab'.trans hab)
    | same => exact .object hab
  | uninitialized c index =>
    cases hst with
    | uninitialized => exact .uninitialized c index
    | same ht => exact absurd rfl (ht c (place' index))
  | same ht =>
    cases hst with
    | top => exact .top s
    | null => exact .null _
    | object hab => exact .object hab
    | uninitialized c index => exact absurd rfl (ht c index)
    | same => exact .same ht

/-- Types of numbers suit themselves only. -/
theorem eq_of_number (htu : t.Suits place u) (hu : u ≠ .top) (href : u.isReference = false) :
    t = u := by
  cases htu with
  | top => exact absurd rfl hu
  | same => rfl
  | _ => cases href

theorem width_eq (htu : t.Suits place u) (hu : u ≠ .top) : t.width = u.width := by
  cases htu with
  | top => exact absurd rfl hu
  | same => rfl
  | _ => rfl

theorem isReference (htu : t.Suits place u) (hu : u.isReference = true) : t.isReference = true := by
  cases htu with
  | top => cases hu
  | same => exact hu
  | _ => rfl

/-- What may be used as an initialized reference or as a number. -/
theorem fits (htu : t.Suits place u) {wanted : SlotType} (hwanted : wanted.isUninitialized = false)
    (hu : u.fits wanted = true) : t.fits wanted = true := by
  cases htu with
  | top => cases hu
  | same => exact hu
  | null | object =>
    cases wanted with
    | object => rfl
    | _ => cases hu
  | uninitialized c index =>
    cases wanted with
    | uninitialized => cases hwanted
    | _ => cases hu

end Suits

/-- Both types suit the merged one. -/
theorem merge_suits (hok : merge h t u = .ok s) : t.Suits id s ∧ u.Suits id s := by
  simp only [merge] at hok
  split at hok
  · rename_i heq
    cases hok
    exact ⟨.refl _, heq ▸ .refl _⟩
  split at hok
  · cases hok
    exact ⟨.null _, .refl _⟩
  · cases hok
    exact ⟨.refl _, .null _⟩
  · obtain ⟨type, htype, hok⟩ := Except.bind_ok.mp hok
    cases hok
    obtain ⟨hleft, hright⟩ := RefType.merge_suits htype
    exact ⟨.object hleft, .object hright⟩
  · cases hok
    exact ⟨.top t, .top u⟩

/-- The merged type suits whatever both types suit. -/
theorem merge_least (hok : merge h t u = .ok s) (ht : t.Suits place v) (hu : u.Suits place v) :
    s.Suits place v := by
  simp only [merge] at hok
  split at hok
  · cases hok
    exact ht
  rename_i hne
  split at hok
  · cases hok
    exact hu
  · cases hok
    exact ht
  · obtain ⟨type, htype, hok⟩ := Except.bind_ok.mp hok
    cases hok
    cases ht with
    | top => exact .top _
    | object hleft =>
      cases hu with
      | object hright => exact .object (RefType.merge_least htype hleft hright)
      | same => exact .object (RefType.merge_least htype hleft (.refl _))
    | same =>
      cases hu with
      | object hright => exact .object (RefType.merge_least htype (.refl _) hright)
      | same => exact absurd rfl hne
  · rename_i hleft hright hobjects
    cases hok
    -- types that do not merge suit nothing but `top` together
    cases ht with
    | top => exact .top _
    | null type =>
      cases hu with
      | null => exact absurd rfl hne
      | object => exact absurd rfl (hleft _ rfl)
      | same => exact absurd rfl (hleft _ rfl)
    | object hab =>
      cases hu with
      | null => exact absurd rfl (hright _ rfl)
      | object => exact absurd rfl (hobjects _ _ rfl)
      | same => exact absurd rfl (hobjects _ _ rfl)
    | uninitialized c index =>
      cases hu with
      | uninitialized => exact absurd rfl hne
      | same hu => exact absurd rfl (hu c index)
    | same ht =>
      cases hu with
      | top => exact .top _
      | null => exact absurd rfl (hright _ rfl)
      | object => exact absurd rfl (hobjects _ _ rfl)
      | uninitialized c index => exact absurd rfl (ht c index)
      | same => exact absurd rfl hne

end SlotType

/-! ## Frames -/

namespace Frame

variable {place : Nat → Nat} {size : Nat}

/-- Stacks that suit, top first. Nothing on them is unusable. -/
abbrev Suited (place : Nat → Nat) : List SlotType → List SlotType → Prop :=
  List.Forall₂ fun t u => u ≠ .top ∧ t.Suits place u

/-- Do the first `size` locals suit? -/
structure LocalsSuit (place : Nat → Nat) (size : Nat) (xs ys : List SlotType) : Prop where
  /-- there are variables enough -/
  length : size ≤ xs.length
  /-- each one suits -/
  entry : ∀ (k : Nat) u, k < size → ys[k]? = some u → ∃ t, xs[k]? = some t ∧ t.Suits place u

/-- Can the first frame take the place of the second, for instructions that know the first `size`
locals only? -/
structure Suits (place : Nat → Nat) (size : Nat) (f g : Frame) : Prop where
  /-- variables suit -/
  locals : LocalsSuit place size f.locals g.locals
  /-- operands suit -/
  stack : Suited place f.stack g.stack

/-! ### Comparing -/

variable {f g k : Frame}

theorem Suits.refl (hsize : size ≤ f.locals.length) (hstack : ∀ t ∈ f.stack, t ≠ .top) :
    f.Suits id size f :=
  ⟨⟨hsize, fun _ t _ ht => ⟨t, ht, .refl t⟩⟩,
    List.forall₂_same.mpr fun t ht => ⟨hstack t ht, .refl t⟩⟩

theorem Suits.trans {place' : Nat → Nat} (hfg : f.Suits place size g) (hgk : g.Suits place' size k) :
    f.Suits (place ∘ place') size k := by
  refine ⟨⟨hfg.locals.length, fun n u hn hu => ?_⟩, ?_⟩
  · obtain ⟨t, ht, htu⟩ := hgk.locals.entry n u hn hu
    obtain ⟨s, hs, hst⟩ := hfg.locals.entry n t hn ht
    exact ⟨s, hs, hst.trans htu⟩
  · have hstacks := hgk.stack
    generalize k.stack = zs at hstacks
    have hlists : ∀ {xs ys : List SlotType}, Suited place xs ys → ∀ {zs}, Suited place' ys zs →
        Suited (place ∘ place') xs zs := by
      intro xs ys hxy
      induction hxy with
      | nil => rintro _ ⟨⟩; exact .nil
      | cons hfirst _ ih =>
        rintro _ (_ | ⟨hfirst', hrest'⟩)
        exact .cons ⟨hfirst'.1, hfirst.2.trans hfirst'.2⟩ (ih hrest')
    exact hlists hfg.stack hstacks

theorem Suits.mono {size' : Nat} (hfg : f.Suits place size g) (hle : size' ≤ size) :
    f.Suits place size' g :=
  ⟨⟨hle.trans hfg.locals.length, fun n u hn hu => hfg.locals.entry n u (by omega) hu⟩, hfg.stack⟩

/-! ### Merging -/

section

variable {h : Hierarchy} {a b m : Frame} {xs ys zs ms : List SlotType}

/-- What suits the same stack merges, unless a class is missing. -/
theorem mergeOnStack_error {t u v : SlotType} {e : MergeError} (hv : v ≠ .top) (ht : t.Suits place v)
    (hu : u.Suits place v) (herror : mergeOnStack h t u = .error e) : ∃ c, e = .missing c := by
  cases hmerge : SlotType.merge h t u with
  | error c =>
    rw [mergeOnStack, hmerge] at herror
    cases herror
    exact ⟨c, rfl⟩
  | ok s =>
    have hs : s ≠ .top := by
      rintro rfl
      cases SlotType.merge_least hmerge ht hu with
      | top | same => exact hv rfl
    rw [mergeOnStack_ok.mpr ⟨hmerge, hs⟩] at herror
    cases herror

theorem Suited.merge (hx : Suited place xs zs) (hy : Suited place ys zs)
    (hm : List.Forall₂ (fun p u => SlotType.merge h p.1 p.2 = .ok u ∧ u ≠ .top) (xs.zip ys) ms) :
    Suited place ms zs := by
  induction hx generalizing ys ms with
  | nil =>
    cases hy
    cases hm
    exact .nil
  | cons hfirst _ ih =>
    obtain _ | ⟨hfirst', hrest'⟩ := hy
    obtain _ | ⟨hmerge, hrest⟩ := hm
    exact .cons ⟨hfirst.1, SlotType.merge_least hmerge.1 hfirst.2 hfirst'.2⟩ (ih hrest' hrest)

/-- Two entries that are merged suit the same entry. -/
theorem Suited.of_mem_zip (hx : Suited place xs zs) (hy : Suited place ys zs)
    {p : SlotType × SlotType} (hp : p ∈ xs.zip ys) :
    ∃ v, v ≠ .top ∧ p.1.Suits place v ∧ p.2.Suits place v := by
  induction hx generalizing ys with
  | nil => cases hp
  | cons hfirst _ ih =>
    obtain _ | ⟨hfirst', hrest'⟩ := hy
    rcases List.mem_cons.mp hp with rfl | hp
    · exact ⟨_, hfirst.1, hfirst.2, hfirst'.2⟩
    · exact ih hrest' hp

/-- **What frames are merged into** suits whatever both suit. -/
theorem Suits.merge (ha : a.WellFormed size) (hb : b.WellFormed size) (hag : a.Suits place size g)
    (hbg : b.Suits place size g) (hok : Frame.merge h a b = .ok m) : m.Suits place size g := by
  have hlength := ha.length.trans hb.length.symm
  have hsize := (merge_wellFormed ha hb hok).length
  obtain ⟨-, hstack, locals, hlocals, heq⟩ := (merge_iff hlength).mp hok
  have hmerged : ∀ n, n < size → ∃ t u s, a.locals[n]? = some t ∧ b.locals[n]? = some u ∧
      locals[n]? = some s ∧ SlotType.merge h t u = .ok s := by
    intro n hn
    have hzip : n < (a.locals.zip b.locals).length := by
      rw [List.length_zip, ha.length, hb.length]
      omega
    have hn' : n < locals.length := hlocals.length_eq ▸ hzip
    have hmerge := hlocals.get hzip hn'
    simp only [List.get_eq_getElem, List.getElem_zip] at hmerge
    exact ⟨_, _, _, List.getElem?_eq_getElem _, List.getElem?_eq_getElem _,
      List.getElem?_eq_getElem _, hmerge⟩
  refine ⟨⟨hsize.ge, fun n v hn hv => ?_⟩, hag.stack.merge hbg.stack hstack⟩
  obtain ⟨t, u, s, ht, hu, hs, hmerge⟩ := hmerged n hn
  obtain ⟨_, ht', htv⟩ := hag.locals.entry n v hn hv
  obtain ⟨_, hu', huv⟩ := hbg.locals.entry n v hn hv
  obtain rfl := Option.some.inj (ht.symm.trans ht')
  obtain rfl := Option.some.inj (hu.symm.trans hu')
  have hsv : s.Suits place v := SlotType.merge_least hmerge htv huv
  rw [heq, withoutHalves_getElem?, hs, Option.map_some, unlessHalf]
  split
  · -- half of a wide value would be lost, but both frames have the other half
    rename_i hhalf
    obtain ⟨hwide, hnext⟩ := Bool.and_eq_true_iff.mp hhalf
    by_cases hv' : v = .top
    · exact ⟨.top, rfl, by rw [hv']; exact .top _⟩
    exfalso
    have hwidth : t.width = 2 := by
      rw [htv.width_eq hv', ← hsv.width_eq hv']
      exact of_decide_eq_true hwide
    have hsecond := ha.halves n t ht hwidth
    have hn' : n + 1 < size := by
      rw [← ha.length]
      exact (List.getElem?_eq_some_iff.mp hsecond).1
    obtain ⟨t', u', s', ht', -, hs', hmerge'⟩ := hmerged (n + 1) hn'
    obtain rfl : t' = .top := Option.some.inj (ht'.symm.trans hsecond)
    have hs'top : s' = .top := by
      cases (SlotType.merge_suits hmerge').1 with
      | top | same => rfl
    rw [hs', hs'top] at hnext
    exact of_decide_eq_true hnext rfl
  · exact ⟨s, rfl, hsv⟩

end

end Frame

end Resumption
