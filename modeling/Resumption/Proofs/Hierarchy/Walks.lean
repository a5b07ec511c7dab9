import Resumption.Proofs.Frame.WellFormed
import Resumption.Proofs.Hierarchy.Subclass
import Resumption.Proofs.Loops.Rounds

/-!
# Walks up a hierarchy come to an end

A walk up a hierarchy ends because there is less and less above a class. `height` counts what is
above, so it bounds the steps of every such walk. All that this takes is a hierarchy in which nothing is
above the root (`Topped`). It may lack classes, it may have cycles, and there may be other classes
without a superclass. Where it says nothing else, the root stands above everything (`Rises`), since
that is what a merge falls back to.

Checking code asks a hierarchy two questions that are answered by walking up in it. Both walks are
defined with fuel; here they are loops without a bound, and end before the fuel is used up.

* **`search_ends`**: the search for a super type marks the names that it has seen, so it ends in every
  hierarchy, with cycles or without.
* **`climb_ends`**: the walk along superclasses marks nothing. It ends where no class is above itself
  (`Grounded`), since there is less above each superclass (`height`).
-/

namespace Resumption.Hierarchy

/-! ## Heights -/

variable {h : Hierarchy} {c d e : ClassName}

/-- Nothing is above the root. -/
def Topped (h : Hierarchy) : Prop := ∀ c, ¬ h.Super .object c

/-- No class is above itself, and nothing is above the root. -/
structure Grounded (h : Hierarchy) : Prop where
  /-- no type is above itself -/
  acyclic : ∀ c, ¬ Relation.TransGen h.Super c c
  /-- nothing is above the root -/
  top : h.Topped

/-- The second class is strictly above the first, by super types or because it is the root. Classes of a
cycle are not strictly above each other. -/
def Rises (h : Hierarchy) (c d : ClassName) : Prop :=
  (h.Below c d ∧ ¬ h.Below d c) ∨ (d = .object ∧ c ≠ .object)

/-- Nothing but `Object` is above `Object`. -/
theorem Topped.eq_object (ht : h.Topped) (hc : h.Below .object c) : c = .object := by
  rcases Relation.ReflTransGen.cases_head hc with heq | ⟨d, hd, -⟩
  · exact heq.symm
  · exact absurd hd (ht d)

/-- `Object` does not rise. -/
theorem Rises.ne_object (ht : h.Topped) (hcd : h.Rises c d) : c ≠ .object := by
  rcases hcd with ⟨hcd, hdc⟩ | ⟨-, hc⟩
  · rintro rfl
    exact hdc (ht.eq_object hcd ▸ .refl)
  · exact hc

/-- No class rises to itself. -/
theorem Rises.ne (hcd : h.Rises c d) : c ≠ d := by
  rintro rfl
  rcases hcd with ⟨-, hcc⟩ | ⟨hc, hne⟩
  · exact hcc .refl
  · exact hne hc

/-- Rising twice is rising. -/
theorem Rises.trans (ht : h.Topped) (hcd : h.Rises c d) (hde : h.Rises d e) : h.Rises c e := by
  rcases hde with ⟨hde, hed⟩ | ⟨rfl, -⟩
  · rcases hcd with ⟨hcd, -⟩ | ⟨rfl, -⟩
    · exact .inl ⟨hcd.trans hde, fun hec => hed (hec.trans hcd)⟩
    · exact absurd (ht.eq_object hde ▸ .refl) hed
  · exact .inr ⟨rfl, hcd.ne_object ht⟩

/-- Where no class is above itself, what is above by super types is strictly above. -/
theorem Grounded.rises (hg : h.Grounded) (hcd : Relation.TransGen h.Super c d) : h.Rises c d :=
  .inl ⟨hcd.to_reflTransGen, fun hdc => hg.acyclic c (hcd.trans_left hdc)⟩

/-- The same class, or one above it. -/
def Reaches (h : Hierarchy) (c d : ClassName) : Prop := c = d ∨ h.Rises c d

open scoped Classical in
/-- The known classes from a class on. -/
noncomputable def upward (h : Hierarchy) (c : ClassName) : Finset ClassName :=
  h.names.toFinset.filter (h.Reaches c)

/-- The classes upward are the known ones that are reached. -/
theorem mem_upward : d ∈ h.upward c ↔ h.Knows d ∧ h.Reaches c d := by
  classical
  rw [upward, Finset.mem_filter, List.mem_toFinset, mem_names]

/-- How many known classes there are from a class on; the root counts less than a class that is not
known. -/
noncomputable def height (h : Hierarchy) (c : ClassName) : Nat :=
  (h.upward c).card + if c = .object then 0 else 1

/-- **Heights go down** on the way up. -/
theorem Topped.height_lt (ht : h.Topped) (hcd : h.Rises c d) : h.height d < h.height c := by
  have hsub : h.upward d ⊆ h.upward c := by
    intro e he
    obtain ⟨hknown, hde⟩ := mem_upward.mp he
    refine mem_upward.mpr ⟨hknown, .inr ?_⟩
    rcases hde with rfl | hde
    · exact hcd
    · exact hcd.trans ht hde
  have hc : c ≠ .object := hcd.ne_object ht
  by_cases hknown : h.Knows c
  · -- the class itself is among those above it, but not among those above a higher one
    have hmem : c ∈ h.upward c := mem_upward.mpr ⟨hknown, .inl rfl⟩
    have hnot : c ∉ h.upward d := by
      intro hmem
      rcases (mem_upward.mp hmem).2 with heq | hback
      · exact hcd.ne heq.symm
      · exact (hcd.trans ht hback).ne rfl
    have hless := Finset.card_lt_card (Finset.ssubset_iff_subset_ne.mpr
      ⟨hsub, fun heq => hnot (heq ▸ hmem)⟩)
    simp only [height, if_neg hc]
    split <;> omega
  · -- nothing but the root is above a class of which nothing is known
    have hd : d = .object := by
      rcases hcd with ⟨hcd, hdc⟩ | ⟨hd, -⟩
      · rcases Relation.ReflTransGen.cases_head hcd with rfl | ⟨e, ⟨info, hinfo, -⟩, -⟩
        · exact absurd .refl hdc
        · exact absurd ⟨info, hinfo⟩ hknown
      · exact hd
    have hle := Finset.card_le_card hsub
    simp only [height, if_neg hc, if_pos hd]
    omega

/-- Heights are bounded by the number of known classes. -/
theorem height_le (h : Hierarchy) (c : ClassName) : h.height c ≤ h.types.length + 1 := by
  have hupward : (h.upward c).card ≤ h.names.length := by
    refine (Finset.card_le_card fun d hd => ?_).trans (List.toFinset_card_le h.names)
    exact List.mem_toFinset.mpr (mem_names.mpr (mem_upward.mp hd).1)
  have hnames := h.length_names_le
  simp only [height]
  split <;> omega

/-- A known class has a height. -/
theorem height_pos (hc : h.Knows c) : 0 < h.height c := by
  apply Nat.add_pos_left
  exact Finset.card_pos.mpr ⟨c, mem_upward.mpr ⟨hc, .inl rfl⟩⟩

/-! ## The search -/

/-- A round of the search: is the next name the target, and if not, what is above it? -/
def searchRound (h : Hierarchy) (target : ClassName) :
    Round (List ClassName × List ClassName) MissingClass Bool
  | ([], _) => .ok (.inl false)
  | (c :: rest, seen) =>
    if c = target then .ok (.inl true)
    else do
      let info ← h.typeInfo c
      return .inr (enqueue info.supers rest seen)

/-- The search from a state of the loop. -/
def searchFrom (h : Hierarchy) (target : ClassName) (fuel : Nat)
    (state : List ClassName × List ClassName) : Known Bool :=
  h.searchSupers target fuel state.1 state.2

/-- A search is its first round, and the rest of the search. -/
theorem searchFrom_round (h : Hierarchy) (target : ClassName) (fuel : Nat)
    (state : List ClassName × List ClassName) : h.searchFrom target (fuel + 1) state =
      h.searchRound target state >>= Sum.elim .ok (h.searchFrom target fuel) := by
  obtain ⟨toVisit, seen⟩ := state
  cases toVisit with
  | nil => rfl
  | cons c rest =>
    simp only [searchFrom, searchSupers, searchRound]
    split
    · rfl
    · cases h.typeInfo c <;> rfl

/-- Names are put on the list once, when they are seen first. -/
structure Marked (state : List ClassName × List ClassName) : Prop where
  /-- nothing is to be visited twice -/
  nodup : state.1.Nodup
  /-- what is to be visited is marked -/
  seen : ∀ c ∈ state.1, c ∈ state.2

/-- The known names that a search has not done with. -/
def ahead (h : Hierarchy) (state : List ClassName × List ClassName) : Finset ClassName :=
  h.names.toFinset.filter fun c => c ∉ state.2 ∨ c ∈ state.1

/-- The classes ahead are those that a search can still visit. -/
theorem mem_ahead {state : List ClassName × List ClassName} {c : ClassName} :
    c ∈ h.ahead state ↔ h.Knows c ∧ (c ∉ state.2 ∨ c ∈ state.1) := by
  rw [ahead, Finset.mem_filter, List.mem_toFinset, mem_names]

/-- No more classes are ahead than are known. -/
theorem card_ahead_le (state : List ClassName × List ClassName) :
    (h.ahead state).card ≤ h.types.length :=
  (Finset.card_filter_le ..).trans ((List.toFinset_card_le h.names).trans h.length_names_le)

/-- **One round of the search.** The name that was looked at is done with. -/
theorem searchRound_next {target : ClassName} {state state' : List ClassName × List ClassName}
    (hmarked : Marked state) (hnext : h.searchRound target state = .ok (.inr state')) :
    Marked state' ∧ (h.ahead state').card < (h.ahead state).card := by
  obtain ⟨toVisit, seen⟩ := state
  cases toVisit with
  | nil => cases hnext
  | cons c rest =>
    simp only [searchRound] at hnext
    split at hnext
    · cases hnext
    obtain ⟨info, hinfo, hnext⟩ := Except.bind_ok.mp hnext
    obtain ⟨new, henqueue, hnodup, hnew, -⟩ := enqueue_eq info.supers rest seen
    rw [henqueue] at hnext
    cases hnext
    obtain ⟨hcrest, hrest⟩ := List.nodup_cons.mp hmarked.nodup
    have hseen : ∀ d ∈ rest, d ∈ seen := fun d hd => hmarked.seen d (List.mem_cons_of_mem _ hd)
    have hc : c ∈ seen := hmarked.seen c (List.mem_cons_self ..)
    constructor
    · constructor
      · apply hnodup.append hrest
        intro d hd hd'
        exact (hnew d hd).2 (hseen d hd')
      · intro d hd
        rcases List.mem_append.mp hd with hd | hd
        · exact List.mem_append_left _ hd
        · exact List.mem_append_right _ (hseen d hd)
    · apply Finset.card_lt_card
      rw [Finset.ssubset_iff_of_subset]
      · -- the name that was looked at is known, and does not come back
        refine ⟨c, mem_ahead.mpr ⟨?_, .inr (List.mem_cons_self ..)⟩, ?_⟩
        · exact ⟨info, lookup_of_typeInfo hinfo⟩
        · intro hmem
          rcases (mem_ahead.mp hmem).2 with hnot | hmem
          · exact hnot (List.mem_append_right _ hc)
          · rcases List.mem_append.mp hmem with hmem | hmem
            · exact (hnew c hmem).2 hc
            · exact hcrest hmem
      · intro d hd
        obtain ⟨hknown, hd⟩ := mem_ahead.mp hd
        refine mem_ahead.mpr ⟨hknown, ?_⟩
        rcases hd with hnot | hd
        · exact .inl fun hmem => hnot (List.mem_append_right _ hmem)
        · rcases List.mem_append.mp hd with hd | hd
          · exact .inl (hnew d hd).2
          · exact .inr (List.mem_cons_of_mem _ hd)

/-- **The search ends**, and its fuel is not used up. -/
theorem search_ends (h : Hierarchy) (sub super : ClassName) :
    ∃ n, (h.searchRound super).Ends ([sub], [sub]) n (h.isSubclass sub super) := by
  have hmarked : Marked ([sub], [sub]) := ⟨List.nodup_singleton sub, fun _ hc => hc⟩
  obtain ⟨n, r, hn, hends⟩ := Round.exists_ends (h.searchRound super) (fun s => (h.ahead s).card)
    (fun s s' => searchRound_next) hmarked
  have hle : n ≤ h.types.length + 2 := by
    have := h.card_ahead_le ([sub], [sub])
    omega
  have hsame : h.isSubclass sub super = r := hends.fueled (h.searchFrom_round super) hle
  rw [hsame]
  exact ⟨n, hends⟩

/-- What was seen and is not to be visited stays done with. -/
theorem searchRound_done {target : ClassName} {state state' : List ClassName × List ClassName}
    (hdone : h.Done target state.1 state.2) (hnext : h.searchRound target state = .ok (.inr state')) :
    h.Done target state'.1 state'.2 ∧ ∀ c ∈ state.2, c ∈ state'.2 := by
  obtain ⟨toVisit, seen⟩ := state
  cases toVisit with
  | nil => cases hnext
  | cons c rest =>
    simp only [searchRound] at hnext
    split at hnext
    · cases hnext
    rename_i hne
    obtain ⟨info, hinfo, hnext⟩ := Except.bind_ok.mp hnext
    obtain ⟨new, henqueue, -, -, hall⟩ := enqueue_eq info.supers rest seen
    rw [henqueue] at hnext
    cases hnext
    exact ⟨hdone.visit (lookup_of_typeInfo hinfo) hne hall, fun _ => List.mem_append_right _⟩

/-- **What the search does not find** is not there. -/
theorem not_below_of_isSubclass {sub super : ClassName} (hok : h.isSubclass sub super = .ok false) :
    ¬ h.Below sub super := by
  obtain ⟨n, hends⟩ := h.search_ends sub super
  rw [hok] at hends
  obtain ⟨⟨toVisit, seen⟩, ⟨hsub, hdone⟩, hlast⟩ := hends.last
    (P := fun state => sub ∈ state.2 ∧ h.Done super state.1 state.2)
    (fun s s' hs hnext => by
      obtain ⟨hdone, hseen⟩ := searchRound_done hs.2 hnext
      exact ⟨hseen sub hs.1, hdone⟩)
    ⟨List.mem_singleton_self sub, fun c hc hnot => absurd hc hnot⟩
  cases toVisit with
  | nil => exact hdone.not_below hsub
  | cons c rest =>
    simp only [searchRound] at hlast
    split at hlast
    · cases hlast
    · obtain ⟨info, -, hlast⟩ := Except.bind_ok.mp hlast
      cases hlast

/-! ## The walk along superclasses -/

/-- A round of the walk: is the other class below the next superclass, and if not, which is that? -/
def climbRound (h : Hierarchy) (b : ClassName) : Round TypeInfo MissingClass ClassName := fun info =>
  match info.superclass with
  | none => .ok (.inl .object)
  | some c => do
    if ← h.isSubclass b c then return .inl c
    return .inr (← h.typeInfo c)

/-- A climb is its first round, and the rest of the climb. -/
theorem firstSuperOf_round (h : Hierarchy) (b : ClassName) (fuel : Nat) (info : TypeInfo) :
    h.firstSuperOf b (fuel + 1) info =
      h.climbRound b info >>= Sum.elim .ok (h.firstSuperOf b fuel) := by
  obtain ⟨name, superclass, interfaces, isInterface⟩ := info
  cases superclass with
  | none => rfl
  | some c =>
    simp only [firstSuperOf, climbRound]
    cases h.isSubclass b c with
    | error e => rfl
    | ok below =>
      cases below with
      | true => rfl
      | false => cases h.typeInfo c <;> rfl

/-- **One round of the walk** leads to a superclass. -/
theorem climbRound_next {b : ClassName} {info info' : TypeInfo}
    (hinfo : h.lookup info.name = some info) (hnext : h.climbRound b info = .ok (.inr info')) :
    h.lookup info'.name = some info' ∧ h.Super info.name info'.name := by
  simp only [climbRound] at hnext
  split at hnext
  · cases hnext
  · rename_i c hsuper
    obtain ⟨below, -, hnext⟩ := Except.bind_ok.mp hnext
    cases below with
    | true => cases hnext
    | false =>
      obtain ⟨found, hfound, hnext⟩ := Except.bind_ok.mp hnext
      cases hnext
      have hlookup := lookup_of_typeInfo hfound
      rw [(mem_of_lookup hlookup).2]
      exact ⟨hlookup, info, hinfo, by simp [TypeInfo.supers, hsuper]⟩

/-- **The walk ends**, and its fuel is not used up. -/
theorem Grounded.climb_ends (hg : h.Grounded) (b : ClassName) {a : ClassName} {info : TypeInfo}
    (hinfo : h.lookup a = some info) :
    ∃ n, (h.climbRound b).Ends info n (h.firstSuperOf b (h.types.length + 1) info) := by
  have hself : h.lookup info.name = some info := by
    rw [(mem_of_lookup hinfo).2, hinfo]
  obtain ⟨n, r, hn, hends⟩ := Round.exists_ends (h.climbRound b) (fun info => h.height info.name - 1)
    (fun s s' hs hnext => by
      obtain ⟨hs', hsuper⟩ := climbRound_next hs hnext
      have hless := hg.top.height_lt (hg.rises (.single hsuper))
      have hpos : 0 < h.height s'.name := height_pos ⟨s', hs'⟩
      exact ⟨hs', by omega⟩) hself
  have hle : n ≤ h.types.length + 1 := by
    have hheight := h.height_le info.name
    have hpos : 0 < h.height info.name := height_pos ⟨info, hself⟩
    omega
  have hsame : h.firstSuperOf b (h.types.length + 1) info = r :=
    hends.fueled (h.firstSuperOf_round b) hle
  rw [hsame]
  exact ⟨n, hends⟩

end Resumption.Hierarchy
