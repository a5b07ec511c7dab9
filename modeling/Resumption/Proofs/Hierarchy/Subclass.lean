import Mathlib
import Resumption.Hierarchy.Subtyping

/-!
# The subtype relation

`Below` is the reflexive and transitive closure of the steps from a class to its superclass and its
interfaces. The search of `isSubclass` decides it in every hierarchy that knows the super types of
the classes that it knows (`isSubclass_iff`), cycles or not: each class is put on the list of those
to visit once, so the search visits every class that can be reached before its fuel is used up.
-/

namespace Resumption.Hierarchy

variable {h : Hierarchy}

/-- Is something known about the class? -/
def Knows (h : Hierarchy) (c : ClassName) : Prop := ∃ info, h.lookup c = some info

/-- One step to the superclass or to an interface. -/
def Super (h : Hierarchy) (c d : ClassName) : Prop := ∃ info, h.lookup c = some info ∧ d ∈ info.supers

/-- The same class, or one that is above by superclasses and interfaces. -/
def Below (h : Hierarchy) : ClassName → ClassName → Prop := Relation.ReflTransGen h.Super

/-- All super types of known classes are known. -/
def Closed (h : Hierarchy) : Prop := ∀ c d, h.Super c d → h.Knows d

theorem typeInfo_of_lookup {c : ClassName} {info : TypeInfo} (hc : h.lookup c = some info) :
    h.typeInfo c = .ok info := by
  simp only [typeInfo, hc]

theorem lookup_of_typeInfo {c : ClassName} {info : TypeInfo} (hc : h.typeInfo c = .ok info) :
    h.lookup c = some info := by
  simp only [typeInfo] at hc
  split at hc
  · cases hc
    assumption
  · cases hc

theorem mem_of_lookup {c : ClassName} {info : TypeInfo} (hc : h.lookup c = some info) :
    info ∈ h.types ∧ info.name = c :=
  ⟨List.mem_of_find?_eq_some hc, by simpa using List.find?_some hc⟩

theorem Below.knows {c d : ClassName} (hclosed : h.Closed) (hc : h.Knows c) (hcd : h.Below c d) :
    h.Knows d := by
  induction hcd with
  | refl => exact hc
  | tail _ hlast _ => exact hclosed _ _ hlast

/-- What is above a class is in every list that holds the class and all that is above its
members. -/
theorem Below.mem {seen : List ClassName} {c d : ClassName} (hcd : h.Below c d) (hc : c ∈ seen)
    (hseen : ∀ c ∈ seen, ∀ d, h.Super c d → d ∈ seen) : d ∈ seen := by
  induction hcd with
  | refl => exact hc
  | tail _ hlast ih => exact hseen _ ih _ hlast

/-- The names of the known classes, each once. -/
def names (h : Hierarchy) : List ClassName := (h.types.map (·.name)).dedup

theorem mem_names {c : ClassName} : c ∈ h.names ↔ h.Knows c := by
  simp only [names, List.mem_dedup, List.mem_map, Knows, lookup]
  constructor
  · rintro ⟨info, hinfo, rfl⟩
    cases hfind : h.types.find? (·.name == info.name) with
    | some found => exact ⟨found, rfl⟩
    | none => simpa using List.find?_eq_none.mp hfind info hinfo
  · rintro ⟨info, hfind⟩
    exact ⟨info, List.mem_of_find?_eq_some hfind, by simpa using List.find?_some hfind⟩

theorem nodup_names : h.names.Nodup := List.nodup_dedup _

theorem length_names_le : h.names.length ≤ h.types.length := by
  simpa [names] using (List.dedup_sublist (h.types.map (·.name))).length_le

/-- What is put on the list of classes to visit: the names that were not seen before, each once. -/
theorem enqueue_eq (next toVisit seen : List ClassName) :
    ∃ new, enqueue next toVisit seen = (new ++ toVisit, new ++ seen) ∧ new.Nodup ∧
      (∀ c ∈ new, c ∈ next ∧ c ∉ seen) ∧ ∀ c ∈ next, c ∈ new ++ seen := by
  -- what is new ends up in front of both lists, in reverse order
  induction next generalizing toVisit seen with
  | nil => exact ⟨[], rfl, .nil, nofun, nofun⟩
  | cons c next ih =>
    simp only [enqueue]
    split
    · rename_i hseen
      obtain ⟨new, heq, hnodup, hnew, hall⟩ := ih toVisit seen
      refine ⟨new, heq, hnodup, fun d hd => ⟨List.mem_cons_of_mem _ (hnew d hd).1, (hnew d hd).2⟩,
        fun d hd => ?_⟩
      rcases List.mem_cons.mp hd with rfl | hd
      · exact List.mem_append_right _ (by simpa using hseen)
      · exact hall d hd
    · rename_i hseen
      obtain ⟨new, heq, hnodup, hnew, hall⟩ := ih (c :: toVisit) (c :: seen)
      have hc : c ∉ new := fun hmem => (hnew c hmem).2 (List.mem_cons_self ..)
      refine ⟨new ++ [c], by simpa using heq, ?_, fun d hd => ?_, fun d hd => ?_⟩
      · exact hnodup.append (List.nodup_singleton c) fun d hd hd' => hc (List.mem_singleton.mp hd' ▸ hd)
      · rcases List.mem_append.mp hd with hd | hd
        · exact ⟨List.mem_cons_of_mem _ (hnew d hd).1,
            fun hmem => (hnew d hd).2 (List.mem_cons_of_mem _ hmem)⟩
        · obtain rfl := List.mem_singleton.mp hd
          exact ⟨List.mem_cons_self .., by simpa using hseen⟩
      · rcases List.mem_cons.mp hd with rfl | hd
        · simp
        · simpa using hall d hd

/-- How many known classes were not seen. -/
def unseen (h : Hierarchy) (seen : List ClassName) : Nat := (h.names.filter (· ∉ seen)).length

/-- Each new name is one less to come. -/
theorem unseen_append {new seen : List ClassName} (hnodup : new.Nodup)
    (hnew : ∀ c ∈ new, h.Knows c ∧ c ∉ seen) : h.unseen (new ++ seen) + new.length = h.unseen seen := by
  induction new with
  | nil => rfl
  | cons c new ih =>
    obtain ⟨hfresh, hnodup⟩ := List.nodup_cons.mp hnodup
    have hc := hnew c (List.mem_cons_self ..)
    have hrest := ih hnodup fun d hd => hnew d (List.mem_cons_of_mem _ hd)
    have hone : h.unseen (c :: (new ++ seen)) + 1 = h.unseen (new ++ seen) := by
      have hmem : c ∈ h.names.filter (· ∉ new ++ seen) := by
        simp [mem_names, hc.1, hc.2, hfresh]
      have hfilter : h.names.filter (· ∉ c :: (new ++ seen)) =
          (h.names.filter (· ∉ new ++ seen)).erase c := by
        rw [List.Nodup.erase_eq_filter (nodup_names.filter _), List.filter_filter]
        refine List.filter_congr fun d _ => ?_
        by_cases hd : d = c <;> simp [hd]
      have hpos := List.length_pos_of_mem hmem
      rw [unseen, unseen, hfilter, List.length_erase_of_mem hmem]
      omega
    rw [List.length_cons, List.cons_append, ← Nat.add_assoc, Nat.add_right_comm, hone, hrest]

/-- Classes that were seen and are not to be visited are done with: they are not the target, and all
above them was seen. -/
def Done (h : Hierarchy) (target : ClassName) (toVisit seen : List ClassName) : Prop :=
  ∀ c ∈ seen, c ∉ toVisit → c ≠ target ∧ ∀ d, h.Super c d → d ∈ seen

/-- If there is nothing left to visit, the target is not above any class that was seen. -/
theorem Done.not_below {target : ClassName} {seen : List ClassName} (hdone : h.Done target [] seen)
    {c : ClassName} (hc : c ∈ seen) : ¬ h.Below c target := by
  intro hbelow
  have hseen := hbelow.mem hc fun d hd => (hdone d hd List.not_mem_nil).2
  exact (hdone target hseen List.not_mem_nil).1 rfl

/-- A class that is not the target is done with once all above it was seen. -/
theorem Done.visit {target c : ClassName} {rest seen new : List ClassName} {info : TypeInfo}
    (hdone : h.Done target (c :: rest) seen) (hinfo : h.lookup c = some info) (hne : c ≠ target)
    (hall : ∀ d ∈ info.supers, d ∈ new ++ seen) : h.Done target (new ++ rest) (new ++ seen) := by
  intro d hd hleft
  simp only [List.mem_append, not_or] at hd hleft
  have hseen : d ∈ seen := hd.resolve_left hleft.1
  by_cases hdc : d = c
  · subst hdc
    refine ⟨hne, fun e ⟨info', hinfo', he⟩ => ?_⟩
    rw [hinfo] at hinfo'
    cases hinfo'
    exact hall e he
  · obtain ⟨hne, habove⟩ := hdone d hseen (by simp [hdc, hleft.2])
    exact ⟨hne, fun e he => List.mem_append_right _ (habove e he)⟩

/-- **The search** finds the target if and only if it is above a class that was seen. -/
theorem searchSupers_iff (hclosed : h.Closed) (target : ClassName) (fuel : Nat)
    (toVisit seen : List ClassName) (hvisit : ∀ c ∈ toVisit, c ∈ seen)
    (hknown : ∀ c ∈ seen, h.Knows c) (hdone : h.Done target toVisit seen)
    (hfuel : toVisit.length + h.unseen seen < fuel) :
    ∃ b, h.searchSupers target fuel toVisit seen = .ok b ∧
      (b = true ↔ ∃ c ∈ seen, h.Below c target) := by
  -- Each round takes a class off the list and adds only classes not seen before, so the classes to
  -- visit and those unseen become fewer together.
  induction fuel generalizing toVisit seen with
  | zero => omega
  | succ fuel ih =>
    cases toVisit with
    | nil =>
      refine ⟨false, rfl, nofun, ?_⟩
      rintro ⟨c, hc, hbelow⟩
      exact absurd hbelow (hdone.not_below hc)
    | cons c rest =>
      have hc : c ∈ seen := hvisit c (List.mem_cons_self ..)
      simp only [searchSupers]
      split
      · rename_i htarget
        exact ⟨true, rfl, fun _ => ⟨c, hc, htarget ▸ .refl⟩, fun _ => rfl⟩
      · rename_i htarget
        obtain ⟨info, hinfo⟩ := hknown c hc
        obtain ⟨new, henqueue, hnodup, hnew, hall⟩ := enqueue_eq info.supers rest seen
        have hsupers : ∀ d ∈ new, h.Super c d := fun d hd => ⟨info, hinfo, (hnew d hd).1⟩
        have hfewer := unseen_append hnodup fun d hd =>
          ⟨hclosed c d (hsupers d hd), (hnew d hd).2⟩
        have hvisit' : ∀ d ∈ new ++ rest, d ∈ new ++ seen := by
          intro d hd
          rcases List.mem_append.mp hd with hd | hd
          · exact List.mem_append_left _ hd
          · exact List.mem_append_right _ (hvisit d (List.mem_cons_of_mem _ hd))
        have hknown' : ∀ d ∈ new ++ seen, h.Knows d := by
          intro d hd
          rcases List.mem_append.mp hd with hd | hd
          · exact hclosed c d (hsupers d hd)
          · exact hknown d hd
        have hfuel' : (new ++ rest).length + h.unseen (new ++ seen) < fuel := by
          simp only [List.length_append, List.length_cons] at hfuel ⊢
          omega
        obtain ⟨b, hsearch, hb⟩ := ih (new ++ rest) (new ++ seen) hvisit' hknown'
          (hdone.visit hinfo htarget hall) hfuel'
        refine ⟨b, ?_, hb.trans ⟨?_, ?_⟩⟩
        · simp only [typeInfo_of_lookup hinfo, bind, Except.bind, henqueue]
          exact hsearch
        · rintro ⟨d, hd, hbelow⟩
          rcases List.mem_append.mp hd with hd | hd
          · exact ⟨c, hc, .head (hsupers d hd) hbelow⟩
          · exact ⟨d, hd, hbelow⟩
        · rintro ⟨d, hd, hbelow⟩
          exact ⟨d, List.mem_append_right _ hd, hbelow⟩

/-- **The search decides the subtype relation.** -/
theorem isSubclass_iff (hclosed : h.Closed) {sub : ClassName} (hsub : h.Knows sub)
    (super : ClassName) :
    ∃ b, h.isSubclass sub super = .ok b ∧ (b = true ↔ h.Below sub super) := by
  have hfuel : [sub].length + h.unseen [sub] < h.types.length + 2 := by
    have hle := (h.names.filter_sublist (p := (· ∉ [sub]))).length_le
    have hnames := h.length_names_le
    simp only [unseen, List.length_singleton]
    omega
  obtain ⟨b, hsearch, hb⟩ := searchSupers_iff hclosed super (h.types.length + 2) [sub] [sub]
    (fun _ hc => hc) (fun c hc => List.mem_singleton.mp hc ▸ hsub)
    (fun c hc hnot => absurd hc hnot) hfuel
  exact ⟨b, hsearch, by simpa using hb⟩

end Resumption.Hierarchy
