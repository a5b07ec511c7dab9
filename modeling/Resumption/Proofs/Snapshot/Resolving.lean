import Resumption.Proofs.Frame.Order
import Resumption.Snapshot.Rules

/-!
# What is read is what was written

A frame is written as the chain that the update rules make of it. Whoever reads it with the same
rules goes along the rules once more, from each stored frame, and gets to the stored frames that
follow it and to no others:

* **`Chained`** says that each frame is what the rules make of the one before it, and that they make
  nothing of the last one; `versions` gives such a chain (`versions_chained`).
* **`search_chained`**: following the rules from the first frame of a chain visits the chain.
* **`restore_capture`**: so of each frame the earliest stored version is taken that can be loaded.
-/

namespace Resumption

variable {ω : Type}

namespace VersionedFrame

/-- The first stored frame that can be loaded. If there is none, all frames were tried, and from
each one again those that follow it. -/
def earliest (loadable : FrameKey → Bool) (v : VersionedFrame ω) :
    Except SnapshotError (SavedFrame ω) :=
  match v.representations.find? (loadable ·.key) with
  | some f => .ok f
  | none => .error (.noLoadableFrame (v.representations.tails.flatMap (·.map (·.key))))

end VersionedFrame

namespace SnapshotRules

variable {rules : SnapshotRules ω}

/-- Frames that the rules make of each other, the first one of none, up to one that no rule is
for. -/
inductive Chained (rules : SnapshotRules ω) : List (SavedFrame ω) → Prop
  /-- there is no rule for the frame -/
  | last {f : SavedFrame ω} (hend : rules.update f = .ok none) : Chained rules [f]
  /-- the rule for the frame leads to the next -/
  | link {f next g : SavedFrame ω} {rest : List (SavedFrame ω)}
      (hupdate : rules.update f = .ok (some next)) (hintercept : rules.intercept next = .ok g)
      (hrest : Chained rules (g :: rest)) : Chained rules (f :: g :: rest)

/-! ## Writing -/

/-- One round of a chain. -/
theorem chain_succ {rounds : Nat} {seen : List FrameKey} {f : SavedFrame ω}
    {fs : List (SavedFrame ω)} (h : rules.chain (rounds + 1) seen f = .ok fs) :
    ∃ current, rules.intercept f = .ok current ∧ current.key ∉ seen ∧
      ((rules.update current = .ok none ∧ fs = [current]) ∨
        ∃ next rest, rules.update current = .ok (some next) ∧
          rules.chain rounds (current.key :: seen) next = .ok rest ∧ fs = current :: rest) := by
  obtain ⟨current, hcurrent, h⟩ := Except.bind_ok.mp h
  refine ⟨current, hcurrent, ?_⟩
  split at h
  · cases h
  · rename_i hfresh
    refine ⟨by simpa using hfresh, ?_⟩
    obtain ⟨updated, hupdated, h⟩ := Except.bind_ok.mp h
    cases updated with
    | none =>
      cases h
      exact .inl ⟨hupdated, rfl⟩
    | some next =>
      obtain ⟨rest, hrest, h⟩ := Except.bind_ok.mp h
      cases h
      exact .inr ⟨next, rest, hupdated, hrest, rfl⟩

/-- **Chains.** The first frame is the given one, intercepted; the others follow by the rules. No
key comes twice, and a round makes one frame. -/
theorem chain_chained {rounds : Nat} {seen : List FrameKey} {f : SavedFrame ω}
    {fs : List (SavedFrame ω)} (h : rules.chain rounds seen f = .ok fs) :
    ∃ first rest, fs = first :: rest ∧ rules.intercept f = .ok first ∧ rules.Chained fs ∧
      (fs.map (·.key)).Nodup ∧ (∀ g ∈ fs, g.key ∉ seen) ∧ fs.length ≤ rounds := by
  induction rounds generalizing seen f fs with
  | zero => cases h
  | succ rounds ih =>
    obtain ⟨current, hcurrent, hfresh, ⟨hend, rfl⟩ | ⟨next, tail, hupdate, hchain, rfl⟩⟩ :=
      chain_succ h
    · exact ⟨current, [], rfl, hcurrent, .last hend, List.nodup_singleton _,
        List.forall_mem_singleton.mpr hfresh, Nat.le_add_left ..⟩
    · obtain ⟨g, rest, rfl, hintercept, hchained, hnodup, hunseen, hlength⟩ := ih hchain
      refine ⟨current, _, rfl, hcurrent, .link hupdate hintercept hchained, ?_, ?_,
        Nat.succ_le_succ hlength⟩
      · refine List.nodup_cons.mpr ⟨fun hmem => ?_, hnodup⟩
        obtain ⟨g', hg', heq⟩ := List.mem_map.mp hmem
        exact hunseen g' hg' (heq ▸ List.mem_cons_self ..)
      · refine List.forall_mem_cons.mpr ⟨hfresh, fun g' hg' hmem => ?_⟩
        exact hunseen g' hg' (List.mem_cons_of_mem _ hmem)

theorem versions_chained {f : SavedFrame ω} {v : VersionedFrame ω}
    (h : rules.versions f = .ok v) :
    rules.Chained v.representations ∧ (v.representations.map (·.key)).Nodup ∧
      v.representations.length ≤ rules.updates.length + 1 := by
  obtain ⟨fs, hchain, h⟩ := Except.bind_ok.mp h
  cases h
  obtain ⟨first, rest, -, -, hchained, hnodup, -, hlength⟩ := chain_chained hchain
  exact ⟨hchained, hnodup, hlength⟩

/-! ## Reading -/

/-- One round of a search for which the key is new. -/
theorem search_succ (loadable : FrameKey → Bool) {rounds : Nat} {seen : List FrameKey}
    {f : SavedFrame ω} (hfresh : f.key ∉ seen) :
    rules.search loadable (rounds + 1) seen f =
      if loadable f.key then .ok (.ok f)
      else do
        match ← rules.update f with
        | none => return .error [f.key]
        | some next =>
          match ← rules.search loadable rounds (f.key :: seen) (← rules.intercept next) with
          | .ok found => return .ok found
          | .error tried => return .error (f.key :: tried) := by
  have hunseen : seen.contains f.key = false := by simpa using hfresh
  rw [search, hunseen]
  cases loadable f.key <;> rfl

/-- **Searching a chain.** From its first frame on the rules lead along the chain, so the search
ends with the first frame of it that can be loaded, or with all of its keys. -/
theorem search_chained (loadable : FrameKey → Bool) {f : SavedFrame ω} {rest : List (SavedFrame ω)}
    (hchained : rules.Chained (f :: rest)) (rounds : Nat) (seen : List FrameKey)
    (hnodup : ((f :: rest).map (·.key)).Nodup) (hunseen : ∀ g ∈ f :: rest, g.key ∉ seen)
    (hrounds : (f :: rest).length ≤ rounds) :
    rules.search loadable rounds seen f = .ok
      (match (f :: rest).find? (loadable ·.key) with
        | some g => .ok g
        | none => .error ((f :: rest).map (·.key))) := by
  -- induction along the chain; the keys behind are those that the search has seen
  induction rest generalizing f rounds seen with
  | nil =>
    obtain ⟨rounds, rfl⟩ := Nat.exists_eq_add_of_le' hrounds
    cases hchained with
    | last hend =>
      rw [List.length_singleton, search_succ loadable (hunseen f (List.mem_cons_self ..)), hend]
      cases hf : loadable f.key with
      | true => simp [hf]
      | false =>
        simp [hf]
        rfl
  | cons g rest ih =>
    obtain ⟨rounds, rfl⟩ := Nat.exists_eq_add_of_le' hrounds
    cases hchained with
    | @link _ next _ _ hupdate hintercept hrest =>
      obtain ⟨hnew, hnodup⟩ := List.nodup_cons.mp hnodup
      have hsearch := ih hrest (rounds + (g :: rest).length) (f.key :: seen) hnodup
        (fun g' hg' hmem => by
          rcases List.mem_cons.mp hmem with heq | hmem
          · exact hnew (List.mem_map.mpr ⟨g', hg', heq⟩)
          · exact hunseen g' (List.mem_cons_of_mem _ hg') hmem)
        (Nat.le_add_left ..)
      rw [List.length_cons, ← Nat.add_assoc,
        search_succ loadable (hunseen f (List.mem_cons_self ..)), hupdate]
      cases hf : loadable f.key with
      | true => simp [hf]
      | false =>
        have htail : (f :: g :: rest).find? (loadable ·.key) =
            (g :: rest).find? (loadable ·.key) := by
          rw [List.find?_cons, hf]
        simp only [Bool.false_eq_true, if_false, bind, Except.bind, hintercept, hsearch, htail]
        cases (g :: rest).find? (loadable ·.key) <;> rfl

/-- The frames that follow a frame of a chain are a chain. -/
theorem Chained.tail {f g : SavedFrame ω} {rest : List (SavedFrame ω)}
    (h : rules.Chained (f :: g :: rest)) : rules.Chained (g :: rest) := by
  cases h with
  | link _ _ hrest => exact hrest

/-- Nothing that the rules lead to from a frame can be loaded, so the next one is tried. -/
theorem resolveFrom_tried {loadable : FrameKey → Bool} {f : SavedFrame ω} {keys : List FrameKey}
    (h : rules.search loadable (rules.updates.length + 1) [] f = .ok (.error keys))
    (rest : List (SavedFrame ω)) (tried : List FrameKey) :
    rules.resolveFrom loadable tried (f :: rest) =
      rules.resolveFrom loadable (tried ++ keys) rest := by
  rw [resolveFrom, h]
  rfl

/-- **Resolving a chain.** The first frame decides: what can be loaded of the frames that follow a
later one can be loaded of those that follow it. -/
theorem resolveFrom_chained (loadable : FrameKey → Bool) {f : SavedFrame ω}
    {rest : List (SavedFrame ω)} (hchained : rules.Chained (f :: rest))
    (hnodup : ((f :: rest).map (·.key)).Nodup)
    (hlength : (f :: rest).length ≤ rules.updates.length + 1) (tried : List FrameKey) :
    rules.resolveFrom loadable tried (f :: rest) =
      match (f :: rest).find? (loadable ·.key) with
      | some g => .ok g
      | none => .error (.noLoadableFrame (tried ++ (f :: rest).tails.flatMap (·.map (·.key)))) := by
  have hsearch := search_chained loadable hchained _ [] hnodup (fun _ _ => List.not_mem_nil) hlength
  cases hfind : (f :: rest).find? (loadable ·.key) with
  | some g =>
    rw [hfind] at hsearch
    rw [resolveFrom, hsearch]
    rfl
  | none =>
    rw [hfind] at hsearch
    rw [resolveFrom_tried hsearch]
    -- nothing can be loaded, so the search from each frame tries all those after it
    induction rest generalizing f tried with
    | nil => simp [resolveFrom]
    | cons g rest ih =>
      have hnodup' := (List.nodup_cons.mp hnodup).2
      have hlength' := Nat.le_of_succ_le hlength
      have hfind' : (g :: rest).find? (loadable ·.key) = none :=
        List.find?_eq_none.mpr fun x hx =>
          List.find?_eq_none.mp hfind x (List.mem_cons_of_mem _ hx)
      have hsearch' := search_chained loadable hchained.tail _ [] hnodup'
        (fun _ _ => List.not_mem_nil) hlength'
      rw [hfind'] at hsearch'
      rw [resolveFrom_tried hsearch', ih hchained.tail hnodup' hlength' _ hsearch' hfind']
      simp [List.append_assoc]

/-- **The earliest version that can be loaded** is the one that a frame is read as. -/
theorem resolve_versions {f : SavedFrame ω} {v : VersionedFrame ω} (h : rules.versions f = .ok v)
    (loadable : FrameKey → Bool) : rules.resolve loadable v = v.earliest loadable := by
  obtain ⟨hchained, hnodup, hlength⟩ := versions_chained h
  rw [resolve, VersionedFrame.earliest]
  cases hstored : v.representations with
  | nil =>
    rw [hstored] at hchained
    cases hchained
  | cons first rest =>
    rw [hstored] at hchained hnodup hlength
    exact resolveFrom_chained loadable hchained hnodup hlength []

/-- Frame by frame. -/
theorem mapM_resolve {frames : List (SavedFrame ω)} {vs : List (VersionedFrame ω)}
    (h : List.Forall₂ (fun f v => rules.versions f = .ok v) frames vs)
    (loadable : FrameKey → Bool) :
    vs.mapM (rules.resolve loadable) = vs.mapM (·.earliest loadable) := by
  induction h with
  | nil => rfl
  | cons hfirst _ ih => rw [List.mapM_cons, List.mapM_cons, resolve_versions hfirst, ih]

/-- **What is read is what was written**, with the same rules, whatever they do and whatever can be
loaded. Of the stored versions of a frame the earliest is taken that can be loaded, value for value;
no rule fails, and no key comes back. So a snapshot that was captured is restored frame by frame to
the earliest versions. -/
theorem restore_capture (rules : SnapshotRules ω) (loadable : FrameKey → Bool) :
    (∀ f v, rules.versions f = .ok v → rules.resolve loadable v = v.earliest loadable) ∧
    ∀ payload frames s, rules.capture payload frames = .ok s →
      s.payload = payload ∧
      List.Forall₂ (fun f v => rules.versions f = .ok v) frames s.frames ∧
      rules.restore loadable s = s.frames.mapM (·.earliest loadable) := by
  refine ⟨fun f v h => resolve_versions h loadable, fun payload frames s h => ?_⟩
  obtain ⟨versions, hversions, h⟩ := Except.bind_ok.mp h
  cases h
  have hall := mapM_ok_iff.mp hversions
  exact ⟨rfl, hall, mapM_resolve hall loadable⟩

namespace Moved

/-- The version that was saved. -/
def old : FrameKey := ⟨"Sample", 1, 10, 0⟩

/-- The version that the code has now. -/
def new : FrameKey := ⟨"Sample", 1, 11, 0⟩

/-- Code that was changed once since. -/
def changed : SnapshotRules Nat := ⟨[], [⟨old, fun f => { f with key := new }⟩]⟩

/-- A frame with one variable. -/
def frame (key : FrameKey) : SavedFrame Nat := ⟨key, [], { SavedData.empty with ints := [5] }, .empty⟩

end Moved

open Moved in
/-- A frame of the old code is stored for both; the new code reads its version of it, the old code
the other one, and there is none for any other code. -/
theorem restore_capture_moved :
    changed.versions (frame old) = .ok ⟨[frame old, frame new]⟩ ∧
    changed.resolve (· = new) ⟨[frame old, frame new]⟩ = .ok (frame new) ∧
    changed.resolve (fun _ => false) ⟨[frame old, frame new]⟩ =
      .error (.noLoadableFrame [old, new, new]) ∧
    changed.capture 0 [frame old] = .ok ⟨0, [⟨[frame old, frame new]⟩]⟩ ∧
    changed.restore (· = new) ⟨0, [⟨[frame old, frame new]⟩]⟩ = .ok [frame new] := by
  have hversions : changed.versions (frame old) = .ok ⟨[frame old, frame new]⟩ := by rfl
  have hcapture : changed.capture 0 [frame old] = .ok ⟨0, [⟨[frame old, frame new]⟩]⟩ := by rfl
  refine ⟨hversions, ?_, ?_, hcapture, ?_⟩
  · exact ((restore_capture changed (· = new)).1 _ _ hversions).trans rfl
  · exact ((restore_capture changed fun _ => false).1 _ _ hversions).trans rfl
  · exact ((restore_capture changed (· = new)).2 _ _ _ hcapture).2.2.trans rfl

end SnapshotRules

end Resumption
