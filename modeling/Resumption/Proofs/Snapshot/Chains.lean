import Resumption.Proofs.Loops.Rounds
import Resumption.Proofs.Snapshot.Resolving

/-!
# Chains of rules come to an end

A rule may give a frame any key at all, so rules can lead back to a key that was passed. Both loops
that follow rules remember the keys behind them and refuse one that comes back. Each frame behind them
had an update rule of its own, so there are no more of them than there are update rules.

* **`Follows`** says without a loop what the rules make of a frame: each next frame comes from the one
  before it (`Leads`), and no key comes twice. `Exhausts` adds that no rule is for the last one.
* **`versionsRound`** and **`searchRound`** are one round of the two loops. `Passed` is what both keep
  true of the frames behind; with it both end (`ends_versions`, `ends_search`).
* **`chains_exact`**: they end with the frames to which the rules lead, and with no others.
-/

namespace Resumption

variable {ω : Type}

namespace SnapshotRules

variable {rules : SnapshotRules ω} {loadable : FrameKey → Bool}

/-! ## What the rules make of a frame -/

/-- The rules lead from a frame to what the update rule makes of it, intercepted. -/
def Leads (rules : SnapshotRules ω) (f g : SavedFrame ω) : Prop :=
  ∃ next, rules.update f = .ok (some next) ∧ rules.intercept next = .ok g

/-- Frames to which the rules lead one after the other, the given one first. No key comes twice. -/
structure Follows (rules : SnapshotRules ω) (first : SavedFrame ω) (path : List (SavedFrame ω)) :
    Prop where
  /-- it begins with the frame -/
  head : path.head? = some first
  /-- rules lead from each frame to the next -/
  leads : path.IsChain rules.Leads
  /-- no version comes twice -/
  nodup : (path.map (·.key)).Nodup

/-- All frames to which the rules lead from the given one: no rule is for the last one. -/
def Exhausts (rules : SnapshotRules ω) (first : SavedFrame ω) (path : List (SavedFrame ω)) : Prop :=
  rules.Follows first path ∧
    ∃ passed last, path = passed ++ [last] ∧ ∀ rule ∈ rules.updates, rule.key ≠ last.key

/-- No update happens if no rule is for the key. -/
theorem update_eq_none {f : SavedFrame ω} :
    rules.update f = .ok none ↔ ∀ rule ∈ rules.updates, rule.key ≠ f.key := by
  have hfind : rules.updates.find? (·.key = f.key) = none ↔
      ∀ rule ∈ rules.updates, rule.key ≠ f.key := by
    simp [List.find?_eq_none]
  rw [← hfind]
  simp only [update]
  split
  · rename_i hnone
    simp [hnone]
  · rename_i rule hsome
    simp only [hsome]
    split <;> simp

/-- A frame that is updated has a rule. -/
theorem mem_of_update {f next : SavedFrame ω} (h : rules.update f = .ok (some next)) :
    f.key ∈ rules.updates.map (·.key) := by
  simp only [update] at h
  split at h
  · cases h
  · rename_i rule hrule
    exact List.mem_map.mpr ⟨rule, List.mem_of_find?_eq_some hrule, by
      simpa using List.find?_some hrule⟩

/-- An update is refused only if it keeps the key. -/
theorem update_error {f : SavedFrame ω} {e : SnapshotError} (h : rules.update f = .error e) :
    e = .updateKeptKey f.key := by
  simp only [update] at h
  split at h
  · cases h
  · split at h <;> cases h
    rfl

/-- An interception is refused only if it changes the key. -/
theorem intercept_error {f : SavedFrame ω} {e : SnapshotError} (h : rules.intercept f = .error e) :
    e = .interceptChangedKey f.key := by
  simp only [intercept] at h
  split at h
  · cases h
  · split at h <;> cases h
    rfl

/-- One frame is a chain. -/
theorem Follows.single (first : SavedFrame ω) : rules.Follows first [first] :=
  ⟨rfl, List.isChain_singleton first, List.nodup_singleton _⟩

/-- One frame more. -/
theorem follows_snoc {first last g : SavedFrame ω} {passed : List (SavedFrame ω)} :
    rules.Follows first (passed ++ [last] ++ [g]) ↔
      rules.Follows first (passed ++ [last]) ∧ rules.Leads last g ∧
        g.key ∉ (passed ++ [last]).map (·.key) := by
  have hhead : (passed ++ [last] ++ [g]).head? = (passed ++ [last]).head? := by
    cases passed <;> rfl
  constructor
  · rintro ⟨hfirst, hleads, hnodup⟩
    rw [List.isChain_append] at hleads
    rw [List.map_append, List.nodup_append] at hnodup
    refine ⟨⟨hhead ▸ hfirst, hleads.1, hnodup.1⟩, ?_, ?_⟩
    · exact hleads.2.2 last (by simp) g (by simp)
    · intro hmem
      exact hnodup.2.2 _ hmem _ (by simp) rfl
  · rintro ⟨⟨hfirst, hleads, hnodup⟩, hlast, hnew⟩
    refine ⟨hhead.trans hfirst, ?_, ?_⟩
    · rw [List.isChain_append]
      refine ⟨hleads, List.isChain_singleton g, ?_⟩
      intro x hx y hy
      simp only [List.getLast?_append, List.getLast?_singleton, Option.some_or, Option.mem_def,
        Option.some.injEq, List.head?_cons] at hx hy
      rw [← hx, ← hy]
      exact hlast
    · rw [List.map_append, List.nodup_append]
      refine ⟨hnodup, List.nodup_singleton _, ?_⟩
      intro k hk k' hk' heq
      obtain rfl : k' = g.key := by simpa using hk'
      exact hnew (heq ▸ hk)

/-! ## The frames behind a loop -/

/-- Frames that a loop went on from: each was updated, and no key came twice. -/
structure Passed (rules : SnapshotRules ω) (passed : List (SavedFrame ω)) : Prop where
  /-- no version comes twice -/
  nodup : (passed.map (·.key)).Nodup
  /-- there is a rule for each -/
  updated : ∀ f ∈ passed, f.key ∈ rules.updates.map (·.key)

/-- **The measure.** No more frames were passed than there are update rules. -/
theorem Passed.length_le {passed : List (SavedFrame ω)} (h : rules.Passed passed) :
    passed.length ≤ rules.updates.length := by
  have hsub : passed.map (·.key) ⊆ rules.updates.map (·.key) := by
    intro k hk
    obtain ⟨f, hf, rfl⟩ := List.mem_map.mp hk
    exact h.updated f hf
  simpa using (List.subperm_of_subset h.nodup hsub).length_le

/-- A round passes one more frame. -/
theorem Passed.snoc {passed : List (SavedFrame ω)} {f next : SavedFrame ω} (h : rules.Passed passed)
    (hnew : f.key ∉ passed.map (·.key)) (hupdate : rules.update f = .ok (some next)) :
    rules.Passed (passed ++ [f]) := by
  constructor
  · rw [List.map_append, List.nodup_append]
    refine ⟨h.nodup, List.nodup_singleton _, ?_⟩
    intro k hk k' hk' heq
    obtain rfl : k' = f.key := by simpa using hk'
    exact hnew (heq ▸ hk)
  · intro g hg
    rcases List.mem_append.mp hg with hg | hg
    · exact h.updated g hg
    · obtain rfl := List.mem_singleton.mp hg
      exact mem_of_update hupdate

/-- Nothing is passed at the start. -/
theorem Passed.nil : rules.Passed [] := ⟨List.nodup_nil, nofun⟩

/-- Frames that follow each other, up to the one that a loop looks at. -/
def Trail (rules : SnapshotRules ω) (first : SavedFrame ω) (passed : List (SavedFrame ω))
    (f : SavedFrame ω) : Prop :=
  (passed = [] ∧ f = first) ∨ ∃ before last, passed = before ++ [last] ∧
    rules.Follows first passed ∧ rules.Leads last f

/-- A trail and its new frame are a chain. -/
theorem Trail.follows {first f : SavedFrame ω} {passed : List (SavedFrame ω)}
    (h : rules.Trail first passed f) (hnew : f.key ∉ passed.map (·.key)) :
    rules.Follows first (passed ++ [f]) := by
  rcases h with ⟨rfl, rfl⟩ | ⟨before, last, rfl, hfollows, hleads⟩
  · exact .single f
  · exact follows_snoc.mpr ⟨hfollows, hleads, hnew⟩

/-- A trail goes on where an update leads. -/
theorem Trail.next {first f g : SavedFrame ω} {passed : List (SavedFrame ω)}
    (h : rules.Trail first passed f) (hnew : f.key ∉ passed.map (·.key)) (hleads : rules.Leads f g) :
    rules.Trail first (passed ++ [f]) g :=
  .inr ⟨passed, f, rfl, h.follows hnew, hleads⟩

/-- Every chain is a trail with its last frame. -/
theorem Follows.trail {first f : SavedFrame ω} {passed : List (SavedFrame ω)}
    (h : rules.Follows first (passed ++ [f])) :
    rules.Trail first passed f ∧ f.key ∉ passed.map (·.key) := by
  rcases List.eq_nil_or_concat' passed with rfl | ⟨before, last, rfl⟩
  · have heq : some f = some first := h.head
    exact ⟨.inl ⟨rfl, Option.some.inj heq⟩, List.not_mem_nil⟩
  · obtain ⟨hfollows, hleads, hnew⟩ := follows_snoc.mp h
    exact ⟨.inr ⟨before, last, rfl, hfollows, hleads⟩, hnew⟩

/-! ## Writing -/

/-- A round of `versions`: frames that were passed, and the next one, which is not intercepted yet. -/
def versionsRound (rules : SnapshotRules ω) :
    Round (List (SavedFrame ω) × SavedFrame ω) SnapshotError (List (SavedFrame ω))
  | (passed, f) => do
    let current ← rules.intercept f
    if current.key ∈ passed.map (·.key) then throw (.updateCycle current.key)
    match ← rules.update current with
    | none => return .inl (passed ++ [current])
    | some next => return .inr (passed ++ [current], next)

variable {passed passed' : List (SavedFrame ω)} {f f' g first : SavedFrame ω}
  {path : List (SavedFrame ω)} {e : SnapshotError}

/-- A round succeeds exactly where an intercepted frame is new; it goes on if the frame is updated. -/
theorem versionsRound_ok {result : List (SavedFrame ω) ⊕ List (SavedFrame ω) × SavedFrame ω} :
    rules.versionsRound (passed, f) = .ok result ↔
      ∃ current, rules.intercept f = .ok current ∧ current.key ∉ passed.map (·.key) ∧
        ∃ updated, rules.update current = .ok updated ∧ result =
          updated.elim (.inl (passed ++ [current])) fun next => .inr (passed ++ [current], next) := by
  simp only [versionsRound, Except.bind_ok]
  refine exists_congr fun current => and_congr_right fun _ => ?_
  split
  · rename_i hseen
    exact ⟨nofun, fun h => absurd hseen h.1⟩
  · rename_i hnew
    rw [Except.bind_ok, and_iff_right hnew]
    refine exists_congr fun updated => and_congr_right fun _ => ?_
    cases updated with
    | none => exact ⟨fun h => (Except.ok.inj h).symm, fun h => congrArg Except.ok h.symm⟩
    | some next => exact ⟨fun h => (Except.ok.inj h).symm, fun h => congrArg Except.ok h.symm⟩

/-- A round goes on exactly where an intercepted frame is new and updated. -/
theorem versionsRound_next : rules.versionsRound (passed, f) = .ok (.inr (passed', g)) ↔
    ∃ current, rules.intercept f = .ok current ∧ current.key ∉ passed.map (·.key) ∧
      rules.update current = .ok (some g) ∧ passed' = passed ++ [current] := by
  rw [versionsRound_ok]
  refine exists_congr fun current => and_congr_right fun _ => and_congr_right fun _ => ?_
  constructor
  · rintro ⟨_ | next, hupdated, h⟩
    · cases h
    · cases h
      exact ⟨hupdated, rfl⟩
  · rintro ⟨hupdated, rfl⟩
    exact ⟨some g, hupdated, rfl⟩

/-- A round ends exactly where an intercepted frame is new and not updated. -/
theorem versionsRound_done : rules.versionsRound (passed, f) = .ok (.inl path) ↔
    ∃ current, rules.intercept f = .ok current ∧ current.key ∉ passed.map (·.key) ∧
      rules.update current = .ok none ∧ path = passed ++ [current] := by
  rw [versionsRound_ok]
  refine exists_congr fun current => and_congr_right fun _ => and_congr_right fun _ => ?_
  constructor
  · rintro ⟨_ | next, hupdated, h⟩
    · cases h
      exact ⟨hupdated, rfl⟩
    · cases h
  · rintro ⟨hupdated, rfl⟩
    exact ⟨none, hupdated, rfl⟩

/-- A round that finds a cycle has a key before it that was passed. -/
theorem versionsRound_cycle {key : FrameKey} :
    rules.versionsRound (passed, f) = .error (.updateCycle key) ↔
      ∃ current, rules.intercept f = .ok current ∧ current.key ∈ passed.map (·.key) ∧
        key = current.key := by
  constructor
  · intro h
    simp only [versionsRound] at h
    cases hcurrent : rules.intercept f with
    | error e =>
      simp only [hcurrent, bind, Except.bind] at h
      cases h
      cases intercept_error hcurrent
    | ok current =>
      simp only [hcurrent, bind, Except.bind] at h
      split at h
      · rename_i hseen
        cases h
        exact ⟨current, rfl, hseen, rfl⟩
      · cases hupdated : rules.update current with
        | error e =>
          simp only [hupdated] at h
          cases h
          cases update_error hupdated
        | ok updated =>
          simp only [hupdated] at h
          cases updated <;> cases h
  · rintro ⟨current, hcurrent, hseen, rfl⟩
    simp only [versionsRound, hcurrent, bind, Except.bind, if_pos hseen]
    rfl

/-- The keys of the frames that were passed, the last one first. -/
def behind (passed : List (SavedFrame ω)) : List FrameKey := (passed.map (·.key)).reverse

theorem behind_snoc : behind (passed ++ [f]) = f.key :: behind passed := by
  simp [behind]

/-- The keys behind are those passed. -/
theorem contains_behind {k : FrameKey} :
    (behind passed).contains k = decide (k ∈ passed.map (·.key)) := by
  simp [behind]

/-- What the definition gives in the middle of the loop, with the frames that were passed. -/
def chainFrom (rules : SnapshotRules ω) (rounds : Nat) (state : List (SavedFrame ω) × SavedFrame ω) :
    Except SnapshotError (List (SavedFrame ω)) :=
  (rules.chain rounds (behind state.1) state.2).map (state.1 ++ ·)

/-- The definition does what a round does, and then what is left of its rounds. -/
theorem chain_round (rules : SnapshotRules ω) (rounds : Nat)
    (state : List (SavedFrame ω) × SavedFrame ω) : rules.chainFrom (rounds + 1) state =
      rules.versionsRound state >>= Sum.elim .ok (rules.chainFrom rounds) := by
  obtain ⟨passed, f⟩ := state
  simp only [chainFrom, chain, versionsRound]
  cases rules.intercept f with
  | error e => rfl
  | ok current =>
    simp only [bind, Except.bind, contains_behind, decide_eq_true_eq]
    split
    · rfl
    · cases rules.update current with
      | error e => rfl
      | ok updated =>
        cases updated with
        | none => rfl
        | some next =>
          simp only [pure, Except.pure, Sum.elim_inr, chainFrom, behind_snoc]
          cases rules.chain rounds (current.key :: behind passed) next with
          | error e => rfl
          | ok rest => simp [Except.map]

/-- **Writing ends**, after one round more than there are update rules at most. -/
theorem ends_versions (f : SavedFrame ω) : ∃ n ≤ rules.updates.length + 1,
    rules.versionsRound.Ends ([], f) n ((rules.versions f).map (·.representations)) := by
  obtain ⟨n, r, hn, hends⟩ := Round.exists_ends rules.versionsRound (s := ([], f))
    (P := fun s => rules.Passed s.1) (fun s => rules.updates.length - s.1.length)
    (fun s s' hs hnext => by
      obtain ⟨current, -, hnew, hupdate, heq⟩ := versionsRound_next.mp hnext
      have hs' : rules.Passed s'.1 := heq ▸ hs.snoc hnew hupdate
      refine ⟨hs', ?_⟩
      have hle := hs'.length_le
      rw [heq, List.length_append, List.length_singleton] at hle ⊢
      omega) .nil
  refine ⟨n, hn, ?_⟩
  have hchain := hends.fueled rules.chain_round hn
  have hversions : (rules.versions f).map (·.representations) = r := by
    rw [← hchain, versions]
    simp only [chainFrom, List.nil_append, behind, List.map_nil, List.reverse_nil]
    cases rules.chain (rules.updates.length + 1) [] f <;> rfl
  rw [hversions]
  exact hends

/-- What the frames of a state are: each next one comes by the rules from the one before it, the
first one from the frame that was given. -/
def Comes (rules : SnapshotRules ω) (start : SavedFrame ω)
    (state : List (SavedFrame ω) × SavedFrame ω) : Prop :=
  ∀ current, rules.intercept state.2 = .ok current →
    ∃ first, rules.intercept start = .ok first ∧ rules.Trail first state.1 current

/-- What comes from a start comes after one more round. -/
theorem Comes.next {start : SavedFrame ω} {s s' : List (SavedFrame ω) × SavedFrame ω}
    (h : rules.Comes start s) (hnext : rules.versionsRound s = .ok (.inr s')) :
    rules.Comes start s' := by
  obtain ⟨current, hcurrent, hnew, hupdate, heq⟩ := versionsRound_next.mp hnext
  intro g hg
  obtain ⟨first, hfirst, htrail⟩ := h current hcurrent
  refine ⟨first, hfirst, ?_⟩
  rw [heq]
  exact htrail.next hnew ⟨_, hupdate, hg⟩

/-- The loop comes to each frame to which the rules lead. -/
theorem Trail.ends {start : SavedFrame ω} (hfirst : rules.intercept start = .ok first)
    (h : rules.Trail first passed g) : ∃ f, rules.intercept f = .ok g ∧
      ∀ n r, rules.versionsRound.Ends (passed, f) n r →
        ∃ m, rules.versionsRound.Ends ([], start) m r := by
  -- induction on the frames that were passed, the last one first
  induction passed using List.reverseRecOn generalizing g with
  | nil =>
    rcases h with ⟨-, rfl⟩ | ⟨before, last, hnil, -⟩
    · exact ⟨start, hfirst, fun n _ hends => ⟨n, hends⟩⟩
    · simp at hnil
  | append_singleton before last ih =>
    rcases h with ⟨hnil, -⟩ | ⟨before', last', heq, hfollows, next, hupdate, hintercept⟩
    · simp at hnil
    · obtain ⟨rfl, rfl⟩ := List.append_singleton_inj.mp heq
      obtain ⟨htrail, hnew⟩ := hfollows.trail
      obtain ⟨f, hf, hback⟩ := ih htrail
      refine ⟨next, hintercept, ?_⟩
      intro n r hends
      exact hback _ _ (.next (versionsRound_next.mpr ⟨last, hf, hnew, hupdate, rfl⟩) hends)

/-- What the loop ends with is what the definition gives. -/
theorem versions_eq_of_ends {n : Nat} {r : Except SnapshotError (List (SavedFrame ω))}
    (h : rules.versionsRound.Ends ([], f) n r) :
    (rules.versions f).map (·.representations) = r := by
  obtain ⟨m, -, hends⟩ := rules.ends_versions f
  exact (hends.unique h).2

theorem map_representations_ok {x : Except SnapshotError (VersionedFrame ω)}
    {v : VersionedFrame ω} : x.map (·.representations) = .ok v.representations ↔ x = .ok v := by
  cases x with
  | error e => simp [Except.map]
  | ok w =>
    cases w
    cases v
    simp [Except.map]

theorem map_representations_error {x : Except SnapshotError (VersionedFrame ω)} :
    x.map (·.representations) = .error e ↔ x = .error e := by
  cases x <;> simp [Except.map]

/-- **What is written**: the frame, intercepted, and all that the rules make of it. -/
theorem versions_ok_iff {v : VersionedFrame ω} : rules.versions f = .ok v ↔
    ∃ first, rules.intercept f = .ok first ∧ rules.Exhausts first v.representations := by
  constructor
  · intro h
    obtain ⟨n, -, hends⟩ := rules.ends_versions f
    obtain ⟨⟨passed, g⟩, hcomes, hlast⟩ := hends.last (P := rules.Comes f)
      (fun _ _ hs hnext => hs.next hnext) (fun current hcurrent => ⟨current, hcurrent, .inl ⟨rfl, rfl⟩⟩)
    rw [h] at hlast
    obtain ⟨current, hcurrent, hnew, hupdate, heq⟩ := versionsRound_done.mp hlast
    obtain ⟨first, hfirst, htrail⟩ := hcomes current hcurrent
    have hfollows := htrail.follows hnew
    rw [← heq] at hfollows
    exact ⟨first, hfirst, hfollows, passed, current, heq, update_eq_none.mp hupdate⟩
  · rintro ⟨first, hfirst, hfollows, passed, last, heq, hnone⟩
    rw [heq] at hfollows
    obtain ⟨htrail, hnew⟩ := hfollows.trail
    obtain ⟨g, hg, hback⟩ := htrail.ends hfirst
    obtain ⟨m, hends⟩ := hback 1 (.ok v.representations)
      (.done (versionsRound_done.mpr ⟨last, hg, hnew, update_eq_none.mpr hnone, heq⟩))
    exact map_representations_ok.mp (versions_eq_of_ends hends)

/-- **Cycles** are found when the chain comes back to a key in it, and only then. -/
theorem versions_cycle_iff {key : FrameKey} : rules.versions f = .error (.updateCycle key) ↔
    ∃ first passed last back, rules.intercept f = .ok first ∧
      rules.Follows first (passed ++ [last]) ∧ rules.Leads last back ∧
      back.key ∈ (passed ++ [last]).map (·.key) ∧ key = back.key := by
  constructor
  · intro h
    obtain ⟨n, -, hends⟩ := rules.ends_versions f
    obtain ⟨⟨passed, g⟩, hcomes, hlast⟩ := hends.last (P := rules.Comes f)
      (fun _ _ hs hnext => hs.next hnext) (fun current hcurrent => ⟨current, hcurrent, .inl ⟨rfl, rfl⟩⟩)
    rw [h] at hlast
    obtain ⟨back, hback, hseen, rfl⟩ := versionsRound_cycle.mp hlast
    obtain ⟨first, hfirst, ⟨hnil, -⟩ | ⟨before, last, heq, hfollows, hleads⟩⟩ := hcomes back hback
    · simp only at hnil hseen
      rw [hnil] at hseen
      cases hseen
    · simp only at heq hseen hfollows
      rw [heq] at hseen hfollows
      exact ⟨first, before, last, back, hfirst, hfollows, hleads, hseen, rfl⟩
  · rintro ⟨first, passed, last, back, hfirst, hfollows, hleads, hseen, rfl⟩
    have htrail : rules.Trail first (passed ++ [last]) back :=
      .inr ⟨passed, last, rfl, hfollows, hleads⟩
    obtain ⟨g, hg, hback⟩ := htrail.ends hfirst
    obtain ⟨m, hends⟩ := hback 1 (.error (.updateCycle back.key))
      (.failed (versionsRound_cycle.mpr ⟨back, hg, hseen, rfl⟩))
    exact map_representations_error.mp (versions_eq_of_ends hends)

/-! ## Reading -/

/-- A round of a search: frames that were passed, none of which can be loaded, and the next one. -/
def searchRound (rules : SnapshotRules ω) (loadable : FrameKey → Bool) :
    Round (List (SavedFrame ω) × SavedFrame ω) SnapshotError
      (Except (List FrameKey) (SavedFrame ω))
  | (passed, f) => do
    if f.key ∈ passed.map (·.key) then throw (.updateCycle f.key)
    if loadable f.key then return .inl (.ok f)
    match ← rules.update f with
    | none => return .inl (.error ((passed ++ [f]).map (·.key)))
    | some next => return .inr (passed ++ [f], ← rules.intercept next)

/-- A search goes on exactly where a frame is new, not loadable and updated. -/
theorem searchRound_next : rules.searchRound loadable (passed, f) = .ok (.inr (passed', g)) ↔
    f.key ∉ passed.map (·.key) ∧ loadable f.key = false ∧ rules.Leads f g ∧
      passed' = passed ++ [f] := by
  simp only [searchRound]
  split
  · rename_i hseen
    exact ⟨nofun, fun h => absurd hseen h.1⟩
  · rename_i hnew
    split
    · rename_i hload
      exact ⟨nofun, fun h => absurd hload (by simp [h.2.1])⟩
    · rename_i hload
      rw [Except.bind_ok]
      constructor
      · rintro ⟨updated, hupdate, h⟩
        cases updated with
        | none => cases h
        | some next =>
          obtain ⟨g, hg, h⟩ := Except.bind_ok.mp h
          cases h
          exact ⟨hnew, by simpa using hload, ⟨next, hupdate, hg⟩, rfl⟩
      · rintro ⟨-, -, ⟨next, hupdate, hg⟩, rfl⟩
        exact ⟨some next, hupdate, Except.bind_ok.mpr ⟨g, hg, rfl⟩⟩

/-- A search ends with a frame exactly if it is new and loadable. -/
theorem searchRound_found : rules.searchRound loadable (passed, f) = .ok (.inl (.ok g)) ↔
    f.key ∉ passed.map (·.key) ∧ loadable f.key = true ∧ g = f := by
  simp only [searchRound]
  split
  · rename_i hseen
    exact ⟨nofun, fun h => absurd hseen h.1⟩
  · rename_i hnew
    split
    · rename_i hload
      constructor
      · intro h
        cases h
        exact ⟨hnew, hload, rfl⟩
      · rintro ⟨-, -, rfl⟩
        rfl
    · rename_i hload
      refine ⟨fun h => ?_, fun h => absurd h.2.1 hload⟩
      obtain ⟨updated, -, h⟩ := Except.bind_ok.mp h
      cases updated with
      | none => cases h
      | some next =>
        obtain ⟨_, -, h⟩ := Except.bind_ok.mp h
        cases h

theorem searchRound_tried {tried : List FrameKey} :
    rules.searchRound loadable (passed, f) = .ok (.inl (.error tried)) ↔
      f.key ∉ passed.map (·.key) ∧ loadable f.key = false ∧ rules.update f = .ok none ∧
        tried = (passed ++ [f]).map (·.key) := by
  simp only [searchRound]
  split
  · rename_i hseen
    exact ⟨nofun, fun h => absurd hseen h.1⟩
  · rename_i hnew
    split
    · rename_i hload
      exact ⟨nofun, fun h => absurd hload (by simp [h.2.1])⟩
    · rename_i hload
      rw [Except.bind_ok]
      constructor
      · rintro ⟨updated, hupdate, h⟩
        cases updated with
        | none =>
          cases h
          exact ⟨hnew, by simpa using hload, hupdate, rfl⟩
        | some next =>
          obtain ⟨_, -, h⟩ := Except.bind_ok.mp h
          cases h
      · rintro ⟨-, -, hupdate, rfl⟩
        exact ⟨none, hupdate, rfl⟩

/-- A failure of a round is a cycle or a rule that is broken. -/
theorem searchRound_error (h : rules.searchRound loadable (passed, f) = .error e) :
    ∀ tried, e ≠ .noLoadableFrame tried := by
  rintro tried rfl
  simp only [searchRound] at h
  split at h
  · cases h
  · split at h
    · cases h
    · cases hupdate : rules.update f with
      | error e =>
        simp only [hupdate, bind, Except.bind] at h
        cases h
        cases update_error hupdate
      | ok updated =>
        simp only [hupdate, bind, Except.bind] at h
        cases updated with
        | none => cases h
        | some next =>
          cases hnext : rules.intercept next with
          | error e =>
            simp only [hnext] at h
            cases h
            cases intercept_error hnext
          | ok g =>
            simp only [hnext] at h
            cases h

/-- The keys that were tried, with those that were passed before. -/
def triedAfter (passed : List (SavedFrame ω)) :
    Except (List FrameKey) (SavedFrame ω) → Except (List FrameKey) (SavedFrame ω) :=
  Except.mapError (passed.map (·.key) ++ ·)

/-- What the definition gives in the middle of the loop, with the keys that were tried. -/
def searchFrom (rules : SnapshotRules ω) (loadable : FrameKey → Bool) (rounds : Nat)
    (state : List (SavedFrame ω) × SavedFrame ω) :
    Except SnapshotError (Except (List FrameKey) (SavedFrame ω)) :=
  (rules.search loadable rounds (behind state.1) state.2).map (triedAfter state.1)

/-- The definition does what a round does, and then what is left of its rounds. -/
theorem search_round (rules : SnapshotRules ω) (loadable : FrameKey → Bool) (rounds : Nat)
    (state : List (SavedFrame ω) × SavedFrame ω) : rules.searchFrom loadable (rounds + 1) state =
      rules.searchRound loadable state >>= Sum.elim .ok (rules.searchFrom loadable rounds) := by
  obtain ⟨passed, f⟩ := state
  simp only [searchFrom, search, searchRound, contains_behind, decide_eq_true_eq]
  split
  · rfl
  · split
    · rfl
    · cases rules.update f with
      | error e => rfl
      | ok updated =>
        cases updated with
        | none => simp [pure, Except.pure, bind, Except.bind, Except.map, triedAfter, Except.mapError]
        | some next =>
          simp only [pure, Except.pure, bind, Except.bind]
          cases rules.intercept next with
          | error e => rfl
          | ok g =>
            simp only [Sum.elim_inr, searchFrom, behind_snoc]
            cases rules.search loadable rounds (f.key :: behind passed) g with
            | error e => rfl
            | ok outcome =>
              cases outcome <;> simp [Except.map, triedAfter, Except.mapError]

/-- **Searching ends**, after one round more than there are update rules at most. -/
theorem ends_search (rules : SnapshotRules ω) (loadable : FrameKey → Bool) (f : SavedFrame ω) :
    ∃ n ≤ rules.updates.length + 1, (rules.searchRound loadable).Ends ([], f) n
      (rules.search loadable (rules.updates.length + 1) [] f) := by
  obtain ⟨n, r, hn, hends⟩ := Round.exists_ends (rules.searchRound loadable) (s := ([], f))
    (P := fun s => rules.Passed s.1) (fun s => rules.updates.length - s.1.length)
    (fun s s' hs hnext => by
      obtain ⟨hnew, -, ⟨next, hupdate, -⟩, heq⟩ := searchRound_next.mp hnext
      have hs' : rules.Passed s'.1 := heq ▸ hs.snoc hnew hupdate
      refine ⟨hs', ?_⟩
      have hle := hs'.length_le
      rw [heq, List.length_append, List.length_singleton] at hle ⊢
      omega) .nil
  refine ⟨n, hn, ?_⟩
  have hsearch := hends.fueled (rules.search_round loadable) hn
  have hsame : (triedAfter [] : Except (List FrameKey) (SavedFrame ω) → _) = id := by
    funext outcome
    cases outcome <;> rfl
  rw [searchFrom, hsame] at hsearch
  have hid : (rules.search loadable (rules.updates.length + 1) [] f).map id =
      rules.search loadable (rules.updates.length + 1) [] f := by
    cases rules.search loadable (rules.updates.length + 1) [] f <;> rfl
  rw [← hid]
  exact hsearch.symm ▸ hends

/-- What the frames of a state are. -/
def Tries (rules : SnapshotRules ω) (loadable : FrameKey → Bool) (first : SavedFrame ω)
    (state : List (SavedFrame ω) × SavedFrame ω) : Prop :=
  rules.Trail first state.1 state.2 ∧ ∀ f ∈ state.1, loadable f.key = false

/-- At the start nothing was tried. -/
theorem Tries.start (f : SavedFrame ω) : rules.Tries loadable f ([], f) := ⟨.inl ⟨rfl, rfl⟩, nofun⟩

/-- One more round tries one more frame. -/
theorem Tries.next {s s' : List (SavedFrame ω) × SavedFrame ω} (h : rules.Tries loadable first s)
    (hnext : rules.searchRound loadable s = .ok (.inr s')) : rules.Tries loadable first s' := by
  obtain ⟨hnew, hload, hleads, heq⟩ := searchRound_next.mp hnext
  rw [Tries, heq]
  refine ⟨h.1.next hnew hleads, ?_⟩
  intro f hf
  rcases List.mem_append.mp hf with hf | hf
  · exact h.2 f hf
  · obtain rfl := List.mem_singleton.mp hf
    exact hload

/-- The loop comes to each frame to which the rules lead, unless one before it can be loaded. -/
theorem Tries.ends (h : rules.Tries loadable first (passed, g)) {n : Nat}
    {r : Except SnapshotError (Except (List FrameKey) (SavedFrame ω))}
    (hends : (rules.searchRound loadable).Ends (passed, g) n r) :
    ∃ m, (rules.searchRound loadable).Ends ([], first) m r := by
  -- induction on the frames that were passed, the last one first
  induction passed using List.reverseRecOn generalizing g n with
  | nil =>
    rcases h.1 with ⟨-, rfl⟩ | ⟨before, last, hnil, -⟩
    · exact ⟨n, hends⟩
    · simp at hnil
  | append_singleton before last ih =>
    rcases h.1 with ⟨hnil, -⟩ | ⟨before', last', heq, hfollows, hleads⟩
    · simp at hnil
    · obtain ⟨rfl, rfl⟩ := List.append_singleton_inj.mp heq
      obtain ⟨htrail, hnew⟩ := hfollows.trail
      have hlast := h.2 last (by simp)
      exact ih ⟨htrail, fun f hf => h.2 f (List.mem_append_left _ hf)⟩
        (.next (searchRound_next.mpr ⟨hnew, hlast, hleads, rfl⟩) hends)

/-- The rules lead to a frame that can be loaded, and to none before it. -/
def Finds (rules : SnapshotRules ω) (loadable : FrameKey → Bool) (first g : SavedFrame ω) : Prop :=
  loadable g.key = true ∧ ∃ passed, rules.Follows first (passed ++ [g]) ∧
    ∀ f ∈ passed, loadable f.key = false

/-- All frames to which the rules lead, none of which can be loaded. -/
def Misses (rules : SnapshotRules ω) (loadable : FrameKey → Bool) (first : SavedFrame ω)
    (path : List (SavedFrame ω)) : Prop :=
  rules.Exhausts first path ∧ ∀ f ∈ path, loadable f.key = false

/-- A search finds exactly what is found by definition. -/
theorem search_found_iff :
    rules.search loadable (rules.updates.length + 1) [] first = .ok (.ok g) ↔
      rules.Finds loadable first g := by
  obtain ⟨n, -, hends⟩ := rules.ends_search loadable first
  constructor
  · intro h
    obtain ⟨⟨passed, f⟩, htries, hlast⟩ := hends.last (P := rules.Tries loadable first)
      (fun _ _ hs hnext => hs.next hnext) (.start first)
    rw [h] at hlast
    obtain ⟨hnew, hload, rfl⟩ := searchRound_found.mp hlast
    exact ⟨hload, passed, htries.1.follows hnew, htries.2⟩
  · rintro ⟨hload, passed, hfollows, hnone⟩
    obtain ⟨htrail, hnew⟩ := hfollows.trail
    have htries : rules.Tries loadable first (passed, g) := ⟨htrail, hnone⟩
    obtain ⟨m, hends'⟩ := htries.ends (.done (searchRound_found.mpr ⟨hnew, hload, rfl⟩))
    exact (hends.unique hends').2

/-- A search lists exactly what it missed. -/
theorem search_tried_iff {tried : List FrameKey} :
    rules.search loadable (rules.updates.length + 1) [] first = .ok (.error tried) ↔
      ∃ path, rules.Misses loadable first path ∧ tried = path.map (·.key) := by
  obtain ⟨n, -, hends⟩ := rules.ends_search loadable first
  constructor
  · intro h
    obtain ⟨⟨passed, f⟩, htries, hlast⟩ := hends.last (P := rules.Tries loadable first)
      (fun _ _ hs hnext => hs.next hnext) (.start first)
    rw [h] at hlast
    obtain ⟨hnew, hload, hupdate, rfl⟩ := searchRound_tried.mp hlast
    refine ⟨passed ++ [f], ⟨⟨htries.1.follows hnew, passed, f, rfl, update_eq_none.mp hupdate⟩, ?_⟩, rfl⟩
    intro x hx
    rcases List.mem_append.mp hx with hx | hx
    · exact htries.2 x hx
    · obtain rfl := List.mem_singleton.mp hx
      exact hload
  · rintro ⟨path, ⟨⟨hfollows, passed, last, rfl, hnone⟩, hmiss⟩, rfl⟩
    obtain ⟨htrail, hnew⟩ := hfollows.trail
    have htries : rules.Tries loadable first (passed, last) :=
      ⟨htrail, fun f hf => hmiss f (List.mem_append_left _ hf)⟩
    obtain ⟨m, hends'⟩ := htries.ends (.done (searchRound_tried.mpr
      ⟨hnew, hmiss last (by simp), update_eq_none.mpr hnone, rfl⟩))
    exact (hends.unique hends').2

/-- A search fails for a rule, not for want of a frame that can be loaded. -/
theorem search_error (h : rules.search loadable (rules.updates.length + 1) [] first = .error e)
    (tried : List FrameKey) : e ≠ .noLoadableFrame tried := by
  obtain ⟨n, -, hends⟩ := rules.ends_search loadable first
  obtain ⟨⟨passed, f⟩, -, hlast⟩ := hends.last (P := fun _ => True) (fun _ _ _ _ => trivial) trivial
  rw [h] at hlast
  exact searchRound_error hlast tried

/-! ## All representations -/

/-- **Found**: no representation before the one that leads to a frame that can be loaded leads to
any. -/
theorem resolveFrom_ok_iff {representations : List (SavedFrame ω)} {tried : List FrameKey} :
    rules.resolveFrom loadable tried representations = .ok g ↔
      ∃ before r after, representations = before ++ r :: after ∧
        (∀ b ∈ before, ∃ path, rules.Misses loadable b path) ∧ rules.Finds loadable r g := by
  -- what was tried is only listed, so the induction is over any list of tried keys
  induction representations generalizing tried with
  | nil =>
    constructor
    · intro h
      cases h
    · rintro ⟨before, r, after, h, -⟩
      simp at h
  | cons f rest ih =>
    rw [resolveFrom, Except.bind_ok]
    constructor
    · rintro ⟨outcome, houtcome, h⟩
      cases outcome with
      | ok found =>
        cases h
        exact ⟨[], f, rest, rfl, List.forall_mem_nil _, search_found_iff.mp houtcome⟩
      | error keys =>
        obtain ⟨before, r, after, rfl, hbefore, hr⟩ := ih.mp h
        obtain ⟨path, hpath, -⟩ := search_tried_iff.mp houtcome
        exact ⟨f :: before, r, after, rfl, List.forall_mem_cons.mpr ⟨⟨path, hpath⟩, hbefore⟩, hr⟩
    · rintro ⟨before, r, after, h, hbefore, hr⟩
      cases before with
      | nil =>
        obtain ⟨rfl, rfl⟩ := List.cons.inj h
        exact ⟨.ok g, search_found_iff.mpr hr, rfl⟩
      | cons b before =>
        obtain ⟨rfl, rfl⟩ := List.cons.inj h
        obtain ⟨⟨path, hpath⟩, hbefore⟩ := List.forall_mem_cons.mp hbefore
        exact ⟨.error (path.map (·.key)), search_tried_iff.mpr ⟨path, hpath, rfl⟩,
          ih.mpr ⟨before, r, after, rfl, hbefore, hr⟩⟩

/-- **Not found**: every representation was followed to the end, and all keys are reported. -/
theorem resolveFrom_tried_iff {representations : List (SavedFrame ω)} {tried all : List FrameKey} :
    rules.resolveFrom loadable tried representations = .error (.noLoadableFrame all) ↔
      ∃ paths, List.Forall₂ (rules.Misses loadable) representations paths ∧
        all = tried ++ paths.flatten.map (·.key) := by
  induction representations generalizing tried with
  | nil =>
    constructor
    · intro h
      cases h
      exact ⟨[], .nil, by simp⟩
    · rintro ⟨paths, hpaths, rfl⟩
      cases hpaths
      simp [resolveFrom]
  | cons f rest ih =>
    constructor
    · intro h
      cases houtcome : rules.search loadable (rules.updates.length + 1) [] f with
      | error e =>
        rw [resolveFrom, houtcome] at h
        cases h
        exact absurd rfl (search_error houtcome all)
      | ok outcome =>
        cases outcome with
        | ok found =>
          rw [resolveFrom, houtcome] at h
          cases h
        | error keys =>
          rw [resolveFrom_tried houtcome] at h
          obtain ⟨path, hpath, rfl⟩ := search_tried_iff.mp houtcome
          obtain ⟨paths, hpaths, rfl⟩ := ih.mp h
          exact ⟨path :: paths, .cons hpath hpaths, by simp⟩
    · rintro ⟨paths, hpaths, rfl⟩
      cases hpaths with
      | @cons _ path _ paths hpath hpaths =>
        rw [resolveFrom_tried (search_tried_iff.mpr ⟨path, hpath, rfl⟩)]
        exact ih.mpr ⟨paths, hpaths, by simp⟩

/-- **Chains end, and are exact.** Following the rules from a frame takes one round more than there are
update rules at most, whatever the rules do.

What is written is the frame, intercepted, and each frame to which the rules lead from there, up to
one that no update rule is for; a cycle is reported if and only if a frame comes back to a key in the
chain. What is read is the first frame that can be loaded on the chain of the first stored
representation that leads to one; if none does, all keys of all chains are reported, in order. -/
theorem chains_exact (rules : SnapshotRules ω) (loadable : FrameKey → Bool) :
    (∀ f, ∃ n ≤ rules.updates.length + 1,
      rules.versionsRound.Ends ([], f) n ((rules.versions f).map (·.representations))) ∧
    (∀ f v, rules.versions f = .ok v ↔
      ∃ first, rules.intercept f = .ok first ∧ rules.Exhausts first v.representations) ∧
    (∀ f key, rules.versions f = .error (.updateCycle key) ↔
      ∃ first passed last back, rules.intercept f = .ok first ∧
        rules.Follows first (passed ++ [last]) ∧ rules.Leads last back ∧
        back.key ∈ (passed ++ [last]).map (·.key) ∧ key = back.key) ∧
    (∀ f, ∃ n ≤ rules.updates.length + 1, (rules.searchRound loadable).Ends ([], f) n
      (rules.search loadable (rules.updates.length + 1) [] f)) ∧
    (∀ v g, rules.resolve loadable v = .ok g ↔
      ∃ before r after, v.representations = before ++ r :: after ∧
        (∀ b ∈ before, ∃ path, rules.Misses loadable b path) ∧ rules.Finds loadable r g) ∧
    ∀ v tried, rules.resolve loadable v = .error (.noLoadableFrame tried) ↔
      ∃ paths, List.Forall₂ (rules.Misses loadable) v.representations paths ∧
        tried = paths.flatten.map (·.key) := by
  refine ⟨ends_versions, fun _ _ => versions_ok_iff, fun _ _ => versions_cycle_iff,
    rules.ends_search loadable, fun _ _ => resolveFrom_ok_iff, fun v tried => ?_⟩
  exact resolveFrom_tried_iff.trans (by simp)

namespace Circle

/-- The same point in different versions of a method. -/
def version (n : Int32) : FrameKey := ⟨"Sample", 1, n, 0⟩

/-- A frame of one version. -/
def frame (n : Int32) : SavedFrame Nat := ⟨version n, [], .empty, .empty⟩

/-- Takes a frame from one version to another. -/
def rule (n m : Int32) : FrameRule Nat := ⟨version n, fun f => { f with key := version m }⟩

/-- The first version leads to two others, which lead to each other. -/
def turning : SnapshotRules Nat := ⟨[], [rule 0 1, rule 1 2, rule 2 1]⟩

theorem follows : turning.Follows (frame 0) [frame 0, frame 1, frame 2] where
  head := rfl
  leads := by
    have hfirst : turning.Leads (frame 0) (frame 1) := ⟨frame 1, rfl, rfl⟩
    have hsecond : turning.Leads (frame 1) (frame 2) := ⟨frame 2, rfl, rfl⟩
    simp [hfirst, hsecond]
  nodup := by decide

end Circle

/-- A circle that is entered away from where the chain starts: writing finds it in the fourth round at
the latest, and a search that can load a frame before that does not. -/
theorem chains_exact_circle :
    (∃ n ≤ 4, Circle.turning.versionsRound.Ends ([], Circle.frame 0) n
      (.error (.updateCycle (Circle.version 1)))) ∧
    Circle.turning.resolve (· = Circle.version 2) ⟨[Circle.frame 0]⟩ = .ok (Circle.frame 2) := by
  obtain ⟨hends, -, hcycle, -, hfound, -⟩ := chains_exact Circle.turning (· = Circle.version 2)
  constructor
  · have hversions : Circle.turning.versions (Circle.frame 0) = .error (.updateCycle (Circle.version 1)) :=
      (hcycle _ _).mpr ⟨Circle.frame 0, [Circle.frame 0, Circle.frame 1], Circle.frame 2,
        Circle.frame 1, rfl, Circle.follows, ⟨Circle.frame 1, rfl, rfl⟩, by decide, rfl⟩
    obtain ⟨n, hn, hloop⟩ := hends (Circle.frame 0)
    rw [hversions] at hloop
    exact ⟨n, hn, hloop⟩
  · exact (hfound _ _).mpr ⟨[], Circle.frame 0, [], rfl, nofun, by decide,
      [Circle.frame 0, Circle.frame 1], Circle.follows, by decide⟩

end SnapshotRules

end Resumption
