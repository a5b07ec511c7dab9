import Resumption.Proofs.Machine.Effects

/-!
# Continuations are two lists

A continuation holds two lists of states, those that are saved and those that were pushed since, and
how far the saved ones were loaded. Its indexes say no more than that.

* **`Request`** and **`Answer`** are what can be asked of a continuation, in any order, and what it
  says.
* **`Ledger`** is the specification: lists without an index, from which everything is answered.
* **`answer_continuation`** is the step of the simulation, in which a continuation stays the
  representation of its ledger; **`run_continuation`** is the run.
* **`run_ledger`** reads off what that means for the fields of a continuation and for what was
  loaded and pushed.
-/

namespace Resumption

namespace Continuation

variable {σ : Type}

/-- What can be asked of a continuation. -/
inductive Request (σ : Type) where
  /-- a new one in its place -/
  | new
  /-- changes the mode -/
  | setMode (mode : Mode)
  /-- asks for the next state -/
  | loadNext
  /-- hands over a state -/
  | push (state : σ)
  /-- undoes a restore that failed -/
  | reset
  /-- prepares for running the coroutine -/
  | beginCycle
  /-- wraps up after the coroutine has returned -/
  | finishCycle
  /-- replaces the saved states -/
  | setSaved (saved : List σ)
deriving DecidableEq, Repr

/-- What a continuation says. -/
inductive Answer (σ : Type) where
  /-- done, with nothing to say -/
  | done
  /-- the next state -/
  | loaded (state : σ)
  /-- whether the coroutine has suspended -/
  | finished (suspended : Bool)
  /-- refused, with nothing done -/
  | refused (e : ContinuationError)
deriving DecidableEq, Repr

/-- A request with its answer. -/
abbrev Event (σ : Type) := Request σ × Answer σ

/-- The answer, and the continuation after it. One that refuses stays as it was. -/
def answer (c : Continuation σ) : Request σ → Answer σ × Continuation σ
  | .new => (.done, empty)
  | .setMode mode => (.done, { c with mode })
  | .loadNext =>
    match c.loadNext with
    | .ok (state, c') => (.loaded state, c')
    | .error e => (.refused e, c)
  | .push state => (.done, c.push state)
  | .reset => (.done, c.reset)
  | .beginCycle => (.done, c.beginCycle)
  | .finishCycle =>
    match c.finishCycle with
    | .ok (suspended, c') => (.finished suspended, c')
    | .error e => (.refused e, c)
  | .setSaved saved => (.done, ofSaved saved)

/-- What happens, and the continuation in the end. -/
def run (c : Continuation σ) : List (Request σ) → List (Event σ) × Continuation σ
  | [] => ([], c)
  | r :: rest =>
    let (a, c) := c.answer r
    let (events, c) := c.run rest
    ((r, a) :: events, c)

/-! ## The specification -/

/-- A continuation without indexes. -/
structure Ledger (σ : Type) where
  /-- the mode -/
  mode : Mode
  /-- saved states that were loaded, in order -/
  loaded : List σ
  /-- saved states that are still to be loaded -/
  ahead : List σ
  /-- pushed states, newest first -/
  pushed : List σ
deriving DecidableEq, Repr

namespace Ledger

/-- Nothing was saved yet. -/
def empty : Ledger σ := ⟨.normal, [], [], []⟩

variable (l : Ledger σ)

/-- All states, those that are loaded first. -/
def saved : List σ := l.loaded ++ l.ahead

/-- A ledger with these states saved, and none of them loaded. -/
def ofSaved (mode : Mode) (saved : List σ) : Ledger σ := ⟨mode, [], saved, []⟩

/-- The answer, and the ledger after it. -/
def answer : Request σ → Answer σ × Ledger σ
  | .new => (.done, empty)
  | .setMode mode => (.done, { l with mode })
  | .loadNext =>
    match l.ahead with
    | [] => (.refused (.noStateToLoad l.saved.length l.saved.length), l)
    | state :: ahead => (.loaded state, { l with loaded := l.loaded ++ [state], ahead })
  | .push state => (.done, { l with pushed := state :: l.pushed })
  | .reset => (.done, ofSaved .normal l.saved)
  | .beginCycle => (.done, ofSaved (if l.saved = [] then .normal else .loading) l.saved)
  | .finishCycle =>
    match l.mode with
    | .saving => (.finished true, ofSaved .normal l.pushed)
    | .normal => (.finished false, empty)
    | .loading => (.refused (.incompleteRestore l.loaded.length l.saved.length), l)
  | .setSaved saved => (.done, ofSaved .normal saved)

/-- What happens, and the ledger in the end. -/
def run : Ledger σ → List (Request σ) → List (Event σ) × Ledger σ
  | l, [] => ([], l)
  | l, r :: rest =>
    let (a, l) := l.answer r
    let (events, l) := l.run rest
    ((r, a) :: events, l)

/-- The continuation that stands for a ledger. -/
def continuation : Continuation σ where
  mode := l.mode
  saved := l.saved
  first := 0
  nextLoad := l.loaded.length
  nextUnload := if l.loaded = [] then none else some (l.loaded.length - 1)
  cutpoints := l.pushed
  firstCutpoint := if l.pushed = [] then none else some 0

end Ledger

/-! ## The simulation -/

/-- **The step.** A continuation that stands for a ledger answers as the ledger does, and stands for
what the ledger is afterwards. -/
theorem answer_continuation (l : Ledger σ) (r : Request σ) :
    l.continuation.answer r = ((l.answer r).1, (l.answer r).2.continuation) := by
  cases r with
  | new => rfl
  | setMode mode => rfl
  | push state => rfl
  | reset => rfl
  | setSaved saved => rfl
  | beginCycle =>
    have hempty : l.continuation.saved.isEmpty = decide (l.saved = []) := by
      show l.saved.isEmpty = _
      cases l.saved <;> rfl
    simp only [answer, Continuation.beginCycle, hempty, decide_eq_true_eq]
    rfl
  | loadNext =>
    have hnext : l.continuation.saved[l.continuation.nextLoad]? = l.ahead.head? := by
      show (l.loaded ++ l.ahead)[l.loaded.length]? = _
      rw [List.getElem?_append_right (Nat.le_refl _), Nat.sub_self, List.head?_eq_getElem?]
    simp only [answer, Continuation.loadNext, hnext, Ledger.answer]
    cases hahead : l.ahead with
    | nil => simp [Ledger.continuation, Ledger.saved, hahead]
    | cons state ahead => simp [Ledger.continuation, Ledger.saved, hahead]
  | finishCycle =>
    have hmode : l.continuation.mode = l.mode := rfl
    simp only [answer, Continuation.finishCycle, hmode, Ledger.answer]
    cases l.mode <;> rfl

/-- **The run.** -/
theorem run_continuation (l : Ledger σ) (requests : List (Request σ)) :
    l.continuation.run requests = ((l.run requests).1, (l.run requests).2.continuation) := by
  induction requests generalizing l with
  | nil => rfl
  | cons r rest ih => simp only [run, Ledger.run, answer_continuation, ih]

/-! ## What happened -/

/-- What is known of a continuation from the events alone. -/
structure History (σ : Type) where
  /-- what was last saved -/
  saved : List σ
  /-- what was loaded since it last went back to the first saved state, in order -/
  loaded : List σ
  /-- what was pushed since that was last dropped, newest first -/
  pushed : List σ
deriving DecidableEq, Repr

/-- The history after one more event. -/
def History.after (h : History σ) : Event σ → History σ
  | (.loadNext, .loaded state) => { h with loaded := h.loaded ++ [state] }
  | (.push state, _) => { h with pushed := state :: h.pushed }
  | (.reset, _) | (.beginCycle, _) => ⟨h.saved, [], []⟩
  | (.finishCycle, .finished true) => ⟨h.pushed, [], []⟩
  | (.finishCycle, .finished false) | (.new, _) => ⟨[], [], []⟩
  | (.setSaved saved, _) => ⟨saved, [], []⟩
  | _ => h

/-- The history of a continuation that began empty. -/
def history (events : List (Event σ)) : History σ := events.foldl .after ⟨[], [], []⟩

/-- The lists of a ledger. -/
def Ledger.history (l : Ledger σ) : History σ := ⟨l.saved, l.loaded, l.pushed⟩

/-- A ledger keeps its history. -/
theorem history_answer (l : Ledger σ) (r : Request σ) :
    (l.answer r).2.history = l.history.after (r, (l.answer r).1) := by
  cases r with
  | loadNext =>
    simp only [Ledger.answer]
    cases hahead : l.ahead with
    | nil => rfl
    | cons state ahead => simp [Ledger.history, Ledger.saved, History.after, hahead]
  | finishCycle =>
    simp only [Ledger.answer]
    cases l.mode <;> rfl
  | _ => rfl

/-- What a run of requests leaves behind is what its answers tell. -/
theorem history_run (l : Ledger σ) (requests : List (Request σ)) :
    (l.run requests).2.history = (l.run requests).1.foldl .after l.history := by
  induction requests generalizing l with
  | nil => rfl
  | cons r rest ih => simp only [Ledger.run, ih, List.foldl_cons, history_answer]

/-! ## Any sequence of requests -/

/-- The indexes of a continuation fit its lists. -/
structure Consistent (c : Continuation σ) : Prop where
  /-- loading begins with the first state -/
  first : c.first = 0
  /-- no more states are loaded than there are -/
  nextLoad : c.nextLoad ≤ c.saved.length
  /-- the last one that was loaded -/
  nextUnload : ∀ i, c.nextUnload = some i → i + 1 = c.nextLoad
  /-- said if and only if there are pushed states -/
  firstCutpoint : c.firstCutpoint = some 0 ↔ c.cutpoints ≠ []

/-- The continuation that belongs to a ledger is consistent. -/
theorem Ledger.consistent (l : Ledger σ) : l.continuation.Consistent where
  first := rfl
  nextLoad := by
    show l.loaded.length ≤ (l.loaded ++ l.ahead).length
    rw [List.length_append]
    exact Nat.le_add_right ..
  nextUnload := by
    intro i hi
    obtain ⟨hloaded, hi⟩ := Option.ite_none_left_eq_some.mp hi
    cases hi
    exact Nat.sub_add_cancel (List.length_pos_of_ne_nil hloaded)
  firstCutpoint := by
    show (if l.pushed = [] then none else some 0) = some 0 ↔ l.pushed ≠ []
    split <;> simp [*]

/-- **Refusals.** A state is refused if all were loaded, and the end of a cycle while there are
states to load. The continuation stays as it was. -/
theorem answer_refused {c c' : Continuation σ} {r : Request σ} {e : ContinuationError}
    (h : c.answer r = (.refused e, c')) :
    c' = c ∧ ((r = .loadNext ∧ c.saved.length ≤ c.nextLoad) ∨
      (r = .finishCycle ∧ c.mode = .loading)) := by
  cases r with
  | loadNext =>
    simp only [answer, Continuation.loadNext] at h
    cases hnext : c.saved[c.nextLoad]? with
    | none =>
      rw [hnext] at h
      cases h
      exact ⟨rfl, .inl ⟨rfl, List.getElem?_eq_none_iff.mp hnext⟩⟩
    | some state =>
      rw [hnext] at h
      cases h
  | finishCycle =>
    simp only [answer, Continuation.finishCycle] at h
    cases hmode : c.mode <;> rw [hmode] at h <;> cases h
    exact ⟨rfl, .inr ⟨rfl, rfl⟩⟩
  | _ => cases h

/-- **Continuations are two lists**, whatever they are asked in whatever order. Answers are those of
the ledger, which the continuation stands for in the end. So its indexes fit its lists, and the lists
are what the history says: the states that were loaded since it last went back are the first ones of
those saved, and its cutpoints are the states that were pushed since they were last dropped. A cycle
that ends while saving saves those, and what is refused changes nothing. -/
theorem run_ledger (requests : List (Request σ)) {events : List (Event σ)} {c : Continuation σ}
    (hrun : (empty : Continuation σ).run requests = (events, c)) :
    (∃ l, Ledger.empty.run requests = (events, l) ∧ c = l.continuation) ∧
    c.Consistent ∧
    (history events).saved = c.saved ∧
    (history events).loaded = c.saved.take c.nextLoad ∧
    (history events).pushed = c.cutpoints ∧
    (c.mode = .saving → ∃ c', c.answer .finishCycle = (.finished true, c') ∧
      c'.saved = (history events).pushed) ∧
    ∀ r e c', c.answer r = (.refused e, c') → c' = c ∧
      ((r = .loadNext ∧ c.saved.length ≤ c.nextLoad) ∨ (r = .finishCycle ∧ c.mode = .loading)) := by
  have hrun' := run_continuation (.empty : Ledger σ) requests
  have hempty : (Ledger.empty : Ledger σ).continuation = empty := rfl
  rw [hempty, hrun] at hrun'
  injection hrun' with hevents hc
  have hhistory := history_run (.empty : Ledger σ) requests
  generalize hl : (Ledger.empty : Ledger σ).run requests = result at *
  obtain ⟨events', l⟩ := result
  cases hevents
  cases hc
  have hlists : history events' = l.history := hhistory.symm
  rw [hlists]
  refine ⟨⟨l, rfl, rfl⟩, l.consistent, rfl, ?_, rfl, fun hmode => ?_, fun r e c' => answer_refused⟩
  · have htaken : (l.loaded ++ l.ahead).take l.loaded.length = l.loaded := List.take_left
    exact htaken.symm
  · refine ⟨ofSaved l.pushed, ?_, rfl⟩
    simp only [answer, Continuation.finishCycle, hmode]
    rfl

/-- Two states are saved, and one of them was loaded since. -/
theorem run_ledger_half : ∃ events c, (empty : Continuation Nat).run
      [.beginCycle, .setMode .saving, .push 2, .push 1, .finishCycle, .beginCycle, .loadNext] =
        (events, c) ∧
    c.saved = [1, 2] ∧ (history events).loaded = [1] ∧ c.nextUnload = some 0 ∧ 0 + 1 = c.nextLoad ∧
    (c.answer .finishCycle).2 = c := by
  refine ⟨_, _, rfl, rfl, ?_⟩
  obtain ⟨-, hconsistent, -, hloaded, -, -, hrefused⟩ := run_ledger
    [.beginCycle, .setMode .saving, .push 2, .push 1, .finishCycle, .beginCycle, .loadNext] rfl
  exact ⟨hloaded.trans rfl, rfl, hconsistent.nextUnload 0 rfl, (hrefused .finishCycle _ _ rfl).1⟩

end Continuation

/-- On a machine too a state that is refused changes nothing. -/
theorem Native.run_loadNext_refused {m : Machine} {r : Ref} {c : Continuation Ref}
    {e : ContinuationError} (hc : m.object? r = some (.continuation c))
    (hrefused : c.loadNext = .error e) :
    run [.ref r] .loadNext m = .error (.failure (.continuation e)) m := by
  simp only [run, Run.argument, bind, EStateM.bind, List.getElem?_cons_zero, pure, EStateM.pure,
    Run.continuationAt_of_some hc, hrefused, Run.liftContinuation, Run.fail]
  rfl

end Resumption
