/-!
# Loops without a bound

A loop goes from state to state. A round of it fails, gives the result, or gives the next state; how
many rounds there will be is not said beforehand, and there may be no end to them. A definition that
counts fuel bounds such a loop; what it gives is what the loop gives only if the fuel never runs out.

* **`Round.Ends`** is the loop itself: from a state it ends after so many rounds with a result. It is
  inductive, so a loop that goes on for ever ends with nothing.
* **`Round.Ends.unique`**: a loop has one end at most.
* **`Round.exists_ends`**: a loop ends if a number goes down in each round, after one round more than
  that number at most.
* **`Round.Ends.fueled`**: with as much fuel as the loop has rounds, a definition that counts fuel gives
  what the loop gives.
-/

namespace Resumption

/-- What is done in a round: fail, give a result, or give the next state. -/
abbrev Round (σ ε ρ : Type) := σ → Except ε (ρ ⊕ σ)

namespace Round

variable {σ ε ρ : Type} {round : Round σ ε ρ} {s s' : σ} {n m : Nat} {r q : Except ε ρ}

/-- From a state the loop ends after this many rounds, and this is what it gives. -/
inductive Ends (round : Round σ ε ρ) : σ → Nat → Except ε ρ → Prop
  /-- a round fails -/
  | failed {s : σ} {e : ε} (h : round s = .error e) : Ends round s 1 (.error e)
  /-- a round has the result -/
  | done {s : σ} {x : ρ} (h : round s = .ok (.inl x)) : Ends round s 1 (.ok x)
  /-- a round goes on with the next -/
  | next {s s' : σ} {n : Nat} {r : Except ε ρ} (h : round s = .ok (.inr s'))
      (hrest : Ends round s' n r) : Ends round s (n + 1) r

/-- **One end at most.** -/
theorem Ends.unique (hn : round.Ends s n r) (hm : round.Ends s m q) : n = m ∧ r = q := by
  -- a round has one outcome, so the two ways to end agree round by round
  induction hn generalizing m with
  | failed h =>
    cases hm with
    | failed h' =>
      cases h.symm.trans h'
      exact ⟨rfl, rfl⟩
    | done h' => cases h.symm.trans h'
    | next h' _ => cases h.symm.trans h'
  | done h =>
    cases hm with
    | failed h' => cases h.symm.trans h'
    | done h' =>
      cases h.symm.trans h'
      exact ⟨rfl, rfl⟩
    | next h' _ => cases h.symm.trans h'
  | next h _ ih =>
    cases hm with
    | failed h' => cases h.symm.trans h'
    | done h' => cases h.symm.trans h'
    | next h' hrest' =>
      cases h.symm.trans h'
      obtain ⟨hrounds, hresult⟩ := ih hrest'
      exact ⟨congrArg (· + 1) hrounds, hresult⟩

/-- **Ends.** A number that goes down in each round that is not the last bounds the rounds. -/
theorem exists_ends (round : Round σ ε ρ) (measure : σ → Nat) {P : σ → Prop}
    (hnext : ∀ s s', P s → round s = .ok (.inr s') → P s' ∧ measure s' < measure s) (hs : P s) :
    ∃ n r, n ≤ measure s + 1 ∧ round.Ends s n r := by
  generalize hsize : measure s = size
  induction size using Nat.strongRecOn generalizing s with
  | ind size ih =>
    cases hround : round s with
    | error e => exact ⟨1, _, Nat.le_add_left .., .failed hround⟩
    | ok outcome =>
      cases outcome with
      | inl x => exact ⟨1, _, Nat.le_add_left .., .done hround⟩
      | inr s' =>
        obtain ⟨hs', hless⟩ := hnext s s' hs hround
        rw [hsize] at hless
        obtain ⟨n, r, hn, hends⟩ := ih (measure s') hless hs' rfl
        exact ⟨n + 1, r, by omega, .next hround hends⟩

/-- **Fuel.** A definition that does a round and then what is left of its fuel gives what the loop
gives, if the fuel is enough for all rounds. -/
theorem Ends.fueled {loop : Nat → σ → Except ε ρ} {fuel : Nat}
    (hround : ∀ fuel s, loop (fuel + 1) s = round s >>= Sum.elim .ok (loop fuel))
    (hends : round.Ends s n r) (hn : n ≤ fuel) : loop fuel s = r := by
  induction hends generalizing fuel with
  | failed h =>
    obtain ⟨fuel, rfl⟩ := Nat.exists_eq_add_of_le' hn
    rw [hround, h]
    rfl
  | done h =>
    obtain ⟨fuel, rfl⟩ := Nat.exists_eq_add_of_le' hn
    rw [hround, h]
    rfl
  | next h _ ih =>
    obtain ⟨fuel, rfl⟩ := Nat.exists_eq_add_of_le' (Nat.le_trans (Nat.le_add_left 1 _) hn)
    rw [hround, h]
    exact ih (Nat.le_of_succ_le_succ hn)

/-- What the states of a loop keep true holds where it ends. -/
theorem Ends.last {P : σ → Prop} (hnext : ∀ s s', P s → round s = .ok (.inr s') → P s')
    (hends : round.Ends s n r) (hs : P s) :
    ∃ s', P s' ∧ round s' = r.map Sum.inl := by
  induction hends with
  | failed h => exact ⟨_, hs, h⟩
  | done h => exact ⟨_, hs, h⟩
  | next h _ ih => exact ih (hnext _ _ hs h)

end Round

end Resumption
