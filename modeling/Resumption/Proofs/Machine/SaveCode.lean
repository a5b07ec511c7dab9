import Resumption.Proofs.Machine.Outlines
import Resumption.Proofs.Machine.Runs
import Resumption.Proofs.Machine.States

/-!
# Code that saves a frame

A frame is saved by straight code that allocates arrays, makes a method state of them, pushes it and
commits (`SaveCode`). Which code that is, is a parameter `F` of this file: it says which code saves a
frame and what stands before it. In guarded code (`Guarded`) nothing is allocated for a frame, pushed
or committed anywhere else.

* **`Guarded.pushed`**: a commit comes right after a push, and **`InFrame.committed`**: the code is
  left by a commit only.
* **`Body.Outlined`** is what an activation satisfies inside of such code. A step keeps it
  (`Body.Outlined.advance`).
-/

namespace Resumption

/-- Natives that only code that saves a frame calls. -/
def Native.counted : Native → Bool
  | .allocate _ | .push | .commit => true
  | _ => false

/-- Code that saves a frame, and the code that leads to it; `slot` is the variable for the
continuation. -/
structure SaveCode (N : List (MethodRef × Native)) (slot : Nat) (lead frame : List Instruction) :
    Prop where
  /-- what is on the stack is known all the way -/
  known : (Outline.afterAll? N slot ⟨false, []⟩ (lead ++ frame)).isSome
  /-- instructions cannot fail with an exception -/
  saves : ∀ i ∈ frame, i.saves N = true
  /-- it ends with the state pushed and the allocator told -/
  ends : ∃ (front : List Instruction) (push commit : Instruction), frame = front ++ [push, commit] ∧
    push.native? N = some .push ∧ commit.native? N = some .commit ∧
    ∀ i ∈ front, i.native? N ≠ some .push ∧ i.native? N ≠ some .commit

/-- Which code saves a frame: the variable for the continuation, the lead, and the code itself. -/
abbrev SaveCodes := Nat → List Instruction → List Instruction → Prop

/-- All this code saves a frame. -/
def SaveCodes.Sound (N : List (MethodRef × Native)) (F : SaveCodes) : Prop :=
  ∀ slot lead frame, F slot lead frame → SaveCode N slot lead frame

/-- Is the instruction at the index part of code that saves a frame? -/
def InFrame (F : SaveCodes) (is : List Instruction) (k : Nat) : Prop :=
  ∃ slot lead frame front rest done, F slot lead frame ∧ is = front ++ (lead ++ frame ++ rest) ∧
    k = front.length + (lead.length + done) ∧ done < frame.length

/-- Only code that saves a frame calls the natives for this. -/
def Guarded (N : List (MethodRef × Native)) (F : SaveCodes) (is : List Instruction) : Prop :=
  ∀ (k : Nat) i native, is[k]? = some i → i.native? N = some native → native.counted = true →
    InFrame F is k

variable {N : List (MethodRef × Native)} {F : SaveCodes} {is js : List Instruction} {k : Nat}
  {i : Instruction}

/-! ## Putting code together -/

theorem InFrame.append_right (h : InFrame F is k) (js : List Instruction) :
    InFrame F (is ++ js) k := by
  obtain ⟨slot, lead, frame, front, rest, done, hF, rfl, hk, hdone⟩ := h
  exact ⟨slot, lead, frame, front, rest ++ js, done, hF, by simp only [List.append_assoc], hk, hdone⟩

theorem InFrame.append_left (h : InFrame F js k) (is : List Instruction) :
    InFrame F (is ++ js) (is.length + k) := by
  obtain ⟨slot, lead, frame, front, rest, done, hF, rfl, rfl, hdone⟩ := h
  refine ⟨slot, lead, frame, is ++ front, rest, done, hF, by simp only [List.append_assoc], ?_, hdone⟩
  rw [List.length_append, Nat.add_assoc]

namespace Guarded

theorem append (his : Guarded N F is) (hjs : Guarded N F js) : Guarded N F (is ++ js) := by
  intro k i native hi hnative hcounted
  by_cases hk : k < is.length
  · rw [List.getElem?_append_left hk] at hi
    exact (his k i native hi hnative hcounted).append_right js
  · rw [List.getElem?_append_right (Nat.not_lt.mp hk)] at hi
    have hin := (hjs _ i native hi hnative hcounted).append_left is
    rwa [Nat.add_sub_of_le (Nat.not_lt.mp hk)] at hin

/-- Code that calls no such native. -/
theorem of_none (h : ∀ i ∈ is, ∀ native, i.native? N = some native → native.counted = false) :
    Guarded N F is := by
  intro k i native hi hnative hcounted
  rw [h i (List.mem_of_getElem? hi) native hnative] at hcounted
  cases hcounted

theorem flatMap {α : Type} {xs : List α} {f : α → List Instruction}
    (h : ∀ x ∈ xs, Guarded N F (f x)) : Guarded N F (xs.flatMap f) := by
  induction xs with
  | nil => exact of_none fun _ hi => absurd hi List.not_mem_nil
  | cons x xs ih =>
    rw [List.flatMap_cons]
    exact append (h x (List.mem_cons_self ..)) (ih fun y hy => h y (List.mem_cons_of_mem _ hy))

/-- Code that saves a frame, after its lead. -/
theorem saves {slot : Nat} {lead frame : List Instruction} (hF : F slot lead frame)
    (hlead : ∀ i ∈ lead, ∀ native, i.native? N = some native → native.counted = false) :
    Guarded N F (lead ++ frame) := by
  intro k i native hi hnative hcounted
  by_cases hk : k < lead.length
  · rw [List.getElem?_append_left hk] at hi
    rw [hlead i (List.mem_of_getElem? hi) native hnative] at hcounted
    cases hcounted
  · rw [List.getElem?_append_right (Nat.not_lt.mp hk)] at hi
    have hdone := (List.getElem?_eq_some_iff.mp hi).1
    refine ⟨slot, lead, frame, [], [], k - lead.length, hF, ?_, ?_, hdone⟩
    · rw [List.append_nil, List.nil_append]
    · rw [List.length_nil]
      omega

end Guarded

/-! ## Inside of the code -/

theorem getElem?_mid {α : Type} (front mid rest : List α) {k : Nat} (hk : k < mid.length) :
    (front ++ (mid ++ rest))[front.length + k]? = mid[k]? := by
  rw [List.getElem?_append_right (Nat.le_add_right ..), Nat.add_sub_cancel_left,
    List.getElem?_append_left hk]

/-- Where the push and the commit are: at the end, and nowhere else. -/
theorem SaveCode.places {slot : Nat} {lead frame : List Instruction}
    (h : SaveCode N slot lead frame) :
    ∃ n push commit, frame.length = n + 2 ∧
      (frame[n]? = some push ∧ push.native? N = some .push) ∧
      (frame[n + 1]? = some commit ∧ commit.native? N = some .commit) ∧
      ∀ (k : Nat) i, frame[k]? = some i → (i.native? N = some .push → k = n) ∧
        (i.native? N = some .commit → k = n + 1) := by
  obtain ⟨front, push, commit, rfl, hpush, hcommit, hfront⟩ := h.ends
  refine ⟨front.length, push, commit, List.length_append, ⟨?_, hpush⟩, ⟨?_, hcommit⟩,
    fun k i hi => ?_⟩
  · rw [List.getElem?_append_right (Nat.le_refl _), Nat.sub_self]
    rfl
  · rw [List.getElem?_append_right (Nat.le_add_right ..), Nat.add_sub_cancel_left]
    rfl
  · by_cases hk : k < front.length
    · rw [List.getElem?_append_left hk] at hi
      obtain ⟨hnp, hnc⟩ := hfront i (List.mem_of_getElem? hi)
      exact ⟨fun h => absurd h hnp, fun h => absurd h hnc⟩
    · obtain ⟨n, rfl⟩ : ∃ n, k = front.length + n := ⟨k - front.length, by omega⟩
      rw [List.getElem?_append_right (Nat.le_add_right ..), Nat.add_sub_cancel_left] at hi
      match n with
      | 0 =>
        cases hi
        exact ⟨fun _ => rfl, fun h => (nomatch hpush.symm.trans h)⟩
      | 1 =>
        cases hi
        exact ⟨fun h => (nomatch hcommit.symm.trans h), fun _ => rfl⟩
      | n + 2 => cases hi

theorem getElem?_frame (front lead frame rest : List Instruction) {done : Nat}
    (hdone : done < frame.length) :
    (front ++ (lead ++ frame ++ rest))[front.length + (lead.length + done)]? = frame[done]? := by
  rw [getElem?_mid _ _ _ (by rw [List.length_append]; omega),
    List.getElem?_append_right (Nat.le_add_right ..), Nat.add_sub_cancel_left]

/-- The instruction, by its place in the code. -/
theorem InFrame.getElem? (h : InFrame F is k) (hi : is[k]? = some i) :
    ∃ slot lead frame front rest done, F slot lead frame ∧ is = front ++ (lead ++ frame ++ rest) ∧
      k = front.length + (lead.length + done) ∧ frame[done]? = some i := by
  obtain ⟨slot, lead, frame, front, rest, done, hcode, rfl, rfl, hdone⟩ := h
  rw [getElem?_frame _ _ _ _ hdone] at hi
  exact ⟨slot, lead, frame, front, rest, done, hcode, rfl, rfl, hi⟩

/-- It saves. -/
theorem InFrame.saves (hF : F.Sound N) (h : InFrame F is k) (hi : is[k]? = some i) :
    i.saves N = true := by
  obtain ⟨slot, lead, frame, -, -, done, hcode, -, -, hget⟩ := h.getElem? hi
  exact (hF slot lead frame hcode).saves i (List.mem_of_getElem? hget)

/-- **The code is left by a commit.** -/
theorem InFrame.committed (hF : F.Sound N) (h : InFrame F is k) (hi : is[k]? = some i)
    (hleft : ¬ InFrame F is (k + 1)) : i.native? N = some .commit := by
  obtain ⟨slot, lead, frame, front, rest, done, hcode, rfl, rfl, hget⟩ := h.getElem? hi
  have hdone := (List.getElem?_eq_some_iff.mp hget).1
  have hlast : ¬ done + 1 < frame.length := fun hlt =>
    hleft ⟨slot, lead, frame, front, rest, done + 1, hcode, rfl, by omega, hlt⟩
  obtain ⟨n, push, commit, hlength, -, ⟨hcommit, hnative⟩, -⟩ := (hF slot lead frame hcode).places
  obtain rfl : done = n + 1 := by omega
  cases hget.symm.trans hcommit
  exact hnative

/-- After a push comes a commit. -/
theorem InFrame.commits (hF : F.Sound N) (h : InFrame F is k) (hi : is[k]? = some i)
    (hpush : i.native? N = some .push) :
    ∃ commit, is[k + 1]? = some commit ∧ commit.native? N = some .commit := by
  obtain ⟨slot, lead, frame, front, rest, done, hcode, rfl, rfl, hget⟩ := h.getElem? hi
  obtain ⟨n, push, commit, hlength, -, ⟨hcommit, hnative⟩, honly⟩ := (hF slot lead frame hcode).places
  obtain rfl := (honly done i hget).1 hpush
  refine ⟨commit, ?_, hnative⟩
  rw [Nat.add_assoc, Nat.add_assoc, getElem?_frame _ _ _ _ (by omega), hcommit]

/-- **A commit comes right after a push.** -/
theorem Guarded.pushed (hF : F.Sound N) (h : Guarded N F is) (hi : is[k]? = some i)
    (hcommit : i.native? N = some .commit) :
    ∃ j push, k = j + 1 ∧ is[j]? = some push ∧ push.native? N = some .push := by
  obtain ⟨slot, lead, frame, front, rest, done, hcode, rfl, rfl, hget⟩ :=
    (h k i _ hi hcommit rfl).getElem? hi
  obtain ⟨n, push, commit, hlength, ⟨hpush, hnative⟩, -, honly⟩ := (hF slot lead frame hcode).places
  obtain rfl := (honly done i hget).2 hcommit
  refine ⟨front.length + (lead.length + n), push, by omega, ?_, hnative⟩
  rw [getElem?_frame _ _ _ _ (by omega), hpush]

/-! ## Activations inside of the code -/

namespace Body

/-- Wherever an activation is in the code for a frame or in its lead, what is known of it is true. -/
def Outlined (N : List (MethodRef × Native)) (F : SaveCodes) (body : Body) (a : Activation)
    (m : Machine) : Prop :=
  ∀ slot lead frame front rest done, F slot lead frame →
    body.instructions.toList = front ++ (lead ++ frame ++ rest) → a.index = front.length + done →
    0 < done → done < (lead ++ frame).length →
    ∃ o, Outline.afterAll? N slot ⟨false, []⟩ ((lead ++ frame).take done) = some o ∧
      o.Fits slot a m

variable {D : Discipline} {run : MethodRunner} {c : Code} {body : Body} {a b : Activation}
  {m m' : Machine}

/-- What is known before an instruction and after it. -/
theorem Outlined.before (hF : F.Sound N) (h : body.Outlined N F a m) {slot : Nat}
    {lead frame front rest : List Instruction} {done : Nat} (hcode : F slot lead frame)
    (hbody : body.instructions.toList = front ++ (lead ++ frame ++ rest))
    (hindex : a.index = front.length + done) (hi : (lead ++ frame)[done]? = some i) :
    ∃ o o' : Outline, o.Fits slot a m ∧ o.after? N slot i = some o' ∧
      Outline.afterAll? N slot ⟨false, []⟩ ((lead ++ frame).take (done + 1)) = some o' := by
  obtain ⟨o', hknown⟩ := Option.isSome_iff_exists.mp (hF slot lead frame hcode).known
  obtain ⟨o₁, o₂, h₁, hafter, h₂⟩ := Outline.afterAll?_getElem? hknown hi
  refine ⟨o₁, o₂, ?_, hafter, h₂⟩
  cases done with
  | zero =>
    cases h₁
    exact ⟨nofun, [], a.stack, rfl, .nil⟩
  | succ done =>
    obtain ⟨o, ho, hfits⟩ := h slot lead frame front rest (done + 1) hcode hbody hindex
      (Nat.succ_pos _) (List.getElem?_eq_some_iff.mp hi).1
    cases h₁.symm.trans ho
    exact hfits

/-- No label stands there. -/
theorem not_label_saves (hF : F.Sound N) {slot : Nat} {lead frame front rest : List Instruction}
    {done : Nat} (hcode : F slot lead frame)
    (hbody : body.instructions.toList = front ++ (lead ++ frame ++ rest))
    (hdone : done < (lead ++ frame).length) (l : Label) :
    body.instructions[front.length + done]? ≠ some (.label l) := by
  rw [← Array.getElem?_toList, hbody, getElem?_mid _ _ _ hdone]
  intro hi
  obtain ⟨o', hknown⟩ := Option.isSome_iff_exists.mp (hF slot lead frame hcode).known
  obtain ⟨_, _, -, hafter, -⟩ := Outline.afterAll?_getElem? hknown hi
  cases hafter

/-- **A step keeps what is known true.** -/
theorem Outlined.advance (hF : F.Sound m.natives) (hbody : ofCode c = .ok body)
    (hrun : run.Steady D m.natives) (hm : m.Literate) (h : body.Outlined m.natives F a m)
    (hadvance : body.advance (Run.callees run) a m = .ok (.continue b) m') :
    body.Outlined m.natives F b m' := by
  intro slot lead frame front rest done hcode hplace hindex hpos hlt
  rcases advance_next_or_label hbody hrun hadvance with
    ⟨i, b₀, hi, hexec, hlater, rfl⟩ | ⟨l, hlabel⟩
  · obtain ⟨done, rfl⟩ : ∃ k, done = k + 1 := ⟨done - 1, by omega⟩
    have hbefore : a.index = front.length + done := Nat.succ.inj hindex
    rw [hbefore, ← Array.getElem?_toList, hplace, getElem?_mid _ _ _ (by omega)] at hi
    obtain ⟨o, o', hfits, hafter, htaken⟩ := h.before hF hcode hplace hbefore hi
    have hfits' := Step.execute_outlined (b := b₀) rfl hm hafter hfits hlater hexec
    exact ⟨o', htaken, hfits'.sure, hfits'.top⟩
  · rw [hindex] at hlabel
    exact absurd hlabel (not_label_saves hF hcode hplace hlt l)

end Body

end Resumption
