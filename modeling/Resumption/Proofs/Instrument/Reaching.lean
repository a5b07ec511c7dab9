import Mathlib
import Resumption.Instrument.Policy
import Resumption.Proofs.Loops.Rounds

/-!
# Suspending by reach

Which methods of a unit may suspend is found by a set that grows while it is looked at: a method is
added as soon as it calls one that is in, so that one round may add a whole chain of callers, or only
the last one of it, as the order of the methods has it.

* **`Reaches`** says which methods these are, without any order: those with a chain of calls inside
  the unit to one that suspends by itself.
* **`growth_ends`**: the set stops growing, after one round more than there are methods at most.
* **`ofUnit_admits_iff`**: the calls that may suspend are then `suspend` and those of methods that
  reach it. Nothing is added without a chain (`reaches_of_mem_grow`), and what does not grow any more
  has every caller of its members (`mem_of_calls`).
-/

namespace Resumption.SuspendPolicy

variable {methods methods' : List (MethodRef × Method)} {suspendable : List MethodRef}
  {m : Method} {x y : MethodRef}

/-! ## Chains of calls -/

/-- In a method with the first name there is a call of the second. -/
def Calls (methods : List (MethodRef × Method)) (x y : MethodRef) : Prop :=
  ∃ m, (x, m) ∈ methods ∧ ∃ code, m.code = some code ∧ ∃ kind, .invoke kind y ∈ code.instructions

/-- A call inside the unit. -/
def Links (methods : List (MethodRef × Method)) (x y : MethodRef) : Prop :=
  Calls methods x y ∧ ∃ m, (y, m) ∈ methods

/-- A method that suspends by itself: it is said to, or it calls `suspend`. -/
def Suspends (methods : List (MethodRef × Method)) (x : MethodRef) : Prop :=
  (∃ m, (x, m) ∈ methods ∧ .suspendable ∈ m.annotations) ∨
    Calls methods x Interface.Continuation.suspend

/-- **A chain of calls** inside the unit leads to a method that suspends. -/
def Reaches (methods : List (MethodRef × Method)) (x : MethodRef) : Prop :=
  ∃ y, Relation.ReflTransGen (Links methods) x y ∧ Suspends methods y

theorem Reaches.defined (hx : Reaches methods x) : ∃ m, (x, m) ∈ methods := by
  obtain ⟨y, hchain, hy⟩ := hx
  rcases Relation.ReflTransGen.cases_head hchain with rfl | ⟨z, ⟨⟨m, hm, -⟩, -⟩, -⟩
  · rcases hy with ⟨m, hm, -⟩ | ⟨m, hm, -⟩ <;> exact ⟨m, hm⟩
  · exact ⟨m, hm⟩

/-- Only what methods there are matters, not how they are listed. -/
theorem Reaches.mono (hsub : methods ⊆ methods') (hx : Reaches methods x) : Reaches methods' x := by
  have hcalls {x y : MethodRef} : Calls methods x y → Calls methods' x y :=
    fun ⟨m, hm, hcode⟩ => ⟨m, hsub hm, hcode⟩
  obtain ⟨y, hchain, hy⟩ := hx
  have hlinks : ∀ x y, Links methods x y → Links methods' x y :=
    fun _ _ ⟨hcall, m, hm⟩ => ⟨hcalls hcall, m, hsub hm⟩
  refine ⟨y, Relation.ReflTransGen.mono hlinks _ _ hchain, ?_⟩
  exact hy.imp (fun ⟨m, hm, hmarked⟩ => ⟨m, hsub hm, hmarked⟩) hcalls

theorem calls_iff : calls suspendable m = true ↔ ∃ code, m.code = some code ∧ ∃ kind callee,
    .invoke kind callee ∈ code.instructions ∧
      (callee = Interface.Continuation.suspend ∨ callee ∈ suspendable) := by
  cases hcode : m.code with
  | none => simp [calls, hcode]
  | some code =>
    simp only [calls, hcode, Code.has, Array.any_eq_true', Option.some.injEq, exists_eq_left']
    constructor
    · rintro ⟨i, hi, hcall⟩
      cases i with
      | invoke kind callee =>
        exact ⟨kind, callee, hi, by simpa [MethodRef.isSuspend] using hcall⟩
      | _ => cases hcall
    · rintro ⟨kind, callee, hi, hcallee⟩
      exact ⟨_, hi, by simpa [MethodRef.isSuspend] using hcallee⟩

/-! ## One round -/

/-- What one method does to the set. -/
def consider (found : List MethodRef) (p : MethodRef × Method) : List MethodRef :=
  if found.contains p.1 then found else if calls found p.2 then p.1 :: found else found

theorem grow_cons (p : MethodRef × Method) :
    grow (p :: methods) suspendable = grow methods (consider suspendable p) := rfl

theorem consider_eq (found : List MethodRef) (p : MethodRef × Method) :
    consider found p = found ∨
      consider found p = p.1 :: found ∧ p.1 ∉ found ∧ calls found p.2 = true := by
  simp only [consider, List.contains_iff_mem]
  split
  · exact .inl rfl
  · rename_i hnew
    split
    · rename_i hcalls
      exact .inr ⟨rfl, hnew, hcalls⟩
    · exact .inl rfl

/-- What a round adds comes on top: names of methods that were not in before. -/
theorem grow_eq (methods : List (MethodRef × Method)) (suspendable : List MethodRef) :
    ∃ new, grow methods suspendable = new ++ suspendable ∧
      ∀ x ∈ new, x ∉ suspendable ∧ ∃ m, (x, m) ∈ methods := by
  induction methods generalizing suspendable with
  | nil => exact ⟨[], rfl, nofun⟩
  | cons p methods ih =>
    obtain ⟨new, heq, hnew⟩ := ih (consider suspendable p)
    have hlater {x : MethodRef} : (∃ m, (x, m) ∈ methods) → ∃ m, (x, m) ∈ p :: methods :=
      fun ⟨m, hm⟩ => ⟨m, List.mem_cons_of_mem p hm⟩
    rcases consider_eq suspendable p with hsame | ⟨hadded, hfresh, -⟩
    · rw [hsame] at heq hnew
      exact ⟨new, by rw [grow_cons, hsame, heq], fun x hx => (hnew x hx).imp_right hlater⟩
    · rw [hadded] at heq hnew
      refine ⟨new ++ [p.1], by rw [grow_cons, hadded, heq, List.append_cons], fun x hx => ?_⟩
      rcases List.mem_append.mp hx with hx | hx
      · obtain ⟨hnot, hdefined⟩ := hnew x hx
        exact ⟨fun hmem => hnot (List.mem_cons_of_mem _ hmem), hlater hdefined⟩
      · obtain rfl := List.mem_singleton.mp hx
        exact ⟨hfresh, p.2, List.mem_cons_self ..⟩

/-- A round that adds nothing has passed by every method. -/
theorem consider_of_grow (hgrow : (grow methods suspendable).length = suspendable.length) :
    ∀ p ∈ methods, consider suspendable p = suspendable := by
  induction methods with
  | nil => exact List.forall_mem_nil _
  | cons p methods ih =>
    have hp : consider suspendable p = suspendable := by
      rcases consider_eq suspendable p with hsame | ⟨hadded, -⟩
      · exact hsame
      · obtain ⟨new, heq, -⟩ := grow_eq methods (p.1 :: suspendable)
        rw [grow_cons, hadded, heq, List.length_append, List.length_cons] at hgrow
        omega
    intro q hq
    rcases List.mem_cons.mp hq with rfl | hq
    · exact hp
    · rw [grow_cons, hp] at hgrow
      exact ih hgrow q hq

/-- **Complete.** What does not grow any more has every caller of its members. -/
theorem mem_of_calls (hgrow : (grow methods suspendable).length = suspendable.length)
    (hm : (x, m) ∈ methods) (hcalls : calls suspendable m = true) : x ∈ suspendable := by
  have hconsider := consider_of_grow hgrow _ hm
  by_contra hnew
  rw [consider, if_neg (by simpa using hnew), if_pos hcalls] at hconsider
  exact absurd (congrArg List.length hconsider) (by simp)

/-- **Sound.** A caller of a method that reaches one that suspends reaches it as well. -/
theorem reaches_of_mem_grow {rest : List (MethodRef × Method)} (hrest : rest ⊆ methods)
    (hall : ∀ x ∈ suspendable, Reaches methods x) : ∀ x ∈ grow rest suspendable, Reaches methods x := by
  induction rest generalizing suspendable with
  | nil => exact hall
  | cons p rest ih =>
    rw [grow_cons]
    apply ih (List.subset_of_cons_subset hrest)
    rcases consider_eq suspendable p with hsame | ⟨hadded, -, hcalls⟩
    · rwa [hsame]
    · rw [hadded]
      intro x hx
      rcases List.mem_cons.mp hx with rfl | hx
      · obtain ⟨code, hcode, kind, callee, hmem, hcallee⟩ := calls_iff.mp hcalls
        have hcall : Calls methods p.1 callee :=
          ⟨p.2, hrest (List.mem_cons_self ..), code, hcode, kind, hmem⟩
        rcases hcallee with rfl | hin
        · exact ⟨p.1, .refl, .inr hcall⟩
        · obtain ⟨y, hchain, hy⟩ := hall callee hin
          exact ⟨y, .head ⟨hcall, (hall callee hin).defined⟩ hchain, hy⟩
      · exact hall x hx

/-! ## All rounds -/

/-- A round of the loop that looks for callers. -/
def growth (methods : List (MethodRef × Method)) :
    Round (List MethodRef) Empty (List MethodRef) := fun suspendable =>
  if (grow methods suspendable).length = suspendable.length then .ok (.inl suspendable)
  else .ok (.inr (grow methods suspendable))

/-- Methods that carry the annotation. -/
def annotated (methods : List (MethodRef × Method)) : List MethodRef :=
  (methods.filter (·.2.annotations.contains .suspendable)).map (·.1)

theorem mem_annotated : x ∈ annotated methods ↔
    ∃ m, (x, m) ∈ methods ∧ .suspendable ∈ m.annotations := by
  simp [annotated]

/-- **The set stops growing**: each round but the last adds a method. -/
theorem growth_ends (methods : List (MethodRef × Method)) (suspendable : List MethodRef) :
    ∃ rounds result, rounds ≤ methods.length + 1 ∧
      (growth methods).Ends suspendable rounds (.ok result) := by
  classical
  let left (s : List MethodRef) : Finset MethodRef := (methods.map (·.1)).toFinset \ s.toFinset
  have hless : ∀ s s', True → growth methods s = .ok (.inr s') →
      True ∧ (left s').card < (left s).card := by
    intro s s' _ hround
    refine ⟨trivial, ?_⟩
    simp only [growth] at hround
    split at hround
    · cases hround
    rename_i hgrows
    cases hround
    obtain ⟨new, heq, hnew⟩ := grow_eq methods s
    obtain ⟨x, hx⟩ : ∃ x, x ∈ new := by
      apply List.exists_mem_of_ne_nil
      rintro rfl
      exact hgrows (by rw [heq]; rfl)
    obtain ⟨hfresh, m, hm⟩ := hnew x hx
    apply Finset.card_lt_card
    refine Finset.ssubset_iff_subset_ne.mpr ⟨fun y hy => ?_, fun hsame => ?_⟩
    · simp only [left, heq, Finset.mem_sdiff, List.mem_toFinset, List.mem_append, not_or] at hy ⊢
      exact ⟨hy.1, hy.2.2⟩
    · -- the new name was left before, and is not any more
      have hbefore : x ∈ left s := by
        simp only [left, Finset.mem_sdiff, List.mem_toFinset, List.mem_map]
        exact ⟨⟨(x, m), hm, rfl⟩, hfresh⟩
      rw [← hsame] at hbefore
      simp only [left, heq, Finset.mem_sdiff, List.mem_toFinset, List.mem_append, hx, true_or,
        not_true_eq_false, and_false] at hbefore
  obtain ⟨rounds, result, hrounds, hends⟩ := Round.exists_ends (growth methods) (fun s => (left s).card)
    hless (s := suspendable) trivial
  have hcard : (left suspendable).card ≤ methods.length := by
    refine (Finset.card_le_card Finset.sdiff_subset).trans ((List.toFinset_card_le _).trans ?_)
    rw [List.length_map]
  cases result with
  | error e => exact e.elim
  | ok result => exact ⟨rounds, result, by omega, hends⟩

/-- The bounded definition gives what the loop gives. -/
theorem closure_of_ends {rounds fuel : Nat} {result : List MethodRef}
    (hends : (growth methods).Ends suspendable rounds (.ok result)) (hfuel : rounds ≤ fuel) :
    closure methods fuel suspendable = result := by
  let loop (fuel : Nat) (s : List MethodRef) : Except Empty (List MethodRef) :=
    .ok (closure methods fuel s)
  have hround : ∀ fuel s, loop (fuel + 1) s = growth methods s >>= Sum.elim .ok (loop fuel) := by
    intro fuel s
    simp only [loop, closure, growth]
    split <;> rfl
  have hloop : loop fuel suspendable = .ok result := hends.fueled hround hfuel
  exact Except.ok.inj hloop

/-- **What the loop ends with** are the methods that reach one that suspends. -/
theorem mem_iff_reaches {rounds : Nat} {result : List MethodRef}
    (hends : (growth methods).Ends (annotated methods) rounds (.ok result)) :
    x ∈ result ↔ Reaches methods x := by
  -- on the way every member reaches, and the annotated methods stay in
  let Good (s : List MethodRef) : Prop := (∀ x ∈ s, Reaches methods x) ∧ annotated methods ⊆ s
  have hstart : Good (annotated methods) :=
    ⟨fun x hx => ⟨x, .refl, .inl (mem_annotated.mp hx)⟩, List.Subset.refl _⟩
  have hnext : ∀ s s', Good s → growth methods s = .ok (.inr s') → Good s' := by
    rintro s s' ⟨hall, hsub⟩ hround
    simp only [growth] at hround
    split at hround
    · cases hround
    · cases hround
      obtain ⟨new, heq, -⟩ := grow_eq methods s
      refine ⟨reaches_of_mem_grow (List.Subset.refl _) hall, fun x hx => ?_⟩
      rw [heq]
      exact List.mem_append_right new (hsub hx)
  obtain ⟨last, ⟨hall, hsub⟩, hlast⟩ := hends.last hnext hstart
  simp only [growth] at hlast
  split at hlast
  · rename_i hgrow
    cases hlast
    refine ⟨hall x, ?_⟩
    rintro ⟨y, hchain, hy⟩
    have hin {x : MethodRef} (hx : ∃ y, Calls methods x y ∧
        (y = Interface.Continuation.suspend ∨ y ∈ result)) : x ∈ result := by
      obtain ⟨y, ⟨m, hm, code, hcode, kind, hmem⟩, hy⟩ := hx
      exact mem_of_calls hgrow hm (calls_iff.mpr ⟨code, hcode, kind, y, hmem, hy⟩)
    induction hchain using Relation.ReflTransGen.head_induction_on with
    | refl =>
      rcases hy with hmarked | hcall
      · exact hsub (mem_annotated.mpr hmarked)
      · exact hin ⟨_, hcall, .inl rfl⟩
    | head hlink _ ih => exact hin ⟨_, hlink.1, .inr ih⟩
  · cases hlast

/-! ## Units -/

theorem mem_unitMethods {classes : List Class} : (x, m) ∈ unitMethods classes ↔
    ∃ c ∈ classes, m ∈ c.methods ∧ x = ⟨c.name, m.name, m.descriptor⟩ := by
  simp only [unitMethods, List.mem_flatMap, List.mem_map, Prod.mk.injEq]
  constructor
  · rintro ⟨c, hc, m', hm', rfl, rfl⟩
    exact ⟨c, hc, hm', rfl⟩
  · rintro ⟨c, hc, hm, rfl⟩
    exact ⟨c, hc, m, hm, rfl, rfl⟩

/-- The same classes in some order, each with its methods in some order. -/
def Reordered (classes classes' : List Class) : Prop :=
  ∃ middle, classes.Perm middle ∧
    List.Forall₂ (fun c c' => ∃ methods, c.methods.Perm methods ∧ c' = { c with methods })
      middle classes'

theorem Reordered.mem_iff {classes classes' : List Class} (h : Reordered classes classes') :
    (x, m) ∈ unitMethods classes ↔ (x, m) ∈ unitMethods classes' := by
  obtain ⟨middle, hperm, hmethods⟩ := h
  rw [mem_unitMethods, mem_unitMethods]
  simp only [hperm.mem_iff]
  clear hperm
  induction hmethods with
  | nil => simp
  | @cons c c' middle classes' hc _ ih =>
    obtain ⟨methods, hmethods, rfl⟩ := hc
    simp only [List.mem_cons, exists_eq_or_imp, hmethods.mem_iff, ih]

/-- **Calls that may suspend.** The search for the methods of a unit that may suspend ends; the calls
that may suspend are those of `suspend` and of the methods of the unit from which a chain of calls in
the unit leads to one that carries the annotation or calls `suspend`; and the order of classes and of
methods makes no difference. -/
theorem ofUnit_admits_iff (classes : List Class) :
    (∃ suspendable rounds, ofUnit classes = .byReach suspendable ∧
      rounds ≤ (unitMethods classes).length + 1 ∧
      (growth (unitMethods classes)).Ends (annotated (unitMethods classes)) rounds
        (.ok suspendable)) ∧
    (∀ x, (ofUnit classes).admits x = true ↔
      x = Interface.Continuation.suspend ∨ Reaches (unitMethods classes) x) ∧
    ∀ classes', Reordered classes classes' →
      ∀ x, (ofUnit classes').admits x = (ofUnit classes).admits x := by
  have hloop (classes : List Class) : ∃ suspendable rounds, ofUnit classes = .byReach suspendable ∧
      rounds ≤ (unitMethods classes).length + 1 ∧
      (growth (unitMethods classes)).Ends (annotated (unitMethods classes)) rounds
        (.ok suspendable) := by
    obtain ⟨rounds, result, hrounds, hends⟩ :=
      growth_ends (unitMethods classes) (annotated (unitMethods classes))
    exact ⟨result, rounds, congrArg byReach (closure_of_ends hends hrounds), hrounds, hends⟩
  have hadmits (classes : List Class) (x : MethodRef) : (ofUnit classes).admits x = true ↔
      x = Interface.Continuation.suspend ∨ Reaches (unitMethods classes) x := by
    obtain ⟨suspendable, rounds, heq, -, hends⟩ := hloop classes
    rw [heq, admits, Bool.or_eq_true, List.contains_iff_mem, mem_iff_reaches hends,
      MethodRef.isSuspend, decide_eq_true_eq]
  refine ⟨hloop classes, hadmits classes, fun classes' hsame x => ?_⟩
  rw [Bool.eq_iff_iff, hadmits, hadmits]
  refine or_congr_right ⟨Reaches.mono fun p hp => ?_, Reaches.mono fun p hp => ?_⟩
  · exact hsame.mem_iff.mpr hp
  · exact hsame.mem_iff.mp hp

/-! ## A unit with two classes -/

namespace Pairs

/-- One class of the pair. -/
def near : ClassName := { text := "Near" }
/-- The other one. -/
def far : ClassName := { text := "Far" }

/-- A method of the first class, which suspends. -/
def rest : MethodRef := ⟨near, { text := "linger" }, ⟨[], none⟩⟩
/-- A method of the second class, which calls the first. -/
def work : MethodRef := ⟨far, { text := "work" }, ⟨[], none⟩⟩
/-- A method that calls nothing. -/
def idle : MethodRef := ⟨far, { text := "idle" }, ⟨[], none⟩⟩

/-- A method that calls others. -/
def calling (x : MethodRef) (callees : List MethodRef) : Method where
  name := x.name
  descriptor := x.descriptor
  flags := staticFlag
  annotations := []
  code := some (.ofInstructions (callees.map (.invoke .static)) [])

/-- A class with some methods and nothing else. -/
def classOf (name : ClassName) (methods : List Method) : Class where
  name := name
  superclass := some .object
  interfaces := []
  flags := 0
  fields := []
  methods := methods
  attributes := []

/-- The caller is looked at first. -/
def forward : List Class :=
  [classOf far [calling work [rest], calling idle []],
    classOf near [calling rest [Interface.Continuation.suspend]]]

/-- The callee is looked at first. -/
def backward : List Class :=
  [classOf near [calling rest [Interface.Continuation.suspend]],
    classOf far [calling idle [], calling work [rest]]]

theorem reordered : Reordered forward backward :=
  ⟨_, .swap .., .cons ⟨_, .refl _, rfl⟩ (.cons ⟨_, .swap .., rfl⟩ .nil)⟩

end Pairs

open Pairs in
/-- It takes a round more where the caller comes first, and makes no difference. -/
theorem ofUnit_admits_iff_orders : Reordered forward backward ∧
    (ofUnit forward).admits work = true ∧ (ofUnit backward).admits work = true ∧
    (ofUnit backward).admits idle = false := by
  obtain ⟨-, -, horder⟩ := ofUnit_admits_iff forward
  have hwork : (ofUnit forward).admits work = true := by decide +kernel
  have hidle : (ofUnit forward).admits idle = false := by decide +kernel
  exact ⟨reordered, hwork, (horder backward reordered work).trans hwork,
    (horder backward reordered idle).trans hidle⟩

end Resumption.SuspendPolicy
