import Resumption.Instrument.Class
import Resumption.Proofs.Machine.Bodies
import Resumption.Proofs.Machine.Growth
import Resumption.Proofs.Machine.Straight
import Resumption.Proofs.Instrument.Shape

/-!
# Where the points are

* **`suspendPoints`** lists the points of a body in code order, so a point is found again by its
  index (`find?_point`) and by its number (`getElem?_point`).
* **`Expansion.position`** is where the code of an instruction as written begins, and
  **`Expansion.blockPosition`** where its restore block does.
* **`Body.find_label`**: a label that stands in the code is found there.
* **`Generated`** is what is known of a method that was made suspendable.
-/

namespace Resumption

/-! ## Points -/

section

variable {policy : SuspendPolicy} {c : Code} {a : Analysis} {p : SuspendPoint}

theorem zipIdx_increasing {α : Type} (xs : List α) (start : Nat) :
    (xs.zipIdx start).Pairwise fun x y => x.2 < y.2 := by
  rw [← List.pairwise_map (f := Prod.snd) (R := (· < ·)), List.zipIdx_map_snd]
  exact List.pairwise_lt_range'

theorem suspendCalls_increasing (policy : SuspendPolicy) (c : Code) :
    (suspendCalls policy c).Pairwise fun x y => x.1 < y.1 := by
  refine (zipIdx_increasing c.instructions.toList 0).filterMap _ ?_
  rintro ⟨i, k⟩ ⟨j, k'⟩ hlt x hx y hy
  split at hx
  · rename_i heq
    cases heq
    split at hy
    · rename_i heq
      cases heq
      obtain ⟨-, hx⟩ := Option.ite_none_right_eq_some.mp hx
      obtain ⟨-, hy⟩ := Option.ite_none_right_eq_some.mp hy
      cases hx
      cases hy
      exact hlt
    · cases hy
  · cases hx

/-- A call that may suspend, by its index. -/
theorem mem_suspendCalls {index : Nat} {m : MethodRef} (h : (index, m) ∈ suspendCalls policy c) :
    policy.admits m = true ∧ ∃ kind, c.instructions[index]? = some (.invoke kind m) := by
  obtain ⟨⟨i, k⟩, hmem, hi⟩ := List.mem_filterMap.mp h
  have hget := List.mem_zipIdx_iff_getElem?.mp hmem
  simp only [Array.getElem?_toList] at hget
  split at hi
  · rename_i heq
    cases heq
    split at hi
    · cases hi
      exact ⟨‹_›, _, hget⟩
    · cases hi
  · cases hi

/-- The reachable calls before they are numbered. -/
def reachableCalls (policy : SuspendPolicy) (c : Code) (a : Analysis) :
    List (Nat × MethodRef × Frame) :=
  (suspendCalls policy c).filterMap fun (index, m) =>
    (a.frames.getD index none).map fun frame => (index, m, frame)

theorem reachableCalls_increasing : (reachableCalls policy c a).Pairwise fun x y => x.1 < y.1 := by
  refine (suspendCalls_increasing policy c).filterMap _ ?_
  rintro ⟨k, m⟩ ⟨k', m'⟩ hlt x hx y hy
  obtain ⟨f, -, rfl⟩ := Option.map_eq_some_iff.mp hx
  obtain ⟨f', -, rfl⟩ := Option.map_eq_some_iff.mp hy
  exact hlt

/-- A point and its number. -/
theorem mem_suspendPoints (h : p ∈ suspendPoints policy c a) :
    ∃ m kind, policy.admits m = true ∧ c.instructions[p.index]? = some (.invoke kind m) ∧
      a.frames.getD p.index none = some p.frame ∧
      p.kind = (if m.isSuspend then .suspend else .invoke) ∧
      (suspendPoints policy c a)[p.id]? = some p := by
  obtain ⟨⟨⟨index, m, frame⟩, id⟩, hmem, rfl⟩ := List.mem_map.mp h
  have hget := List.mem_zipIdx_iff_getElem?.mp hmem
  obtain ⟨⟨index', m'⟩, hcall, hframe⟩ := List.mem_filterMap.mp (List.mem_of_getElem? hget)
  obtain ⟨frame', hframe', heq⟩ := Option.map_eq_some_iff.mp hframe
  cases heq
  obtain ⟨hadmits, kind, hinvoke⟩ := mem_suspendCalls hcall
  refine ⟨m, kind, hadmits, hinvoke, hframe', rfl, ?_⟩
  simp only [suspendPoints]
  rw [List.getElem?_map, List.getElem?_zipIdx, hget, Nat.zero_add]
  rfl

theorem suspendPoints_increasing :
    (suspendPoints policy c a).Pairwise fun p q => p.index < q.index := by
  have hcalls : ((reachableCalls policy c a).zipIdx.map Prod.fst).Pairwise fun x y => x.1 < y.1 := by
    rw [List.zipIdx_map_fst]
    exact reachableCalls_increasing
  exact List.pairwise_map.mpr ((List.pairwise_map.mp hcalls).imp fun h => h)

/-- The points are numbered in the order of the code. -/
theorem getElem?_point {n : Nat} (h : (suspendPoints policy c a)[n]? = some p) : p.id = n := by
  simp only [suspendPoints, List.getElem?_map] at h
  obtain ⟨⟨⟨index, m, frame⟩, id⟩, hget, rfl⟩ := Option.map_eq_some_iff.mp h
  rw [List.getElem?_zipIdx] at hget
  obtain ⟨call, -, heq⟩ := Option.map_eq_some_iff.mp hget
  cases heq
  exact Nat.zero_add n

/-- A point is found again by its index. -/
theorem find?_point (h : p ∈ suspendPoints policy c a) :
    (suspendPoints policy c a).find? (·.index = p.index) = some p := by
  have hincreasing : (suspendPoints policy c a).Pairwise _ := suspendPoints_increasing
  generalize suspendPoints policy c a = points at h hincreasing
  induction points with
  | nil => cases h
  | cons q points ih =>
    obtain ⟨hfirst, hrest⟩ := List.pairwise_cons.mp hincreasing
    rcases List.mem_cons.mp h with rfl | h
    · simp
    · have hne : ¬ q.index = p.index := Nat.ne_of_lt (hfirst p h)
      rw [List.find?_cons_of_neg (by simpa using hne)]
      exact ih h hrest

end

/-! ## Labels -/

namespace Body

variable {c : Code} {body : Body}

/-- A label that stands in the code is found there. -/
theorem find_label (h : ofCode c = .ok body) {k : Nat} {l : Label} {rest : List Instruction}
    (hat : body.Has k (.label l :: rest)) : body.positions.find l = .ok k := by
  have hget := hat.getElem?
  rw [(ofCode_inv h).1] at hget
  exact (find_iff h).mpr hget

end Body

/-! ## Places in the expanded code -/

namespace Expansion

variable (e : Expansion)

/-- Where the code of an instruction as written begins. -/
def position (index : Nat) : Nat :=
  e.entry.length + ((e.pieces.take index).flatMap (·.inPlace)).length

/-- Where the restore block of an instruction as written begins. -/
def blockPosition (index : Nat) : Nat :=
  e.entry.length + (e.pieces.flatMap (·.inPlace)).length +
    ((e.pieces.take index).flatMap (·.block)).length

/-- Where the code after the restore blocks begins. -/
def exitPosition : Nat :=
  e.entry.length + (e.pieces.flatMap (·.inPlace)).length + (e.pieces.flatMap (·.block)).length

variable {e} {body : Body} {index : Nat} {piece : Piece}

/-- A list cut at an item. -/
theorem flatMap_split {α β : Type} {f : α → List β} {xs : List α} {index : Nat} {x : α}
    (h : xs[index]? = some x) :
    xs.flatMap f = (xs.take index).flatMap f ++ f x ++ (xs.drop (index + 1)).flatMap f := by
  obtain ⟨hlt, hget⟩ := List.getElem?_eq_some_iff.mp h
  have hsplit : xs = xs.take index ++ x :: xs.drop (index + 1) := by
    rw [← hget, ← List.drop_eq_getElem_cons hlt, List.take_append_drop]
  conv => lhs; rw [hsplit]
  rw [List.flatMap_append, List.flatMap_cons, List.append_assoc]

theorem position_succ (h : e.pieces[index]? = some piece) :
    e.position (index + 1) = e.position index + piece.inPlace.length := by
  rw [position, position, List.take_add_one, h, Option.toList_some, List.flatMap_append,
    List.length_append, List.flatMap_singleton, Nat.add_assoc]

theorem position_mono {i j : Nat} (h : i ≤ j) : e.position i ≤ e.position j := by
  have hprefix : (e.pieces.take i).flatMap (·.inPlace) <+: (e.pieces.take j).flatMap (·.inPlace) := by
    obtain ⟨rest, hrest⟩ := List.take_prefix_take_left (l := e.pieces) h
    exact ⟨rest.flatMap (·.inPlace), by rw [← hrest, List.flatMap_append]⟩
  exact Nat.add_le_add_left hprefix.length_le _

theorem position_le_exit (e : Expansion) (index : Nat) : e.position index ≤ e.exitPosition := by
  have hprefix : (e.pieces.take index).flatMap (·.inPlace) <+: e.pieces.flatMap (·.inPlace) := by
    refine ⟨(e.pieces.drop index).flatMap (·.inPlace), ?_⟩
    rw [← List.flatMap_append, List.take_append_drop]
  exact Nat.le_add_right_of_le (Nat.add_le_add_left hprefix.length_le _)

theorem has_of_append {before is after : List Instruction}
    (h : body.instructions.toList = before ++ is ++ after) : body.Has before.length is := by
  refine ⟨after, ?_⟩
  rw [h, List.append_assoc, List.drop_left]

theorem has_entry (h : body.instructions.toList = e.instructions) : body.Has 0 e.entry := by
  refine ⟨e.pieces.flatMap (·.inPlace) ++ e.pieces.flatMap (·.block) ++ e.exit, ?_⟩
  rw [h, instructions, List.drop_zero]
  simp only [List.append_assoc]

theorem has_inPlace (h : body.instructions.toList = e.instructions)
    (hpiece : e.pieces[index]? = some piece) : body.Has (e.position index) piece.inPlace := by
  rw [instructions, flatMap_split hpiece] at h
  have hat : body.instructions.toList =
      (e.entry ++ (e.pieces.take index).flatMap (·.inPlace)) ++ piece.inPlace ++
        ((e.pieces.drop (index + 1)).flatMap (·.inPlace) ++ e.pieces.flatMap (·.block) ++ e.exit) := by
    rw [h]
    simp only [List.append_assoc]
  have := has_of_append hat
  rw [List.length_append] at this
  exact this

theorem has_block (h : body.instructions.toList = e.instructions)
    (hpiece : e.pieces[index]? = some piece) : body.Has (e.blockPosition index) piece.block := by
  rw [instructions, flatMap_split (f := (·.block)) hpiece] at h
  have hat : body.instructions.toList =
      (e.entry ++ e.pieces.flatMap (·.inPlace) ++ (e.pieces.take index).flatMap (·.block)) ++
        piece.block ++ ((e.pieces.drop (index + 1)).flatMap (·.block) ++ e.exit) := by
    rw [h]
    simp only [List.append_assoc]
  have := has_of_append hat
  rw [List.length_append, List.length_append] at this
  exact this

theorem has_exit (h : body.instructions.toList = e.instructions) :
    body.Has e.exitPosition e.exit := by
  have hat : body.instructions.toList = (e.entry ++ e.pieces.flatMap (·.inPlace) ++
      e.pieces.flatMap (·.block)) ++ e.exit ++ [] := by
    rw [h, instructions, List.append_nil]
  have := has_of_append hat
  simp only [List.length_append] at this
  exact this

end Expansion

/-! ## Generated methods -/

/-- What is known of a method that was made suspendable. -/
structure Generated (settings : Settings) (h : Hierarchy) (owner : ClassName) (method : Method)
    (made : SuspendableMethod) where
  /-- the body as written -/
  written : Code
  /-- what is known of the method -/
  plan : MethodPlan
  /-- the parts of its code -/
  parts : Expansion
  /-- the generated body -/
  code : Code
  /-- the code with its labels looked up -/
  body : Body
  /-- the method has code -/
  written_eq : method.code = some written
  /-- the continuation is an argument -/
  slot_eq : method.continuationSlot? = some plan.continuationSlot
  /-- the method was planned -/
  plan_eq : planMethod settings.policy h owner method written plan.continuationSlot = .ok plan
  /-- no instance without its constructor is live at a point -/
  initialized : ∀ p ∈ plan.points, p.frame.hasUninitialized = false
  /-- the parts come of the plan -/
  parts_eq : expansion settings plan = .ok parts
  /-- the new method has the new code -/
  code_eq : made.method.code = some code
  /-- its instructions are those of the parts -/
  instructions_eq : code.instructions = parts.instructions.toArray
  /-- and so are its handlers -/
  handlers_eq : code.handlers = parts.handlers
  /-- its labels are placed -/
  body_eq : Body.ofCode code = .ok body

/-- Limits and stack map leave instructions and handlers alone, and the method around them. -/
theorem withMetadata_code {h : Hierarchy} {owner : ClassName} {m m' : Method} {c : Code}
    (hcode : m.code = some c) (hok : withMetadata h owner m = .ok m') :
    ∃ c' body, m' = { m with code := some c' } ∧ c'.instructions = c.instructions ∧
      c'.handlers = c.handlers ∧ Body.ofCode c' = .ok body := by
  obtain ⟨a, hanalyze, hok⟩ := Except.bind_ok.mp hok
  simp only [hcode] at hok
  obtain ⟨table, -, hok⟩ := Except.bind_ok.mp hok
  cases hok
  simp only [analyze, hcode] at hanalyze
  have hbody : ∃ body, Body.ofCode { c with
      maxStack := a.maxStack, maxLocals := a.maxLocals, stackMap := some table } = .ok body :=
    Body.ofCode_analyzed hanalyze rfl rfl
  obtain ⟨body, hbody⟩ := hbody
  exact ⟨_, body, rfl, rfl, rfl, hbody⟩

theorem planMethod_inv {policy : SuspendPolicy} {h : Hierarchy} {owner : ClassName} {m : Method}
    {c : Code} {slot : Nat} {plan : MethodPlan}
    (hplan : planMethod policy h owner m c slot = .ok plan) :
    plan.owner = owner ∧ plan.method = m ∧ plan.continuationSlot = slot ∧
      analyzeCode h owner m.name m.descriptor m.isStatic plan.code = .ok plan.analysis ∧
      plan.points = suspendPoints policy plan.code plan.analysis := by
  obtain ⟨code, -, hplan⟩ := Except.bind_ok.mp hplan
  obtain ⟨analysis, hanalysis, hplan⟩ := Except.bind_ok.mp hplan
  cases hplan
  exact ⟨rfl, rfl, rfl, hanalysis, rfl⟩

/-- What a method went through that was made suspendable. -/
theorem makeSuspendable_metadata {settings : Settings} {h : Hierarchy} {owner : ClassName}
    {method : Method} {made : SuspendableMethod}
    (hmade : makeSuspendable settings h owner method = .ok (some made)) :
    ∃ written plan parts, method.code = some written ∧
      method.continuationSlot? = some plan.continuationSlot ∧
      planMethod settings.policy h owner method written plan.continuationSlot = .ok plan ∧
      plan.points ≠ [] ∧ (∀ p ∈ plan.points, p.frame.hasUninitialized = false) ∧
      expansion settings plan = .ok parts ∧
      withMetadata h owner { method with code := some parts.code } = .ok made.method ∧
      made.summary =
        { name := method.name, descriptor := method.descriptor, id := plan.id
          version := plan.version, points := plan.points.length } := by
  simp only [makeSuspendable] at hmade
  split at hmade
  · cases hmade
  rename_i written hwritten
  split at hmade
  · cases hmade
  split at hmade
  · cases hmade
  · cases hmade
  rename_i slot _ hslot
  split at hmade
  · cases hmade
  obtain ⟨plan, hplan, hrest⟩ := Except.bind_ok.mp hmade
  replace hplan := liftError_ok hplan
  obtain ⟨howner, hmethod, rfl, -, -⟩ := planMethod_inv hplan
  split at hrest
  · cases hrest
  rename_i hpoints
  split at hrest
  · cases hrest
  rename_i hinitialized
  obtain ⟨generated, hgenerated, hrest⟩ := Except.bind_ok.mp hrest
  cases hrest
  obtain ⟨code₀, hcode₀, hgenerated⟩ := Except.bind_ok.mp (liftError_ok hgenerated)
  obtain ⟨method', hmetadata, hsummary⟩ := Except.bind_ok.mp hgenerated
  obtain ⟨parts, hparts, hsame⟩ := Except.bind_ok.mp hcode₀
  cases hsame
  cases hsummary
  rw [howner, hmethod] at hmetadata
  refine ⟨written, plan, parts, hwritten, hslot, hplan, by simpa using hpoints,
    fun p hp => by simpa using List.find?_eq_none.mp hinitialized p hp, hparts, hmetadata, ?_⟩
  rw [hmethod]

/-- A suspendable method has points. Only its code is another one, and its class records under its
name what it was planned with. -/
theorem makeSuspendable_inv {settings : Settings} {h : Hierarchy} {owner : ClassName}
    {method : Method} {made : SuspendableMethod}
    (hmade : makeSuspendable settings h owner method = .ok (some made)) :
    ∃ g : Generated settings h owner method made, g.plan.points ≠ [] ∧
      made.method = { method with code := some g.code } ∧ made.summary =
        { name := method.name, descriptor := method.descriptor, id := g.plan.id
          version := g.plan.version, points := g.plan.points.length } := by
  obtain ⟨written, plan, parts, hwritten, hslot, hplan, hpoints, hinitialized, hparts, hmetadata,
    hsummary⟩ := makeSuspendable_metadata hmade
  obtain ⟨code, body, hcode, hinstructions, hhandlers, hbody⟩ := withMetadata_code rfl hmetadata
  exact ⟨{
    written, plan, parts, code, body
    written_eq := hwritten, slot_eq := hslot, plan_eq := hplan, initialized := hinitialized
    parts_eq := hparts, code_eq := by rw [hcode], instructions_eq := hinstructions
    handlers_eq := hhandlers, body_eq := hbody }, hpoints, hcode, hsummary⟩

theorem makeSuspendable_generated {settings : Settings} {h : Hierarchy} {owner : ClassName}
    {method : Method} {made : SuspendableMethod}
    (hmade : makeSuspendable settings h owner method = .ok (some made)) :
    Nonempty (Generated settings h owner method made) := by
  obtain ⟨g, -⟩ := makeSuspendable_inv hmade
  exact ⟨g⟩

end Resumption
