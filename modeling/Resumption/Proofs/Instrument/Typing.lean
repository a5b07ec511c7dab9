import Resumption.Proofs.Analysis.Bounding
import Resumption.Proofs.Instrument.Savable
import Resumption.Proofs.Instrument.Slots

/-!
# Typing code block by block

Generated code is put together from blocks, and so are the frames for it. `Typed` follows control
through a block, given the frames that are awaited at labels. A block runs among locals of the method and
variables that are in use; what it can rely on is its `Site`.

* **`Typed.append`** puts blocks together.
* **`Typed.bounds`**: frames for the whole of a body are frames that its analysis stays below.
* **`Site.Goes`** says how control goes through a block where it stands. **`OnStack`** is code that works
  on the stack alone; most blocks are made of it and of stores.
* **`Site.Goes.hold`** and `Site.Goes.replace` put values into variables, `Site.Goes.forget` gives them
  up.
* **`Site.Goes.branch`**, `Site.Goes.leave` and `Site.Goes.arrive` are for jumps and labels.
-/

namespace Resumption

section

variable {context : MethodContext} {size : Nat} {labels : Label → Option Frame}
  {named named' : Label → Prop} {P P' : Nat → Frame → Frame → Prop}

/-- Does a frame suit the one that is awaited at a label? -/
def Frame.Awaited (labels : Label → Option Frame) (size : Nat) (l : Label) (f : Frame) : Prop :=
  ∃ g, labels l = some g ∧ f.Suits id size g

/-- Control that enters the block with the first frame can only leave it at its end with the second
one, or for labels at which its frame is awaited; without a frame, control does not come there, and
instructions may name other labels as well. `P` is asked of the frames before and after every
instruction. -/
inductive Typed (context : MethodContext) (size : Nat) (labels : Label → Option Frame)
    (named : Label → Prop) (P : Nat → Frame → Frame → Prop) :
    Nat → Option Frame → List Instruction → Option Frame → Prop
  /-- nothing is executed -/
  | nil (index : Nat) (f : Option Frame) : Typed context size labels named P index f [] f
  /-- control does not come there -/
  | dead {index : Nat} {i : Instruction} {is : List Instruction} {f' : Option Frame}
    (hi : i.placed? = none) (hextent : i.localExtent ≤ size) (hnamed : ∀ l ∈ i.targets, named l)
    (h : Typed context size labels named P (index + 1) none is f') :
    Typed context size labels named P index none (i :: is) f'
  /-- a label says what the frame is -/
  | label {index : Nat} {f : Option Frame} {l : Label} {is : List Instruction} {f' : Option Frame}
    (hf : ∀ g, f = some g → g.Awaited labels size l) (hP : ∀ g, labels l = some g → P index g g)
    (h : Typed context size labels named P (index + 1) (labels l) is f') :
    Typed context size labels named P index f (.label l :: is) f'
  /-- an instruction is executed, and goes on -/
  | step {index : Nat} {f f₁ : Frame} {i : Instruction} {is : List Instruction} {f' : Option Frame}
    (hi : i.placed? = none) (hfalls : i.fallsThrough = true)
    (hstep : f.step context index i = .ok f₁) (hP : P index f f₁)
    (htargets : ∀ l ∈ i.targets, f₁.Awaited labels size l)
    (h : Typed context size labels named P (index + 1) (some f₁) is f') :
    Typed context size labels named P index (some f) (i :: is) f'
  /-- an instruction is executed, and does not go on -/
  | leave {index : Nat} {f f₁ : Frame} {i : Instruction} {is : List Instruction} {f' : Option Frame}
    (hi : i.placed? = none) (hfalls : i.fallsThrough = false)
    (hstep : f.step context index i = .ok f₁) (hP : P index f f₁)
    (htargets : ∀ l ∈ i.targets, f₁.Awaited labels size l)
    (h : Typed context size labels named P (index + 1) none is f') :
    Typed context size labels named P index (some f) (i :: is) f'
  /-- less may be known than is true -/
  | weaken {index : Nat} {f g : Frame} {is : List Instruction} {f' : Option Frame}
    (hg : g.WellFormed size) (hfg : f.Suits id size g)
    (h : Typed context size labels named P index (some g) is f') :
    Typed context size labels named P index (some f) is f'

namespace Typed

variable {index : Nat} {f g k : Option Frame} {is js : List Instruction}

/-- Blocks one after the other. -/
theorem append (h : Typed context size labels named P index f is g)
    (h' : Typed context size labels named P (index + is.length) g js k) :
    Typed context size labels named P index f (is ++ js) k := by
  induction h with
  | nil => exact h'
  | dead hi hextent hnamed _ ih =>
    exact .dead hi hextent hnamed (ih (by rwa [List.length_cons, Nat.add_comm _ 1, ← Nat.add_assoc] at h'))
  | label hf hP _ ih =>
    exact .label hf hP (ih (by rwa [List.length_cons, Nat.add_comm _ 1, ← Nat.add_assoc] at h'))
  | step hi hfalls hstep hP htargets _ ih =>
    exact .step hi hfalls hstep hP htargets
      (ih (by rwa [List.length_cons, Nat.add_comm _ 1, ← Nat.add_assoc] at h'))
  | leave hi hfalls hstep hP htargets _ ih =>
    exact .leave hi hfalls hstep hP htargets
      (ih (by rwa [List.length_cons, Nat.add_comm _ 1, ← Nat.add_assoc] at h'))
  | weaken hg hfg _ ih => exact .weaken hg hfg (ih h')

/-- What is asked of the frames may be something else that follows. -/
theorem mono (h : Typed context size labels named P index f is g)
    (hlabels : ∀ l, named l → named' l)
    (himp : ∀ n f f', n < is.length → P (index + n) f f' → P' (index + n) f f') :
    Typed context size labels named' P' index f is g := by
  induction h with
  | nil => exact .nil _ _
  | dead hi hextent hnamed _ ih =>
    exact .dead hi hextent (fun l hl => hlabels l (hnamed l hl)) (ih fun n f f' hn => by
      simpa only [Nat.add_assoc, Nat.add_comm 1] using himp (n + 1) f f' (by simpa using hn))
  | label hf hP _ ih =>
    exact .label hf (fun g hg => himp 0 g g (Nat.zero_lt_succ _) (hP g hg)) (ih fun n f f' hn => by
      simpa only [Nat.add_assoc, Nat.add_comm 1] using himp (n + 1) f f' (by simpa using hn))
  | step hi hfalls hstep hP htargets _ ih =>
    exact .step hi hfalls hstep (himp 0 _ _ (Nat.zero_lt_succ _) hP) htargets (ih fun n f f' hn => by
      simpa only [Nat.add_assoc, Nat.add_comm 1] using himp (n + 1) f f' (by simpa using hn))
  | leave hi hfalls hstep hP htargets _ ih =>
    exact .leave hi hfalls hstep (himp 0 _ _ (Nat.zero_lt_succ _) hP) htargets (ih fun n f f' hn => by
      simpa only [Nat.add_assoc, Nat.add_comm 1] using himp (n + 1) f f' (by simpa using hn))
  | weaken hg hfg _ ih => exact .weaken hg hfg (ih himp)

end Typed

/-! ## Bodies -/

/-- The instruction accepts the frame for it, and what it sends is awaited. -/
structure Assigned (context : MethodContext) (size : Nat) (labels : Label → Option Frame)
    (named : Label → Prop) (P : Nat → Frame → Frame → Prop) (index : Nat) (i : Instruction) (f next : Option Frame) :
    Prop where
  /-- it uses no other variables -/
  extent : i.localExtent ≤ size
  /-- its targets are known -/
  targets : ∀ l ∈ i.targets, named l ∨ ∃ g, labels l = some g
  /-- the frame at a label is the one that is known -/
  label : ∀ l, i = .label l → f = labels l
  /-- it can be executed, and control goes on with frames that are known -/
  step : ∀ g, f = some g → ∃ g', g.step context index i = .ok g' ∧ P index g g' ∧
    (∀ l ∈ i.targets, g'.Awaited labels size l) ∧
    (i.fallsThrough = true → ∃ g'', next = some g'' ∧ g'.Suits id size g'')

/-- An instruction that accepts a frame touches locals that are there. -/
theorem Frame.WellFormed.extent_le {f f' : Frame} {index : Nat} {i : Instruction}
    (hf : f.WellFormed size) (hok : f.step context index i = .ok f') : i.localExtent ≤ size := by
  have hlocal : ∀ {slot t}, f.local? slot = .ok t → slot + t.width ≤ size := fun ht =>
    hf.below (local?_ok.mp ht)
  cases i with
  | load kind slot =>
    obtain ⟨t, ht, hok⟩ := Except.bind_ok.mp (show f.load kind slot = .ok f' from hok)
    split at hok
    · rw [Instruction.localExtent, ← holdsKind_width ‹_›]
      exact hlocal ht
    · cases hok
  | store kind slot =>
    obtain ⟨⟨t, stack⟩, hpop, hok⟩ := Except.bind_ok.mp (show f.store kind slot = .ok f' from hok)
    obtain ⟨locals, hstore, -⟩ := Except.bind_ok.mp hok
    have hfits := (storeLocal_get? hstore 0).1
    rw [Instruction.localExtent, ← holdsKind_width (popWhere_eq hpop).2, ← hf.length]
    exact hfits
  | increment slot delta =>
    obtain ⟨t, ht, -⟩ := Except.bind_ok.mp hok
    have := hlocal ht
    have := t.width_pos
    rw [Instruction.localExtent]
    omega
  | ret => cases hok
  | _ => exact Nat.zero_le _

/-- Frames for the instructions of a block, and the one at its end. -/
structure Assignment (context : MethodContext) (size : Nat) (labels : Label → Option Frame)
    (named : Label → Prop) (P : Nat → Frame → Frame → Prop) (index : Nat) (is : List Instruction) (f' : Option Frame)
    (known : List (Option Frame)) : Prop where
  /-- one frame in front of each instruction, and one at the end -/
  length : known.length = is.length + 1
  /-- the one at the end -/
  last : known[is.length]? = some f'
  /-- instructions take one frame to the next -/
  assigned : ∀ (n : Nat) i, is[n]? = some i → ∃ a b, known[n]? = some a ∧ known[n + 1]? = some b ∧
    Assigned context size labels named P (index + n) i a b

theorem Assignment.cons {index : Nat} {i : Instruction} {is : List Instruction}
    {f f' : Option Frame} {known : List (Option Frame)}
    (h : Assignment context size labels named P (index + 1) is f' known)
    (hi : ∀ next, known[0]? = some next → Assigned context size labels named P index i f next) :
    Assignment context size labels named P index (i :: is) f' (f :: known) where
  length := congrArg (· + 1) h.length
  last := h.last
  assigned := by
    intro n j hj
    cases n with
    | zero =>
      cases hj
      have hlt : 0 < known.length := h.length ▸ Nat.zero_lt_succ _
      exact ⟨f, known[0], rfl, List.getElem?_eq_getElem hlt, hi _ (List.getElem?_eq_getElem hlt)⟩
    | succ n =>
      obtain ⟨a, b, ha, hb, hassigned⟩ := h.assigned n j hj
      exact ⟨a, b, ha, hb, by rwa [Nat.add_assoc, Nat.add_comm 1] at hassigned⟩

/-- **The frames for a block.** The first of them describes what enters. -/
theorem Typed.assignment {index : Nat} {f f' : Option Frame} {is : List Instruction}
    (hlabels : ∀ l g, labels l = some g → g.WellFormed size)
    (h : Typed context size labels named P index f is f') (hf : ∀ g, f = some g → g.WellFormed size) :
    ∃ known, Assignment context size labels named P index is f' known ∧
      ∀ g, f = some g → ∃ g', known[0]? = some (some g') ∧ g.Suits id size g' := by
  have hself : ∀ {g : Frame}, g.WellFormed size → g.Suits id size g := fun hg =>
    .refl hg.length.ge hg.stack
  -- Typing goes through the code in order, so the frames are collected from its end: the frame
  -- after an instruction heads those already there.
  induction h with
  | nil index f =>
    exact ⟨[f], ⟨rfl, rfl, fun _ _ hj => by cases hj⟩, fun g hg =>
      ⟨g, by rw [hg]; rfl, hself (hf g hg)⟩⟩
  | dead hi hextent hnamed _ ih =>
    obtain ⟨known, hknown, -⟩ := ih nofun
    exact ⟨none :: known, hknown.cons fun next _ => ⟨hextent, fun l hl => .inl (hnamed l hl),
      fun l hl => (by subst hl; cases hi), nofun⟩, nofun⟩
  | @label index f l is f' hawaited hP _ ih =>
    obtain ⟨known, hknown, hfirst⟩ := ih (hlabels l)
    refine ⟨labels l :: known, hknown.cons fun next hnext =>
      ⟨Nat.zero_le _, nofun, fun l' hl' => (by cases hl'; rfl), fun g hg =>
        ⟨g, rfl, hP g hg, nofun, fun _ => ?_⟩⟩, fun g hg => ?_⟩
    · obtain ⟨g', hg', hsuits⟩ := hfirst g hg
      exact ⟨g', Option.some.inj (hnext.symm.trans hg'), hsuits⟩
    · obtain ⟨g', hg', hsuits⟩ := hawaited g hg
      exact ⟨g', by rw [hg']; rfl, hsuits⟩
  | @step index f f₁ i is f' hi hfalls hstep hP htargets _ ih =>
    have hwellFormed : f.WellFormed size := hf f rfl
    have hwellFormed₁ : f₁.WellFormed size := Frame.step_wellFormed hwellFormed hstep
    obtain ⟨known, hknown, hfirst⟩ := ih (by rintro _ ⟨⟩; exact hwellFormed₁)
    refine ⟨some f :: known, hknown.cons fun next hnext =>
      ⟨hwellFormed.extent_le hstep, fun l hl => .inr ((htargets l hl).imp fun _ => And.left),
        fun l hl => (by subst hl; cases hi), ?_⟩, ?_⟩
    · rintro _ ⟨⟩
      refine ⟨f₁, hstep, hP, htargets, fun _ => ?_⟩
      obtain ⟨g', hg', hsuits⟩ := hfirst f₁ rfl
      exact ⟨g', Option.some.inj (hnext.symm.trans hg'), hsuits⟩
    · rintro _ ⟨⟩
      exact ⟨f, rfl, hself hwellFormed⟩
  | @leave index f f₁ i is f' hi hfalls hstep hP htargets _ ih =>
    have hwellFormed : f.WellFormed size := hf f rfl
    obtain ⟨known, hknown, -⟩ := ih nofun
    refine ⟨some f :: known, hknown.cons fun next hnext =>
      ⟨hwellFormed.extent_le hstep, fun l hl => .inr ((htargets l hl).imp fun _ => And.left),
        fun l hl => (by subst hl; cases hi), ?_⟩, ?_⟩
    · rintro _ ⟨⟩
      exact ⟨f₁, hstep, hP, htargets, fun h => by rw [hfalls] at h; cases h⟩
    · rintro _ ⟨⟩
      exact ⟨f, rfl, hself hwellFormed⟩
  | weaken hg hfg _ ih =>
    obtain ⟨known, hknown, hfirst⟩ := ih (by rintro _ ⟨⟩; exact hg)
    refine ⟨known, hknown, ?_⟩
    rintro _ ⟨⟩
    obtain ⟨g', hg', hsuits⟩ := hfirst _ rfl
    exact ⟨g', hg', hfg.trans hsuits⟩

/-- **Frames for a body** in which all labels that are awaited are placed, and handlers await what
reaches them: the analysis stays below them. -/
theorem Typed.bounds {c : Code} {entry : Frame}
    (h : Typed context size labels named P 0 (some entry) c.instructions.toList none)
    (hentry : entry.WellFormed size) (hlabels : ∀ l g, labels l = some g → g.WellFormed size)
    (hplaced : ∀ l g, labels l = some g → ∃ target : Nat, c.instructions[target]? = some (.label l))
    (hhandlers : ∀ index f f' x target, P index f f' → c.Edge index (some x) target →
      (f.handler x.caught).Awaited labels size x.entry ∧
      (f'.handler x.caught).Awaited labels size x.entry) :
    ∃ known, c.Bounds context size known ∧ entry.Within known size 0 ∧
      (∀ index f, known index = some f → ∃ f', P index f f') ∧
      ∀ i ∈ c.instructions, ∀ l ∈ i.targets, named l ∨ ∃ g, labels l = some g := by
  obtain ⟨known, hknown, hfirst⟩ := h.assignment hlabels (by rintro _ ⟨⟩; exact hentry)
  have hget : ∀ index : Nat, c.instructions.toList[index]? = c.instructions[index]? := fun _ =>
    Array.getElem?_toList
  -- a frame belongs to an instruction, as there is none past the end
  have hstands : ∀ {index : Nat} {f : Frame}, known[index]?.join = some f →
      ∃ i b, c.instructions[index]? = some i ∧ known[index + 1]? = some b ∧
        Assigned context size labels named P index i (some f) b := by
    intro index f hf
    obtain ⟨a, ha, rfl⟩ : ∃ a, known[index]? = some a ∧ a = some f := by
      cases ha : known[index]? with
      | none => rw [ha] at hf; cases hf
      | some a => rw [ha] at hf; exact ⟨a, rfl, hf⟩
    have hlt : index < c.instructions.toList.length := by
      have hle := (List.getElem?_eq_some_iff.mp ha).1
      rw [hknown.length] at hle
      refine Nat.lt_of_le_of_ne (Nat.le_of_lt_succ hle) ?_
      rintro rfl
      cases hknown.last.symm.trans ha
    obtain ⟨a', b, ha', hb, hassigned⟩ := hknown.assigned index _ (List.getElem?_eq_getElem hlt)
    obtain rfl := Option.some.inj (ha.symm.trans ha')
    rw [Nat.zero_add] at hassigned
    exact ⟨_, b, hget index ▸ List.getElem?_eq_getElem hlt, hb, hassigned⟩
  have hawaited : ∀ {f : Frame} {l : Label} {target : Nat}, f.Awaited labels size l →
      c.instructions[target]? = some (.label l) →
      f.Within (fun index => known[index]?.join) size target := by
    rintro f l target ⟨g, hg, hfg⟩ htarget
    obtain ⟨a, b, ha, -, hassigned⟩ := hknown.assigned target _ ((hget target).trans htarget)
    refine ⟨g, ?_, hfg⟩
    simp only [ha, Option.join_some, hassigned.label l rfl, hg]
  refine ⟨fun index => known[index]?.join, ⟨fun i hi => ?_, fun {index f} hf => ?_⟩, ?_,
    fun index f hf => ?_, fun i hi => ?_⟩
  · obtain ⟨index, hindex⟩ := Array.mem_iff_getElem?.mp hi
    obtain ⟨a, b, -, -, hassigned⟩ := hknown.assigned index i ((hget index).trans hindex)
    exact hassigned.extent
  · obtain ⟨i, b, hi, hb, hassigned⟩ := hstands hf
    obtain ⟨f', hstep, hP, htargets, hnext⟩ := hassigned.step f rfl
    refine ⟨i, f', hi, hstep, fun l hl => ?_, fun hfalls => ?_, fun x target hedge => ?_⟩
    · obtain ⟨g, hg, hsuits⟩ := htargets l hl
      obtain ⟨target, htarget⟩ := hplaced l g hg
      exact ⟨target, htarget, hawaited ⟨g, hg, hsuits⟩ htarget⟩
    · obtain ⟨g, rfl, hsuits⟩ := hnext hfalls
      exact ⟨g, by simp only [hb, Option.join_some], hsuits⟩
    · obtain ⟨hbefore, hafter⟩ := hhandlers index f f' x target hP hedge
      have hplace : c.instructions[target]? = some (.label x.entry) := by
        cases hedge
        assumption
      exact ⟨hawaited hbefore hplace, hawaited hafter hplace⟩
  · obtain ⟨g, hg, hsuits⟩ := hfirst entry rfl
    exact ⟨g, by simp only [hg, Option.join_some], hsuits⟩
  · obtain ⟨i, b, -, -, hassigned⟩ := hstands hf
    obtain ⟨f', -, hP, -⟩ := hassigned.step f rfl
    exact ⟨f', hP⟩
  · obtain ⟨index, hindex⟩ := Array.mem_iff_getElem?.mp hi
    obtain ⟨a, b, -, -, hassigned⟩ := hknown.assigned index i ((hget index).trans hindex)
    exact hassigned.targets

end

/-! ## Where blocks stand -/

section

variable {context : MethodContext} {size : Nat} {labels : Label → Option Frame}
  {stack stack₁ stack' : List SlotType} {xs : List SlotType} {i : Instruction}
  {is js : List Instruction}

/-- After this instruction control goes on with the next one, and nowhere else. -/
def Instruction.Plain (i : Instruction) : Prop :=
  i.placed? = none ∧ i.targets = [] ∧ i.fallsThrough = true

/-- Plain instructions that, with these locals, only change the stack. -/
inductive OnStack (context : MethodContext) (xs : List SlotType) :
    List SlotType → List Instruction → List SlotType → Prop
  /-- nothing is executed -/
  | nil (stack : List SlotType) : OnStack context xs stack [] stack
  /-- one instruction that changes operands only -/
  | cons {stack stack₁ stack' : List SlotType} {i : Instruction} {is : List Instruction}
    (hi : i.Plain)
    (hstep : ∀ index, (⟨xs, stack⟩ : Frame).step context index i = .ok ⟨xs, stack₁⟩)
    (h : OnStack context xs stack₁ is stack') : OnStack context xs stack (i :: is) stack'

theorem OnStack.append (h : OnStack context xs stack is stack₁)
    (h' : OnStack context xs stack₁ js stack') : OnStack context xs stack (is ++ js) stack' := by
  induction h with
  | nil => exact h'
  | cons hi hstep _ ih => exact .cons hi hstep (ih h')

theorem OnStack.single (hi : i.Plain)
    (hstep : ∀ index, (⟨xs, stack⟩ : Frame).step context index i = .ok ⟨xs, stack'⟩) :
    OnStack context xs stack [i] stack' := .cons hi hstep (.nil _)

/-- What handlers need to know of locals is known before and after every instruction. -/
def Covered (size : Nat) (G : SlotTypes) (_ : Nat) (f f' : Frame) : Prop :=
  Frame.LocalsSuit id size f.locals (G.locals size) ∧
    Frame.LocalsSuit id size f'.locals (G.locals size)

theorem Frame.LocalsSuit.trans {xs ys zs : List SlotType} (h : LocalsSuit id size xs ys)
    (h' : LocalsSuit id size ys zs) : LocalsSuit id size xs zs := by
  refine ⟨h.length, fun k u hk hu => ?_⟩
  obtain ⟨t, ht, htu⟩ := h'.entry k u hk hu
  obtain ⟨s, hs, hst⟩ := h.entry k t hk ht
  exact ⟨s, hs, hst.trans htu⟩

/-- A store into a local; see `Frame.of_store`. -/
theorem Typed.store {kind : ValueKind} {slot index : Nat} {t : SlotType} {G T T' : SlotTypes}
    (hroom : slot + kind.width ≤ size) (hkind : Frame.holdsKind kind t = true)
    (hwhole : T'.Whole size) (hself : T' slot = t) (hothers : ∀ k, k ≠ slot → T' k = T k)
    (hstack : ∀ t ∈ stack, t ≠ .top) (hT : T.Suits G) (hT' : T'.Suits G) :
    Typed context size labels (fun _ => False) (Covered size G) index (some (.of size T (t :: stack)))
      [.store kind slot] (some (.of size T' stack)) := by
  obtain ⟨f₁, hstep, hsuits⟩ : ∃ f, (Frame.of size T (t :: stack)).step context index
      (.store kind slot) = .ok f ∧ f.Suits id size (.of size T' stack) :=
    Frame.of_store hroom hkind hwhole (by rw [hself]; exact .refl _)
      (by rw [hself]; exact Frame.holdsKind_ne_top hkind)
      (fun k hk => by rw [hothers k hk]; exact .refl _) hstack
  exact .step rfl rfl hstep ⟨hT.locals, hsuits.locals.trans hT'.locals⟩ nofun
    (.weaken (Frame.of_wellFormed hwhole hstack) hsuits (.nil _ _))

end

/-- What a block of generated code can rely on. -/
structure Site where
  /-- the class and the result of the method -/
  context : MethodContext
  /-- local slots of a frame -/
  size : Nat
  /-- the slot of the first variable that is no local of the method -/
  first : Nat
  /-- types of the locals of the method -/
  base : SlotTypes
  /-- what handlers need to know of all locals -/
  guard : SlotTypes
  /-- the frames that are awaited at labels -/
  labels : Label → Option Frame

namespace Site

variable (s : Site)

/-- Types of all locals while variables are in use. -/
def types (held : Holdings) : SlotTypes := .beside s.first s.base held

/-- The frame while variables are in use. -/
def frame (held : Holdings) (stack : List SlotType) : Frame := .of s.size (s.types held) stack

/-- Control that enters the block with the first frame can only leave it at its end with the second
one, or for labels at which its frame is awaited. -/
def Goes (f : Option Frame) (is : List Instruction) (f' : Option Frame) : Prop :=
  ∀ index, Typed s.context s.size s.labels (fun _ => False) (Covered s.size s.guard) index f is f'

/-- The variables that are in use are apart from each other, and handlers know of them all they need. -/
structure Room (held : Holdings) : Prop where
  /-- variables are apart from one another -/
  fits : held.Fits s.first s.size
  /-- the variables of the body are whole -/
  whole_base : s.base.Whole s.first
  /-- they are within the frame -/
  first_le : s.first ≤ s.size
  /-- what is known under the handler around the body is true -/
  guard : (s.types held).Suits s.guard

variable {s} {held held' : Holdings} {x : Holding} {stack stack' : List SlotType}

namespace Room

theorem whole (room : s.Room held) : (s.types held).Whole s.size :=
  SlotTypes.beside_whole room.first_le room.whole_base room.fits

/-- More variables in use. -/
theorem grow (room : s.Room held) (hsub : held ⊆ held') (h : held'.Fits s.first s.size) :
    s.Room held' :=
  ⟨h, room.whole_base, room.first_le,
    (SlotTypes.beside_suits (fun _ _ => .refl _) h hsub).trans room.guard⟩

theorem cons (room : s.Room held) (h : Holdings.Fits s.first s.size (x :: held)) :
    s.Room (x :: held) :=
  room.grow (List.subset_cons_self ..) h

theorem frame_wellFormed (room : s.Room held) (hstack : ∀ t ∈ stack, t ≠ .top) :
    (s.frame held stack).WellFormed s.size :=
  Frame.of_wellFormed room.whole hstack

theorem frame_suits (room : s.Room held) (hsub : held' ⊆ held) (hstack : ∀ t ∈ stack, t ≠ .top) :
    (s.frame held stack).Suits id s.size (s.frame held' stack) :=
  Frame.of_suits (SlotTypes.beside_suits (fun _ _ => .refl _) room.fits hsub) hstack

/-- A variable that is in use can be loaded. -/
theorem load (room : s.Room held) (hmem : x ∈ held) (index : Nat) :
    (s.frame held stack).step s.context index (.load x.kind x.slot) =
      .ok (s.frame held (x.type :: stack)) := by
  have htype : s.types held x.slot = x.type := SlotTypes.beside_of_mem room.fits hmem
  have hload : (s.frame held stack).step s.context index (.load x.kind x.slot) =
      .ok (s.frame held (s.types held x.slot :: stack)) :=
    Frame.of_load (room.fits.bounds _ hmem).2 (by rw [htype]; exact room.fits.kinds _ hmem)
  rw [htype] at hload
  exact hload

end Room

namespace Goes

variable {f g k : Option Frame} {i : Instruction} {is js : List Instruction} {l : Label}

theorem nil : s.Goes f [] f := fun index => .nil index f

theorem append (h : s.Goes f is g) (h' : s.Goes g js k) : s.Goes f (is ++ js) k := fun index =>
  (h index).append (h' _)

theorem cons (h : s.Goes f [i] g) (h' : s.Goes g is k) : s.Goes f (i :: is) k := h.append h'

/-- Code that works on the stack alone. -/
theorem onStack (room : s.Room held)
    (h : OnStack s.context ((s.types held).locals s.size) stack is stack') :
    s.Goes (some (s.frame held stack)) is (some (s.frame held stack')) := by
  intro index
  simp only [frame, Frame.of]
  induction h generalizing index with
  | nil => exact .nil _ _
  | cons hi hstep _ ih =>
    obtain ⟨hplaced, htargets, hfalls⟩ := hi
    refine .step hplaced hfalls (hstep index) ⟨room.guard.locals, room.guard.locals⟩ ?_ (ih _)
    rw [htargets]
    exact nofun

theorem plain (room : s.Room held) (hi : i.Plain)
    (hstep : ∀ index, (s.frame held stack).step s.context index i = .ok (s.frame held stack')) :
    s.Goes (some (s.frame held stack)) [i] (some (s.frame held stack')) :=
  onStack room (.single hi hstep)

theorem load (room : s.Room held) (hmem : x ∈ held) :
    s.Goes (some (s.frame held stack)) [.load x.kind x.slot]
      (some (s.frame held (x.type :: stack))) :=
  plain room ⟨rfl, rfl, rfl⟩ (room.load hmem)

/-- A value that is put into a variable. -/
theorem hold (room : s.Room held) (hfits : Holdings.Fits s.first s.size (x :: held))
    (hstack : ∀ t ∈ stack, t ≠ .top) :
    s.Goes (some (s.frame held (x.type :: stack))) [.store x.kind x.slot]
      (some (s.frame (x :: held) stack)) := by
  have hself : s.types (x :: held) x.slot = x.type :=
    SlotTypes.beside_of_mem hfits (List.mem_cons_self ..)
  refine fun index => .store (hfits.bounds _ (List.mem_cons_self ..)).2
    (hfits.kinds _ (List.mem_cons_self ..)) (room.cons hfits).whole hself (fun k hk => ?_) hstack
    room.guard (room.cons hfits).guard
  rw [types, SlotTypes.beside, types, SlotTypes.beside, Holdings.typeAt, if_neg hk]

/-- A value of the same type that takes the place of another. -/
theorem replace (room : s.Room held) (hmem : x ∈ held) (hstack : ∀ t ∈ stack, t ≠ .top) :
    s.Goes (some (s.frame held (x.type :: stack))) [.store x.kind x.slot]
      (some (s.frame held stack)) := fun _ =>
  .store (room.fits.bounds _ hmem).2 (room.fits.kinds _ hmem) room.whole
    (SlotTypes.beside_of_mem room.fits hmem) (fun _ _ => rfl) hstack room.guard room.guard

/-- Variables that are not needed any more. -/
theorem forget (room : s.Room held) (hsub : held' ⊆ held) (hstack : ∀ t ∈ stack, t ≠ .top) :
    s.Goes (some (s.frame held stack)) [] (some (s.frame held' stack)) := fun _ =>
  .weaken (Frame.of_wellFormed (SlotTypes.beside_whole room.first_le room.whole_base
    (room.fits.subset hsub)) hstack) (room.frame_suits hsub hstack) (.nil _ _)

/-- Variables that are not needed after a block. -/
theorem forgetting (h : s.Goes f is (some (s.frame held stack))) (room : s.Room held)
    (hsub : held' ⊆ held) (hstack : ∀ t ∈ stack, t ≠ .top) :
    s.Goes f is (some (s.frame held' stack)) := by
  have hforget := h.append (forget room hsub hstack)
  rwa [List.append_nil] at hforget

/-- An instruction that may also jump. -/
theorem branch (room : s.Room held) (hi : i.placed? = none) (hfalls : i.fallsThrough = true)
    (hstep : ∀ index, (s.frame held stack).step s.context index i = .ok (s.frame held stack'))
    (htargets : ∀ l ∈ i.targets, (s.frame held stack').Awaited s.labels s.size l) :
    s.Goes (some (s.frame held stack)) [i] (some (s.frame held stack')) := fun index =>
  .step hi hfalls (hstep index) ⟨room.guard.locals, room.guard.locals⟩ htargets (.nil _ _)

/-- An instruction after which control does not go on with the next one. -/
theorem leave (room : s.Room held) (hi : i.placed? = none) (hfalls : i.fallsThrough = false)
    (hstep : ∀ index, (s.frame held stack).step s.context index i = .ok (s.frame held stack'))
    (htargets : ∀ l ∈ i.targets, (s.frame held stack').Awaited s.labels s.size l) :
    s.Goes (some (s.frame held stack)) [i] none := fun index =>
  .leave hi hfalls (hstep index) ⟨room.guard.locals, room.guard.locals⟩ htargets (.nil _ _)

theorem goto (room : s.Room held) (hl : (s.frame held stack).Awaited s.labels s.size l) :
    s.Goes (some (s.frame held stack)) [.goto l] none :=
  leave room rfl rfl (fun _ => rfl) fun _ hl' => List.mem_singleton.mp hl' ▸ hl

/-- A label at which a frame is awaited. -/
theorem arrive (room : s.Room held) (hl : s.labels l = some (s.frame held stack))
    (hf : ∀ g, f = some g → g.Suits id s.size (s.frame held stack)) :
    s.Goes f [.label l] (some (s.frame held stack)) := by
  intro index
  refine hl ▸ .label (fun g hg => ⟨_, hl, hf g hg⟩) (fun g hg => ?_) (.nil _ _)
  obtain rfl := Option.some.inj (hl.symm.trans hg)
  exact ⟨room.guard.locals, room.guard.locals⟩

/-- A label that control comes to with the frame that is awaited there. -/
theorem pass (room : s.Room held) (hl : s.labels l = some (s.frame held stack))
    (hstack : ∀ t ∈ stack, t ≠ .top) :
    s.Goes (some (s.frame held stack)) [.label l] (some (s.frame held stack)) :=
  arrive room hl fun g hg => by
    cases hg
    exact room.frame_suits (List.Subset.refl _) hstack

/-- A label that control never comes to. -/
theorem skip (hl : s.labels l = none) : s.Goes none [.label l] none := by
  intro index
  have hskip : Typed s.context s.size s.labels (fun _ => False) (Covered s.size s.guard) index none [.label l]
      (s.labels l) :=
    .label nofun (fun g hg => by rw [hl] at hg; cases hg) (.nil _ _)
  rwa [hl] at hskip

end Goes

end Site

end Resumption
