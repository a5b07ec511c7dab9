import Resumption.Proofs.Instrument.Accounting
import Resumption.Proofs.Instrument.RoundTrip

/-!
# Generated code is guarded

Frames are counted by the methods of an allocator and by the method of a continuation that takes a
method state. Code as written may leave these alone (`Uncounted`). Then suspendable code calls them
where it saves a frame, and nowhere else (`Generated.guarded`, `suspendableClass_guarded`): blocks
are guarded one by one, the others because they call no such method.
-/

namespace Resumption

variable {N : List (MethodRef × Native)} {F : SaveCodes} {is : List Instruction}

/-- Is the method none that only code that saves a frame calls? -/
def Uncounted (N : List (MethodRef × Native)) (ref : MethodRef) : Prop :=
  ∀ native, N.lookup ref = some native → native.counted = false

/-- Code that calls no such method. -/
theorem Calls.guarded (h : Calls (Uncounted N) is) : Guarded N F is := by
  refine .of_none fun i hi native hnative => ?_
  cases i with
  | invoke kind ref => exact h _ hi ref rfl native hnative
  | _ => cases hnative

/-- Blocks that do not make frames call no such method. -/
theorem Settings.blocks_uncounted {settings : Settings} (hN : Provided settings N) :
    settings.Blocks (Uncounted N) where
  plain ref href native hnative := by
    have hplain : ∀ ref ∈ Interface.plain, ∃ e ∈ Machine.standardNatives,
        e.1 = ref ∧ e.2.counted = false := by decide
    obtain ⟨e, he, rfl, huncounted⟩ := hplain ref href
    rw [hN.standard e he] at hnative
    cases hnative
    exact huncounted
  rollback owner hallocator native hnative := by
    rw [hN.allocator owner hallocator (Interface.rollback owner, .rollback)
      (by simp [Machine.allocatorNatives])] at hnative
    cases hnative
    rfl

/-- Values in a frame can be counted: there are no more than it has words. -/
theorem Layout.Countable.of_frame {p : SuspendPoint} {first : Nat}
    (hframe : p.frame.WellFormed first) (hfirst : first < 0x10000)
    (hwords : p.frame.words < 0x10000) (leases : List (Option Lease)) : Countable p leases where
  locals := by
    have hlocals := SuspendPoint.savedLocals_length hframe.halves
    rw [hframe.length] at hlocals
    omega
  stack := by
    have hstack := savedStack_length p.stackToSave leases
    have hspilled := p.stackToSave_length hwords
    omega

/-! ## Blocks -/

namespace Layout

variable {l : Layout} {first : Nat}

/-- The code of a point saves one frame. -/
theorem guarded_point (hN : Provided l.settings N) {held : List Lease} {p : SuspendPoint}
    {i : Instruction} {here : Label} {piece : Piece} (q : PointCode l first held p i here piece)
    (hvalues : Countable p q.leases) (hi : ∀ ref, i.callee? = some ref → Uncounted N ref) :
    Guarded N l.settings.SavesFrame piece.inPlace ∧ Guarded N l.settings.SavesFrame piece.block := by
  have hblocks := Settings.blocks_uncounted hN
  have hcalls : ∀ {is}, Calls (Uncounted N) is → ∀ i ∈ is, ∀ native, i.native? N = some native →
      native.counted = false := by
    intro is his i hi native hnative
    cases i with
    | invoke kind ref => exact his _ hi ref rfl native hnative
    | _ => cases hnative
  have hannounce := calls_announce hblocks s!"saving continuation point {p.id}"
  have hend : ∀ label : Label, Calls (Uncounted N)
      (q.exits ++ (placeholderReturn l.plan.method.descriptor.result ++ [.label label])) := fun _ =>
    .append (calls_exits hblocks q.exits_loop) (.append (calls_placeholderReturn _) (.of_none rfl))
  refine ⟨?_, ?_⟩
  · have hinPlace := q.inPlace_eq
    rw [IsSequence] at hinPlace
    cases hkind : p.kind with
    -- only the save sequence may call what counts; it stands between code that does not
    | suspend =>
      rw [hkind] at hinPlace
      have hlead : Calls (Uncounted N)
          (l.setMode .saving ++ l.announce s!"saving continuation point {p.id}") :=
        .append (calls_setMode hblocks _) hannounce
      have hparts : piece.inPlace = ([.stack .pop] ++ spillStack q.leases) ++
          (((l.setMode .saving ++ l.announce s!"saving continuation point {p.id}") ++
            l.frameCode p q.leases) ++ (q.exits ++
              (placeholderReturn l.plan.method.descriptor.result ++ [.label q.resume]))) := by
        rw [hinPlace]
        simp only [suspendSequence, save, frameCode, List.append_assoc]
      rw [hparts]
      exact .append (Calls.append (.of_none rfl) (calls_spillStack _)).guarded
        (.append (.saves (.suspend rfl hvalues _) (hcalls hlead)) (hend q.resume).guarded)
    | invoke =>
      rw [hkind] at hinPlace
      obtain ⟨after, hinPlace⟩ := hinPlace
      have hfront : Calls (Uncounted N)
          (spillStack q.leases ++ ([.label q.resume] ++ (reloadStack q.leases ++ [i]))) :=
        .append (calls_spillStack _) (.append (.of_none rfl)
          (.append (calls_reloadStack _) (.singleton hi)))
      have hlead : Calls (Uncounted N) (l.unlessMode .saving after ++
          l.announce s!"saving continuation point {p.id}" ++ clearAfterCall i p.stackToSave) :=
        .append (.append (calls_unlessMode hblocks _ _) hannounce) (calls_clearAfterCall _ _)
      have hparts : piece.inPlace =
          (spillStack q.leases ++ ([.label q.resume] ++ (reloadStack q.leases ++ [i]))) ++
          (((l.unlessMode .saving after ++ l.announce s!"saving continuation point {p.id}" ++
            clearAfterCall i p.stackToSave) ++ l.frameCode p q.leases) ++ (q.exits ++
              (placeholderReturn l.plan.method.descriptor.result ++ [.label after]))) := by
        rw [hinPlace]
        simp only [invokeSequence, save, frameCode, List.append_assoc]
      rw [hparts]
      exact .append hfront.guarded (.append (.saves (.invoke rfl hvalues _ after i p.stackToSave)
        (hcalls hlead)) (hend after).guarded)
  · rw [q.block_eq]
    exact (calls_restoreBlock hblocks q.restores_locals q.restores_stack).guarded

end Layout

/-- The code of a method, if the code as written calls no such method. -/
theorem Expansion.Shape.guarded {l : Layout} {first : Nat} {e : Expansion} (s : e.Shape l first)
    (hN : Provided l.settings N)
    (hvalues : ∀ p ∈ l.plan.points, ∀ leases, Layout.Countable p leases)
    (hcalls : Calls (Uncounted N) l.plan.code.instructions.toList) :
    Guarded N l.settings.SavesFrame e.instructions := by
  have hblocks := Settings.blocks_uncounted hN
  have hpieces : ∀ piece ∈ e.pieces, Guarded N l.settings.SavesFrame piece.inPlace ∧
      Guarded N l.settings.SavesFrame piece.block := by
    intro piece hpiece
    obtain ⟨⟨i, index⟩, hi, his⟩ := (mem_of_forall₂ s.pieces).2 piece hpiece
    have hmem := List.fst_mem_of_mem_zipIdx hi
    rcases his.cases with ⟨p, hp, ⟨q⟩⟩ | ⟨-, rfl⟩
    · exact Layout.guarded_point hN q (hvalues p (List.mem_of_find?_eq_some hp) _) (hcalls i hmem)
    · exact ⟨(Layout.calls_keep hblocks (hcalls i hmem)).guarded, Calls.nil.guarded⟩
  rw [Expansion.instructions, s.entry_eq, s.exit_eq]
  refine .append (.append (.append (Layout.calls_entry hblocks s.enters_loop).guarded
    (.flatMap fun piece h => (hpieces piece h).1)) (.flatMap fun piece h => ?_))
    (Layout.calls_exit hblocks _ _ _).guarded
  exact (hpieces piece h).2

/-- **Suspendable methods** are guarded. -/
theorem Generated.guarded {settings : Settings} {h : Hierarchy} {owner : ClassName}
    {method : Method} {made : SuspendableMethod} (g : Generated settings h owner method made)
    (hN : Provided settings N) (hcalls : Calls (Uncounted N) g.written.instructions.toList) :
    Guarded N settings.SavesFrame g.code.instructions.toList := by
  obtain ⟨l, rfl, hplan, -, -, ⟨s⟩⟩ := expansion_shape g.parts_eq
  obtain ⟨code, hinline, hcode⟩ := Except.bind_ok.mp g.plan_eq
  obtain ⟨analysis, -, hcode⟩ := Except.bind_ok.mp hcode
  have hwritten : Calls (Uncounted N) g.plan.code.instructions.toList := by
    rw [← Except.ok.inj hcode]
    exact Subroutine.inline_calls hcalls hinline
  rw [g.instructions_eq]
  refine s.guarded hN (fun p hp leases => ?_) (hplan ▸ hwritten)
  obtain ⟨at_⟩ := g.located (hplan ▸ hp)
  exact .of_frame at_.frame at_.size_lt at_.words_lt leases

/-! ## Classes -/

/-- Only such methods are called in the methods of the class. -/
def Class.Calls (R : MethodRef → Prop) (c : Class) : Prop :=
  ∀ method ∈ c.methods, ∀ code, method.code = some code →
    Resumption.Calls R code.instructions.toList

/-- **Suspendable classes** are guarded. -/
theorem suspendableClass_guarded {settings : Settings} {h : Hierarchy} {c c' : Class}
    (hN : Provided settings N) (hunmarked : c.isMarked = false) (hcalls : c.Calls (Uncounted N))
    (hclass : suspendableClass settings h c = .ok c') :
    ∀ method ∈ c'.methods, (Discipline.guarded N settings.SavesFrame).code c' method := by
  intro method hmethod code hcode
  obtain ⟨-, hmethods⟩ := suspendableClass_methods hunmarked hclass
  rcases hmethods method hmethod with hwritten | ⟨written, hwritten, made, rfl, -, hmade⟩
  · exact (hcalls method hwritten code hcode).guarded
  · obtain ⟨g, -, -, -⟩ := makeSuspendable_inv hmade
    obtain rfl : g.code = code := Option.some.inj (g.code_eq.symm.trans hcode)
    exact g.guarded hN (hcalls written hwritten _ g.written_eq)

end Resumption
