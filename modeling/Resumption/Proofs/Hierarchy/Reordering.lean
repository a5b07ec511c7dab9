import Resumption.Proofs.Hierarchy.Commuting
import Resumption.Proofs.Hierarchy.Walks

/-!
# Below, whatever the order

The search of `isSubclass` puts what is above a class on a stack, so the order in which interfaces are
declared decides which classes it visits, and when. It does not decide the answer:

* **`Reordered.below_iff`**: hierarchies that declare the same interfaces in different orders have the
  same subtype relation.
* **`isSubclass_decides`**: the search, as a loop without a bound, comes to an end, and answers whether
  there is a way up, in all those hierarchies alike. Ways up may go round.
-/

namespace Resumption

/-- The same facts about a class, with its interfaces in another order. -/
structure TypeInfo.Reordered (info info' : TypeInfo) : Prop where
  /-- the name is the same -/
  name : info.name = info'.name
  /-- the superclass is the same -/
  superclass : info.superclass = info'.superclass
  /-- the interfaces are in another order -/
  interfaces : info.interfaces.Perm info'.interfaces
  /-- it is an interface as before -/
  isInterface : info.isInterface = info'.isInterface

theorem TypeInfo.Reordered.symm {info info' : TypeInfo} (h : info.Reordered info') :
    info'.Reordered info :=
  ⟨h.name.symm, h.superclass.symm, h.interfaces.symm, h.isInterface.symm⟩

theorem TypeInfo.Reordered.mem_supers {info info' : TypeInfo} (h : info.Reordered info')
    {c : ClassName} (hc : c ∈ info.supers) : c ∈ info'.supers := by
  rw [TypeInfo.supers, List.mem_append] at hc ⊢
  rw [← h.superclass]
  exact hc.imp_right h.interfaces.mem_iff.mp

namespace Hierarchy

/-- The same facts in the same order of priority, with the interfaces of each class in another
order. -/
def Reordered (h h' : Hierarchy) : Prop := List.Forall₂ TypeInfo.Reordered h.types h'.types

namespace Reordered

variable {h h' : Hierarchy} {c d : ClassName}

theorem symm (hr : h.Reordered h') : h'.Reordered h :=
  List.Forall₂.flip (hr.imp fun _ _ hinfo => hinfo.symm)

theorem lookup (hr : h.Reordered h') {info : TypeInfo} (hc : h.lookup c = some info) :
    ∃ info', h'.lookup c = some info' ∧ info.Reordered info' := by
  simp only [Hierarchy.lookup] at hc ⊢
  rw [Reordered] at hr
  generalize h.types = infos at *
  generalize h'.types = infos' at *
  induction hr with
  | nil => cases hc
  | @cons first first' rest rest' hfirst _ ih =>
    rw [List.find?_cons] at hc ⊢
    rw [← hfirst.name]
    split at hc
    · cases hc
      exact ⟨first', rfl, hfirst⟩
    · exact ih hc

theorem super (hr : h.Reordered h') (hcd : h.Super c d) : h'.Super c d := by
  obtain ⟨info, hinfo, hd⟩ := hcd
  obtain ⟨info', hinfo', hsame⟩ := hr.lookup hinfo
  exact ⟨info', hinfo', hsame.mem_supers hd⟩

/-- **The relation stays the same.** -/
theorem below_iff (hr : h.Reordered h') : h.Below c d ↔ h'.Below c d := by
  have hle : ∀ {k k' : Hierarchy}, k.Reordered k' → k.Super ≤ k'.Super := fun hr _ _ => hr.super
  exact ⟨Relation.ReflTransGen.mono (hle hr) c d, Relation.ReflTransGen.mono (hle hr.symm) c d⟩

theorem knows (hr : h.Reordered h') (hc : h.Knows c) : h'.Knows c := by
  obtain ⟨info, hinfo⟩ := hc
  obtain ⟨info', hinfo', -⟩ := hr.lookup hinfo
  exact ⟨info', hinfo'⟩

theorem closed (hr : h.Reordered h') (hclosed : h.Closed) : h'.Closed := fun c d hcd =>
  hr.knows (hclosed c d (hr.symm.super hcd))

end Reordered

variable {h : Hierarchy} {sub : ClassName}

/-- **The search decides what is below what.** In a hierarchy that knows all super types of the classes
it knows, the loop ends; its answer is yes just when there is a way up, of no steps or more, along
superclasses and interfaces; and it is the same answer in whatever order interfaces are declared. -/
theorem isSubclass_decides (hclosed : h.Closed) (hsub : h.Knows sub) (super : ClassName) :
    ∃ found, h.isSubclass sub super = .ok found ∧
      (∃ rounds, (h.searchRound super).Ends ([sub], [sub]) rounds (.ok found)) ∧
      (found = true ↔ Relation.ReflTransGen h.Super sub super) ∧
      ∀ h', h.Reordered h' → h'.isSubclass sub super = .ok found := by
  obtain ⟨found, hanswer, hfound⟩ := isSubclass_iff hclosed hsub super
  obtain ⟨rounds, hends⟩ := h.search_ends sub super
  refine ⟨found, hanswer, ⟨rounds, hanswer ▸ hends⟩, hfound, fun h' hr => ?_⟩
  obtain ⟨found', hanswer', hfound'⟩ := isSubclass_iff (hr.closed hclosed) (hr.knows hsub) super
  obtain rfl : found' = found :=
    Bool.eq_iff_iff.mpr (hfound'.trans (hr.below_iff.symm.trans hfound.symm))
  exact hanswer'

namespace Declarations

/-- Two classes that are each other's superclass, with two ways up to an interface that goes round to
one of those it is above. -/
def whirl (interfaces : List ClassName) : Hierarchy where
  types := [⟨tile, some figure, interfaces, false⟩, ⟨figure, some tile, [], false⟩,
    ⟨round, none, [.cloneable], true⟩, ⟨.serializable, none, [.cloneable], true⟩,
    ⟨.cloneable, none, [round], true⟩]

theorem whirl_closed : (whirl [round, .serializable]).Closed := by
  rintro c d ⟨info, hinfo, hd⟩
  have hall : ∀ info ∈ (whirl [round, .serializable]).types, ∀ d ∈ info.supers,
      ((whirl [round, .serializable]).lookup d).isSome = true := by
    decide +kernel
  exact Option.isSome_iff_exists.mp (hall info (mem_of_lookup hinfo).1 d hd)

theorem whirl_reordered : (whirl [round, .serializable]).Reordered (whirl [.serializable, round]) := by
  have hsame : ∀ infos : List TypeInfo, List.Forall₂ TypeInfo.Reordered infos infos := fun infos =>
    List.forall₂_same.mpr fun _ _ => ⟨rfl, rfl, .refl _, rfl⟩
  exact .cons ⟨rfl, rfl, .swap .., rfl⟩ (hsame _)

end Declarations

open Declarations in
/-- From one class of the circle there is a way to the interface at the top, found in either order, and
none to the root, which is not there. -/
theorem isSubclass_decides_whirl : (whirl [round, .serializable]).Closed ∧
    (whirl [round, .serializable]).Knows figure ∧
    (whirl [.serializable, round]).isSubclass figure .cloneable = .ok true ∧
    Relation.ReflTransGen (whirl [round, .serializable]).Super figure .cloneable ∧
    (whirl [.serializable, round]).isSubclass figure .object = .ok false ∧
    ¬ Relation.ReflTransGen (whirl [round, .serializable]).Super figure .object := by
  have hknows : (whirl [round, .serializable]).Knows figure :=
    Option.isSome_iff_exists.mp (by decide +kernel)
  have hup : (whirl [round, .serializable]).isSubclass figure .cloneable = .ok true := by
    decide +kernel
  have hno : (whirl [round, .serializable]).isSubclass figure .object = .ok false := by
    decide +kernel
  obtain ⟨found, hfound, -, hway, hsame⟩ := isSubclass_decides whirl_closed hknows .cloneable
  obtain ⟨found', hfound', -, hway', hsame'⟩ := isSubclass_decides whirl_closed hknows .object
  obtain rfl := Except.ok.inj (hfound.symm.trans hup)
  obtain rfl := Except.ok.inj (hfound'.symm.trans hno)
  exact ⟨whirl_closed, hknows, hsame _ whirl_reordered, hway.mp rfl, hsame' _ whirl_reordered,
    fun hobject => Bool.false_ne_true (hway'.mpr hobject)⟩

end Hierarchy

end Resumption
