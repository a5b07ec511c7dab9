/-!
# Labels

Instructions and handlers refer to places in the code by label only. A label source hands out
labels that are in use nowhere yet: its next label is above all it has to avoid.
-/

namespace Resumption

/-- A place in the code. -/
structure Label where
  /-- what tells it from others -/
  id : Nat
deriving DecidableEq, Repr, Inhabited, Hashable

namespace Label

/-- The label as it is written in an instruction. -/
def describe (l : Label) : String := s!"l{l.id}"

/-- The label after this one. -/
def next (l : Label) : Label := ⟨l.id + 1⟩

/-- The least label above all those given. -/
def above (used : List Label) : Label :=
  used.foldl (fun bound l => if bound.id ≤ l.id then l.next else bound) ⟨0⟩

end Label

end Resumption
