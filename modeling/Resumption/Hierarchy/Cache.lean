import Resumption.Hierarchy.Basic

/-!
# Remembered lookups

A cache in front of a hierarchy. A question is answered from the facts seen so far; when it turns
out to need a class that was not looked up yet, that class is looked up, whether it is known or not,
and the question is asked again. So the cache holds exactly the classes that questions needed.
-/

namespace Resumption

/-- A hierarchy and the classes looked up in it so far. -/
structure HierarchyCache where
  /-- where types are looked up for the first time -/
  source : Hierarchy
  /-- what was looked up already -/
  seen : List ClassName
deriving Repr, Inhabited

namespace HierarchyCache

/-- A cache that has seen nothing. -/
def ofHierarchy (h : Hierarchy) : HierarchyCache := ⟨h, []⟩

/-- The facts seen so far. -/
def visible (c : HierarchyCache) : Hierarchy :=
  ⟨c.source.types.filter fun info => c.seen.contains info.name⟩

/-- Asks again after each new lookup, `fuel` times at most. -/
def askAgain {α : Type} (question : Hierarchy → Known α) :
    (fuel : Nat) → HierarchyCache → Known α × HierarchyCache
  | 0, c => (question c.visible, c)
  | fuel + 1, c =>
    match question c.visible with
    | .ok answer => (.ok answer, c)
    | .error missing =>
      if c.seen.contains missing.name then (.error missing, c)
      else askAgain question fuel { c with seen := missing.name :: c.seen }

/-- The answer to a question, and the cache after it. Each round but the last sees a class for the
first time, and at most one of those is unknown. -/
def ask {α : Type} (c : HierarchyCache) (question : Hierarchy → Known α) :
    Known α × HierarchyCache :=
  askAgain question (c.source.types.length + 2) c

end HierarchyCache

end Resumption
