import Resumption.Hierarchy.Basic

/-!
# Questions about super types

* **`isSubclass`** follows superclasses and interfaces: the real subtype relation. Each class is
  visited once, so cycles do no harm.
* **`isAssignable`** is what checking code wants of a value: every reference type may go where an
  interface is wanted, otherwise only superclasses count, and arrays of references are covariant.
* **`commonSuperclass`** and **`merge`** give the type of a value that comes from one of two places.

The walks along superclasses take at most as many steps as there are known classes; a walk that is
longer has met a class twice and would never end, and is given up.
-/

namespace Resumption

namespace Hierarchy

variable (h : Hierarchy)

/-- Puts the names that were not seen before on top of those to visit, in order, and marks them. -/
def enqueue : (next toVisit seen : List ClassName) → List ClassName × List ClassName
  | [], toVisit, seen => (toVisit, seen)
  | c :: next, toVisit, seen =>
    if seen.contains c then enqueue next toVisit seen
    else enqueue next (c :: toVisit) (c :: seen)

/-- Visits classes until `target` turns up. Every known class is visited once at most, so as much
`fuel` as there are known classes, and one for a class that is missing, is enough. -/
def searchSupers (target : ClassName) : (fuel : Nat) → (toVisit seen : List ClassName) → Known Bool
  | 0, _, _ => .ok false
  | _, [], _ => .ok false
  | fuel + 1, c :: rest, seen =>
    if c = target then .ok true
    else do
      let info ← h.typeInfo c
      let (toVisit, seen) := enqueue info.supers rest seen
      searchSupers target fuel toVisit seen

/-- Is `sub` the same as `super`, or below it by superclasses and interfaces? -/
def isSubclass (sub super : ClassName) : Known Bool :=
  searchSupers h super (h.types.length + 2) [sub] [sub]

/-- Does `target` occur among the superclasses from `info` on? -/
def hasSuperclass (target : ClassName) : (fuel : Nat) → TypeInfo → Known Bool
  | 0, _ => .ok false
  | fuel + 1, info =>
    match info.superclass with
    | none => .ok false
    | some c => if c = target then .ok true else do hasSuperclass target fuel (← h.typeInfo c)

/-- May an instance of `sub` be used as a `super`? -/
def isAssignableClass (sub super : ClassName) : Known Bool :=
  if sub = super || super = .object then .ok true
  else do
    if (← h.typeInfo super).isInterface then return true
    hasSuperclass h super (h.types.length + 1) (← h.typeInfo sub)

/-- The classes that every array is an instance of. -/
def isArraySuper (c : ClassName) : Bool :=
  c = .object || c = .cloneable || c = .serializable

/-- May a value of type `sub` be used as a `super`? -/
def isAssignable : (sub super : RefType) → Known Bool
  | .object a, .object b => h.isAssignableClass a b
  | .primitiveArray _ _, .object c | .objectArray _ _, .object c =>
    if isArraySuper c then .ok true else do return (← h.typeInfo c).isInterface
  | .primitiveArray m a, .primitiveArray n b => .ok (m = n && a = b)
  | .primitiveArray m _, .objectArray n b => .ok (n < m && isArraySuper b)
  | .objectArray m a, .objectArray n b =>
    if m < n then .ok false
    else if m = n then h.isAssignableClass a b
    else .ok (isArraySuper b)
  | _, _ => .ok false

/-- The first superclass, from `info` on, that `b` is below. -/
def firstSuperOf (b : ClassName) : (fuel : Nat) → TypeInfo → Known ClassName
  | 0, _ => .ok .object
  | fuel + 1, info =>
    match info.superclass with
    | none => .ok .object
    | some c => do
      if ← h.isSubclass b c then return c
      firstSuperOf b fuel (← h.typeInfo c)

/-- The least class above both; unrelated interfaces only have the root above them. -/
def commonSuperclass (a b : ClassName) : Known ClassName :=
  if a = b then .ok a
  else do
    if ← h.isSubclass b a then return a
    if ← h.isSubclass a b then return b
    let info ← h.typeInfo a
    if info.isInterface then return .object
    if (← h.typeInfo b).isInterface then return .object
    firstSuperOf h b (h.types.length + 1) info

/-- What arrays with `m + 1` and `n + 1` dimensions have in common. -/
def commonArray (m n : Nat) : RefType :=
  match min m n with
  | 0 => .object .object
  | k + 1 => .objectArray k .object

/-- The type of a value that has one of two types. -/
def merge (a b : RefType) : Known RefType :=
  if a = b then .ok a
  else
    match a, b with
    | .object c, .object d => do return .object (← h.commonSuperclass c d)
    | .objectArray m c, .objectArray n d =>
      if m = n then do return .objectArray m (← h.commonSuperclass c d)
      else .ok (.objectArray (min m n) .object)
    | .primitiveArray m _, .primitiveArray n _ => .ok (commonArray m n)
    | .primitiveArray m _, .objectArray n _ | .objectArray n _, .primitiveArray m _ =>
      match m with
      | 0 => .ok (.object .object)
      | k + 1 => .ok (.objectArray (min k n) .object)
    | .object c, _ | _, .object c =>
      if c = .cloneable || c = .serializable then .ok (.object c) else .ok (.object .object)

end Hierarchy

end Resumption
