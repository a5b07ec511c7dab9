import Resumption.Snapshot.Error

/-!
# Rules for saved frames

Rules adapt saved frames to code that has changed. Each is for frames with one key:

* an **intercept** rule fixes values and must keep the key;
* an **update** rule makes an equivalent frame for other code and must change the key.

When a frame is written, `versions` follows the update rules as far as they go and keeps each frame
on the way. When it is read, `resolve` takes the first frame that the code at hand can load,
following rules that were added since.

An update rule fires at most once along a chain, because a key that comes back is refused; so a
chain has at most one frame more than there are update rules, and that many rounds are enough.
-/

namespace Resumption

/-- A rule for frames with a key. -/
structure FrameRule (ω : Type) where
  /-- the frames that it is for -/
  key : FrameKey
  /-- what becomes of them -/
  apply : SavedFrame ω → SavedFrame ω

/-- Rules of both kinds, at most one of a kind for a key. -/
structure SnapshotRules (ω : Type) where
  /-- rules that keep the key -/
  intercepts : List (FrameRule ω)
  /-- rules that change the key -/
  updates : List (FrameRule ω)

namespace SnapshotRules

variable {ω : Type}

/-- The first key that two of the rules share with an earlier one. -/
def duplicate? (seen : List FrameKey) : List (FrameRule ω) → Option FrameKey
  | [] => none
  | rule :: rest =>
    if seen.contains rule.key then some rule.key else duplicate? (rule.key :: seen) rest

/-- Collects rules; two of a kind for one key are refused. -/
def ofRules (intercepts updates : List (FrameRule ω)) : Except SnapshotError (SnapshotRules ω) :=
  match duplicate? [] intercepts, duplicate? [] updates with
  | some key, _ => .error (.duplicateRule key)
  | none, some key => .error (.duplicateRule key)
  | none, none => .ok ⟨intercepts, updates⟩

/-- No rules. -/
def empty : SnapshotRules ω := ⟨[], []⟩

variable (rules : SnapshotRules ω)

/-- Applies the intercept rule for the frame, if there is one. -/
def intercept (f : SavedFrame ω) : Except SnapshotError (SavedFrame ω) :=
  match rules.intercepts.find? (·.key = f.key) with
  | none => .ok f
  | some rule =>
    let fixed := rule.apply f
    if fixed.key = f.key then .ok fixed else .error (.interceptChangedKey f.key)

/-- Applies the update rule for the frame, if there is one. -/
def update (f : SavedFrame ω) : Except SnapshotError (Option (SavedFrame ω)) :=
  match rules.updates.find? (·.key = f.key) with
  | none => .ok none
  | some rule =>
    let updated := rule.apply f
    if updated.key = f.key then .error (.updateKeptKey f.key) else .ok (some updated)

/-- The frames that the rules lead to from a frame; `seen` are the keys passed already. -/
def chain : (rounds : Nat) → (seen : List FrameKey) → SavedFrame ω →
    Except SnapshotError (List (SavedFrame ω))
  | 0, _, f => .error (.updateCycle f.key)
  | rounds + 1, seen, f => do
    let current ← rules.intercept f
    if seen.contains current.key then throw (.updateCycle current.key)
    match ← rules.update current with
    | none => return [current]
    | some next => return current :: (← chain rounds (current.key :: seen) next)

/-- A frame and the equivalent frames that the rules make of it. -/
def versions (f : SavedFrame ω) : Except SnapshotError (VersionedFrame ω) := do
  return ⟨← rules.chain (rules.updates.length + 1) [] f⟩

/-- The first loadable frame that update rules lead to, or the keys that were tried. -/
def search (loadable : FrameKey → Bool) : (rounds : Nat) → (seen : List FrameKey) →
    SavedFrame ω → Except SnapshotError (Except (List FrameKey) (SavedFrame ω))
  | 0, _, f => .error (.updateCycle f.key)
  | rounds + 1, seen, f => do
    if seen.contains f.key then throw (.updateCycle f.key)
    if loadable f.key then return .ok f
    match ← rules.update f with
    | none => return .error [f.key]
    | some next =>
      match ← search loadable rounds (f.key :: seen) (← rules.intercept next) with
      | .ok found => return .ok found
      | .error tried => return .error (f.key :: tried)

/-- Tries one representation after the other; `tried` are the keys tried so far. -/
def resolveFrom (loadable : FrameKey → Bool) (tried : List FrameKey) :
    List (SavedFrame ω) → Except SnapshotError (SavedFrame ω)
  | [] => .error (.noLoadableFrame tried)
  | f :: rest => do
    match ← rules.search loadable (rules.updates.length + 1) [] f with
    | .ok found => return found
    | .error keys => resolveFrom loadable (tried ++ keys) rest

/-- The first representation that can be loaded, following rules where none can. -/
def resolve (loadable : FrameKey → Bool) (v : VersionedFrame ω) :
    Except SnapshotError (SavedFrame ω) :=
  rules.resolveFrom loadable [] v.representations

/-- The snapshot of a suspended coroutine. -/
def capture (payload : ω) (frames : List (SavedFrame ω)) : Except SnapshotError (Snapshot ω) := do
  return ⟨payload, ← frames.mapM rules.versions⟩

/-- The frames to load from a snapshot, outermost first. -/
def restore (loadable : FrameKey → Bool) (s : Snapshot ω) :
    Except SnapshotError (List (SavedFrame ω)) :=
  s.frames.mapM (rules.resolve loadable)

end SnapshotRules

end Resumption
