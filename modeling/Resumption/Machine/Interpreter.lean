import Resumption.Machine.Natives
import Resumption.Machine.Step

/-!
# Running methods

* **`Body.advance`** takes one step of an activation, and finds the handler if the step throws.
* **`Body.run`** repeats this until the method returns.
* **`runMethod`** runs a method whose calls may nest so many levels further. It is defined by
  recursion on that depth: what a step asks of other methods is answered one level below.
* **`invoke`** and **`construct`** are the ways in from outside. How many steps an activation may take
  is an argument of `runMethod` and `invokeWithin`; these two take it from the machine.
-/

namespace Resumption

/-- Runs a method of a class with its arguments. -/
abbrev MethodRunner := Class → Method → List Value → Run (Option Value)

namespace Run

/-! ## Classes -/

/-- The static fields of a class that have no value yet, at their zero values. -/
def zeroStatics (c : Class) (statics : List ((ClassName × MemberName) × Value)) :
    List ((ClassName × MemberName) × Value) :=
  (c.fields.filter (·.isStatic)).foldl (fun statics f =>
    let key := (c.name, f.name)
    if (statics.lookup key).isSome then statics else setStatic key (Value.zero f.type) statics)
    statics

/-- Initializes a class that is used for the first time, its superclass before it. Each level marks
a class, so one more level than there are classes is enough. -/
def prepare (run : MethodRunner) : (levels : Nat) → ClassName → Run Unit
  | 0, _ => return ()
  | levels + 1, name => do
    let m ← get
    if m.initialized.contains name then return
    match m.class? name with
    | none => return ()
    | some c =>
      modify fun m => { m with initialized := name :: m.initialized }
      match c.superclass with
      | some super => prepare run levels super
      | none => pure ()
      modify fun m => { m with statics := zeroStatics c m.statics }
      match c.methods.find? (·.name = .classInit) with
      | some method => discard (run c method [])
      | none => pure ()

/-- Makes sure that a class is initialized. -/
def ensureReady (run : MethodRunner) (name : ClassName) : Run Unit := do
  prepare run ((← get).classes.length + 1) name

/-- The implementation of a method, from a class on upwards. -/
def implementation? (classes : List Class) (name : MemberName) (descriptor : MethodDescriptor) :
    (levels : Nat) → ClassName → Option (Class × Method)
  | 0, _ => none
  | levels + 1, owner =>
    match classes.find? (·.name = owner) with
    | none => none
    | some c =>
      match c.methods.find? (fun m => m.isNamed name descriptor && m.code.isSome) with
      | some method => some (c, method)
      | none => c.superclass.bind (implementation? classes name descriptor levels)

/-! ## Calls -/

/-- Constructors of classes that are not loaded keep a message, if they are given one. -/
def libraryConstructor : List Value → Run Unit
  | .ref r :: .ref message :: _ => do
    match ← object r with
    | .instance owner fields =>
      setObject r (.instance owner (fields.set .message (.ref message)))
    | _ => return ()
  | _ => return ()

/-- The receiver of a call; null raises an exception. -/
def receiver (arguments : List Value) : Run Ref := nonNull (arguments.head?.bind Value.ref?)

/-- The class where the search for the implementation starts. -/
def startClass (run : MethodRunner) (kind : CallKind) (method : MethodRef)
    (arguments : List Value) : Run ClassName := do
  match kind with
  | .static =>
    ensureReady run method.owner
    return method.owner
  | .special =>
    let _ ← receiver arguments
    return method.owner
  | .virtual | .interface =>
    match ← object (← receiver arguments) with
    | .instance owner _ => return owner
    | _ => return method.owner

/-- Calls a method. Natives are found by the class named in the call and go before loaded code. -/
def call (run : MethodRunner) (kind : CallKind) (method : MethodRef) (arguments : List Value) :
    Run (Option Value) := do
  match (← get).natives.lookup method with
  | some native => native.run arguments
  | none =>
    let start ← startClass run kind method arguments
    let classes := (← get).classes
    match implementation? classes method.name method.descriptor (classes.length + 1) start with
    | some (owner, found) => run owner found arguments
    | none =>
      if method.name = .init then
        libraryConstructor arguments
        return none
      else fail (.noSuchMethod method.pretty)

/-- How instructions call methods and make classes ready. -/
def callees (run : MethodRunner) : Callees := ⟨call run, ensureReady run⟩

end Run

/-! ## Bodies -/

/-- A method body with its labels resolved. -/
structure Body where
  /-- the instructions, labels among them -/
  instructions : Array Instruction
  /-- where its labels are -/
  positions : LabelPositions
  /-- in the order in which they are tried -/
  handlers : List (HandlerRange × Option ClassName)
deriving Repr, Inhabited

namespace Body

/-- A body with the places of its labels and handlers looked up. -/
def ofCode (c : Code) : Except LabelError Body := do
  let positions ← c.labelPositions
  let ranges ← c.handlerRanges
  return { instructions := c.instructions, positions
           handlers := ranges.zip (c.handlers.map (·.caught)) }

/-- Does a handler catch exceptions of this type? -/
def catches (caught : Option ClassName) (thrown : RefType) : Run Bool :=
  match caught, thrown with
  | none, _ => return true
  | some super, .object sub => do Run.liftKnown ((← get).hierarchy.isSubclass sub super)
  | some _, _ => return false

/-- The entry of the first handler that covers an instruction and catches exceptions of the type. -/
def entryFor? (index : Nat) (thrown : RefType) :
    List (HandlerRange × Option ClassName) → Run (Option Nat)
  | [] => return none
  | (range, caught) :: rest => do
    if range.covers index then
      if ← catches caught thrown then return some range.entry
    entryFor? index thrown rest

/-- Goes to the handler of an exception, or leaves the activation with it. -/
def handle (body : Body) (a : Activation) (r : Ref) : Run Activation := do
  let thrown := (← Run.object r).type
  match ← entryFor? a.index thrown body.handlers with
  | some entry => return { a with stack := [.ref r], index := entry }
  | none => throw (.exception r)

/-- What comes after a step. -/
inductive Next where
  /-- with the next instruction -/
  | continue (a : Activation)
  /-- with a result, if there is one -/
  | return (v : Option Value)
deriving Repr, Inhabited

/-- Takes one step. -/
def advance (callees : Callees) (body : Body) (a : Activation) : Run Next :=
  match body.instructions[a.index]? with
  | none => Run.fail (.badCode a.method a.index .ranOff)
  | some i => do
    try
      match ← Step.execute callees i a with
      | (.next, b) => return .continue { b with index := b.index + 1 }
      | (.jump l, b) =>
        match body.positions.find l with
        | .ok index => return .continue { b with index }
        | .error _ => Run.fail (.badCode b.method b.index (.unplacedTarget l))
      | (.done v, _) => return .return v
    catch
      | .exception r => return .continue (← body.handle a r)
      | .failure e => Run.fail e

/-- Takes steps until the method returns, `limit` at most. -/
def runFor (callees : Callees) (body : Body) (limit : Nat) :
    (steps : Nat) → Activation → Run (Option Value)
  | 0, _ => Run.fail (.stepLimit limit)
  | steps + 1, a => do
    match ← body.advance callees a with
    | .continue a => runFor callees body limit steps a
    | .return v => return v

end Body

/-- The locals that a method starts with. -/
def argumentLocals (arguments : List Value) : Array Value :=
  (arguments.flatMap fun v => if v.width = 2 then [v, .top] else [v]).toArray

/-- Runs a method whose calls may nest `depth` levels, itself included. No activation takes more than
`limit` steps. -/
def runMethod (limit : Nat) : (depth : Nat) → MethodRunner
  | 0 => fun _ _ _ => do Run.fail (.stackOverflow (← get).maxDepth)
  | depth + 1 => fun owner method arguments => do
    let name := s!"{owner.name.text}.{method.signature}"
    match method.code with
    | none => Run.fail (.noSuchMethod name)
    | some c =>
      match Body.ofCode c with
      | .error e => Run.fail (.code (.ofLabel e))
      | .ok body =>
        body.runFor (Run.callees (runMethod limit depth)) limit limit
          { method := name, locals := argumentLocals arguments, stack := [], index := 0 }

namespace Run

/-- Calls a method from outside, with so many steps for each activation. -/
def invokeWithin (limit : Nat) (kind : CallKind) (method : MethodRef) (arguments : List Value) :
    Run (Option Value) := do
  call (runMethod limit (← get).maxDepth) kind method arguments

/-- Calls a method from outside. -/
def invoke (kind : CallKind) (method : MethodRef) (arguments : List Value) :
    Run (Option Value) := do
  invokeWithin (← get).maxSteps kind method arguments

/-- A new object on which its constructor without parameters was run. -/
def construct (owner : ClassName) : Run Ref := do
  ensureReady (runMethod (← get).maxSteps (← get).maxDepth) owner
  let r ← newInstance owner
  discard (invoke .special ⟨owner, .init, ⟨[], none⟩⟩ [.ref r])
  return r

end Run

end Resumption
