import Resumption.Proofs.Hierarchy.Commuting
import Resumption.Proofs.Instrument.Conformance

/-!
# What an object is an instance of

Casts and tests of a running machine ask whether an object is an instance of a type. Between classes
that is answered by the real subtype relation; as soon as one of the types is an array, the question
is handed to the rules for checking code, which let everything go where an interface is wanted.

* **`IsA`** is the real relation: classes along superclasses and interfaces, arrays as the three
  types that every array has, and arrays of references along their elements.
* **`Lenient`** is what checking code lets go besides: an array where an interface is wanted, and
  arrays of classes where arrays of an interface are.
* **`admits_iff`**, `Run.isInstance_iff`: the machine answers yes for the one and for the other, and
  for nothing else.
-/

namespace Resumption

namespace Hierarchy

variable {h : Hierarchy} {a b c : ClassName} {s t : RefType} {m n : Nat}

/-! ## Two relations -/

/-- Is a value of the first type a value of the second? -/
inductive IsA (h : Hierarchy) : RefType → RefType → Prop
  /-- as classes are below one another -/
  | object {a b : ClassName} (hab : h.Below a b) : IsA h (.object a) (.object b)
  /-- what all arrays are -/
  | array {t : RefType} {c : ClassName} (ht : t.isArray = true) (hc : isArraySuper c = true) :
    IsA h t (.object c)
  /-- an array of a primitive type is only of that type -/
  | primitive (e : BaseType) : IsA h (.array (.base e)) (.array (.base e))
  /-- as the elements are -/
  | elements {s t : RefType} (hst : IsA h s t) : IsA h (.array (.ref s)) (.array (.ref t))

/-- Is the second type, or its elements, an interface that the first need not implement? -/
inductive Lenient (h : Hierarchy) : RefType → RefType → Prop
  /-- an array as an interface -/
  | interface {t : RefType} {c : ClassName} (ht : t.isArray = true) (hc : h.IsInterface c) :
    Lenient h t (.object c)
  /-- an array of objects as an array of an interface -/
  | elements {n : Nat} {a c : ClassName} (hc : h.IsInterface c) :
    Lenient h (.objectArray n a) (.objectArray n c)

/-- The real relation, read off the two types. -/
def IsAShape (h : Hierarchy) : RefType → RefType → Prop
  | .object a, .object b => h.Below a b
  | .primitiveArray _ _, .object c | .objectArray _ _, .object c => isArraySuper c = true
  | .primitiveArray m a, .primitiveArray n b => m = n ∧ a = b
  | .primitiveArray m _, .objectArray n b => n < m ∧ isArraySuper b = true
  | .objectArray m a, .objectArray n b =>
    m = n ∧ h.Below a b ∨ n < m ∧ isArraySuper b = true
  | _, _ => False

/-- What has more dimensions than an array has arrays for elements there. -/
theorem isA_fewer {f : Nat → RefType}
    (hf : ∀ m, (f m).isArray = true ∧ f (m + 1) = .array (.ref (f m)))
    (hc : isArraySuper c = true) (hlt : n < m) : h.IsA (f m) (.objectArray n c) := by
  induction n generalizing m with
  | zero =>
    obtain ⟨m, rfl⟩ := Nat.exists_eq_add_of_le' hlt
    rw [(hf m).2]
    exact .elements (t := .object c) (.array (hf m).1 hc)
  | succ n ih =>
    obtain ⟨m, rfl⟩ := Nat.exists_eq_add_of_le' (Nat.one_le_of_lt hlt)
    rw [(hf m).2]
    exact .elements (t := .objectArray n c) (ih (Nat.lt_of_succ_lt_succ hlt))

theorem isA_objectArray (hab : h.Below a b) : h.IsA (.objectArray n a) (.objectArray n b) := by
  induction n with
  | zero => exact .elements (.object hab)
  | succ n ih => exact .elements ih

theorem isA_primitiveArray (e : BaseType) :
    h.IsA (.primitiveArray n e) (.primitiveArray n e) := by
  induction n with
  | zero => exact .primitive e
  | succ n ih => exact .elements ih

theorem IsA.shape (hst : h.IsA s t) : h.IsAShape s t := by
  induction hst with
  | object hab => exact hab
  | @array t c ht hc =>
    cases t with
    | object _ => cases ht
    | _ => exact hc
  | primitive e => exact ⟨rfl, rfl⟩
  | @elements s t _ ih =>
    cases s with
    | object a =>
      cases t with
      | object b => exact .inl ⟨rfl, ih⟩
      | _ => cases ih
    | primitiveArray m a =>
      cases t with
      | object b => exact ⟨Nat.succ_pos m, ih⟩
      | primitiveArray n b => exact ⟨congrArg (· + 1) ih.1, ih.2⟩
      | objectArray n b => exact ⟨Nat.succ_lt_succ ih.1, ih.2⟩
    | objectArray m a =>
      cases t with
      | object b => exact .inr ⟨Nat.succ_pos m, ih⟩
      | primitiveArray n b => cases ih
      | objectArray n b =>
        exact ih.imp (fun ⟨heq, hab⟩ => ⟨congrArg (· + 1) heq, hab⟩)
          fun ⟨hlt, hb⟩ => ⟨Nat.succ_lt_succ hlt, hb⟩

theorem isA_iff : h.IsA s t ↔ h.IsAShape s t := by
  refine ⟨IsA.shape, fun hst => ?_⟩
  cases s with
  | object a =>
    cases t with
    | object b => exact .object hst
    | _ => cases hst
  | primitiveArray m a =>
    cases t with
    | object b => exact .array rfl hst
    | primitiveArray n b =>
      obtain ⟨rfl, rfl⟩ := hst
      exact isA_primitiveArray a
    | objectArray n b =>
      exact isA_fewer (f := (.primitiveArray · a)) (fun _ => ⟨rfl, rfl⟩) hst.2 hst.1
  | objectArray m a =>
    cases t with
    | object b => exact .array rfl hst
    | primitiveArray n b => cases hst
    | objectArray n b =>
      rcases hst with ⟨rfl, hab⟩ | ⟨hlt, hb⟩
      · exact isA_objectArray hab
      · exact isA_fewer (f := (.objectArray · a)) (fun _ => ⟨rfl, rfl⟩) hb hlt

/-! ## What checking code lets go -/

theorem hasSuperclass_ok (hclosed : h.Closed) {info : TypeInfo} (hinfo : h.lookup a = some info)
    (c : ClassName) (fuel : Nat) : ∃ found, h.hasSuperclass c fuel info = .ok found ∧
      (found = true → h.Below a c) := by
  induction fuel generalizing a info with
  | zero => exact ⟨false, rfl, nofun⟩
  | succ fuel ih =>
    cases hsuper : info.superclass with
    | none => exact ⟨false, by simp only [hasSuperclass, hsuper], nofun⟩
    | some d =>
      have had : h.Inherits a d := ⟨info, hinfo, hsuper⟩
      obtain ⟨next, hnext⟩ := hclosed _ _ had.super
      obtain ⟨found, hfound, hbelow⟩ := ih hnext
      by_cases heq : d = c
      · exact ⟨true, by simp only [hasSuperclass, hsuper, if_pos heq],
          fun _ => heq ▸ .single had.super⟩
      · refine ⟨found, ?_, fun htrue => .head had.super (hbelow htrue)⟩
        simp only [hasSuperclass, hsuper, if_neg heq, typeInfo_of_lookup hnext, bind, Except.bind]
        exact hfound

/-- Between classes, checking code adds the interfaces to the real relation. -/
theorem isAssignableClass_iff (hd : h.Declared) (ha : h.Knows a) (hc : h.Knows c) :
    ∃ found, h.isAssignableClass a c = .ok found ∧
      (found = true ↔ h.Below a c ∨ h.IsInterface c) := by
  by_cases hbelow : h.Below a c
  · exact ⟨true, isAssignableClass_of_below hd ha hc hbelow, fun _ => .inl hbelow, fun _ => rfl⟩
  have hne : ¬ (decide (a = c) || decide (c = .object)) = true := by
    rw [Bool.or_eq_true, decide_eq_true_eq, decide_eq_true_eq]
    rintro (rfl | rfl)
    · exact hbelow .refl
    · exact hbelow (hd.rooted.below_object ha)
  obtain ⟨info, hinfo⟩ := ha
  obtain ⟨info', hinfo'⟩ := hc
  simp only [isAssignableClass, if_neg hne, typeInfo_of_lookup hinfo, typeInfo_of_lookup hinfo',
    bind, Except.bind]
  by_cases hinterface : info'.isInterface = true
  · rw [if_pos hinterface]
    exact ⟨true, rfl, fun _ => .inr ⟨info', hinfo', hinterface⟩, fun _ => rfl⟩
  · obtain ⟨found, hfound, hback⟩ := hasSuperclass_ok hd.rooted.closed hinfo c (h.types.length + 1)
    rw [if_neg hinterface]
    refine ⟨found, hfound, fun htrue => .inl (hback htrue), ?_⟩
    rintro (hbelow' | ⟨i, hi, hinterface'⟩)
    · exact absurd hbelow' hbelow
    · exact absurd (Option.some.inj (hi.symm.trans hinfo') ▸ hinterface') hinterface

/-- Every array goes where an interface is wanted. -/
theorem isAssignable_array (hc : h.Knows c) (ht : t.isArray = true) :
    ∃ found, h.isAssignable t (.object c) = .ok found ∧
      (found = true ↔ isArraySuper c = true ∨ h.IsInterface c) := by
  obtain ⟨info, hinfo⟩ := hc
  have hassign : h.isAssignable t (.object c) =
      if isArraySuper c then .ok true else .ok info.isInterface := by
    cases t with
    | object _ => cases ht
    | _ => simp only [isAssignable, typeInfo_of_lookup hinfo, bind, Except.bind, pure, Except.pure]
  rw [hassign]
  by_cases hsuper : isArraySuper c = true
  · rw [if_pos hsuper]
    exact ⟨true, rfl, fun _ => .inl hsuper, fun _ => rfl⟩
  · rw [if_neg hsuper]
    refine ⟨info.isInterface, rfl, fun htrue => .inr ⟨info, hinfo, htrue⟩, ?_⟩
    rintro (hsuper' | ⟨i, hi, hinterface⟩)
    · exact absurd hsuper' hsuper
    · exact Option.some.inj (hi.symm.trans hinfo) ▸ hinterface

theorem lenient_array (ht : t.isArray = true) : h.Lenient t (.object c) ↔ h.IsInterface c :=
  ⟨fun hlenient => by cases hlenient with | interface _ hc => exact hc, .interface ht⟩

theorem lenient_objectArray :
    h.Lenient (.objectArray m a) (.objectArray n c) ↔ m = n ∧ h.IsInterface c :=
  ⟨fun hlenient => by cases hlenient with | elements hc => exact ⟨rfl, hc⟩,
    fun ⟨heq, hc⟩ => heq ▸ .elements hc⟩

/-- **The answer** of the machine about two types that are made of known classes. -/
theorem admits_iff (hd : h.Declared) (hs : h.KnowsType s) (ht : h.KnowsType t) :
    ∃ found, h.admits s t = .ok found ∧ (found = true ↔ h.IsA s t ∨ h.Lenient s t) := by
  rw [isA_iff]
  cases s with
  | object a =>
    cases t with
    | object c =>
      obtain ⟨found, hfound, hbelow⟩ := isSubclass_iff hd.rooted.closed hs c
      refine ⟨found, hfound, hbelow.trans ⟨.inl, ?_⟩⟩
      rintro (hbelow' | hlenient)
      · exact hbelow'
      · cases hlenient with
        | interface harray => cases harray
    | _ => exact ⟨false, rfl, nofun, fun hor => hor.elim nofun nofun⟩
  | primitiveArray m a =>
    cases t with
    | object c =>
      obtain ⟨found, hfound, hor⟩ := isAssignable_array ht (t := .primitiveArray m a) rfl
      exact ⟨found, hfound, hor.trans (or_congr_right (lenient_array rfl).symm)⟩
    | primitiveArray n b =>
      refine ⟨_, rfl, ?_⟩
      simp only [Bool.and_eq_true, decide_eq_true_eq]
      exact ⟨.inl, fun hor => hor.elim id nofun⟩
    | objectArray n b =>
      refine ⟨_, rfl, ?_⟩
      simp only [Bool.and_eq_true, decide_eq_true_eq]
      exact ⟨.inl, fun hor => hor.elim id nofun⟩
  | objectArray m a =>
    cases t with
    | object c =>
      obtain ⟨found, hfound, hor⟩ := isAssignable_array ht (t := .objectArray m a) rfl
      exact ⟨found, hfound, hor.trans (or_congr_right (lenient_array rfl).symm)⟩
    | primitiveArray n b => exact ⟨false, rfl, nofun, fun hor => hor.elim nofun nofun⟩
    | objectArray n b =>
      rw [lenient_objectArray]
      rcases Nat.lt_trichotomy m n with hlt | rfl | hgt
      · refine ⟨false, if_pos hlt, nofun, ?_⟩
        rintro ((⟨heq, _⟩ | ⟨hgt, _⟩) | ⟨heq, _⟩) <;> omega
      · obtain ⟨found, hfound, hor⟩ := isAssignableClass_iff hd hs ht
        refine ⟨found, ?_, hor.trans ?_⟩
        · simp only [admits, isAssignable, Nat.lt_irrefl, if_false, if_true]
          exact hfound
        · simp only [IsAShape, Nat.lt_irrefl, true_and, false_and, or_false]
      · refine ⟨isArraySuper b, ?_, fun hb => .inl (.inr ⟨hgt, hb⟩), ?_⟩
        · simp only [admits, isAssignable, if_neg (Nat.lt_asymm hgt), if_neg (Nat.ne_of_gt hgt)]
        · rintro ((⟨heq, _⟩ | ⟨_, hb⟩) | ⟨heq, _⟩)
          · omega
          · exact hb
          · omega

end Hierarchy

/-! ## Tests and casts -/

namespace Run

variable {m : Machine} {r : Ref} {o : HeapObject} {type : RefType} {found : Bool}

/-- What is raised is a new object of its class. -/
theorem raise_eq {α : Type} (owner : ClassName) (message : String) (m : Machine) :
    ∃ thrown m' fields, raise (α := α) owner message m = .error (.exception thrown) m' ∧
      m'.object? thrown = some (.instance owner fields) :=
  ⟨_, _, _, rfl, Machine.object?_alloc_self _ _⟩

theorem checkCast_of_instance (h : isInstance r type m = .ok true m) :
    checkCast (.ref r) type m = .ok () m := by
  simp only [checkCast, bind, EStateM.bind, h]
  rfl

theorem checkCast_of_not_instance (ho : m.object? r = some o)
    (h : isInstance r type m = .ok false m) :
    checkCast (.ref r) type m =
      raise .classCastException s!"{o.type.render} cannot be cast to {type.render}" m := by
  simp only [checkCast, bind, EStateM.bind, h, Bool.not_false, if_true, object_of_some ho]

end Run

namespace Step

variable {m m' : Machine} {a : Activation} {s : List Value} {v : Value} {type : RefType}

theorem execute_instanceOf (callees : Callees) {r : Ref} {found : Bool}
    (hstack : a.stack = .ref r :: s) (h : Run.isInstance r type m = .ok found m) :
    execute callees (.instanceOf type) a m =
      .ok (.next, { a with stack := .int (if found then 1 else 0) :: s }) m := by
  simp only [execute, andNext, pop, bind, StateT.bind, get, getThe, MonadStateOf.get, StateT.get,
    EStateM.bind, EStateM.pure, pure, StateT.pure, set, MonadStateOf.set, StateT.set, hstack, liftM,
    monadLift, MonadLift.monadLift, StateT.lift, push, modify, modifyGet, MonadStateOf.modifyGet,
    StateT.modifyGet, h]

theorem execute_checkCast (callees : Callees) (hstack : a.stack = v :: s)
    (h : Run.checkCast v type m = .ok () m) :
    execute callees (.checkCast type) a m = .ok (.next, a) m := by
  simp only [execute, andNext, pop, bind, StateT.bind, get, getThe, MonadStateOf.get, StateT.get,
    EStateM.bind, EStateM.pure, pure, StateT.pure, set, MonadStateOf.set, StateT.set, hstack, liftM,
    monadLift, MonadLift.monadLift, StateT.lift, push, modify, modifyGet, MonadStateOf.modifyGet,
    StateT.modifyGet, h]
  rw [← hstack]

theorem execute_checkCast_failed (callees : Callees) (hstack : a.stack = v :: s) {e : Abrupt}
    (h : Run.checkCast v type m = .error e m') :
    execute callees (.checkCast type) a m = .error e m' := by
  simp only [execute, andNext, pop, bind, StateT.bind, get, getThe, MonadStateOf.get, StateT.get,
    EStateM.bind, EStateM.pure, pure, StateT.pure, set, MonadStateOf.set, StateT.set, hstack, liftM,
    monadLift, MonadLift.monadLift, StateT.lift, h]

end Step

/-- **Tests and casts** of an object in a machine that knows all super types: the answer is yes for
what the object is and for what checking code lets go besides, and for nothing else. A test gives
that answer, and a cast raises an exception where it is no. -/
theorem Machine.instance_iff {m : Machine} (hd : m.hierarchy.Declared) {r : Ref} {o : HeapObject}
    (ho : m.object? r = some o) (hs : m.hierarchy.KnowsType o.type) {type : RefType}
    (ht : m.hierarchy.KnowsType type) (callees : Callees) {a : Activation} {s : List Value}
    (hstack : a.stack = .ref r :: s) :
    ∃ found, (found = true ↔ m.hierarchy.IsA o.type type ∨ m.hierarchy.Lenient o.type type) ∧
      Run.isInstance r type m = .ok found m ∧
      Step.execute callees (.instanceOf type) a m =
        .ok (.next, { a with stack := .int (if found then 1 else 0) :: s }) m ∧
      (found = true → Step.execute callees (.checkCast type) a m = .ok (.next, a) m) ∧
      (found = false → ∃ thrown m' fields,
        Step.execute callees (.checkCast type) a m = .error (.exception thrown) m' ∧
          m'.object? thrown = some (.instance .classCastException fields)) := by
  obtain ⟨found, hadmits, hor⟩ := Hierarchy.admits_iff hd hs ht
  have hinstance : Run.isInstance r type m = .ok found m := by
    rw [Run.isInstance_eq ho, hadmits]
    rfl
  refine ⟨found, hor, hinstance, Step.execute_instanceOf callees hstack hinstance, ?_, ?_⟩
  · rintro rfl
    exact Step.execute_checkCast callees hstack (Run.checkCast_of_instance hinstance)
  · rintro rfl
    obtain ⟨thrown, m', fields, hraise, hthrown⟩ := Run.raise_eq (α := Unit) .classCastException
      s!"{o.type.render} cannot be cast to {type.render}" m
    exact ⟨thrown, m', fields, Step.execute_checkCast_failed callees hstack
      ((Run.checkCast_of_not_instance ho hinstance).trans hraise), hthrown⟩

/-! ## An array of numbers -/

namespace Library

/-- The longest way up from a class, along so many steps at most. -/
def depth : (steps : Nat) → ClassName → Nat
  | 0, _ => 0
  | steps + 1, c =>
    match hierarchy.lookup c with
    | none => 0
    | some info => info.supers.foldl (fun n d => max n (depth steps d + 1)) 0

theorem listed : hierarchy.Listed (depth 6) := by
  constructor <;> decide +kernel

theorem isQualified_runnable : Name.isQualified "java/lang/Runnable".toList = true := by
  rw [String.toList_ofList]
  decide +kernel

/-- An interface that arrays do not implement. -/
def runnable : ClassName := ⟨"java/lang/Runnable", isQualified_runnable⟩

end Library

/-- A new machine, with an array of numbers on the heap. -/
def Machine.numbers : Machine :=
  { new with heap := #[.printStream, .array (.primitiveArray 0 .int) #[]] }

/-- Code that looks at the array. -/
def Activation.looking : Activation where
  method := "look()V"
  locals := #[]
  stack := [.ref ⟨1⟩]
  index := 0

open Library in
theorem Machine.instance_iff_numbers :
    numbers.hierarchy.Declared ∧ numbers.hierarchy.KnowsType (.object runnable) ∧
    ∃ found, (found = true ↔ numbers.hierarchy.IsA (.primitiveArray 0 .int) (.object runnable) ∨
        numbers.hierarchy.Lenient (.primitiveArray 0 .int) (.object runnable)) ∧
      Run.isInstance ⟨1⟩ (.object runnable) numbers = .ok found numbers := by
  have hknows : numbers.hierarchy.Knows runnable := Option.isSome_iff_exists.mp (by decide +kernel)
  have harray : numbers.object? ⟨1⟩ = some (.array (.primitiveArray 0 .int) #[]) := rfl
  have hknows' : numbers.hierarchy.KnowsType (.object runnable) := hknows
  obtain ⟨found, hor, hinstance, -⟩ := instance_iff (m := numbers) listed.declared harray trivial
    hknows' ⟨fun _ _ _ => pure none, fun _ => pure ()⟩ (a := .looking) rfl
  exact ⟨listed.declared, hknows, found, hor, hinstance⟩

open Library in
/-- **Arrays as anything.** An array of numbers implements nothing but what every array does, and
passes for an object that can be run. -/
theorem Machine.instance_numbers_runnable :
    numbers.hierarchy.Declared ∧ numbers.hierarchy.Knows runnable ∧
    numbers.object? ⟨1⟩ = some (.array (.primitiveArray 0 .int) #[]) ∧
    ¬ numbers.hierarchy.IsA (.primitiveArray 0 .int) (.object runnable) ∧
    Run.isInstance ⟨1⟩ (.object runnable) numbers = .ok true numbers ∧
    ∀ callees, Step.execute callees (.instanceOf (.object runnable)) .looking numbers =
        .ok (.next, { Activation.looking with stack := [.int 1] }) numbers ∧
      Step.execute callees (.checkCast (.object runnable)) .looking numbers =
        .ok (.next, .looking) numbers := by
  have hadmits : numbers.hierarchy.admits (.primitiveArray 0 .int) (.object runnable) =
      .ok true := by
    decide +kernel
  have hinstance : Run.isInstance ⟨1⟩ (.object runnable) numbers = .ok true numbers := by
    rw [Run.isInstance_eq (o := .array (.primitiveArray 0 .int) #[]) rfl]
    exact congrArg (fun answer => Run.liftKnown answer numbers) hadmits
  have hshape : ¬ numbers.hierarchy.IsAShape (.primitiveArray 0 .int) (.object runnable) :=
    (by decide +kernel : ¬ Hierarchy.isArraySuper runnable = true)
  exact ⟨listed.declared, Option.isSome_iff_exists.mp (by decide +kernel), rfl,
    fun hisA => hshape hisA.shape, hinstance, fun callees =>
      ⟨Step.execute_instanceOf callees (s := []) rfl hinstance,
        Step.execute_checkCast callees (s := []) rfl (Run.checkCast_of_instance hinstance)⟩⟩

end Resumption
