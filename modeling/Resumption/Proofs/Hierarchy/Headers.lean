import Resumption.Hierarchy.Header
import Resumption.Proofs.Descriptor.Exact
import Resumption.Proofs.Frame.Order
import Resumption.Proofs.Text.Utf8

/-!
# Class headers are read as they were written

A header is written with a text constant and a class constant for each class that it names, and the
numbers of these follow from the place of the class alone. The reader knows nothing of that: it
numbers what it finds and looks the classes up.

* **The pool** (`readPool_entries`): the constants are found under the numbers that they were
  written for, as long as these are words.
* **Names** (`Holds.named`): from the number of its class constant a class is looked up in two
  steps.
* **Headers** (`parse_serialize`): what was written can be read, and is the same header.
-/

namespace Resumption

/-- Items that can all be written. -/
theorem Bytes.ofItems_of_ok {α ε : Type} {item : α → Except ε (List UInt8)} {f : α → List UInt8}
    {xs : List α} (h : ∀ x ∈ xs, item x = .ok (f x)) : ofItems item xs = .ok (xs.flatMap f) := by
  have hparts : xs.mapM item = .ok (xs.map f) :=
    mapM_ok_iff.mpr (List.forall₂_map_right_iff.mpr (List.forall₂_same.mpr h))
  rw [ofItems, hparts]
  rfl

/-- Items that are read one after the other. -/
theorem Bytes.items_flatMap {α β : Type} {item : Reader β} {f : α → List UInt8} {g : α → β}
    {xs : List α} (h : ∀ x ∈ xs, ∀ rest, item (f x ++ rest) = .ok (g x, rest))
    (rest : List UInt8) :
    items xs.length item (xs.flatMap f ++ rest) = .ok (xs.map g, rest) := by
  induction xs with
  | nil => rfl
  | cons x xs ih =>
    obtain ⟨hx, hxs⟩ := List.forall_mem_cons.mp h
    rw [List.length_cons, items_succ, List.flatMap_cons, List.append_assoc,
      StateT.bind_of_ok (hx _), StateT.bind_of_ok (ih hxs)]
    rfl

namespace ClassHeader

variable {pool : Pool} {c : ClassName} {classes todo : List ClassName} {bytes : List UInt8}

/-- Does the header say what a class file can say? Its numbers are words and its flags have a
meaning, there are numbers for the constants of its classes, and a word for the length of each
name. -/
structure Fits (h : ClassHeader) : Prop where
  /-- it fits into two bytes -/
  minor : h.minor < 0x10000
  /-- it fits into two bytes -/
  major : h.major < 0x10000
  /-- all flags are known -/
  flags : classFlags.known h.flags = h.flags
  /-- there are numbers enough for two constants each -/
  classes : h.classes.length ≤ 32767
  /-- the length of every name fits into two bytes -/
  names : ∀ c ∈ h.classes, (Text.Utf8.encode c.text).length < 0x10000

/-! ## Numbers of constants -/

/-- The number of the text constant of the `i`-th class. -/
def textIndex (i : Nat) : UInt16 := 1 + 2 * UInt16.ofNat i

theorem toNat_textIndex (i : Nat) : (textIndex i).toNat = (1 + 2 * i) % 0x10000 := by
  simp only [textIndex, UInt16.toNat_add, UInt16.toNat_mul, UInt16.toNat_ofNat', UInt16.reduceToNat]
  omega

theorem textIndex_zero : textIndex 0 = 1 := rfl

theorem toNat_classIndex (i : Nat) : (classIndex i).toNat = (2 + 2 * i) % 0x10000 := by
  simp only [classIndex, UInt16.toNat_add, UInt16.toNat_mul, UInt16.toNat_ofNat',
    UInt16.reduceToNat]
  omega

/-- A class constant comes behind its text. -/
theorem textIndex_add_one (i : Nat) : textIndex i + 1 = classIndex i := by
  rw [← UInt16.toNat_inj, UInt16.toNat_add, toNat_classIndex, toNat_textIndex]
  simp only [UInt16.reduceToNat]
  omega

/-- The text of the next class comes behind that. -/
theorem classIndex_add_one (i : Nat) : classIndex i + 1 = textIndex (i + 1) := by
  rw [← UInt16.toNat_inj, UInt16.toNat_add, toNat_classIndex, toNat_textIndex]
  simp only [UInt16.reduceToNat]
  omega

/-- No number of a class is the one that stands for none. -/
theorem classIndex_ne_zero {i : Nat} (h : i < 32767) : classIndex i ≠ 0 := by
  intro hzero
  have hnat := congrArg UInt16.toNat hzero
  rw [toNat_classIndex, UInt16.toNat_zero] at hnat
  omega

/-! ## The pool -/

/-- Are the constants of these classes in the pool, each under its number? -/
def Holds (pool : Pool) (classes : List ClassName) : Prop :=
  ∀ i c, classes[i]? = some c → pool.lookup (textIndex i) = some (.text c.text) ∧
    pool.lookup (classIndex i) = some (.class (textIndex i))

/-- A constant does not hide those under other numbers. -/
theorem lookup_other {k n : UInt16} (h : k.toNat ≠ n.toNat) (constant : Constant) :
    List.lookup k ((n, constant) :: pool) = pool.lookup k := by
  have hne : (k == n) = false := beq_false_of_ne fun heq => h (congrArg UInt16.toNat heq)
  rw [List.lookup_cons, hne]

theorem Holds.push (h : Holds pool classes) (hroom : classes.length < 32767) (c : ClassName) :
    Holds ((classIndex classes.length, .class (textIndex classes.length)) ::
      (textIndex classes.length, .text c.text) :: pool) (classes ++ [c]) := by
  intro i d hd
  have hi : i < (classes ++ [c]).length := (List.getElem?_eq_some_iff.mp hd).1
  rw [List.length_append, List.length_singleton] at hi
  have htext := toNat_textIndex i
  have hclass := toNat_classIndex i
  have htext' := toNat_textIndex classes.length
  have hclass' := toNat_classIndex classes.length
  rcases Nat.lt_succ_iff_lt_or_eq.mp hi with hlt | rfl
  · rw [List.getElem?_append_left hlt] at hd
    rw [lookup_other (by omega), lookup_other (by omega), lookup_other (by omega),
      lookup_other (by omega)]
    exact h i d hd
  · rw [List.getElem?_concat_length] at hd
    cases hd
    rw [lookup_other (by omega), List.lookup_cons_self, List.lookup_cons_self]
    exact ⟨rfl, rfl⟩

/-- **Names.** A class is found under the number of its constant. -/
theorem Holds.named (h : Holds pool classes) {i : Nat} (hc : classes[i]? = some c) :
    className pool (classIndex i) = .ok c := by
  obtain ⟨htext, hclass⟩ := h i c hc
  simp only [ClassHeader.className, hclass, htext, ClassName.ofString_text]

/-! ## Parts of a header -/

theorem lift_of_ok {α : Type} {reader : Bytes.Reader α} {rest : List UInt8} {a : α}
    (h : reader bytes = .ok (a, rest)) : lift reader bytes = .ok (a, rest) := by
  simp only [lift, h]

theorem word_ofNat (n : UInt16) (rest : List UInt8) :
    word (Bytes.ofNat 2 n.toNat ++ rest) = .ok (n, rest) := by
  have hfits : n.toNat < 256 ^ 2 := n.toNat_lt
  rw [word, StateT.bind_of_ok (lift_of_ok (Bytes.nat_ofNat hfits rest)), UInt16.ofNat_toNat]
  rfl

/-- The bytes of the constants of a class. -/
def entryBytes (name : ClassName) (i : Nat) : List UInt8 :=
  1 :: (Bytes.ofNat 2 (Text.Utf8.encode name.text).length ++ (Text.Utf8.encode name.text ++
    (7 :: Bytes.ofNat 2 (textIndex i).toNat)))

theorem poolEntry_eq (hname : (Text.Utf8.encode c.text).length < 0x10000) (i : Nat) :
    poolEntry c i = .ok (entryBytes c i) := by
  rw [poolEntry, Bytes.ofString, if_pos hname, entryBytes]
  simp only [bind, Except.bind, pure, Except.pure, List.append_assoc, List.cons_append, textIndex]

theorem readConstant_text (hname : (Text.Utf8.encode c.text).length < 0x10000) (index : UInt16)
    (rest : List UInt8) :
    readConstant index (1 :: (Bytes.ofNat 2 (Text.Utf8.encode c.text).length ++
      (Text.Utf8.encode c.text ++ rest))) = .ok ((.text c.text, 1), rest) := by
  rw [readConstant, StateT.bind_of_ok (lift_of_ok (Bytes.nat_byte 1 _))]
  simp only [UInt8.reduceToNat, if_true]
  rw [StateT.bind_of_ok (lift_of_ok (Bytes.nat_ofNat hname _)),
    StateT.bind_of_ok (lift_of_ok (Bytes.take_append rfl rest)), Text.Utf8.decodeLossy_encode]
  rfl

theorem readConstant_class (text index : UInt16) (rest : List UInt8) :
    readConstant index (7 :: (Bytes.ofNat 2 text.toNat ++ rest)) =
      .ok ((.class text, 1), rest) := by
  rw [readConstant, StateT.bind_of_ok (lift_of_ok (Bytes.nat_byte 7 _))]
  simp only [UInt8.reduceToNat, Nat.reduceEqDiff, if_false, if_true]
  rw [StateT.bind_of_ok (word_ofNat text rest)]
  rfl

/-- The bytes of the constants of classes, the first of which has this place. -/
def entries (first : Nat) (classes : List ClassName) : List UInt8 :=
  (classes.zipIdx first).flatMap fun x => entryBytes x.1 x.2

theorem entries_cons (first : Nat) (c : ClassName) (classes : List ClassName) :
    entries first (c :: classes) = entryBytes c first ++ entries (first + 1) classes := by
  rw [entries, List.zipIdx_cons, List.flatMap_cons, entries]

/-- Each constant takes a byte at least. -/
theorem length_entries (first : Nat) (classes : List ClassName) :
    2 * classes.length ≤ (entries first classes).length := by
  induction classes generalizing first with
  | nil => exact Nat.zero_le _
  | cons c classes ih =>
    have htail := ih (first + 1)
    rw [entries_cons, List.length_append, entryBytes, List.length_cons, List.length_cons]
    simp only [List.length_append, List.length_cons]
    omega

theorem readPool_done (count : UInt16) (fuel : Nat) (pool : Pool) (bytes : List UInt8) :
    readPool count fuel count pool bytes = .ok (pool, bytes) := by
  cases fuel with
  | zero => rfl
  | succ fuel =>
    rw [readPool, if_neg (UInt16.lt_irrefl count)]
    rfl

theorem readPool_next {count index slots : UInt16} {constant : Constant} {rest : List UInt8}
    (hlt : index < count) (h : readConstant index bytes = .ok ((constant, slots), rest))
    (fuel : Nat) (pool : Pool) : readPool count (fuel + 1) index pool bytes =
      readPool count fuel (index + slots) ((index, constant) :: pool) rest := by
  rw [readPool, if_pos hlt, StateT.bind_of_ok h]

/-- **The pool** is read as it was written, behind the constants of other classes. -/
theorem readPool_entries (hnames : ∀ c ∈ todo, (Text.Utf8.encode c.text).length < 0x10000)
    (hroom : classes.length + todo.length ≤ 32767) (h : Holds pool classes) {fuel : Nat}
    (hfuel : 2 * todo.length ≤ fuel) (rest : List UInt8) :
    ∃ pool', readPool (textIndex (classes.length + todo.length)) fuel (textIndex classes.length)
        pool (entries classes.length todo ++ rest) = .ok (pool', rest) ∧
      Holds pool' (classes ++ todo) := by
  induction todo generalizing classes pool fuel with
  | nil => exact ⟨pool, readPool_done _ _ _ _, by rwa [List.append_nil]⟩
  | cons c todo ih =>
    obtain ⟨hname, hnames⟩ := List.forall_mem_cons.mp hnames
    rw [List.length_cons] at hroom hfuel ⊢
    obtain ⟨fuel, rfl⟩ := Nat.exists_eq_add_of_le' (show 2 ≤ fuel by omega)
    have hlength : (classes ++ [c]).length = classes.length + 1 := List.length_append
    have hpushed := h.push (by omega) c
    obtain ⟨pool', hread, hholds⟩ := ih hnames (by omega) hpushed
      (show 2 * todo.length ≤ fuel by omega)
    rw [List.append_assoc] at hholds
    refine ⟨pool', ?_, hholds⟩
    have htext := toNat_textIndex classes.length
    have hclass := toNat_classIndex classes.length
    have hcount := toNat_textIndex (classes.length + (todo.length + 1))
    rw [entries_cons, entryBytes]
    simp only [List.cons_append, List.append_assoc]
    -- the text, then the class that refers to it
    rw [readPool_next (UInt16.lt_iff_toNat_lt.mpr (by omega)) (readConstant_text hname _ _),
      textIndex_add_one,
      readPool_next (UInt16.lt_iff_toNat_lt.mpr (by omega)) (readConstant_class _ _ _),
      classIndex_add_one, Nat.add_comm todo.length, ← Nat.add_assoc, ← hlength]
    exact hread

/-! ## Headers -/

/-- The number of the class constant of the superclass, or that of none. -/
def superIndex (h : ClassHeader) : UInt16 := if h.superclass.isSome then classIndex 1 else 0

/-- The numbers of the class constants of the interfaces. -/
def interfaceIndexes (h : ClassHeader) : List UInt16 :=
  (List.range h.interfaces.length).map fun i =>
    classIndex ((if h.superclass.isSome then 2 else 1) + i)

/-- The bytes behind the pool: flags, the class, its superclass and interfaces, and no members. -/
def restBytes (h : ClassHeader) : List UInt8 :=
  Bytes.ofNat 2 h.flags ++ (Bytes.ofNat 2 (classIndex 0).toNat ++
    (Bytes.ofNat 2 h.superIndex.toNat ++ (Bytes.ofNat 2 h.interfaceIndexes.length ++
      (h.interfaceIndexes.flatMap (fun index => Bytes.ofNat 2 index.toNat) ++
        List.replicate 6 0))))

/-- The bytes of the class file of a header. -/
def fileBytes (h : ClassHeader) : List UInt8 :=
  Bytes.ofNat 4 magic ++ (Bytes.ofNat 2 h.minor ++ (Bytes.ofNat 2 h.major ++
    (Bytes.ofNat 2 (textIndex h.classes.length).toNat ++ (entries 0 h.classes ++ h.restBytes))))

/-- A header is written if there are words for the lengths in it, of names and of the interfaces. -/
theorem serialize_eq {h : ClassHeader}
    (hnames : ∀ c ∈ h.classes, (Text.Utf8.encode c.text).length < 0x10000)
    (hinterfaces : h.interfaces.length < 0x10000) : h.serialize = .ok h.fileBytes := by
  have hpool : Bytes.ofItems (fun x => poolEntry x.1 x.2) h.classes.zipIdx =
      .ok (entries 0 h.classes) :=
    Bytes.ofItems_of_ok fun x hx => poolEntry_eq (hnames x.1 (List.fst_mem_of_mem_zipIdx hx)) x.2
  have hlength : h.interfaceIndexes.length < 0x10000 := by
    rwa [interfaceIndexes, List.length_map, List.length_range]
  have hlist : Bytes.ofList (fun index : UInt16 => .ok (Bytes.ofNat 2 index.toNat))
      h.interfaceIndexes = .ok (Bytes.ofNat 2 h.interfaceIndexes.length ++
        h.interfaceIndexes.flatMap fun index => Bytes.ofNat 2 index.toNat) := by
    rw [Bytes.ofList, if_pos hlength, Bytes.ofItems_of_ok fun _ _ => rfl]
    rfl
  rw [interfaceIndexes] at hlist
  simp only [serialize, bind, Except.bind, hpool, hlist, pure, Except.pure, fileBytes, restBytes,
    List.append_assoc, superIndex, interfaceIndexes, textIndex]

theorem lift_className {index : UInt16} (h : className pool index = .ok c) (rest : List UInt8) :
    (liftM (className pool index) : HeaderReader ClassName) rest = .ok (c, rest) := by
  rw [h]
  rfl

theorem mapM_className {indexes : List Nat} {names : List ClassName}
    (h : List.Forall₂ (fun index c => className pool (UInt16.ofNat index) = .ok c) indexes names)
    (rest : List UInt8) :
    (indexes.mapM fun index => liftM (className pool (UInt16.ofNat index)) :
      HeaderReader (List ClassName)) rest = .ok (names, rest) := by
  induction h with
  | nil => rfl
  | cons hname _ ih =>
    rw [List.mapM_cons, StateT.bind_of_ok (lift_className hname rest), StateT.bind_of_ok ih]
    rfl

theorem list_words {words : List UInt16} (h : words.length < 0x10000) (rest : List UInt8) :
    Bytes.list (Bytes.nat 2) (Bytes.ofNat 2 words.length ++
      (words.flatMap (fun word => Bytes.ofNat 2 word.toNat) ++ rest)) =
        .ok (words.map UInt16.toNat, rest) := by
  rw [Bytes.list, StateT.bind_of_ok (Bytes.nat_ofNat h _)]
  exact Bytes.items_flatMap (fun word _ rest => Bytes.nat_ofNat word.toNat_lt rest) rest

/-- The superclass comes behind the class itself. -/
theorem classes_superclass {h : ClassHeader} (hsuper : h.superclass = some c) :
    h.classes[1]? = some c := by
  rw [ClassHeader.classes, hsuper]
  rfl

/-- The interfaces come last. -/
theorem classes_interface (h : ClassHeader) (i : Nat) :
    h.classes[(if h.superclass.isSome then 2 else 1) + i]? = h.interfaces[i]? := by
  rw [ClassHeader.classes]
  cases h.superclass with
  | none => rw [if_neg (by simp), Nat.add_comm]; rfl
  | some c => rw [if_pos (by simp), Nat.add_comm]; rfl

/-- Each interface is found in the pool under its number. -/
theorem Holds.interfaces {h : ClassHeader} (hholds : Holds pool h.classes) :
    List.Forall₂ (fun index c => className pool (UInt16.ofNat index) = .ok c)
      (h.interfaceIndexes.map UInt16.toNat) h.interfaces := by
  rw [List.forall₂_map_left_iff, interfaceIndexes, List.forall₂_map_left_iff,
    List.forall₂_iff_get]
  refine ⟨List.length_range, fun i hrange hi => ?_⟩
  have hat := (h.classes_interface i).trans (List.getElem?_eq_getElem hi)
  rw [List.get_eq_getElem, List.getElem_range, UInt16.ofNat_toNat]
  exact hholds.named hat

/-- The flags of a class are a word. -/
theorem flags_lt (bits : Nat) : classFlags.known bits < 0x10000 :=
  (Nat.and_le_right (n := bits) (m := 0xF631)).trans_lt (by decide)

theorem read_fileBytes {h : ClassHeader} (hfits : h.Fits) (rest : List UInt8) :
    read (h.fileBytes ++ rest) = .ok (h, List.replicate 6 0 ++ rest) := by
  have hroom := hfits.classes
  have hinterfaces : h.interfaceIndexes.length < 0x10000 := by
    rw [ClassHeader.classes, List.length_append, List.length_cons] at hroom
    rw [interfaceIndexes, List.length_map, List.length_range]
    omega
  have hflags : h.flags < 256 ^ 2 := hfits.flags ▸ flags_lt h.flags
  have hmagic : magic < 256 ^ 4 := by decide
  -- the pool holds the classes, each under the number that is used for it
  have hfuel := length_entries 0 h.classes
  have hempty : Holds [] [] := fun _ _ hc => nomatch hc
  have hfuel : 2 * h.classes.length ≤ (entries 0 h.classes ++ (h.restBytes ++ rest)).length + 1 := by
    rw [List.length_append]
    omega
  obtain ⟨pool, hpool, hholds⟩ := readPool_entries hfits.names
    (by rwa [List.length_nil, Nat.zero_add]) hempty hfuel (h.restBytes ++ rest)
  rw [List.length_nil, Nat.zero_add, textIndex_zero] at hpool
  rw [read, fileBytes]
  simp only [List.append_assoc]
  rw [StateT.bind_of_ok (lift_of_ok (Bytes.nat_ofNat hmagic _))]
  simp only [ne_eq, not_true_eq_false, if_false]
  rw [StateT.bind_of_ok (lift_of_ok (Bytes.nat_ofNat hfits.minor _)),
    StateT.bind_of_ok (lift_of_ok (Bytes.nat_ofNat hfits.major _)),
    StateT.bind_of_ok (word_ofNat _ _), StateT.bind_of_ok rfl, StateT.bind_of_ok hpool, restBytes]
  simp only [List.append_assoc]
  rw [StateT.bind_of_ok (lift_of_ok (Bytes.nat_ofNat hflags _)),
    StateT.bind_of_ok (word_ofNat _ _), StateT.bind_of_ok (word_ofNat _ _),
    StateT.bind_of_ok (lift_of_ok (list_words hinterfaces _)),
    StateT.bind_of_ok (lift_className (hholds.named (i := 0) rfl) _), hfits.flags]
  cases hsuper : h.superclass with
  | none =>
    have hindex : h.superIndex = 0 := by rw [superIndex, hsuper]; rfl
    rw [if_pos hindex, pure_bind, StateT.bind_of_ok (mapM_className hholds.interfaces _), ← hsuper]
    rfl
  | some c =>
    have hindex : h.superIndex = classIndex 1 := by rw [superIndex, hsuper]; rfl
    have hname : (some <$> liftM (className pool (classIndex 1)) :
        HeaderReader (Option ClassName)) (List.replicate 6 0 ++ rest) =
          .ok (some c, List.replicate 6 0 ++ rest) := by
      rw [hholds.named (classes_superclass hsuper)]
      rfl
    rw [hindex, if_neg (classIndex_ne_zero (by decide)), StateT.bind_of_ok hname,
      StateT.bind_of_ok (mapM_className hholds.interfaces _), ← hsuper]
    rfl

/-- **Headers.** What was written for a header can be read, whatever comes behind it, and it is that
header. -/
theorem parse_serialize {h : ClassHeader} (hfits : h.Fits) :
    ∃ bytes, h.serialize = .ok bytes ∧ ∀ rest, parse (bytes ++ rest) = .ok h := by
  have hinterfaces : h.interfaces.length < 0x10000 := by
    have hroom := hfits.classes
    rw [ClassHeader.classes, List.length_append, List.length_cons] at hroom
    omega
  refine ⟨h.fileBytes, serialize_eq hfits.names hinterfaces, fun rest => ?_⟩
  rw [parse, read_fileBytes hfits rest]

/-- Names with more than one byte to a character, one of them twice. -/
def accented : ClassHeader where
  minor := 0
  major := 55
  flags := 0x0601
  name := { text := "me/Café" }
  superclass := some .object
  interfaces := [{ text := "me/Größe" }, { text := "me/日本" }, { text := "me/Größe" }]

theorem parse_serialize_accented : accented.Fits ∧
    ∃ bytes, accented.serialize = .ok bytes ∧ ∀ rest, parse (bytes ++ rest) = .ok accented := by
  have hfits : accented.Fits :=
    { minor := by decide
      major := by decide
      flags := by decide
      classes := by decide
      names := by decide +kernel }
  exact ⟨hfits, parse_serialize hfits⟩

end ClassHeader

end Resumption
