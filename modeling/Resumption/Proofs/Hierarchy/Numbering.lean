import Resumption.Proofs.Hierarchy.Headers
import Resumption.Proofs.Loops.Rounds

/-!
# When numbers of constants are no words

The reader numbers constants with a word that grows by the slots of each constant, and the writer
computes the numbers of its constants in words. Nothing checks that these fit, and where they do not
they wrap.

* **Reading** (`readPool_ends`) goes on until the running number is the count of the pool. Only when
  the count is the greatest word, and a constant of two slots has the greatest number below it
  (`Full`), does the number go past the count: it wraps and the reader goes on from zero.
  In all other pools every sum is a word and each number is read once (`Reached.ascends`).
* **Writing** (`serialize_ok_iff`) fails only on texts and interfaces without a word for their
  length. The numbers that it writes are those of the constants up to 32767 classes and no further
  (`numbers_exact_iff`).
-/

namespace Resumption

namespace Bytes

variable {bytes front rest : List UInt8} {width n : Nat}

theorem take_inv (h : take n bytes = .ok (front, rest)) :
    front.length = n ∧ bytes = front ++ rest := by
  simp only [take] at h
  split at h
  · rename_i hlength
    cases h
    exact ⟨hlength, by rw [List.splitAt_eq, List.take_append_drop]⟩
  · cases h

theorem nat_inv (h : nat width bytes = .ok (n, rest)) : bytes.length = width + rest.length := by
  obtain ⟨front, t, htake, hrest⟩ := StateT.bind_ok.mp h
  cases hrest
  obtain ⟨hlength, rfl⟩ := take_inv htake
  rw [List.length_append, hlength]

theorem ofItems_inv {α ε : Type} {item : α → Except ε (List UInt8)} {xs : List α} {x : α}
    (h : ofItems item xs = .ok bytes) (hx : x ∈ xs) : ∃ part, item x = .ok part := by
  obtain ⟨parts, hparts, _⟩ := Except.bind_ok.mp h
  obtain ⟨i, hi, rfl⟩ := List.mem_iff_getElem.mp hx
  obtain ⟨hlength, hall⟩ := List.forall₂_iff_get.mp (mapM_ok_iff.mp hparts)
  exact ⟨_, hall i hi (hlength ▸ hi)⟩

theorem ofList_inv {α : Type} {item : α → Except FormatError (List UInt8)} {xs : List α}
    (h : ofList item xs = .ok bytes) : xs.length < 0x10000 := by
  rw [ofList] at h
  split at h
  · assumption
  · cases h

theorem ofString_inv {s : String} (h : ofString s = .ok bytes) :
    (Text.Utf8.encode s).length < 0x10000 := by
  simp only [ofString] at h
  split at h
  · assumption
  · cases h

end Bytes

/-- The loop ends as it does from any state that it comes to. -/
theorem Round.Ends.of_reached {σ ε ρ : Type} {round : Round σ ε ρ} {s s' : σ} {n : Nat}
    {r : Except ε ρ}
    (hreached : Relation.ReflTransGen (fun s s' => round s = .ok (.inr s')) s s')
    (hends : round.Ends s' n r) : ∃ m, round.Ends s m r := by
  induction hreached using Relation.ReflTransGen.head_induction_on with
  | refl => exact ⟨n, hends⟩
  | head hnext _ ih =>
    obtain ⟨m, hm⟩ := ih
    exact ⟨m + 1, .next hnext hm⟩

namespace ClassHeader

/-! ## The running number -/

variable {count index slots : UInt16} {constant : Constant} {bytes rest : List UInt8}

theorem lift_ok_iff {α : Type} {reader : Bytes.Reader α} {a : α} :
    lift reader bytes = .ok (a, rest) ↔ reader bytes = .ok (a, rest) := by
  rw [lift]
  cases reader bytes with
  | error e => simp only [reduceCtorEq]
  | ok result => simp only [Except.ok.injEq]

/-- A constant takes one slot or two, and a byte at least. -/
theorem readConstant_inv (h : readConstant index bytes = .ok ((constant, slots), rest)) :
    (slots = 1 ∨ slots = 2) ∧ rest.length < bytes.length := by
  obtain ⟨tag, behind, htag, h⟩ := StateT.bind_ok.mp h
  have hbehind := Bytes.nat_inv (lift_ok_iff.mp htag)
  split at h
  · -- a text
    obtain ⟨length, behind', hlength, h⟩ := StateT.bind_ok.mp h
    obtain ⟨text, behind'', htext, h⟩ := StateT.bind_ok.mp h
    cases h
    have hbehind' := Bytes.nat_inv (lift_ok_iff.mp hlength)
    have hbehind'' := congrArg List.length (Bytes.take_inv (lift_ok_iff.mp htext)).2
    rw [List.length_append] at hbehind''
    exact ⟨.inl rfl, by omega⟩
  split at h
  · -- a class
    obtain ⟨text, behind', htext, h⟩ := StateT.bind_ok.mp h
    cases h
    obtain ⟨n, behind'', hn, h⟩ := StateT.bind_ok.mp htext
    cases h
    have hbehind' := Bytes.nat_inv (lift_ok_iff.mp hn)
    exact ⟨.inl rfl, by omega⟩
  · -- a constant that is passed over
    cases hskipped : skipped? tag with
    | none =>
      rw [hskipped] at h
      cases h
    | some n =>
      rw [hskipped] at h
      obtain ⟨front, behind', hfront, h⟩ := StateT.bind_ok.mp h
      have hbehind' := congrArg List.length (Bytes.take_inv (lift_ok_iff.mp hfront)).2
      rw [List.length_append] at hbehind'
      cases h
      refine ⟨?_, by omega⟩
      split
      · exact .inr rfl
      · exact .inl rfl

/-- What the reader of a pool has come to. -/
structure PoolState where
  /-- the number of the next constant -/
  index : UInt16
  /-- the constants so far -/
  pool : Pool
  /-- what is left to be read -/
  bytes : List UInt8

/-- In a round of the reader a constant is read and filed under the running number. -/
def poolRound (count : UInt16) : Round PoolState HeaderError (Pool × List UInt8) := fun s =>
  if s.index < count then do
    let ((constant, slots), rest) ← readConstant s.index s.bytes
    return .inr ⟨s.index + slots, (s.index, constant) :: s.pool, rest⟩
  else return .inl (s.pool, s.bytes)

/-- Does the reader get there from the first number and these bytes? -/
def Reached (count : UInt16) (bytes : List UInt8) : PoolState → Prop :=
  Relation.ReflTransGen (fun s s' => poolRound count s = .ok (.inr s')) ⟨1, [], bytes⟩

variable {s s' : PoolState}

theorem poolRound_next : poolRound count s = .ok (.inr s') ↔ s.index < count ∧
    ∃ constant slots rest, readConstant s.index s.bytes = .ok ((constant, slots), rest) ∧
      s' = ⟨s.index + slots, (s.index, constant) :: s.pool, rest⟩ := by
  rw [poolRound]
  split
  · rename_i hlt
    cases hread : readConstant s.index s.bytes with
    | error e => exact ⟨nofun, fun ⟨_, _, _, _, h, _⟩ => nomatch h⟩
    | ok result =>
      refine ⟨fun h => ?_, fun ⟨_, constant, slots, rest, h, hnext⟩ => ?_⟩
      · cases h
        exact ⟨hlt, _, _, _, rfl, rfl⟩
      · cases h
        rw [hnext]
        rfl
  · rename_i hnot
    exact ⟨nofun, fun ⟨hlt, _⟩ => absurd hlt hnot⟩

/-- What the reader gives from a state on. -/
def readFrom (count : UInt16) (fuel : Nat) (s : PoolState) :
    Except HeaderError (Pool × List UInt8) :=
  readPool count fuel s.index s.pool s.bytes

theorem readFrom_succ (fuel : Nat) (s : PoolState) : readFrom count (fuel + 1) s =
    poolRound count s >>= Sum.elim .ok (readFrom count fuel) := by
  rw [readFrom, readPool, poolRound]
  split
  · simp only [bind, StateT.bind, Except.bind, pure, Except.pure]
    cases readConstant s.index s.bytes with
    | error e => rfl
    | ok result => rfl
  · rfl

/-- **Ends.** Each round takes a byte, so the reader ends, and it has fuel enough. -/
theorem readPool_ends (count : UInt16) (bytes : List UInt8) :
    ∃ n, n ≤ bytes.length + 1 ∧
      (poolRound count).Ends ⟨1, [], bytes⟩ n (readPool count (bytes.length + 1) 1 [] bytes) := by
  have hless : ∀ s s', True → poolRound count s = .ok (.inr s') →
      True ∧ s'.bytes.length < s.bytes.length := fun s s' _ hnext => by
    obtain ⟨_, constant, slots, rest, hread, rfl⟩ := poolRound_next.mp hnext
    exact ⟨trivial, (readConstant_inv hread).2⟩
  obtain ⟨n, r, hn, hends⟩ := Round.exists_ends (poolRound count) (fun s => s.bytes.length) hless
    (s := ⟨1, [], bytes⟩) trivial
  have hfuel : readFrom count (bytes.length + 1) ⟨1, [], bytes⟩ = r :=
    hends.fueled readFrom_succ hn
  rw [readFrom] at hfuel
  exact ⟨n, hn, hfuel ▸ hends⟩

/-- Is the pool as large as a pool can be, with a constant of two slots under its last number? -/
def Full (count : UInt16) (bytes : List UInt8) : Prop :=
  count = 0xFFFF ∧ ∃ s constant rest, Reached count bytes s ∧ s.index = 0xFFFE ∧
    readConstant s.index s.bytes = .ok ((constant, 2), rest)

/-- Is every number that was read below the running one, and above those read before it? And is the
next running number the sum of this one and the slots of the constant at hand? -/
structure PoolState.Ascends (count : UInt16) (s : PoolState) : Prop where
  /-- numbers begin with 1 -/
  positive : 0 < s.index
  /-- constants have smaller numbers -/
  below : ∀ entry ∈ s.pool, entry.1 < s.index
  /-- a later constant has a larger number -/
  ordered : s.pool.Pairwise fun entry earlier => earlier.1 < entry.1
  /-- there is room for the next constant -/
  sum : s.index < count → ∀ constant slots rest,
    readConstant s.index s.bytes = .ok ((constant, slots), rest) →
      (s.index + slots).toNat = s.index.toNat + slots.toNat

/-- The sum is no word only under the last number of the largest pool. -/
theorem overflows_iff (hindex : index < count) (hslots : slots = 1 ∨ slots = 2) :
    0x10000 ≤ index.toNat + slots.toNat ↔ count = 0xFFFF ∧ index = 0xFFFE ∧ slots = 2 := by
  have hcount := count.toNat_lt
  rw [UInt16.lt_iff_toNat_lt] at hindex
  simp only [← UInt16.toNat_inj, UInt16.reduceToNat]
  rcases hslots with rfl | rfl
  · simp only [UInt16.reduceToNat]
    omega
  · simp only [UInt16.reduceToNat, and_true]
    omega

theorem toNat_add_slots (hindex : index < count) (hslots : slots = 1 ∨ slots = 2)
    (hfree : ¬ (count = 0xFFFF ∧ index = 0xFFFE ∧ slots = 2)) :
    (index + slots).toNat = index.toNat + slots.toNat := by
  rw [← overflows_iff hindex hslots, Nat.not_le] at hfree
  rw [UInt16.toNat_add, Nat.mod_eq_of_lt hfree]

theorem toNat_add_one (hindex : index < count) : (index + 1).toNat = index.toNat + 1 :=
  toNat_add_slots hindex (.inl rfl) fun ⟨_, _, htwo⟩ => absurd htwo (by decide)

/-- **Numbers ascend**, one slot or two at a time, unless the pool is full. -/
theorem Reached.ascends (hfull : ¬ Full count bytes) (hs : Reached count bytes s) :
    s.Ascends count := by
  have hsum : ∀ s, Reached count bytes s → s.index < count → ∀ constant slots rest,
      readConstant s.index s.bytes = .ok ((constant, slots), rest) →
        (s.index + slots).toNat = s.index.toNat + slots.toNat :=
    fun s hs hlt constant slots rest hread =>
      toNat_add_slots hlt (readConstant_inv hread).1 fun ⟨hcount, hindex, htwo⟩ =>
        hfull ⟨hcount, s, constant, rest, hs, hindex, htwo ▸ hread⟩
  -- indices grow from round to round, as long as the sum does not wrap around
  induction hs with
  | refl => exact ⟨(by decide : (0 : UInt16) < 1), nofun, .nil, hsum _ .refl⟩
  | @tail s s' hs hnext ih =>
    have hsum' := hsum s' (hs.tail hnext)
    obtain ⟨hlt, constant, slots, rest, hread, rfl⟩ := poolRound_next.mp hnext
    have hgrows : s.index < s.index + slots := by
      rw [UInt16.lt_iff_toNat_lt, ih.sum hlt constant slots rest hread]
      rcases (readConstant_inv hread).1 with rfl | rfl
      · exact Nat.lt_add_of_pos_right (by decide)
      · exact Nat.lt_add_of_pos_right (by decide)
    refine ⟨UInt16.lt_trans ih.positive hgrows, fun entry hentry => ?_, .cons ih.below ih.ordered,
      hsum'⟩
    rcases List.mem_cons.mp hentry with rfl | hearlier
    · exact hgrows
    · exact UInt16.lt_trans (ih.below entry hearlier) hgrows

/-- From a full pool the reader goes on under the number zero. -/
theorem Full.wraps (hfull : Full count bytes) :
    ∃ s, Reached count bytes s ∧ s.index = 0 ∧ s.index < count := by
  obtain ⟨rfl, s, constant, rest, hs, hindex, hread⟩ := hfull
  have hlt : s.index < 0xFFFF := hindex ▸ by decide
  have hzero : s.index + 2 = 0 := hindex ▸ rfl
  exact ⟨⟨s.index + 2, (s.index, constant) :: s.pool, rest⟩,
    hs.tail (poolRound_next.mpr ⟨hlt, constant, 2, rest, hread, rfl⟩), hzero,
    hzero ▸ (by decide : (0 : UInt16) < 0xFFFF)⟩

/-! ## Written numbers -/

/-- Are the numbers of the constants of so many classes, and the count of the pool, the numbers that
they are computed in words for? -/
def Exact (classes : Nat) : Prop :=
  (textIndex classes).toNat = 1 + 2 * classes ∧
    ∀ i < classes, (textIndex i).toNat = 1 + 2 * i ∧ (classIndex i).toNat = 2 + 2 * i

theorem exact_iff {classes : Nat} : Exact classes ↔ classes ≤ 32767 := by
  refine ⟨fun ⟨hcount, _⟩ => ?_, fun hroom => ⟨?_, fun i hi => ?_⟩⟩
  · have hword := (textIndex classes).toNat_lt
    omega
  · rw [toNat_textIndex, Nat.mod_eq_of_lt (by omega)]
  · rw [toNat_textIndex, toNat_classIndex, Nat.mod_eq_of_lt (by omega), Nat.mod_eq_of_lt (by omega)]
    exact ⟨rfl, rfl⟩

/-- **Writing** fails for want of a word for a length, and for nothing else. -/
theorem serialize_ok_iff {h : ClassHeader} : h.serialize = .ok bytes ↔
    (∀ c ∈ h.classes, (Text.Utf8.encode c.text).length < 0x10000) ∧
      h.interfaces.length < 0x10000 ∧ bytes = h.fileBytes := by
  refine ⟨fun hok => ?_, fun ⟨hnames, hinterfaces, hbytes⟩ =>
    hbytes ▸ serialize_eq hnames hinterfaces⟩
  suffices hfit : (∀ c ∈ h.classes, (Text.Utf8.encode c.text).length < 0x10000) ∧
      h.interfaces.length < 0x10000 by
    have heq := serialize_eq hfit.1 hfit.2
    exact ⟨hfit.1, hfit.2, Except.ok.inj (hok.symm.trans heq)⟩
  obtain ⟨pool, hpool, hok⟩ := Except.bind_ok.mp hok
  obtain ⟨interfaces, hlist, _⟩ := Except.bind_ok.mp hok
  refine ⟨fun c hc => ?_, ?_⟩
  · obtain ⟨i, hi, hat⟩ := List.mem_iff_getElem.mp hc
    have hmem : (c, i) ∈ h.classes.zipIdx := List.mk_mem_zipIdx_iff_getElem?.mpr
      (hat ▸ List.getElem?_eq_getElem hi)
    obtain ⟨_, hentry⟩ := Bytes.ofItems_inv hpool hmem
    obtain ⟨_, htext, _⟩ := Except.bind_ok.mp hentry
    exact Bytes.ofString_inv htext
  · have hlength := Bytes.ofList_inv hlist
    rwa [List.length_map, List.length_range] at hlength

/-! ## Both -/

/-- **Numbers** of constants are those that the sums stand for, with the exception of full pools and
of more classes than there are numbers for.

* The reader ends. In a pool that is not full every running number is the sum that it is computed
  as, and above all numbers before it; in a full one it comes to zero and reads on.
* A header is written whenever its names and its interfaces have words for their lengths, and the
  numbers in it are right up to 32767 classes. -/
theorem numbers_exact (count : UInt16) (bytes : List UInt8) (h : ClassHeader) :
    (∃ n, n ≤ bytes.length + 1 ∧ (poolRound count).Ends ⟨1, [], bytes⟩ n
      (readPool count (bytes.length + 1) 1 [] bytes)) ∧
    (¬ Full count bytes → ∀ s, Reached count bytes s → s.Ascends count) ∧
    (Full count bytes → ∃ s, Reached count bytes s ∧ s.index = 0 ∧ s.index < count) ∧
    (∀ written, h.serialize = .ok written ↔
      (∀ c ∈ h.classes, (Text.Utf8.encode c.text).length < 0x10000) ∧
        h.interfaces.length < 0x10000 ∧ written = h.fileBytes) ∧
    (Exact h.classes.length ↔ h.classes.length ≤ 32767) :=
  ⟨readPool_ends count bytes, fun hfull _ hs => hs.ascends hfull, Full.wraps,
    fun _ => serialize_ok_iff, exact_iff⟩

/-! ## A full pool, and too many classes -/

theorem Reached.entry (hs : Reached count bytes s) (hroom : s.index.toNat + 2 ≤ count.toNat)
    {c : ClassName} (hname : (Text.Utf8.encode c.text).length < 0x10000) {i : Nat}
    (hbytes : s.bytes = entryBytes c i ++ rest) :
    ∃ pool, Reached count bytes ⟨s.index + 1 + 1, pool, rest⟩ := by
  have hlt : s.index < count := UInt16.lt_iff_toNat_lt.mpr (by omega)
  have hlt' : s.index + 1 < count := UInt16.lt_iff_toNat_lt.mpr (by rw [toNat_add_one hlt]; omega)
  rw [entryBytes] at hbytes
  simp only [List.cons_append, List.append_assoc] at hbytes
  have htext := hs.tail (poolRound_next.mpr ⟨hlt, _, _, _,
    hbytes ▸ readConstant_text hname s.index _, rfl⟩)
  exact ⟨_, htext.tail (poolRound_next.mpr ⟨hlt', _, _, _, readConstant_class _ _ _, rfl⟩)⟩

/-- Constants of two bytes that do not matter, one after the other. -/
def others (n : Nat) : List UInt8 := (List.replicate n [8, 0, 0]).flatten

theorem readConstant_other {tag : UInt8} {front : List UInt8}
    (hskipped : skipped? tag.toNat = some front.length) (index : UInt16) (rest : List UInt8) :
    readConstant index (tag :: (front ++ rest)) =
      .ok ((.other, if front.length = 8 then 2 else 1), rest) := by
  have htext : tag.toNat ≠ 1 := fun h => by rw [h] at hskipped; cases hskipped
  have hclass : tag.toNat ≠ 7 := fun h => by rw [h] at hskipped; cases hskipped
  rw [readConstant, StateT.bind_of_ok (lift_of_ok (Bytes.nat_byte tag _)), if_neg htext,
    if_neg hclass, hskipped]
  simp only
  rw [StateT.bind_of_ok (lift_of_ok (Bytes.take_append rfl rest))]
  rfl

theorem readConstant_unknown {tag : UInt8} (hskipped : skipped? tag.toNat = none)
    (htext : tag.toNat ≠ 1) (hclass : tag.toNat ≠ 7) (index : UInt16) (rest : List UInt8) :
    readConstant index (tag :: rest) = .error (.unknownTag tag.toNat index.toNat) := by
  rw [readConstant, StateT.bind_of_ok (lift_of_ok (Bytes.nat_byte tag _)), if_neg htext,
    if_neg hclass, hskipped]
  rfl

theorem Reached.others {n : Nat} (hs : Reached count bytes s)
    (hroom : s.index.toNat + n ≤ count.toNat) (hbytes : s.bytes = others n ++ rest) :
    ∃ pool, Reached count bytes ⟨s.index + UInt16.ofNat n, pool, rest⟩ := by
  induction n generalizing s with
  | zero =>
    obtain ⟨index, pool, found⟩ := s
    cases hbytes
    exact ⟨pool, (UInt16.add_zero index).symm ▸ hs⟩
  | succ n ih =>
    have hlt : s.index < count := UInt16.lt_iff_toNat_lt.mpr (by omega)
    have hread : readConstant s.index s.bytes = .ok ((.other, 1), ClassHeader.others n ++ rest) :=
      hbytes ▸ readConstant_other (show skipped? (8 : UInt8).toNat = some [0, 0].length from rfl)
        s.index _
    obtain ⟨pool, hpool⟩ := ih (hs.tail (poolRound_next.mpr ⟨hlt, _, _, _, hread, rfl⟩))
      (by rw [toNat_add_one hlt]; omega) rfl
    refine ⟨pool, ?_⟩
    rw [UInt16.add_assoc, UInt16.add_comm 1, ← UInt16.ofNat_one, ← UInt16.ofNat_add] at hpool
    exact hpool

/-- A pool that cannot be read is no header. -/
theorem parse_of_pool {minor major : Nat} {e : HeaderError} (hminor : minor < 0x10000)
    (hmajor : major < 0x10000) (h : readPool count (bytes.length + 1) 1 [] bytes = .error e) :
    parse (Bytes.ofNat 4 magic ++ (Bytes.ofNat 2 minor ++ (Bytes.ofNat 2 major ++
      (Bytes.ofNat 2 count.toNat ++ bytes)))) = .error e := by
  have hmagic : magic < 256 ^ 4 := by decide
  rw [parse, read, StateT.bind_of_ok (lift_of_ok (Bytes.nat_ofNat hmagic _))]
  simp only [ne_eq, not_true_eq_false, if_false]
  rw [StateT.bind_of_ok (lift_of_ok (Bytes.nat_ofNat hminor _)),
    StateT.bind_of_ok (lift_of_ok (Bytes.nat_ofNat hmajor _)),
    StateT.bind_of_ok (word_ofNat _ _), StateT.bind_of_ok rfl]
  simp only [bind, StateT.bind, Except.bind, h]

/-- What stands behind the last number of the pool: a constant of eight bytes, which takes two, the
flags, the class itself, no superclass and no interfaces. -/
def behindLast : List UInt8 := 5 :: (List.replicate 8 0 ++ [0, 0x21, 0, 2, 0, 0, 0, 0])

/-- The constants of a class, and so many others that the last number is left. -/
def fullPool : List UInt8 := entryBytes { text := "A" } 0 ++ (others 65531 ++ behindLast)

/-- The reader comes to the constant of eight bytes under the last number. -/
theorem reached_last : ∃ pool, Reached 0xFFFF fullPool ⟨0xFFFE, pool, behindLast⟩ := by
  have hname : (Text.Utf8.encode "A").length < 0x10000 := by decide +kernel
  have hstart : Reached 0xFFFF fullPool ⟨1, [], fullPool⟩ := .refl
  have hroom : (1 : UInt16).toNat + 2 ≤ (0xFFFF : UInt16).toNat := by decide
  have hroom' : (3 : UInt16).toNat + 65531 ≤ (0xFFFF : UInt16).toNat := by decide
  obtain ⟨_, hentry⟩ := hstart.entry hroom hname (rfl : fullPool = _)
  obtain ⟨pool, hothers⟩ := hentry.others hroom' rfl
  have hindex : (1 : UInt16) + 1 + 1 + UInt16.ofNat 65531 = 0xFFFE := by decide
  rw [hindex] at hothers
  exact ⟨pool, hothers⟩

theorem readConstant_last (index : UInt16) :
    readConstant index behindLast = .ok ((.other, 2), [0, 0x21, 0, 2, 0, 0, 0, 0]) :=
  readConstant_other (show skipped? (5 : UInt8).toNat = some (List.replicate 8 0).length from rfl)
    index _

/-- Then it takes the flags for a constant. -/
theorem readPool_fullPool :
    readPool 0xFFFF (fullPool.length + 1) 1 [] fullPool = .error (.unknownTag 0 0) := by
  obtain ⟨pool, hlast⟩ := reached_last
  have hzero : (0xFFFE : UInt16) + 2 = 0 := by decide
  have hwraps := hlast.tail (poolRound_next.mpr
    ⟨(by decide : (0xFFFE : UInt16) < 0xFFFF), _, _, _, readConstant_last _, rfl⟩)
  rw [hzero] at hwraps
  have hfails : ∀ pool rest, poolRound 0xFFFF ⟨0, pool, 0 :: rest⟩ = .error (.unknownTag 0 0) :=
    fun pool rest => by
      rw [poolRound, if_pos (by decide : (0 : UInt16) < 0xFFFF),
        readConstant_unknown rfl (by decide) (by decide)]
      rfl
  obtain ⟨_, hends⟩ := Round.Ends.of_reached hwraps (.failed (hfails _ _))
  obtain ⟨_, _, hends'⟩ := readPool_ends 0xFFFF fullPool
  exact (hends'.unique hends).2

/-- As many interfaces as leave no number for the last of them. -/
def crowded : ClassHeader where
  minor := 0
  major := 55
  flags := 0x21
  name := { text := "A" }
  superclass := none
  interfaces := List.replicate 32767 { text := "B" }

theorem length_crowded : crowded.classes.length = 32768 := by
  have hinterfaces : crowded.interfaces.length = 32767 := List.length_replicate
  rw [classes, List.length_append, hinterfaces]
  rfl

theorem serialize_crowded : crowded.serialize = .ok crowded.fileBytes := by
  refine serialize_eq (fun c hc => ?_) (by rw [crowded, List.length_replicate]; decide)
  rcases List.mem_cons.mp hc with rfl | hc
  · decide +kernel
  · cases List.eq_of_mem_replicate hc
    decide +kernel

/-- **Numbers wrap**, in bytes that hold a whole header with fewer constants than there are numbers,
and in the count that is written for one class too many. -/
theorem numbers_wrap :
    (∃ s constant slots rest, Reached 0xFFFF fullPool s ∧ s.index < 0xFFFF ∧
      readConstant s.index s.bytes = .ok ((constant, slots), rest) ∧
      0x10000 ≤ s.index.toNat + slots.toNat) ∧
    parse (Bytes.ofNat 4 magic ++ (Bytes.ofNat 2 0 ++ (Bytes.ofNat 2 55 ++
      (Bytes.ofNat 2 (0xFFFF : UInt16).toNat ++ fullPool)))) = .error (.unknownTag 0 0) ∧
    crowded.serialize = .ok crowded.fileBytes ∧ ¬ Exact crowded.classes.length ∧
    crowded.fileBytes.take 10 = Bytes.ofNat 4 magic ++ [0, 0, 0, 55, 0, 1] := by
  obtain ⟨pool, hlast⟩ := reached_last
  refine ⟨⟨_, _, _, _, hlast, (by decide : (0xFFFE : UInt16) < 0xFFFF), readConstant_last _,
    (by decide : 0x10000 ≤ (0xFFFE : UInt16).toNat + (2 : UInt16).toNat)⟩,
    parse_of_pool (by decide) (by decide) readPool_fullPool, serialize_crowded, ?_, ?_⟩
  · rw [exact_iff, length_crowded]
    decide
  · rw [fileBytes, length_crowded]
    rfl

end ClassHeader

end Resumption
