import Mathlib
import Resumption.Bytes.Format

/-!
# Bytes are read as they were written

Each statement has an arbitrary rest behind the bytes that were written. The reader takes exactly
those bytes and leaves the rest, so that the statements can be put together.

* **Numbers** (`nat_ofNat`) come back as they were if they fit their width; integers of 32 and 64
  bits always do.
* **Strings** (`string_ofString`) come back whenever they could be written.
-/

namespace Resumption

/-! ## Computations that succeed -/

section

variable {τ ε α β : Type} {f : α → StateT τ (Except ε) β} {s s' : τ} {b : β}

/-- Two parts of a computation with a state that succeeds. -/
theorem StateT.bind_ok {x : StateT τ (Except ε) α} :
    (x >>= f) s = .ok (b, s') ↔ ∃ a t, x s = .ok (a, t) ∧ f a t = .ok (b, s') := by
  simp only [bind, StateT.bind, Except.bind]
  cases x s with
  | error e => exact ⟨nofun, fun ⟨_, _, hx, _⟩ => nomatch hx⟩
  | ok result => exact ⟨fun h => ⟨_, _, rfl, h⟩, fun ⟨_, _, hx, h⟩ => by cases hx; exact h⟩

/-- A first part that does not look at the state. -/
theorem StateT.lift_bind_ok {x : Except ε α} :
    ((liftM x : StateT τ (Except ε) α) >>= f) s = .ok (b, s') ↔
      ∃ a, x = .ok a ∧ f a s = .ok (b, s') := by
  cases x with
  | ok a => exact ⟨fun h => ⟨a, rfl, h⟩, fun ⟨_, ha, h⟩ => by cases ha; exact h⟩
  | error e => exact ⟨nofun, fun ⟨_, ha, _⟩ => nomatch ha⟩

/-- Going on after a part that succeeded. -/
theorem StateT.bind_of_ok {x : StateT τ (Except ε) α} {a : α} (h : x s = .ok (a, s')) :
    (x >>= f) s = f a s' := by
  simp only [bind, StateT.bind, Except.bind, h]

end

/-! ## Numbers and strings -/

/-- Bytes of a string are the string. -/
theorem Text.Utf8.decode_encode (s : String) : decode (encode s) = .ok s := by
  have hbytes : (⟨(encode s).toArray⟩ : ByteArray) = s.toByteArray := rfl
  rw [decode, hbytes, String.fromUTF8?, dif_pos s.isValidUTF8]
  rfl

namespace Bytes

/-- A number that is read byte by byte. -/
theorem foldl_bytes (bytes : List UInt8) (n : Nat) :
    bytes.foldl (fun n b => 256 * n + b.toNat) n = n * 256 ^ bytes.length + toNat bytes := by
  induction bytes generalizing n with
  | nil => simp [toNat]
  | cons b bytes ih =>
    rw [toNat, List.foldl_cons, List.foldl_cons, ih, ih (256 * 0 + b.toNat), List.length_cons]
    ring

/-- The first byte is the most significant one. -/
theorem toNat_cons (b : UInt8) (bytes : List UInt8) :
    toNat (b :: bytes) = b.toNat * 256 ^ bytes.length + toNat bytes := by
  rw [toNat, List.foldl_cons, foldl_bytes, Nat.mul_zero, Nat.zero_add]

/-- A number takes as many bytes as it is given. -/
@[simp] theorem length_ofNat (width n : Nat) : (ofNat width n).length = width := by
  induction width with
  | zero => rfl
  | succ width ih => simp [ofNat, ih]

/-- Only the low bytes of a number are written. -/
theorem toNat_ofNat (width n : Nat) : toNat (ofNat width n) = n % 256 ^ width := by
  induction width with
  | zero => simp [ofNat, toNat, Nat.mod_one]
  | succ width ih =>
    have hbyte : (UInt8.ofNat (n >>> (8 * width))).toNat = n / 256 ^ width % 256 := by
      rw [UInt8.toNat_ofNat', Nat.shiftRight_eq_div_pow, Nat.pow_mul]
    rw [ofNat, toNat_cons, ih, hbyte, length_ofNat, Nat.pow_succ, Nat.mod_mul]
    ring

/-- As many bytes as were wanted, and the rest. -/
theorem take_append {n : Nat} {front : List UInt8} (h : front.length = n) (rest : List UInt8) :
    take n (front ++ rest) = .ok (front, rest) := by
  subst h
  simp [take]

/-- A number that fits. -/
theorem nat_ofNat {width n : Nat} (h : n < 256 ^ width) (rest : List UInt8) :
    nat width (ofNat width n ++ rest) = .ok (n, rest) := by
  simp only [nat, bind, StateT.bind, Except.bind, take_append (length_ofNat width n), toNat_ofNat,
    Nat.mod_eq_of_lt h]
  rfl

/-- One byte is read as a number. -/
theorem nat_byte (b : UInt8) (rest : List UInt8) :
    nat 1 (b :: rest) = .ok (b.toNat, rest) := by
  have htake : take 1 (b :: rest) = .ok ([b], rest) := @take_append 1 [b] rfl rest
  simp only [nat, bind, StateT.bind, Except.bind, htake, toNat, List.foldl_cons, List.foldl_nil,
    Nat.mul_zero, Nat.zero_add]
  rfl

/-- What is written of a number of 32 bits is read back. -/
theorem int32_ofInt32 (n : Int32) (rest : List UInt8) :
    int32 (ofInt32 n ++ rest) = .ok (n, rest) := by
  have hfits : n.toUInt32.toNat < 256 ^ 4 := n.toUInt32.toNat_lt
  simp only [int32, ofInt32, bind, StateT.bind, Except.bind, nat_ofNat hfits, UInt32.ofNat_toNat]
  rfl

/-- What is written of a number of 64 bits is read back. -/
theorem int64_ofInt64 (n : Int64) (rest : List UInt8) :
    int64 (ofInt64 n ++ rest) = .ok (n, rest) := by
  have hfits : n.toUInt64.toNat < 256 ^ 8 := n.toUInt64.toNat_lt
  simp only [int64, ofInt64, bind, StateT.bind, Except.bind, nat_ofNat hfits, UInt64.ofNat_toNat]
  rfl

/-- A string that could be written. -/
theorem string_ofString {s : String} {bytes : List UInt8} (h : ofString s = .ok bytes)
    (rest : List UInt8) : string (bytes ++ rest) = .ok (s, rest) := by
  simp only [ofString] at h
  split at h
  · rename_i hshort
    cases h
    have hfits : (Text.Utf8.encode s).length < 256 ^ 2 := hshort
    simp only [string, bind, StateT.bind, Except.bind, List.append_assoc, nat_ofNat hfits,
      take_append rfl, Text.Utf8.decode_encode]
    rfl
  · cases h

/-! ## Sequences -/

/-- Items that were read already stay in front. -/
theorem itemsOnto_eq {α : Type} {m : Type → Type} [Monad m] [LawfulMonad m] (item : m α) (n : Nat)
    (read : List α) :
    itemsOnto item n read = (do return read.reverse ++ (← items n item)) := by
  induction n generalizing read with
  | zero => simp [itemsOnto, items]
  | succ n ih =>
    rw [items, itemsOnto, itemsOnto, bind_assoc]
    refine congrArg (item >>= ·) (funext fun x => ?_)
    rw [ih, ih]
    simp

/-- One item is read, and then the others. -/
theorem items_succ {α : Type} {m : Type → Type} [Monad m] [LawfulMonad m] (item : m α) (n : Nat) :
    items (n + 1) item = (do
      let x ← item
      return x :: (← items n item)) := by
  simp only [items, itemsOnto]
  refine congrArg (item >>= ·) (funext fun x => ?_)
  rw [itemsOnto_eq]
  rfl

end Bytes

end Resumption
