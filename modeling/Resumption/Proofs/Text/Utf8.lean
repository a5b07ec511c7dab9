import Resumption.Proofs.Bytes.RoundTrip

/-!
# Well formed text loses nothing

Reading UTF-8 with replacement characters puts one for each fault. In the encoding of a string there
is no fault, so the string itself comes back (`decodeLossy_encode`).
-/

namespace Resumption.Text.Utf8

variable {n : Nat}

theorem encode_eq (s : String) : encode s = s.toList.flatMap String.utf8EncodeChar := by
  have hbytes : s.toUTF8 = (s.toList.flatMap String.utf8EncodeChar).toByteArray :=
    String.utf8Encode_toList.symm
  rw [encode, hbytes, List.data_toByteArray]

/-! ## Bytes of one character -/

theorem toNat_ofNat_of_lt (h : n < 256) : (UInt8.ofNat n).toNat = n :=
  UInt8.toNat_ofNat_of_lt' h

/-- A byte behind the first one continues a character. -/
theorem isContinuation_tail (n : Nat) : isContinuation (UInt8.ofNat (n % 64 + 128)) = true := by
  have hbyte := toNat_ofNat_of_lt (n := n % 64 + 128) (by omega)
  simp only [isContinuation, Bool.and_eq_true, decide_eq_true_eq, UInt8.le_iff_toNat_le, hbyte,
    UInt8.reduceToNat]
  omega

/-- It holds six bits. -/
theorem low6_tail (n : Nat) : low6 (UInt8.ofNat (n % 64 + 128)) = n % 64 := by
  rw [low6, toNat_ofNat_of_lt (by omega)]
  omega

theorem front_one (h : n ≤ 127) (rest : List UInt8) :
    front (UInt8.ofNat n) rest = .char (Char.ofNat n) 1 := by
  have hbyte := toNat_ofNat_of_lt (n := n) (by omega)
  simp only [front, UInt8.lt_iff_toNat_lt, hbyte, UInt8.reduceToNat]
  rw [if_pos (by omega)]

theorem front_two (h : 127 < n) (h' : n ≤ 2047) (rest : List UInt8) :
    front (UInt8.ofNat (n / 64 % 32 + 192)) (UInt8.ofNat (n % 64 + 128) :: rest) =
      .char (Char.ofNat n) 2 := by
  have hbyte := toNat_ofNat_of_lt (n := n / 64 % 32 + 192) (by omega)
  simp only [front, UInt8.lt_iff_toNat_lt, UInt8.le_iff_toNat_le, hbyte, UInt8.reduceToNat,
    Bool.and_eq_true, decide_eq_true_eq, isContinuation_tail, low6_tail, if_true]
  rw [if_neg (by omega), if_pos (by omega)]
  congr 2
  omega

/-- No encoding of three bytes is too long or stands for a surrogate. -/
theorem secondOfThree_encoded (h : 2047 < n) (h' : n ≤ 65535) (hvalid : n < 0xD800 ∨ 0xDFFF < n) :
    secondOfThree (UInt8.ofNat (n / 4096 % 16 + 224)) (UInt8.ofNat (n / 64 % 64 + 128)) = true := by
  have hfirst := toNat_ofNat_of_lt (n := n / 4096 % 16 + 224) (by omega)
  have hsecond := toNat_ofNat_of_lt (n := n / 64 % 64 + 128) (by omega)
  simp only [secondOfThree, ← UInt8.toNat_inj, UInt8.le_iff_toNat_le, hfirst, hsecond,
    UInt8.reduceToNat, isContinuation_tail, Bool.if_true_right]
  split
  · simp only [Bool.and_eq_true, decide_eq_true_eq]
    omega
  · simp only [Bool.or_eq_true, Bool.not_eq_true', decide_eq_false_iff_not, Bool.and_eq_true,
      decide_eq_true_eq]
    omega

theorem front_three (h : 2047 < n) (h' : n ≤ 65535) (hvalid : n < 0xD800 ∨ 0xDFFF < n)
    (rest : List UInt8) :
    front (UInt8.ofNat (n / 4096 % 16 + 224))
        (UInt8.ofNat (n / 64 % 64 + 128) :: UInt8.ofNat (n % 64 + 128) :: rest) =
      .char (Char.ofNat n) 3 := by
  have hbyte := toNat_ofNat_of_lt (n := n / 4096 % 16 + 224) (by omega)
  simp only [front, UInt8.lt_iff_toNat_lt, UInt8.le_iff_toNat_le, hbyte, UInt8.reduceToNat,
    Bool.and_eq_true, decide_eq_true_eq, isContinuation_tail, low6_tail,
    secondOfThree_encoded h h' hvalid, if_true]
  rw [if_neg (by omega), if_neg (by omega), if_pos (by omega)]
  simp only [Bool.not_true, Bool.false_eq_true, if_false]
  congr 2
  omega

/-- No encoding of four bytes is too long or stands for something above the last code point. -/
theorem secondOfFour_encoded (h : 65535 < n) (h' : n < 0x110000) :
    secondOfFour (UInt8.ofNat (n / 262144 % 8 + 240)) (UInt8.ofNat (n / 4096 % 64 + 128)) =
      true := by
  have hfirst := toNat_ofNat_of_lt (n := n / 262144 % 8 + 240) (by omega)
  have hsecond := toNat_ofNat_of_lt (n := n / 4096 % 64 + 128) (by omega)
  simp only [secondOfFour, ← UInt8.toNat_inj, UInt8.le_iff_toNat_le, hfirst, hsecond,
    UInt8.reduceToNat, isContinuation_tail, Bool.if_true_right]
  split
  · simp only [Bool.and_eq_true, decide_eq_true_eq]
    omega
  · simp only [Bool.or_eq_true, Bool.not_eq_true', decide_eq_false_iff_not, Bool.and_eq_true,
      decide_eq_true_eq]
    omega

theorem front_four (h : 65535 < n) (h' : n < 0x110000) (rest : List UInt8) :
    front (UInt8.ofNat (n / 262144 % 8 + 240))
        (UInt8.ofNat (n / 4096 % 64 + 128) :: UInt8.ofNat (n / 64 % 64 + 128) ::
          UInt8.ofNat (n % 64 + 128) :: rest) =
      .char (Char.ofNat n) 4 := by
  have hbyte := toNat_ofNat_of_lt (n := n / 262144 % 8 + 240) (by omega)
  simp only [front, UInt8.lt_iff_toNat_lt, UInt8.le_iff_toNat_le, hbyte, UInt8.reduceToNat,
    Bool.and_eq_true, decide_eq_true_eq, isContinuation_tail, low6_tail,
    secondOfFour_encoded h h', if_true]
  rw [if_neg (by omega), if_neg (by omega), if_neg (by omega), if_pos (by omega)]
  simp only [Bool.not_true, Bool.false_eq_true, if_false]
  congr 2
  omega

/-- **Characters.** The front of an encoded character is that character, whatever comes behind. -/
theorem front_encoded (c : Char) (rest : List UInt8) : ∃ b more,
    String.utf8EncodeChar c = b :: more ∧ front b (more ++ rest) = .char c (more.length + 1) := by
  have hvalid : c.toNat < 0xD800 ∨ 0xDFFF < c.toNat ∧ c.toNat < 0x110000 := c.valid
  have hval : c.val.toNat = c.toNat := rfl
  suffices h : ∃ b more, String.utf8EncodeChar c = b :: more ∧
      front b (more ++ rest) = .char (Char.ofNat c.toNat) (more.length + 1) by
    rwa [Char.ofNat_toNat] at h
  simp only [String.utf8EncodeChar, hval]
  generalize c.toNat = n at hvalid ⊢
  by_cases h₁ : n ≤ 127
  · rw [if_pos h₁]
    exact ⟨_, _, rfl, front_one h₁ rest⟩
  rw [if_neg h₁]
  by_cases h₂ : n ≤ 2047
  · rw [if_pos h₂]
    exact ⟨_, _, rfl, front_two (Nat.lt_of_not_le h₁) h₂ rest⟩
  rw [if_neg h₂]
  by_cases h₃ : n ≤ 65535
  · rw [if_pos h₃]
    exact ⟨_, _, rfl, front_three (Nat.lt_of_not_le h₂) h₃ (hvalid.imp_right And.left) rest⟩
  · rw [if_neg h₃]
    exact ⟨_, _, rfl, front_four (Nat.lt_of_not_le h₃) (by omega) rest⟩

/-! ## Strings -/

/-- Bytes of a character that was read already are passed over. -/
theorem lossyFrom_skip (acc : List Char) (more rest : List UInt8) :
    lossyFrom acc more.length (more ++ rest) = lossyFrom acc 0 rest := by
  induction more with
  | nil => rfl
  | cons b more ih => exact ih

theorem lossyFrom_encoded (acc cs : List Char) :
    lossyFrom acc 0 (cs.flatMap String.utf8EncodeChar) = acc.reverse ++ cs := by
  induction cs generalizing acc with
  | nil => simp [lossyFrom]
  | cons c cs ih =>
    obtain ⟨b, more, hbytes, hfront⟩ := front_encoded c (cs.flatMap String.utf8EncodeChar)
    rw [List.flatMap_cons, hbytes, List.cons_append, lossyFrom, hfront]
    simp only [Nat.add_sub_cancel, lossyFrom_skip, ih, List.reverse_cons, List.append_assoc,
      List.singleton_append]

/-- **Strings.** No fault is found in the bytes of a string. -/
theorem decodeLossy_encode (s : String) : decodeLossy (encode s) = s := by
  rw [decodeLossy, encode_eq, lossyFrom_encoded, List.reverse_nil, List.nil_append,
    String.ofList_toList]

end Resumption.Text.Utf8
