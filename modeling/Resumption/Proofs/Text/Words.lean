import Mathlib
import Resumption.Text.Quoted

/-!
# Where a word and where a quoted text ends

**Words.** A word ends at the first character that is not one of its own, whatever comes after it
(`split_word`). Numbers are words (`toString_nat_digits`, `toString_int_digits`).

**Quoted text.** No escape is the beginning of another one (`escape_split`), and none begins with the
quote that ends the text. So it is known where a quoted text ends and what it is
(`quote_split`).
-/

namespace Resumption.Text

/-! ## Words -/

section

variable {p : Char → Bool} {word word' rest rest' : List Char} {c c' : Char}

/-- The text does not go on with such a character. -/
def Ends (p : Char → Bool) (text : List Char) : Prop := ∀ c ∈ text.head?, p c = false

theorem Ends.nil (p : Char → Bool) : Ends p [] := nofun

theorem Ends.cons (h : p c = false) (rest : List Char) : Ends p (c :: rest) := by
  rintro _ ⟨⟩
  exact h

/-- **Words.** A word is known by where its characters end. -/
theorem split_word (hword : ∀ c ∈ word, p c = true) (hword' : ∀ c ∈ word', p c = true)
    (hrest : Ends p rest) (hrest' : Ends p rest') (h : word ++ rest = word' ++ rest') :
    word = word' ∧ rest = rest' := by
  -- the shorter of two words that differ in length would be followed by a character of words
  induction word generalizing word' with
  | nil =>
    cases word' with
    | nil => exact ⟨rfl, h⟩
    | cons d word' =>
      rw [List.nil_append] at h
      have hd := hrest d (by rw [h]; rfl)
      rw [hword' d List.mem_cons_self] at hd
      cases hd
  | cons c word ih =>
    cases word' with
    | nil =>
      rw [List.nil_append] at h
      have hc := hrest' c (by rw [← h]; rfl)
      rw [hword c List.mem_cons_self] at hc
      cases hc
    | cons d word' =>
      obtain ⟨rfl, htail⟩ := List.cons.inj h
      obtain ⟨rfl, hrest⟩ := ih (fun c hc => hword c (List.mem_cons_of_mem _ hc))
        (fun c hc => hword' c (List.mem_cons_of_mem _ hc)) htail
      exact ⟨rfl, hrest⟩

/-- A character that is in neither of two words ends both of them. -/
theorem split_at (hword : c ∉ word) (hword' : c ∉ word')
    (h : word ++ c :: rest = word' ++ c :: rest') : word = word' ∧ rest = rest' := by
  have hother : ∀ w : List Char, c ∉ w → ∀ d ∈ w, decide (d ≠ c) = true := fun w hw d hd => by
    rw [decide_eq_true_eq]
    rintro rfl
    exact hw hd
  have hends : ∀ r, Ends (fun d => decide (d ≠ c)) (c :: r) := .cons (by simp)
  obtain ⟨rfl, hrest⟩ := split_word (hother _ hword) (hother _ hword') (hends _) (hends _) h
  exact ⟨rfl, (List.cons.inj hrest).2⟩

end

/-- A digit or a sign. -/
def isNumeral (c : Char) : Bool := c.isDigit || c == '-'

theorem toString_nat_digits (n : Nat) : ∀ c ∈ (toString n).toList, c.isDigit = true := by
  intro c hc
  rw [Nat.toString_eq_repr, Nat.toList_repr] at hc
  exact Nat.isDigit_of_mem_toDigits (by decide) (by decide) hc

theorem toString_int_numeral (n : Int) : ∀ c ∈ (toString n).toList, isNumeral c = true := by
  have hnat : ∀ k : Nat, ∀ c ∈ (Nat.repr k).toList, isNumeral c = true := fun k c hc => by
    rw [isNumeral, toString_nat_digits k c hc, Bool.true_or]
  intro c hc
  rw [Int.toString_eq_repr, Int.repr_eq_if] at hc
  split at hc
  · exact hnat _ c hc
  · rw [String.toList_append] at hc
    rcases List.mem_append.mp hc with hc | hc
    · rw [List.mem_singleton.mp hc]
      rfl
    · exact hnat _ c hc

/-! ## Quoted text -/

/-- Numbers with the same digits are the same. -/
theorem toDigits_inj {base m n : Nat} (hbase : 1 < base) (hbase' : base ≤ 16)
    (h : Nat.toDigits base m = Nat.toDigits base n) : m = n := by
  have hdigit : ∀ i < 16, ∀ j < 16, i.digitChar = j.digitChar → i = j := by decide
  induction m using Nat.strongRecOn generalizing n with
  | ind m ih =>
    have hnonempty : ∀ k : Nat, Nat.toDigits base k ≠ [] := fun k => Nat.toDigits_ne_nil
    rw [@Nat.toDigits_eq_if base m hbase, @Nat.toDigits_eq_if base n hbase] at h
    split at h <;> split at h
    · exact hdigit m (by omega) n (by omega) (List.cons.inj h).1
    · have hnil := (List.append_inj' (show [] ++ [m.digitChar] = _ from h) rfl).1
      exact absurd hnil.symm (hnonempty _)
    · have hnil := (List.append_inj' (show _ = [] ++ [n.digitChar] from h) rfl).1
      exact absurd hnil (hnonempty _)
    · obtain ⟨hfront, hlast⟩ := List.append_inj' h rfl
      have hmod := Nat.mod_lt m (Nat.lt_trans Nat.zero_lt_one hbase)
      have hmod' := Nat.mod_lt n (Nat.lt_trans Nat.zero_lt_one hbase)
      have hrest := hdigit _ (by omega) _ (by omega) (List.cons.inj hlast).1
      have hwhole := ih (m / base) (Nat.div_lt_self (by omega) hbase) hfront
      rw [← Nat.div_add_mod m base, ← Nat.div_add_mod n base, hwhole, hrest]

namespace Quoted

/-- Characters with a short escape, and what stands for them after the backslash. -/
def short : List (Char × Char) :=
  [('\x00', '0'), ('\t', 't'), ('\r', 'r'), ('\n', 'n'), ('"', '"'), ('\\', '\\')]

/-- The forms that an escape can have. -/
inductive Escape (c : Char) : List Char → Prop where
  /-- by a letter -/
  | short (d : Char) (h : (c, d) ∈ short) : Escape c ['\\', d]
  /-- by its number -/
  | code : Escape c ('\\' :: 'u' :: '\x7b' :: (Hexadecimal.digits c.toNat ++ ['\x7d']))
  /-- as it is -/
  | plain (hquote : c ≠ '"') (hbackslash : c ≠ '\\') : Escape c [c]

theorem escape_form (c : Char) : Escape c (escape c) := by
  unfold escape
  split
  · exact .short '0' (by subst c; decide)
  split
  · exact .short 't' (by subst c; decide)
  split
  · exact .short 'r' (by subst c; decide)
  split
  · exact .short 'n' (by subst c; decide)
  split
  · exact .short '"' (by subst c; decide)
  rename_i hquote
  split
  · exact .short '\\' (by subst c; decide)
  rename_i hbackslash
  split
  · exact .plain hquote hbackslash
  split
  · exact .code
  · exact .plain hquote hbackslash

theorem not_brace_digits (n : Nat) : '\x7d' ∉ Hexadecimal.digits n := by
  have hdigit : ∀ k < 16, k.digitChar ≠ '\x7d' := by decide
  unfold Hexadecimal.digits
  induction n using Nat.strongRecOn with
  | ind n ih =>
    rw [Nat.toDigits_eq_if (by decide)]
    split
    · rename_i hlt
      exact fun hmem => hdigit n hlt (List.mem_singleton.mp hmem).symm
    · intro hmem
      rcases List.mem_append.mp hmem with hmem | hmem
      · exact ih (n / 16) (by omega) hmem
      · exact hdigit (n % 16) (Nat.mod_lt n (by decide)) (List.mem_singleton.mp hmem).symm

/-- Short escapes are different for different characters, and none of them begins a code. -/
theorem short_inj : (∀ x ∈ short, ∀ y ∈ short, x.2 = y.2 → x.1 = y.1) ∧ ∀ x ∈ short, x.2 ≠ 'u' := by
  decide

/-- **Escapes.** No escape is the beginning of another one. -/
theorem escape_split {c d : Char} {rest rest' : List Char}
    (h : escape c ++ rest = escape d ++ rest') : c = d ∧ rest = rest' := by
  have hc := escape_form c
  have hd := escape_form d
  generalize escape c = e at *
  generalize escape d = e' at *
  cases hc with
  | short x hx =>
    cases hd with
    | short y hy =>
      obtain ⟨rfl, hrest⟩ : x = y ∧ rest = rest' := by simpa using h
      exact ⟨short_inj.1 _ hx _ hy rfl, hrest⟩
    | code =>
      obtain ⟨rfl, -⟩ : x = 'u' ∧ _ := by simpa using h
      exact absurd rfl (short_inj.2 _ hx)
    | plain _ hbackslash => exact absurd (List.cons.inj h).1.symm hbackslash
  | code =>
    cases hd with
    | short y hy =>
      obtain ⟨rfl, -⟩ : 'u' = y ∧ _ := by simpa using h
      exact absurd rfl (short_inj.2 _ hy)
    | code =>
      have hsplit : Hexadecimal.digits c.toNat ++ '\x7d' :: rest =
          Hexadecimal.digits d.toNat ++ '\x7d' :: rest' := by simpa using h
      obtain ⟨hdigits, hrest⟩ := split_at (not_brace_digits _) (not_brace_digits _) hsplit
      exact ⟨Char.toNat_inj.mp (toDigits_inj (by decide) (by decide) hdigits), hrest⟩
    | plain _ hbackslash => exact absurd (List.cons.inj h).1.symm hbackslash
  | plain _ hbackslash =>
    cases hd with
    | short | code => exact absurd (List.cons.inj h).1 hbackslash
    | plain => exact List.cons.inj h

/-- No escape begins with a quote. -/
theorem escape_ne_quote (c : Char) (rest rest' : List Char) : escape c ++ rest ≠ '"' :: rest' := by
  have hc := escape_form c
  generalize escape c = e at *
  intro h
  cases hc with
  | short | code => exact absurd (List.cons.inj h).1 (by decide)
  | plain hquote _ => exact hquote (List.cons.inj h).1

/-- **Quoted text.** It is known where it ends and what it is. -/
theorem quote_split {s s' : String} {rest rest' : List Char}
    (h : (quote s).toList ++ rest = (quote s').toList ++ rest') : s = s' ∧ rest = rest' := by
  have hbody : ∀ cs ds : List Char, cs.flatMap escape ++ '"' :: rest = ds.flatMap escape ++ '"' :: rest' →
      cs = ds ∧ rest = rest' := by
    intro cs
    -- no escaped character starts with the closing quote, so the texts end together
    induction cs with
    | nil =>
      intro ds h
      cases ds with
      | nil => exact ⟨rfl, (List.cons.inj h).2⟩
      | cons d ds =>
        rw [List.flatMap_cons, List.append_assoc] at h
        exact absurd h.symm (escape_ne_quote _ _ _)
    | cons c cs ih =>
      intro ds h
      cases ds with
      | nil =>
        rw [List.flatMap_cons, List.append_assoc] at h
        exact absurd h (escape_ne_quote _ _ _)
      | cons d ds =>
        rw [List.flatMap_cons, List.flatMap_cons, List.append_assoc, List.append_assoc] at h
        obtain ⟨rfl, htail⟩ := escape_split h
        obtain ⟨rfl, hrest⟩ := ih ds htail
        exact ⟨rfl, hrest⟩
  simp only [quote, String.toList_ofList, List.cons_append, List.append_assoc, List.nil_append,
    List.cons.injEq, true_and] at h
  obtain ⟨hlist, hrest⟩ := hbody _ _ h
  exact ⟨String.toList_inj.mp hlist, hrest⟩

end Quoted

end Resumption.Text
