import Mathlib
import Resumption.Descriptor.Basic
import Resumption.Proofs.Text.Words

/-!
# Descriptions that can be read

A description is read from the left. It is **readable** (`Readable`) if it is known where it ends and
what it describes, as long as no character of a word comes after it. A word is readable if the value is
known from it (`Readable.word`). What has readable parts between fixed texts is readable, since every
part ends where the fixed text after it begins (`Readable.part`): lists (`Readable.list`) and optional
values (`Readable.option`) among them.
-/

namespace Resumption.Text

/-- Words have none of the characters that stand between them. -/
def isWord (c : Char) : Bool :=
  c != '(' && c != ')' && c != '[' && c != ']' && c != ',' && c != ' '

/-- The text has characters, and does not begin with one of a word. -/
def Separates (text : String) : Prop := ∃ c rest, text.toList = c :: rest ∧ isWord c = false

theorem Separates.ends {text : String} (h : Separates text) (rest : List Char) :
    Ends isWord (text.toList ++ rest) := by
  obtain ⟨c, front, heq, hc⟩ := h
  rw [heq]
  exact .cons hc _

/-- A description of values with a property tells where it ends, and the values up to a relation. -/
structure Readable {α : Type} (f : α → String) (P : α → Prop) (r : α → α → Prop) : Prop where
  /-- what comes first is known, and so is what comes after it -/
  read : ∀ {a b : α}, P a → P b → ∀ {s t : List Char}, Ends isWord s → Ends isWord t →
    (f a).toList ++ s = (f b).toList ++ t → r a b ∧ s = t

section

variable {α : Type} {f : α → String} {P : α → Prop} {r : α → α → Prop}

/-- **Words.** -/
theorem Readable.word (hword : ∀ a, P a → ∀ c ∈ (f a).toList, isWord c = true)
    (hknown : ∀ a b, P a → P b → f a = f b → r a b) : Readable f P r := by
  refine ⟨fun {a b} ha hb {s t} hs ht h => ?_⟩
  obtain ⟨hsame, hrest⟩ := split_word (hword a ha) (hword b hb) hs ht h
  exact ⟨hknown a b ha hb (String.toList_inj.mp hsame), hrest⟩

/-- Words for all values, with different words for different values. -/
theorem Readable.enum (hword : ∀ a, (f a).toList.all isWord = true) (hknown : Function.Injective f) :
    Readable f (fun _ => True) Eq :=
  .word (fun a _ => List.all_eq_true.mp (hword a)) fun _ _ _ _ h => hknown h

/-- **Parts.** A part before a fixed text. -/
theorem Readable.part (hf : Readable f P r) {after : String} (hafter : Separates after)
    {a b : α} (ha : P a) (hb : P b) {s t : List Char}
    (h : (f a).toList ++ (after.toList ++ s) = (f b).toList ++ (after.toList ++ t)) :
    r a b ∧ s = t := by
  obtain ⟨hr, hrest⟩ := hf.read ha hb (hafter.ends s) (hafter.ends t) h
  exact ⟨hr, List.append_cancel_left hrest⟩

/-- What comes after an item of a list: the others, each after a comma, and the closing bracket. -/
def others (f : α → String) : List α → List Char
  | [] => [']']
  | x :: rest => ", ".toList ++ ((f x).toList ++ others f rest)

/-- What comes after the opening bracket. -/
def items (f : α → String) : List α → List Char
  | [] => [']']
  | x :: rest => (f x).toList ++ others f rest

theorem toList_describeList (f : α → String) (xs : List α) :
    (describeList f xs).toList = "[".toList ++ items f xs := by
  have hothers : ∀ x (rest : List α), ", ".toList.intercalate ((x :: rest).map fun x => (f x).toList) ++
      [']'] = (f x).toList ++ others f rest := by
    intro x rest
    induction rest generalizing x with
    | nil => simp [others]
    | cons y rest ih =>
      rw [others, ← ih y, List.map_cons, List.map_cons, List.intercalate_cons_cons]
      simp only [List.append_assoc]
  simp only [describeList, String.toList_append, String.toList_intercalate, List.map_map,
    List.append_assoc]
  cases xs with
  | nil => rfl
  | cons x rest => exact congrArg _ (hothers x rest)

theorem others_ends (f : α → String) (xs : List α) (s : List Char) :
    Ends isWord (others f xs ++ s) := by
  cases xs with
  | nil => exact .cons rfl s
  | cons x rest =>
    rw [others, List.append_assoc]
    exact .cons rfl _

/-- The other items can be read, whatever comes after them. -/
theorem others_split (hf : Readable f P r) {xs ys : List α} (hxs : ∀ x ∈ xs, P x)
    (hys : ∀ y ∈ ys, P y) {s t : List Char} (h : others f xs ++ s = others f ys ++ t) :
    List.Forall₂ r xs ys ∧ s = t := by
  induction xs generalizing ys with
  | nil =>
    cases ys with
    | nil => exact ⟨.nil, (List.cons.inj h).2⟩
    | cons y ys => exact absurd (List.cons.inj h).1 (by decide)
  | cons x xs ih =>
    cases ys with
    | nil => exact absurd (List.cons.inj h).1 (by decide)
    | cons y ys =>
      simp only [others, List.append_assoc] at h
      obtain ⟨hr, hrest⟩ := hf.read (hxs x List.mem_cons_self) (hys y List.mem_cons_self)
        (others_ends f xs s) (others_ends f ys t) (List.append_cancel_left h)
      obtain ⟨hall, hrest⟩ := ih (fun x hx => hxs x (List.mem_cons_of_mem _ hx))
        (fun y hy => hys y (List.mem_cons_of_mem _ hy)) hrest
      exact ⟨.cons hr hall, hrest⟩

/-- Descriptions begin with a character, and it is no bracket. -/
def Opens (f : α → String) : Prop := ∀ x, ∃ c, (f x).toList.head? = some c ∧ c ≠ ']'

theorem Opens.append (hopens : Opens f) (x : α) (s t : List Char) :
    (f x).toList ++ s ≠ ']' :: t := by
  obtain ⟨c, hc, hne⟩ := hopens x
  intro h
  cases hchars : (f x).toList with
  | nil =>
    rw [hchars] at hc
    cases hc
  | cons d rest =>
    rw [hchars] at h hc
    exact hne ((Option.some.inj hc).symm.trans (List.cons.inj h).1)

/-- **Lists** of readable items. -/
theorem Readable.list (hf : Readable f P r) (hopens : Opens f) :
    Readable (describeList f) (∀ x ∈ ·, P x) (List.Forall₂ r) := by
  refine ⟨fun {xs ys} hxs hys {s t} _ _ h => ?_⟩
  simp only [toList_describeList, List.append_assoc] at h
  replace h := List.append_cancel_left h
  cases xs with
  | nil =>
    cases ys with
    | nil => exact ⟨.nil, (List.cons.inj h).2⟩
    | cons y ys =>
      rw [items, items, List.append_assoc] at h
      exact absurd h.symm (hopens.append _ _ _)
  | cons x xs =>
    cases ys with
    | nil =>
      rw [items, items, List.append_assoc] at h
      exact absurd h (hopens.append _ _ _)
    | cons y ys =>
      simp only [items, List.append_assoc] at h
      obtain ⟨hr, hrest⟩ := hf.read (hxs x List.mem_cons_self) (hys y List.mem_cons_self)
        (others_ends f xs s) (others_ends f ys t) h
      obtain ⟨hall, hrest⟩ := others_split hf (fun x hx => hxs x (List.mem_cons_of_mem _ hx))
        (fun y hy => hys y (List.mem_cons_of_mem _ hy)) hrest
      exact ⟨.cons hr hall, hrest⟩

theorem describeOption_none (f : α → String) : describeOption f none = "None" := rfl

theorem toList_describeOption_some (f : α → String) (x : α) :
    (describeOption f (some x)).toList = "Some(".toList ++ ((f x).toList ++ ")".toList) := by
  simp only [describeOption, String.toList_append, List.append_assoc]
  rfl

/-- **Optional values.** -/
theorem Readable.option (hf : Readable f P Eq) :
    Readable (describeOption f) (∀ x ∈ ·, P x) Eq := by
  refine ⟨fun {x y} hx hy {s t} _ _ h => ?_⟩
  cases x with
  | none =>
    cases y with
    | none => exact ⟨rfl, List.append_cancel_left h⟩
    | some y =>
      rw [toList_describeOption_some, describeOption_none] at h
      exact absurd (List.cons.inj (show 'N' :: _ = 'S' :: _ from h)).1 (by decide)
  | some x =>
    cases y with
    | none =>
      rw [toList_describeOption_some, describeOption_none] at h
      exact absurd (List.cons.inj (show 'S' :: _ = 'N' :: _ from h)).1 (by decide)
    | some y =>
      simp only [toList_describeOption_some, List.append_assoc] at h
      obtain ⟨rfl, hrest⟩ := hf.part ⟨')', [], rfl, rfl⟩ (hx x rfl) (hy y rfl)
        (List.append_cancel_left h)
      exact ⟨rfl, hrest⟩

end

end Resumption.Text
