import Mathlib.Data.List.TakeWhile

/-!
# Bracketed texts

A bracketed text is a word, or a head and any number of parts in parentheses, with a blank in front
of each part. If words and heads are not empty and have no blanks and no parentheses, the text can
be read in only one way.
-/

namespace Lox

/-- A word, or a head and parts in parentheses. -/
inductive Bracketed
  | word (text : List Char)
  | node (head : List Char) (parts : List Bracketed)

namespace Bracketed

mutual

@[simp] def letters : Bracketed → List Char
  | word text => text
  | node head parts => '(' :: (head ++ closing parts)

/-- The characters of parts up to the parenthesis that closes them. -/
@[simp] def closing : List Bracketed → List Char
  | [] => [')']
  | part :: parts => ' ' :: (part.letters ++ closing parts)

end

theorem closing_eq (parts : List Bracketed) :
    closing parts = parts.flatMap (fun part => ' ' :: part.letters) ++ [')'] := by
  induction parts with
  | nil => rfl
  | cons part parts ih => simp [ih]

/-- The character can stand in a word. -/
def isLegible (c : Char) : Bool :=
  c != ' ' && c != '(' && c != ')'

/-- The text is a word. -/
structure IsWord (text : List Char) : Prop where
  ne_nil : text ≠ []
  legible : ∀ c ∈ text, isLegible c = true

instance (text : List Char) : Decidable (IsWord text) :=
  decidable_of_iff (text ≠ [] ∧ text.all isLegible = true)
    ⟨fun h => ⟨h.1, List.all_eq_true.mp h.2⟩, fun h => ⟨h.1, List.all_eq_true.mpr h.2⟩⟩

/-- No word goes on into this text. -/
def Delimited (rest : List Char) : Prop :=
  ∀ c ∈ rest.head?, isLegible c = false

variable {text text' rest rest' : List Char} {parts : List Bracketed}

theorem takeWhile_word (h : IsWord text) (hrest : Delimited rest) :
    (text ++ rest).takeWhile isLegible = text := by
  rw [List.takeWhile_append_of_pos h.legible]
  cases rest with
  | nil => rw [List.takeWhile_nil, List.append_nil]
  | cons c rest =>
      have hc : ¬ isLegible c = true := by simp [hrest c rfl]
      rw [List.takeWhile_cons_of_neg hc, List.append_nil]

/-- A word ends where the text is delimited. -/
theorem word_append_inj (h : IsWord text) (h' : IsWord text') (hrest : Delimited rest)
    (hrest' : Delimited rest') (heq : text ++ rest = text' ++ rest') :
    text = text' ∧ rest = rest' := by
  obtain rfl : text = text' := by
    rw [← takeWhile_word h hrest, heq, takeWhile_word h' hrest']
  exact ⟨rfl, List.append_cancel_left heq⟩

theorem delimited_closing (rest : List Char) : Delimited (closing parts ++ rest) := by
  cases parts <;> rintro c ⟨⟩ <;> decide

theorem delimited_nil : Delimited [] :=
  nofun

/-- A word does not begin like a node. -/
theorem IsWord.append_ne_cons (h : IsWord text) : text ++ rest ≠ '(' :: rest' := by
  obtain ⟨c, cs, rfl⟩ := List.exists_cons_of_ne_nil h.ne_nil
  intro heq
  have hc := h.legible c List.mem_cons_self
  rw [(List.cons_eq_cons.mp heq).1] at hc
  exact absurd hc (by decide)

mutual

/-- The words and heads of a bracketed text are words. -/
def Legible : Bracketed → Prop
  | word text => IsWord text
  | node head parts => IsWord head ∧ ListLegible parts

def ListLegible : List Bracketed → Prop
  | [] => True
  | part :: parts => part.Legible ∧ ListLegible parts

end

mutual

/-- A bracketed text and what follows it can be told from the characters of both. -/
theorem letters_append_inj : ∀ {a b : Bracketed}, a.Legible → b.Legible → ∀ {rest rest'},
    Delimited rest → Delimited rest' → a.letters ++ rest = b.letters ++ rest' → a = b ∧ rest = rest'
  | word text, word text', ha, hb, rest, rest', hrest, hrest', heq => by
      rw [Legible] at ha hb
      obtain ⟨rfl, rfl⟩ := word_append_inj ha hb hrest hrest' heq
      exact ⟨rfl, rfl⟩
  | word text, node head parts, ha, hb, rest, rest', _, _, heq => by
      rw [Legible] at ha
      exact (ha.append_ne_cons heq).elim
  | node head parts, word text, ha, hb, rest, rest', _, _, heq => by
      rw [Legible] at hb
      exact (hb.append_ne_cons heq.symm).elim
  | node head parts, node head' parts', ha, hb, rest, rest', _, _, heq => by
      rw [Legible] at ha hb
      rw [letters, letters, List.cons_append, List.cons_append, List.append_assoc,
        List.append_assoc] at heq
      obtain ⟨rfl, hparts⟩ := word_append_inj ha.1 hb.1 (delimited_closing rest)
        (delimited_closing rest') (List.cons_eq_cons.mp heq).2
      obtain ⟨rfl, rfl⟩ := closing_append_inj ha.2 hb.2 hparts
      exact ⟨rfl, rfl⟩

theorem closing_append_inj : ∀ {as bs : List Bracketed}, ListLegible as → ListLegible bs →
    ∀ {rest rest'}, closing as ++ rest = closing bs ++ rest' → as = bs ∧ rest = rest'
  | [], [], _, _, rest, rest', heq => ⟨rfl, (List.cons_eq_cons.mp heq).2⟩
  | [], b :: bs, _, _, rest, rest', heq => by
      rw [closing, closing, List.cons_append] at heq
      exact absurd (List.cons_eq_cons.mp heq).1 (by decide)
  | a :: as, [], _, _, rest, rest', heq => by
      rw [closing, closing, List.cons_append] at heq
      exact absurd (List.cons_eq_cons.mp heq).1 (by decide)
  | a :: as, b :: bs, ha, hb, rest, rest', heq => by
      rw [ListLegible] at ha hb
      rw [closing, closing, List.cons_append, List.cons_append, List.append_assoc,
        List.append_assoc] at heq
      obtain ⟨rfl, hmore⟩ := letters_append_inj ha.1 hb.1 (delimited_closing rest)
        (delimited_closing rest') (List.cons_eq_cons.mp heq).2
      obtain ⟨rfl, rfl⟩ := closing_append_inj ha.2 hb.2 hmore
      exact ⟨rfl, rfl⟩

end

/-- Legible texts with the same characters are the same. -/
theorem eq_of_letters_eq {a b : Bracketed} (ha : a.Legible) (hb : b.Legible)
    (h : a.letters = b.letters) : a = b := by
  refine (letters_append_inj ha hb delimited_nil delimited_nil ?_).1
  rw [h]

end Bracketed

end Lox
