import Lox.Proofs.Grammar.Takes
import Lox.Proofs.Number.Texts
import Lox.Proofs.Printing.Bracketed
import Lox.Proofs.Token.Joining

/-!
# Legible tokens

The tokens of a source without strings and without infinite numbers are written as single words, and
so are the texts of their numbers. A symbol has its own word, and a name is no reserved word and
begins with no digit.
-/

namespace Lox

open Bracketed (isLegible IsWord)
open Lexer (Form isNameStart isNamePart numberValue)

variable {c : Char} {text : String} {t u : Token} {s : Symbol}

theorem isLegible_of_pos {p : Char → Bool} (hp : [' ', '(', ')'].any p = false)
    (hc : p c = true) : isLegible c = true := by
  have hne : ∀ d ∈ [' ', '(', ')'], c ≠ d := by
    rintro d hd rfl
    exact List.any_eq_false.mp hp c hd hc
  simpa [isLegible, and_assoc] using hne

theorem isLegible_of_isNamePart (h : isNamePart c = true) : isLegible c = true :=
  isLegible_of_pos (by decide) h

theorem Numeric.isWord (h : Numeric text) : IsWord text.toList := by
  obtain ⟨d, cs, htext, -⟩ := h.lead
  refine ⟨by rw [htext]; exact List.cons_ne_nil d cs, fun c hc => ?_⟩
  rcases h.chars c hc with hc | rfl
  · exact isLegible_of_pos (by decide) hc
  · decide

variable {letters : List Char}

theorem letters_of_symbol (h : Form (some (.symbol s)) letters) : letters = s.letters := by
  cases h <;> rfl

theorem letters_of_identifier (h : Form (some .identifier) letters) :
    ∃ d cs, letters = d :: cs ∧ isNameStart d = true ∧ (∀ c ∈ cs, isNamePart c = true)
      ∧ ∀ s ∈ Symbol.words, s.letters ≠ letters := by
  cases h with
  | identifier hd hcs hword => exact ⟨_, _, rfl, hd, hcs, hword⟩

theorem hasNoSign_of_number {x : Float} (h : Form (some (.number x)) letters) :
    Decimal.HasNoSign x := by
  cases h <;> exact Decimal.hasNoSign_ofScientific _ _

/-- The token is written in its form, it is no string, and if it is a number then its text in a tree
is numeric. -/
structure Token.Legible (t : Token) : Prop where
  form : Form (some t.kind) t.lexeme.toList
  not_string : t.terminal ≠ .string
  numeric : ∀ x, t.kind = .number x → Numeric (Number.treeText x)

/-- The token is no string and no infinite number. -/
def Token.isPlain (t : Token) : Bool :=
  match t.kind with
  | .string _ => false
  | .number x => Number.isFinite x
  | _ => true

/-- The tokens differ at most in their lines. -/
structure Token.Matches (t u : Token) : Prop where
  kind : t.kind = u.kind
  lexeme : t.lexeme = u.lexeme

namespace Token.Legible

/-- A legible token can be told from how it is written. -/
theorem matches_of_lexeme (ht : t.Legible) (hu : u.Legible)
    (h : t.lexeme.toList = u.lexeme.toList) : t.Matches u := by
  have hform := ht.form
  rw [h] at hform
  exact ⟨Option.some.inj (hform.kind_unique hu.form), String.toList_inj.mp h⟩

theorem lexeme_of_symbol (h : t.Legible) (ht : t.terminal = .symbol s) :
    t.lexeme.toList = s.letters :=
  letters_of_symbol (Grammar.kind_of_symbol ht ▸ h.form)

theorem lexeme_of_name (h : t.Legible) (ht : t.terminal = .identifier) :
    ∃ d cs, t.lexeme.toList = d :: cs ∧ isNameStart d = true ∧ (∀ c ∈ cs, isNamePart c = true)
      ∧ ∀ s ∈ Symbol.words, s.letters ≠ t.lexeme.toList :=
  letters_of_identifier (Grammar.kind_of_identifier ht ▸ h.form)

theorem isWord_of_name (h : t.Legible) (ht : t.terminal = .identifier) :
    IsWord t.lexeme.toList := by
  obtain ⟨d, cs, hlexeme, hd, hcs, -⟩ := h.lexeme_of_name ht
  rw [hlexeme]
  refine ⟨List.cons_ne_nil d cs, List.forall_mem_cons.mpr ⟨?_, fun c hc => ?_⟩⟩
  · exact isLegible_of_pos (by decide) hd
  · exact isLegible_of_isNamePart (hcs c hc)

end Token.Legible

namespace Lexer

theorem form_of_mem_tokens {source : String} (ht : t ∈ tokens source)
    (hend : Grammar.isEnd t = false) : Form (some t.kind) t.lexeme.toList := by
  rw [tokens_eq] at ht
  rcases List.mem_append.mp ht with ht | ht
  · obtain ⟨item, hitem, htoken⟩ := List.mem_filterMap.mp ht
    cases item with
    | error e => cases htoken
    | token u =>
        cases htoken
        obtain ⟨text, hmem, hlexeme⟩ := exists_piece_of_token hitem
        rw [hlexeme, String.toList_ofList]
        exact form_of_mem_pieces hmem
  · rw [List.mem_singleton.mp ht] at hend
    cases hend

/-- No token of the source is a string or an infinite number. -/
def Plain (source : String) : Prop :=
  ∀ t ∈ tokens source, t.isPlain = true

theorem legible_of_mem_tokens {source : String} (h : Plain source) (ht : t ∈ tokens source)
    (hend : Grammar.isEnd t = false) : t.Legible := by
  have hform := form_of_mem_tokens ht hend
  have hplain := h t ht
  unfold Token.isPlain at hplain
  refine ⟨hform, fun hstring => ?_, fun x hx => ?_⟩
  · obtain ⟨text, hkind⟩ := Grammar.kind_of_string hstring
    rw [hkind] at hplain
    cases hplain
  · rw [hx] at hform hplain
    exact numeric_treeText (hasNoSign_of_number hform) hplain

end Lexer

end Lox
