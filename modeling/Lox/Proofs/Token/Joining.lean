import Lox.Proofs.Concatenation.Lexing
import Lox.Proofs.Token.LongestMatch

/-!
# Scanning joined texts

A line break between two sources cuts no token of either, so that the items of the whole are those
of both. A blank between the lexemes of tokens cuts them apart again, whatever stood between them in
the source that they come from: the lexemes of a source determine its tokens.
-/

namespace Lox.Lexer

/-- Two sources with a line break between them, where every string of the first one is closed, yield
the tokens of the first without its end of input and then those of the second, and the errors of the
first and then those of the second. What comes from the second source stands further below. -/
theorem scan_joined_lines {first : String}
    (h : ∀ e ∈ errors first, e.fault ≠ .unterminatedString) (second : String) :
    let below := first.toList.count '\n' + 1
    tokens first = (tokens first).dropLast ++ [.endAt below]
      ∧ tokens (first ++ "\n" ++ second) = (tokens first).dropLast
        ++ (tokens second).map (fun t => { t with line := t.line + below })
      ∧ errors (first ++ "\n" ++ second)
        = errors first ++ (errors second).map fun e => { e with line := e.line + below } := by
  intro below
  have hitems := items_append h second
  rw [dropLast_tokens]
  refine ⟨?_, ?_, ?_⟩
  · rw [tokens_eq, Nat.add_comm]
  · rw [tokens, hitems, List.filterMap_append, filterMap_token?_lower]
    rfl
  · rw [errors_eq first, errors, hitems, List.filterMap_append, filterMap_error?_lower]
    rfl

/-- The first source has an error on its second line and ends in half an operator and a comment. The
second source goes on with the other half. -/
theorem scan_joined_lines_of_halves :
    let first := "1.\n@ < // >"
    let second := "= 5 \"a\nb"
    (∀ e ∈ errors first, e.fault ≠ .unterminatedString)
      ∧ (tokens (first ++ "\n" ++ second)).map (fun t => (t.lexeme, t.line))
        = [("1", 1), (".", 1), ("<", 2), ("=", 3), ("5", 3), ("", 4)]
      ∧ errors (first ++ "\n" ++ second) = [⟨.unexpected '@', 2⟩, ⟨.unterminatedString, 4⟩] := by
  intro first second
  have hclosed : ∀ e ∈ errors first, e.fault ≠ .unterminatedString := by decide +kernel
  obtain ⟨-, htokens, herrors⟩ := scan_joined_lines hclosed second
  rw [htokens, herrors]
  exact ⟨hclosed, by decide +kernel, by decide +kernel⟩

variable {kind : Token.Kind} {kind? : Option Token.Kind} {text : List Char}

/-- The text of a token cannot go on with a blank. -/
theorem Form.not_extends (h : Form (some kind) text) (more : List Char) :
    ¬ Form kind? (text ++ ' ' :: more) := by
  intro h'
  obtain ⟨c, cs, rfl⟩ := List.exists_cons_of_ne_nil h.ne_nil
  rw [List.cons_append] at h'
  have hmem : ' ' ∈ c :: (cs ++ ' ' :: more) := by simp
  have hform := h.cases_lead
  have hform' := h'.cases_lead
  cases hlead : lead c with
  | blank =>
      rw [hlead] at hform
      cases hform.1
  | string =>
      rw [hlead] at hform hform'
      obtain ⟨body, hbody, rfl, -⟩ := hform
      obtain ⟨body', hbody', heq, -⟩ := hform'
      rw [List.append_assoc, List.singleton_append] at heq
      obtain ⟨-, -, hnil⟩ := (List.append_cons_inj_of_notMem hbody' (by simp)).mp heq.symm
      cases hnil
  | number =>
      rw [hlead] at hform'
      rcases hform' with ⟨hdigits, -⟩ | ⟨whole, fraction, heq, -, hwhole, hfraction, -⟩
      · exact absurd (hdigits _ hmem) (by decide)
      · rw [heq, List.mem_append, List.mem_cons] at hmem
        rcases hmem with hmem | hpoint | hmem
        · exact absurd (hwhole _ hmem) (by decide)
        · exact absurd hpoint (by decide)
        · exact absurd (hfraction _ hmem) (by decide)
  | name =>
      rw [hlead] at hform'
      exact absurd (hform'.1 ' ' (by simp)) (by decide)
  | other =>
      rw [hlead] at hform hform'
      obtain ⟨s, -, hs, -⟩ := hform.resolve_left (by simp)
      rcases hform' with ⟨body, -, heq, -⟩ | ⟨s', hs', heq, -⟩
      · obtain ⟨rfl, hslash⟩ := List.cons_eq_cons.mp heq
        rw [nil_of_slash_mark hs] at hslash
        exact absurd (List.cons_eq_cons.mp hslash).1 (by decide)
      · have hall : ∀ s ∈ Symbol.marks, ' ' ∉ s.letters := by decide
        exact hall s' hs' (heq ▸ hmem)

theorem Form.longest_before_blank (h : Form (some kind) text) (more : List Char) :
    Longest (some kind) text (text ++ ' ' :: more) := by
  refine ⟨h, List.prefix_append _ _, fun {kind?' text'} h' hfront => ?_⟩
  by_contra hlonger
  -- A longer text at the front contains the blank behind this one.
  have hfirst : text ++ [' '] <+: text ++ ' ' :: more := ⟨more, by simp⟩
  have hblank : text ++ [' '] <+: text' := by
    apply List.prefix_of_prefix_length_le hfirst hfront
    rw [List.length_append, List.length_singleton]
    omega
  obtain ⟨tail, rfl⟩ := hblank
  rw [List.append_assoc, List.singleton_append] at h'
  exact h.not_extends tail h'

theorem longest_blank (more : List Char) : Longest none [' '] (' ' :: more) := by
  refine ⟨.blank (by decide), List.prefix_append _ more, fun {kind?' text'} h hfront => ?_⟩
  obtain ⟨c, cs, rfl⟩ := List.exists_cons_of_ne_nil h.ne_nil
  obtain ⟨rfl, -⟩ := List.cons_prefix_cons.mp hfront
  have hlead : lead ' ' = .blank := by decide
  have hform := h.cases_lead
  rw [hlead] at hform
  rw [hform.2]

theorem longest_self (h : Form kind? text) : Longest kind? text text :=
  ⟨h, List.prefix_refl text, fun _ hfront => hfront.length_le⟩

theorem Reads.blank {line : Nat} {rest : List Char} {xs : List Item} (h : Reads line rest xs) :
    Reads line (' ' :: rest) xs := by
  have hskip := Reads.skip (longest_blank rest) h
  exact hskip

/-- A reserved word and a blank in front of a source add the token of the word. -/
theorem items_word_append {s : Symbol} (hs : s ∈ Symbol.words) (source : String) :
    items (String.ofList s.letters ++ " " ++ source)
      = .token ⟨.symbol s, String.ofList s.letters, 1⟩ :: items source := by
  have hbreak : s.letters.count '\n' = 0 := List.count_eq_zero.mpr (break_notMem_letters s)
  have hblank : Reads 1 (' ' :: source.toList) (items source) :=
    items_eq_itemsFrom source ▸ (reads_itemsFrom 1 source.toList).blank
  have hword : Reads 1 (s.letters ++ ' ' :: source.toList)
      (.token ⟨.symbol s, String.ofList s.letters, 1⟩ :: items source) := by
    have hline : 1 + s.letters.count '\n' = 1 := by rw [hbreak]
    have htoken := Reads.token ((Form.word hs).longest_before_blank source.toList)
      (hline.symm ▸ hblank)
    rwa [hbreak] at htoken
  rw [hword.eq_itemsFrom, items_eq_itemsFrom]
  simp

/-- The lexemes of tokens with a blank between them are read as these tokens. -/
theorem reads_intercalate {ts : List Token} (h : ∀ t ∈ ts, Form (some t.kind) t.lexeme.toList)
    (line : Nat) :
    ∃ (us : List Token) (last : Nat),
      us.map (fun t => (t.kind, t.lexeme)) = ts.map (fun t => (t.kind, t.lexeme))
        ∧ Reads line ([' '].intercalate (ts.map fun t => t.lexeme.toList))
          (us.map Item.token ++ [.token (.endAt last)]) := by
  induction ts generalizing line with
  | nil => exact ⟨[], line, rfl, .done⟩
  | cons t ts ih =>
      obtain ⟨ht, hts⟩ := List.forall_mem_cons.mp h
      have hlexeme : String.ofList t.lexeme.toList = t.lexeme := String.ofList_toList
      obtain ⟨us, last, hsame, hrest⟩ := ih hts (line + t.lexeme.toList.count '\n')
      refine ⟨{ t with line := line + t.lexeme.toList.count '\n' } :: us, last, by simp [hsame], ?_⟩
      cases ts with
      | nil =>
          have hlast : Longest (some t.kind) t.lexeme.toList (t.lexeme.toList ++ []) := by
            rw [List.append_nil]
            exact longest_self ht
          have htoken := Reads.token hlast hrest
          rw [List.append_nil, hlexeme] at htoken
          rw [List.map_singleton, List.intercalate_singleton]
          exact htoken
      | cons t' ts =>
          have hblank := hrest.blank
          have htoken := Reads.token (ht.longest_before_blank _) hblank
          rw [hlexeme] at htoken
          simpa [List.intercalate_cons_cons] using htoken

theorem form_of_mem_pieces {source : List Char} (h : .token kind text ∈ pieces source) :
    Form (some kind) text := by
  fun_induction pieces source with
  | case1 => cases h
  | case2 c cs ih =>
      rcases List.mem_cons.mp h with h | h
      · rcases readPiece_cases c cs with ⟨kind?, hkind, hform⟩ | ⟨-, -, hread⟩ | ⟨-, hread⟩
        · rw [← h] at hkind hform
          cases hkind
          exact hform
        · rw [hread] at h
          cases h
        · rw [hread] at h
          cases h
      · exact ih h

/-- The lexemes of a source with a blank between them scan without errors, to tokens of the same
kinds with the same values and lexemes. -/
theorem joined_lexemes_scan_alike (source : String) :
    let joined := " ".intercalate ((tokens source).dropLast.map Token.lexeme)
    errors joined = [] ∧ (tokens joined).map (fun t => (t.kind, t.lexeme))
      = (tokens source).map fun t => (t.kind, t.lexeme) := by
  intro joined
  have hform : ∀ t ∈ (tokens source).dropLast, Form (some t.kind) t.lexeme.toList := by
    intro t ht
    rw [dropLast_tokens] at ht
    obtain ⟨item, hitem, htoken⟩ := List.mem_filterMap.mp ht
    cases item with
    | error e => cases htoken
    | token u =>
        cases htoken
        obtain ⟨text, hmem, hlexeme⟩ := exists_piece_of_token hitem
        rw [hlexeme, String.toList_ofList]
        exact form_of_mem_pieces hmem
  obtain ⟨us, last, hsame, hreads⟩ := reads_intercalate hform 1
  have hjoined : joined.toList
      = [' '].intercalate ((tokens source).dropLast.map fun t => t.lexeme.toList) := by
    rw [String.toList_intercalate, List.map_map]
    rfl
  rw [← hjoined] at hreads
  have hitems : items joined = us.map Item.token ++ [.token (.endAt last)] :=
    (items_eq_itemsFrom joined).trans hreads.eq_itemsFrom.symm
  rw [errors, tokens, hitems]
  constructor
  · simp [Item.error?, Function.comp_def]
  · rw [tokens_eq source, ← dropLast_tokens, List.map_append, ← hsame]
    simp [Item.token?, Function.comp_def, Token.endAt]

end Lox.Lexer
