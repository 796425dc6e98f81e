import Mathlib.Data.List.Basic
import Mathlib.Data.List.TakeWhile
import Lox.Proofs.Token.Scanning

/-!
# Longest match

The lexical forms are blanks, comments, punctuation marks, strings, numbers, reserved words and
names. A source is read from left to right: at each place the longest text of some form is taken, and
where none stands there is an error.
-/

namespace Lox.Lexer

/-- The text has a lexical form. It is a token of the given kind, or a blank or a comment. -/
inductive Form : Option Token.Kind → List Char → Prop
  | blank {c : Char} (hblank : isBlank c = true) : Form none [c]
  | comment {body : List Char} (hbody : '\n' ∉ body) : Form none ('/' :: '/' :: body)
  | mark {s : Symbol} (hs : s ∈ Symbol.marks) : Form (some (.symbol s)) s.letters
  | string {body : List Char} (hbody : '"' ∉ body) :
      Form (some (.string (String.ofList body))) ('"' :: body ++ ['"'])
  | integer {whole : List Char} (hne : whole ≠ []) (hwhole : ∀ d ∈ whole, d.isDigit = true) :
      Form (some (.number (numberValue whole []))) whole
  | decimal {whole fraction : List Char} (hne : whole ≠ [])
      (hwhole : ∀ d ∈ whole, d.isDigit = true) (hne' : fraction ≠ [])
      (hfraction : ∀ d ∈ fraction, d.isDigit = true) :
      Form (some (.number (numberValue whole fraction))) (whole ++ '.' :: fraction)
  | word {s : Symbol} (hs : s ∈ Symbol.words) : Form (some (.symbol s)) s.letters
  | identifier {c : Char} {cs : List Char} (hc : isNameStart c = true)
      (hcs : ∀ d ∈ cs, isNamePart d = true) (hword : ∀ s ∈ Symbol.words, s.letters ≠ c :: cs) :
      Form (some .identifier) (c :: cs)

/-- The text is the longest one of any form at the front of the input. -/
structure Longest (kind? : Option Token.Kind) (text input : List Char) : Prop where
  form : Form kind? text
  front : text <+: input
  length_le : ∀ {kind?' : Option Token.Kind} {text' : List Char}, Form kind?' text' →
    text' <+: input → text'.length ≤ text.length

/-- No text of any form stands at the front of the input. -/
def Formless (input : List Char) : Prop :=
  ∀ (kind? : Option Token.Kind) (text : List Char), Form kind? text → ¬ text <+: input

/-- Reading an input from the given line on by longest match. -/
inductive Reads : Nat → List Char → List Item → Prop
  | done {line : Nat} : Reads line [] [.token (.endAt line)]
  | skip {line : Nat} {text rest : List Char} {xs : List Item}
      (htext : Longest none text (text ++ rest))
      (hrest : Reads (line + text.count '\n') rest xs) : Reads line (text ++ rest) xs
  | token {line : Nat} {kind : Token.Kind} {text rest : List Char} {xs : List Item}
      (htext : Longest (some kind) text (text ++ rest))
      (hrest : Reads (line + text.count '\n') rest xs) :
      Reads line (text ++ rest)
        (.token ⟨kind, String.ofList text, line + text.count '\n'⟩ :: xs)
  | unexpected {line : Nat} {c : Char} {rest : List Char} {xs : List Item}
      (hnone : Formless (c :: rest)) (hc : c ≠ '"') (hrest : Reads line rest xs) :
      Reads line (c :: rest) (.error ⟨.unexpected c, line⟩ :: xs)
  | unterminated {line : Nat} {body : List Char} (hnone : Formless ('"' :: body))
      (hbody : '"' ∉ body) :
      Reads line ('"' :: body) [.error ⟨.unterminatedString, line + body.count '\n'⟩,
        .token (.endAt (line + body.count '\n'))]

/-- What a character may begin. -/
inductive Lead
  | blank | string | number | name | other
  deriving DecidableEq

/-- What the character begins. -/
def lead (c : Char) : Lead :=
  if isBlank c then .blank
  else if c == '"' then .string
  else if c.isDigit then .number
  else if isNameStart c then .name
  else .other

variable {kind? : Option Token.Kind} {c : Char} {cs text : List Char}

theorem isDigit_of_isBlank (h : isBlank c = true) : c.isDigit = false := by
  simp only [isBlank, Bool.or_eq_true, beq_iff_eq] at h
  rcases h with ((rfl | rfl) | rfl) | rfl <;> decide

theorem isNameStart_of_isBlank (h : isBlank c = true) : isNameStart c = false := by
  simp only [isBlank, Bool.or_eq_true, beq_iff_eq] at h
  rcases h with ((rfl | rfl) | rfl) | rfl <;> decide

theorem isNameStart_of_isDigit (h : c.isDigit = true) : isNameStart c = false := by
  simp only [Char.isDigit, Bool.and_eq_true, decide_eq_true_eq] at h
  have hupper : c.isUpper = false :=
    decide_eq_false fun hA => absurd (UInt32.le_trans hA.1 h.2) (by decide)
  have hlower : c.isLower = false := by
    rw [Bool.eq_false_iff]
    intro ha
    have hge := of_decide_eq_true (Bool.and_eq_true_iff.mp ha).1
    exact absurd (UInt32.le_trans hge h.2) (by decide)
  have hline : (c == '_') = false := by
    rw [beq_eq_false_iff_ne]
    rintro rfl
    exact absurd h.2 (by decide)
  change (c.isUpper || c.isLower || c == '_') = false
  rw [hupper, hlower, hline]
  rfl

theorem lead_of_isDigit (h : c.isDigit = true) : lead c = .number := by
  have hblank : ¬ isBlank c = true := fun hc => by simp [isDigit_of_isBlank hc] at h
  have hquote : ¬ (c == '"') = true := fun hc => by
    rw [beq_iff_eq.mp hc] at h
    exact absurd h (by decide)
  rw [lead, if_neg hblank, if_neg hquote, if_pos h]

theorem lead_of_isNameStart (h : isNameStart c = true) : lead c = .name := by
  have hblank : ¬ isBlank c = true := fun hc => by simp [isNameStart_of_isBlank hc] at h
  have hquote : ¬ (c == '"') = true := fun hc => by
    rw [beq_iff_eq.mp hc] at h
    exact absurd h (by decide)
  have hdigit : ¬ c.isDigit = true := fun hc => by simp [isNameStart_of_isDigit hc] at h
  rw [lead, if_neg hblank, if_neg hquote, if_neg hdigit, if_pos h]

theorem Form.ne_nil (h : Form kind? text) : text ≠ [] := by
  cases h with
  | @mark s hs => cases s <;> simp [Symbol.letters]
  | @word s hs => cases s <;> simp [Symbol.letters]
  | integer hne _ => exact hne
  | _ => simp

/-- The text of a mark begins no other form. -/
theorem lead_of_mem_marks {s : Symbol} (hs : s ∈ Symbol.marks) (h : s.letters = c :: cs) :
    lead c = .other := by
  have hall : ∀ s ∈ Symbol.marks, s.letters.head?.all (lead · == .other) = true := by decide
  have hlead := hall s hs
  rw [h] at hlead
  simpa using hlead

/-- A reserved word has the letters of a name. -/
theorem name_of_mem_words {s : Symbol} (hs : s ∈ Symbol.words) (h : s.letters = c :: cs) :
    isNameStart c = true ∧ (∀ d ∈ cs, isNamePart d = true) ∧ nameKind (c :: cs) = .symbol s := by
  have hall : ∀ s ∈ Symbol.words, s.letters.head?.all isNameStart = true
      ∧ s.letters.tail.all isNamePart = true ∧ nameKind s.letters = .symbol s := by decide +kernel
  obtain ⟨hstart, hparts, hkind⟩ := hall s hs
  rw [h] at hstart hparts hkind
  exact ⟨by simpa using hstart, List.all_eq_true.mp hparts, hkind⟩

theorem nameKind_of_not_word {name : List Char} (h : ∀ s ∈ Symbol.words, s.letters ≠ name) :
    nameKind name = .identifier := by
  have hnone : Symbol.ofWord? name = none := by
    rw [Symbol.ofWord?, List.find?_eq_none]
    exact fun s hs heq => h s hs (beq_iff_eq.mp heq)
  rw [nameKind, hnone]

/-- What a form looks like whose first character is known. -/
theorem Form.cases_lead (h : Form kind? (c :: cs)) :
    match lead c with
    | .blank => kind? = none ∧ cs = []
    | .string => ∃ body, '"' ∉ body ∧ cs = body ++ ['"']
        ∧ kind? = some (.string (String.ofList body))
    | .number => (∀ d ∈ c :: cs, d.isDigit = true)
          ∧ kind? = some (.number (numberValue (c :: cs) []))
        ∨ ∃ whole fraction, c :: cs = whole ++ '.' :: fraction ∧ fraction ≠ []
          ∧ (∀ d ∈ whole, d.isDigit = true) ∧ (∀ d ∈ fraction, d.isDigit = true)
          ∧ kind? = some (.number (numberValue whole fraction))
    | .name => (∀ d ∈ cs, isNamePart d = true) ∧ kind? = some (nameKind (c :: cs))
    | .other => (∃ body, '\n' ∉ body ∧ c :: cs = '/' :: '/' :: body ∧ kind? = none)
        ∨ ∃ s ∈ Symbol.marks, s.letters = c :: cs ∧ kind? = some (.symbol s) := by
  generalize htext : c :: cs = text at h
  cases h with
  | blank hblank =>
      obtain ⟨rfl, rfl⟩ := List.cons_eq_cons.mp htext
      rw [lead, if_pos hblank]
      exact ⟨rfl, rfl⟩
  | @comment body hbody =>
      obtain ⟨rfl, rfl⟩ := List.cons_eq_cons.mp htext
      exact Or.inl ⟨body, hbody, rfl, rfl⟩
  | mark hs =>
      rw [lead_of_mem_marks hs htext.symm]
      exact Or.inr ⟨_, hs, rfl, rfl⟩
  | @string body hbody =>
      obtain ⟨rfl, rfl⟩ := List.cons_eq_cons.mp htext
      exact ⟨body, hbody, rfl, rfl⟩
  | integer hne hwhole =>
      subst htext
      rw [lead_of_isDigit (hwhole c List.mem_cons_self)]
      exact Or.inl ⟨hwhole, rfl⟩
  | @decimal whole fraction hne hwhole hne' hfraction =>
      have hc : c ∈ whole := by
        cases whole with
        | nil => exact absurd rfl hne
        | cons d ds =>
            rw [(List.cons_eq_cons.mp htext).1]
            exact List.mem_cons_self
      rw [lead_of_isDigit (hwhole c hc)]
      exact Or.inr ⟨whole, fraction, rfl, hne', hwhole, hfraction, rfl⟩
  | word hs =>
      obtain ⟨hc, hcs, hkind⟩ := name_of_mem_words hs htext.symm
      rw [lead_of_isNameStart hc]
      exact ⟨hcs, by rw [← htext, hkind]⟩
  | identifier hc hcs hword =>
      obtain ⟨rfl, rfl⟩ := List.cons_eq_cons.mp htext
      rw [lead_of_isNameStart hc]
      exact ⟨hcs, by rw [nameKind_of_not_word hword]⟩

/-- The form of a piece; an error has none. -/
def Piece.form? : Piece → Option (Option Token.Kind)
  | .blank _ => some none
  | .comment _ => some none
  | .token kind _ => some (some kind)
  | .unexpected _ => none
  | .unterminated _ => none

/-- The text of the piece has the form of the piece. -/
def Piece.Formed (p : Piece) : Prop :=
  ∃ kind?, p.form? = some kind? ∧ Form kind? p.text

theorem of_mem_takeWhile {p : Char → Bool} {input : List Char} :
    ∀ d ∈ input.takeWhile p, p d = true :=
  fun _ hd => List.mem_takeWhile_imp hd

theorem takeWhile_append_stop_of {p : Char → Bool} {l : List Char} {x : Char}
    (hl : ∀ d ∈ l, p d = true) (hx : p x = false) (more : List Char) :
    (l ++ x :: more).takeWhile p = l := by
  rw [List.takeWhile_append_of_pos hl, List.takeWhile_cons_of_neg (by simp [hx]), List.append_nil]

theorem dropWhile_append_stop_of {p : Char → Bool} {l : List Char} {x : Char}
    (hl : ∀ d ∈ l, p d = true) (hx : p x = false) (more : List Char) :
    (l ++ x :: more).dropWhile p = x :: more := by
  rw [List.dropWhile_append_of_pos hl, List.dropWhile_cons_of_neg (by simp [hx])]

theorem length_le_takeWhile {p : Char → Bool} {l input : List Char} (hl : ∀ d ∈ l, p d = true)
    (h : l <+: input) : l.length ≤ (input.takeWhile p).length := by
  obtain ⟨more, rfl⟩ := h
  rw [List.takeWhile_append_of_pos hl, List.length_append]
  exact Nat.le_add_right _ _

theorem readString_closed {body : List Char} (hbody : '"' ∉ body) (rest : List Char) :
    readString (body ++ '"' :: rest)
      = (.token (.string (String.ofList body)) ('"' :: body ++ ['"']), rest) := by
  have hquote : ∀ d ∈ body, (d != '"') = true := fun d hd => by
    rw [bne_iff_ne]
    rintro rfl
    exact hbody hd
  simp only [readString, takeWhile_append_stop_of hquote (by rfl : ('"' != '"') = false),
    dropWhile_append_stop_of hquote (by rfl : ('"' != '"') = false)]

theorem readString_open (h : '"' ∉ cs) : readString cs = (.unterminated ('"' :: cs), []) := by
  have hquote : ∀ d ∈ cs, (d != '"') = true := fun d hd => by
    rw [bne_iff_ne]
    rintro rfl
    exact h hd
  have hdrop : cs.dropWhile (· != '"') = [] := List.dropWhile_eq_nil_iff.mpr hquote
  have htake : cs.takeWhile (· != '"') = cs := List.takeWhile_eq_self_iff.mpr hquote
  simp only [readString, hdrop, htake]

theorem formed_readNumber (hc : c.isDigit = true) : (readNumber c cs).1.Formed := by
  have hwhole : ∀ d ∈ c :: cs.takeWhile Char.isDigit, d.isDigit = true := by
    rw [List.forall_mem_cons]
    exact ⟨hc, of_mem_takeWhile⟩
  have hinteger := Form.integer (List.cons_ne_nil c (cs.takeWhile Char.isDigit)) hwhole
  unfold readNumber
  dsimp only
  split
  · split
    · next point after hdrop hd =>
      have hfraction : ∀ d ∈ point :: after.takeWhile Char.isDigit, d.isDigit = true := by
        rw [List.forall_mem_cons]
        exact ⟨hd, of_mem_takeWhile⟩
      exact ⟨_, rfl, Form.decimal (List.cons_ne_nil _ _) hwhole (List.cons_ne_nil _ _) hfraction⟩
    · exact ⟨_, rfl, hinteger⟩
  · exact ⟨_, rfl, hinteger⟩

theorem formed_readName (hc : isNameStart c = true) : (readName c cs).1.Formed := by
  unfold readName
  refine ⟨_, rfl, ?_⟩
  dsimp only [Piece.text]
  cases hword : Symbol.ofWord? (c :: cs.takeWhile isNamePart) with
  | none =>
      have hnot := List.find?_eq_none.mp hword
      simp only [nameKind, hword]
      exact .identifier hc of_mem_takeWhile fun s hs => by simpa using hnot s hs
  | some s =>
      have hfound := List.find?_some hword
      have hs : s.letters = c :: cs.takeWhile isNamePart := beq_iff_eq.mp hfound
      have hkind : nameKind (c :: cs.takeWhile isNamePart) = .symbol s := by rw [nameKind, hword]
      rw [hkind, ← hs]
      exact .word (List.mem_of_find?_eq_some hword)

theorem formed_readComment (h : cs.head? = some '/') : (readComment cs).1.Formed := by
  obtain ⟨tail, rfl⟩ := List.head?_eq_some_iff.mp h
  refine ⟨none, rfl, ?_⟩
  have htext : (readComment ('/' :: tail)).1.text = '/' :: '/' :: tail.takeWhile (· != '\n') := by
    simp [readComment, Piece.text]
  rw [htext]
  exact .comment fun hbreak => by simpa using of_mem_takeWhile _ hbreak

theorem formed_readMark {s : Symbol} (h : Symbol.ofMark? (c :: cs) = some s) :
    (readMark c cs).1.Formed := by
  rw [readMark, h]
  exact ⟨_, rfl, .mark (List.mem_of_find?_eq_some h)⟩

/-- What is read has a form, or is a quote that no later quote closes, or begins no mark. -/
theorem readPiece_cases (c : Char) (cs : List Char) :
    (readPiece c cs).1.Formed
      ∨ (c = '"' ∧ '"' ∉ cs ∧ readPiece c cs = (.unterminated ('"' :: cs), []))
      ∨ (c ≠ '"' ∧ readPiece c cs = (.unexpected c, cs)) := by
  unfold readPiece
  split
  · next hblank => exact Or.inl ⟨none, rfl, .blank hblank⟩
  split
  · next hquote =>
    by_cases hclosed : '"' ∈ cs
    · obtain ⟨body, rest, rfl, hbody⟩ := List.eq_append_cons_of_mem hclosed
      rw [readString_closed hbody]
      exact Or.inl ⟨_, rfl, .string hbody⟩
    · exact Or.inr (Or.inl ⟨beq_iff_eq.mp hquote, hclosed, readString_open hclosed⟩)
  split
  · next hdigit => exact Or.inl (formed_readNumber hdigit)
  split
  · next hname => exact Or.inl (formed_readName hname)
  split
  · next hcomment =>
    rw [Bool.and_eq_true, beq_iff_eq, beq_iff_eq] at hcomment
    exact Or.inl (formed_readComment hcomment.2)
  · next hquote _ _ _ =>
    cases hmark : Symbol.ofMark? (c :: cs) with
    | some s => exact Or.inl (formed_readMark hmark)
    | none => exact Or.inr (Or.inr ⟨by simpa using hquote, by rw [readMark, hmark]⟩)

/-! ## No form is longer -/

/-- The text of the piece has a form and is at least as long as `text`. -/
def Piece.Covers (text : List Char) (p : Piece) : Prop :=
  p.form? ≠ none ∧ text.length ≤ p.text.length

theorem covers_readString {body : List Char} (hbody : '"' ∉ body)
    (h : body ++ ['"'] <+: cs) : (readString cs).1.Covers ('"' :: (body ++ ['"'])) := by
  obtain ⟨rest, rfl⟩ := h
  rw [List.append_assoc, List.singleton_append, readString_closed hbody]
  exact ⟨nofun, Nat.le_refl _⟩

theorem covers_readNumber_integer {whole : List Char} (hwhole : ∀ d ∈ whole, d.isDigit = true)
    (h : whole <+: cs) : (readNumber c cs).1.Covers (c :: whole) := by
  have hle := length_le_takeWhile hwhole h
  unfold readNumber
  dsimp only
  split
  · split
    · refine ⟨Option.some_ne_none _, ?_⟩
      simp only [Piece.text, List.length_append, List.length_cons]
      omega
    · exact ⟨Option.some_ne_none _, Nat.succ_le_succ hle⟩
  · exact ⟨Option.some_ne_none _, Nat.succ_le_succ hle⟩

theorem covers_readNumber_decimal {whole fraction : List Char}
    (hwhole : ∀ d ∈ whole, d.isDigit = true) (hne : fraction ≠ [])
    (hfraction : ∀ d ∈ fraction, d.isDigit = true) (h : whole ++ '.' :: fraction <+: cs) :
    (readNumber c cs).1.Covers (c :: (whole ++ '.' :: fraction)) := by
  obtain ⟨more, rfl⟩ := h
  obtain ⟨d, ds, rfl⟩ := List.exists_cons_of_ne_nil hne
  rw [List.forall_mem_cons] at hfraction
  have hpoint : Char.isDigit '.' = false := by decide
  have hinput : whole ++ '.' :: d :: ds ++ more = whole ++ '.' :: (d :: ds ++ more) := by simp
  have hle := length_le_takeWhile hfraction.2 (List.prefix_append ds more)
  rw [hinput]
  simp only [readNumber, takeWhile_append_stop_of hwhole hpoint,
    dropWhile_append_stop_of hwhole hpoint, List.cons_append, hfraction.1, if_true]
  refine ⟨nofun, ?_⟩
  simp only [Piece.text, List.length_append, List.length_cons]
  omega

theorem covers_readName (hcs : ∀ d ∈ text, isNamePart d = true) (h : text <+: cs) :
    (readName c cs).1.Covers (c :: text) :=
  ⟨nofun, Nat.succ_le_succ (length_le_takeWhile hcs h)⟩

theorem covers_readComment {body : List Char} (hbody : '\n' ∉ body) (h : '/' :: body <+: cs) :
    (readComment cs).1.Covers ('/' :: '/' :: body) := by
  have hline : ∀ d ∈ '/' :: body, (d != '\n') = true := by
    intro d hd
    rw [bne_iff_ne]
    rintro rfl
    simp [hbody] at hd
  exact ⟨nofun, Nat.succ_le_succ (length_le_takeWhile hline h)⟩

theorem longest_mark_first :
    Symbol.marks.Pairwise fun s s' => s'.letters.length ≤ s.letters.length := by
  decide

theorem covers_readMark {s : Symbol} (hs : s ∈ Symbol.marks) (h : s.letters <+: c :: cs) :
    (readMark c cs).1.Covers s.letters := by
  have hfits : s.letters.isPrefixOf (c :: cs) = true := List.isPrefixOf_iff_prefix.mpr h
  cases hfirst : Symbol.ofMark? (c :: cs) with
  | none => exact absurd hfits (List.find?_eq_none.mp hfirst s hs)
  | some first =>
      rw [readMark, hfirst]
      refine ⟨Option.some_ne_none _, ?_⟩
      -- `first` stands before every other mark that fits, and marks stand in order of length.
      obtain ⟨_, before, after, hmarks, hbefore⟩ := List.find?_eq_some_iff_append.mp hfirst
      have horder := longest_mark_first
      rw [hmarks] at hs horder
      rcases List.mem_append.mp hs with hs | hs
      · have hnot := hbefore s hs
        rw [hfits] at hnot
        exact absurd hnot (by decide)
      rcases List.mem_cons.mp hs with rfl | hs
      · exact Nat.le_refl _
      · exact (List.pairwise_cons.mp (List.pairwise_append.mp horder).2.1).1 s hs

theorem nil_of_slash_mark {s : Symbol} (h : s.letters = '/' :: cs) : cs = [] := by
  cases s <;> cases h
  rfl

/-- What is read at the front of an input has a form if any text there has one, and is as long. -/
theorem covers_readPiece (h : Form kind? text) (hfront : text <+: c :: cs) :
    (readPiece c cs).1.Covers text := by
  obtain ⟨c', t, rfl⟩ := List.exists_cons_of_ne_nil h.ne_nil
  obtain ⟨rfl, ht⟩ := List.cons_prefix_cons.mp hfront
  have hform := h.cases_lead
  unfold readPiece
  split
  · next hblank =>
    rw [lead, if_pos hblank] at hform
    obtain ⟨-, rfl⟩ := hform
    exact ⟨nofun, Nat.le_refl _⟩
  split
  · next hblank hquote =>
    rw [lead, if_neg hblank, if_pos hquote] at hform
    obtain ⟨body, hbody, rfl, -⟩ := hform
    rw [beq_iff_eq.mp hquote]
    exact covers_readString hbody ht
  split
  · next hblank hquote hdigit =>
    rw [lead, if_neg hblank, if_neg hquote, if_pos hdigit] at hform
    rcases hform with ⟨hwhole, -⟩ | ⟨whole, fraction, heq, hne, hwhole, hfraction, -⟩
    · exact covers_readNumber_integer (List.forall_mem_cons.mp hwhole).2 ht
    · cases whole with
      | nil =>
          rw [(List.cons_eq_cons.mp heq).1] at hdigit
          exact absurd hdigit (by decide)
      | cons d ds =>
          obtain ⟨rfl, rfl⟩ := List.cons_eq_cons.mp heq
          exact covers_readNumber_decimal (List.forall_mem_cons.mp hwhole).2 hne hfraction ht
  split
  · next hblank hquote hdigit hname =>
    rw [lead, if_neg hblank, if_neg hquote, if_neg hdigit, if_pos hname] at hform
    exact covers_readName hform.1 ht
  · next hblank hquote hdigit hname =>
    rw [lead, if_neg hblank, if_neg hquote, if_neg hdigit, if_neg hname] at hform
    split
    · next hcomment =>
      rw [Bool.and_eq_true, beq_iff_eq, beq_iff_eq] at hcomment
      obtain ⟨rfl, hhead⟩ := hcomment
      rcases hform with ⟨body, hbody, heq, -⟩ | ⟨s, hs, heq, -⟩
      · rw [(List.cons_eq_cons.mp heq).2] at ht ⊢
        exact covers_readComment hbody ht
      · rw [nil_of_slash_mark heq]
        exact ⟨nofun, Nat.succ_le_succ (Nat.zero_le _)⟩
    · next hcomment =>
      rcases hform with ⟨body, hbody, heq, -⟩ | ⟨s, hs, heq, -⟩
      · obtain ⟨rfl, rfl⟩ := List.cons_eq_cons.mp heq
        obtain ⟨more, rfl⟩ := ht
        exact absurd rfl hcomment
      · rw [← heq] at hfront ⊢
        exact covers_readMark hs hfront

/-! ## Reading by longest match -/

/-- A piece that has a form is the longest text of any form at the front of the input. -/
theorem longest_readPiece (h : (readPiece c cs).1.Formed) :
    ∃ kind?, (readPiece c cs).1.form? = some kind?
      ∧ Longest kind? (readPiece c cs).1.text (c :: cs) := by
  obtain ⟨kind?, hkind, hform⟩ := h
  exact ⟨kind?, hkind, hform, ⟨_, text_readPiece c cs⟩,
    fun h hfront => (covers_readPiece h hfront).2⟩

theorem formless_of_form? (h : (readPiece c cs).1.form? = none) : Formless (c :: cs) :=
  fun _ _ hform hfront => (covers_readPiece hform hfront).1 h

theorem find?_letters_marks :
    ∀ s ∈ Symbol.marks, Symbol.marks.find? (fun s' => s'.letters == s.letters) = some s := by
  decide

/-- A text has at most one form. -/
theorem Form.kind_unique {kind?' : Option Token.Kind} (h : Form kind? text)
    (h' : Form kind?' text) : kind? = kind?' := by
  obtain ⟨c, cs, rfl⟩ := List.exists_cons_of_ne_nil h.ne_nil
  have hform := h.cases_lead
  have hform' := h'.cases_lead
  cases hlead : lead c with
  | blank =>
      rw [hlead] at hform hform'
      rw [hform.1, hform'.1]
  | string =>
      rw [hlead] at hform hform'
      obtain ⟨body, -, rfl, rfl⟩ := hform
      obtain ⟨body', -, heq, rfl⟩ := hform'
      rw [List.append_cancel_right heq]
  | number =>
      rw [hlead] at hform hform'
      have hpoint {whole fraction : List Char} (hdigits : ∀ d ∈ c :: cs, d.isDigit = true)
          (heq : c :: cs = whole ++ '.' :: fraction) : False := by
        have h := hdigits '.' (by simp [heq])
        exact absurd h (by decide)
      have hnot {whole : List Char} (hwhole : ∀ d ∈ whole, d.isDigit = true) : '.' ∉ whole :=
        fun hmem => absurd (hwhole '.' hmem) (by decide)
      rcases hform with ⟨hdigits, rfl⟩ | ⟨whole, fraction, heq, -, hwhole, hfraction, rfl⟩
        <;> rcases hform' with ⟨hdigits', rfl⟩ | ⟨whole', fraction', heq', -, -, -, rfl⟩
      · rfl
      · exact (hpoint hdigits heq').elim
      · exact (hpoint hdigits' heq).elim
      · obtain ⟨rfl, -, rfl⟩ := (List.append_cons_inj_of_notMem (hnot hwhole)
          (hnot hfraction)).mp (heq.symm.trans heq')
        rfl
  | name =>
      rw [hlead] at hform hform'
      rw [hform.2, hform'.2]
  | other =>
      rw [hlead] at hform hform'
      have hcomment {s : Symbol} {body : List Char} (heq : c :: cs = '/' :: '/' :: body)
          (hs : s.letters = c :: cs) : False :=
        List.cons_ne_nil _ _ (nil_of_slash_mark (hs.trans heq))
      rcases hform with ⟨body, -, heq, rfl⟩ | ⟨s, hs, heq, rfl⟩
        <;> rcases hform' with ⟨body', -, heq', rfl⟩ | ⟨s', hs', heq', rfl⟩
      · rfl
      · exact (hcomment heq heq').elim
      · exact (hcomment heq' heq).elim
      · have hfind := find?_letters_marks s hs
        rw [heq.trans heq'.symm, find?_letters_marks s' hs'] at hfind
        rw [Option.some.inj hfind]

theorem Longest.unique {kind?' : Option Token.Kind} {text' input : List Char}
    (h : Longest kind? text input) (h' : Longest kind?' text' input) :
    text = text' ∧ kind? = kind?' := by
  have hlength : text.length = text'.length :=
    Nat.le_antisymm (h'.length_le h.form h.front) (h.length_le h'.form h'.front)
  obtain rfl : text = text' :=
    (List.prefix_of_prefix_length_le h.front h'.front (Nat.le_of_eq hlength)).eq_of_length hlength
  exact ⟨rfl, h.form.kind_unique h'.form⟩

theorem item?_of_form?_none {p : Piece} (h : p.form? = some none) (line : Nat) :
    p.item? line = none := by
  cases p <;> first | rfl | cases h

theorem item?_of_form?_some {p : Piece} {kind : Token.Kind} (h : p.form? = some (some kind))
    (line : Nat) : p.item? line = some (.token ⟨kind, String.ofList p.text, line⟩) := by
  cases p <;> cases h
  rfl

theorem Formless.ne_break (h : Formless (c :: cs)) : c ≠ '\n' := by
  rintro rfl
  exact h none ['\n'] (.blank (by decide)) (List.prefix_append ['\n'] cs)

theorem lastLine_unexpected (h : c ≠ '\n') (line : Nat) :
    (Piece.unexpected c).lastLine line = line := by
  simp [Piece.lastLine, Piece.text, h]

theorem lastLine_unterminated (body : List Char) (line : Nat) :
    (Piece.unterminated ('"' :: body)).lastLine line = line + body.count '\n' := by
  simp [Piece.lastLine, Piece.text]

theorem reads_itemsFrom (line : Nat) (input : List Char) :
    Reads line input (itemsFrom line (pieces input)) := by
  fun_induction pieces input generalizing line with
  | case1 => exact .done
  | case2 c cs ih =>
      have hnone : (readPiece c cs).1.form? = none → Formless (c :: cs) := formless_of_form?
      rcases readPiece_cases c cs with hformed | ⟨rfl, hopen, hread⟩ | ⟨hc, hread⟩
      · obtain ⟨kind?, hkind, hlongest⟩ := longest_readPiece hformed
        have hrest := ih ((readPiece c cs).1.lastLine line)
        rw [← text_readPiece c cs] at hlongest ⊢
        rw [itemsFrom]
        cases kind? with
        | none =>
            rw [item?_of_form?_none hkind]
            exact .skip hlongest hrest
        | some kind =>
            rw [item?_of_form?_some hkind]
            exact .token hlongest hrest
      · rw [hread] at hnone ⊢
        rw [pieces, itemsFrom, lastLine_unterminated]
        exact .unterminated (hnone rfl) hopen
      · have hrest := ih line
        rw [hread] at hnone hrest ⊢
        rw [itemsFrom, lastLine_unexpected (hnone rfl).ne_break]
        exact .unexpected (hnone rfl) hc hrest

/-- The longest text of a form is the first piece that is read. -/
theorem Longest.pieces_eq {rest : List Char} (h : Longest kind? text (text ++ rest)) :
    ∃ p : Piece, pieces (text ++ rest) = p :: pieces rest ∧ p.form? = some kind?
      ∧ p.text = text := by
  obtain ⟨c, cs, hinput⟩ := List.exists_cons_of_ne_nil
    (List.append_ne_nil_of_left_ne_nil h.form.ne_nil rest)
  rw [hinput] at h ⊢
  have hcovers := covers_readPiece h.form h.front
  rcases readPiece_cases c cs with hformed | ⟨-, -, hread⟩ | ⟨-, hread⟩
  · obtain ⟨kind?', hkind, hlongest⟩ := longest_readPiece hformed
    obtain ⟨htext, rfl⟩ := h.unique hlongest
    have hsplit := text_readPiece c cs
    rw [← hinput, ← htext] at hsplit
    rw [pieces, List.append_cancel_left hsplit]
    exact ⟨_, rfl, hkind, htext.symm⟩
  · exact absurd (by rw [hread]; rfl) hcovers.1
  · exact absurd (by rw [hread]; rfl) hcovers.1

theorem Formless.not_formed (h : Formless (c :: cs)) : ¬ (readPiece c cs).1.Formed :=
  fun ⟨_, _, hform⟩ => h _ _ hform ⟨_, text_readPiece c cs⟩

theorem Reads.eq_itemsFrom {line : Nat} {input : List Char} {xs : List Item}
    (h : Reads line input xs) : xs = itemsFrom line (pieces input) := by
  induction h with
  | done => rw [pieces, itemsFrom]
  | skip htext _ ih =>
      obtain ⟨p, hpieces, hkind, rfl⟩ := htext.pieces_eq
      rw [hpieces, itemsFrom, item?_of_form?_none hkind, ih]
      rfl
  | token htext _ ih =>
      obtain ⟨p, hpieces, hkind, rfl⟩ := htext.pieces_eq
      rw [hpieces, itemsFrom, item?_of_form?_some hkind, ih]
      rfl
  | @unexpected line c rest xs hnone hc _ ih =>
      rcases readPiece_cases c rest with hformed | ⟨hquote, -, -⟩ | ⟨-, hread⟩
      · exact absurd hformed hnone.not_formed
      · exact absurd hquote hc
      · rw [pieces, hread, itemsFrom, lastLine_unexpected hnone.ne_break, ih]
        rfl
  | @unterminated line body hnone hbody =>
      have hread : readPiece '"' body = (.unterminated ('"' :: body), []) := readString_open hbody
      rw [pieces, hread, itemsFrom, lastLine_unterminated, pieces, itemsFrom]
      rfl

/-- The items of a source are what reading it by longest match yields, and nothing else is. -/
theorem reads_iff_eq_items (source : String) (xs : List Item) :
    Reads 1 source.toList xs ↔ xs = items source := by
  rw [items_eq_itemsFrom]
  constructor
  · exact Reads.eq_itemsFrom
  · rintro rfl
    exact reads_itemsFrom 1 source.toList

end Lox.Lexer
