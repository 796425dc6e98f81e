import Lox.Grammar.Rule
import Lox.Proofs.Token.Scanning
import Lox.Proofs.Relabelling.Trees

/-!
# Scanning two sources in a row

If a line break separates two sources and every string of the first one is closed, then the pieces
of the whole are those of both sources, with the line break between them. The tokens of the second
source stand further below, and are otherwise the same.
-/

namespace Lox

/-- Tokens stand further below by some number of lines. -/
def Relabelling.below (k : Nat) : Relabelling where
  id i := i
  line l := l + k

namespace Lexer

/-! ## Pieces -/

/-- The piece is a string that never ends. -/
def Piece.isUnterminated : Piece → Bool
  | .unterminated _ => true
  | _ => false

variable {c : Char} {cs more : List Char}

theorem takeWhile_append_stop {p : Char → Bool} {x : Char} (hx : p x = false)
    (cs more : List Char) : (cs ++ x :: more).takeWhile p = cs.takeWhile p := by
  induction cs with
  | nil => simp [hx]
  | cons c cs ih => simp only [List.cons_append, List.takeWhile_cons, ih]

theorem dropWhile_append_stop {p : Char → Bool} {x : Char} (hx : p x = false)
    (cs more : List Char) : (cs ++ x :: more).dropWhile p = cs.dropWhile p ++ x :: more := by
  induction cs with
  | nil => simp [hx]
  | cons c cs ih =>
      simp only [List.cons_append, List.dropWhile_cons, ih]
      split <;> rfl

/-- What reading yields in front of a line break. -/
def beforeBreak (more : List Char) (r : Piece × List Char) : Piece × List Char :=
  (r.1, r.2 ++ '\n' :: more)

theorem readString_append (h : (readString cs).1.isUnterminated = false) (more : List Char) :
    readString (cs ++ '\n' :: more) = beforeBreak more (readString cs) := by
  have hclosed : (cs.dropWhile (· != '"')).isEmpty = false := by
    cases hdrop : cs.dropWhile (· != '"') with
    | nil => simp [readString, hdrop, Piece.isUnterminated] at h
    | cons quote rest => rfl
  have htake : (cs ++ '\n' :: more).takeWhile (· != '"') = cs.takeWhile (· != '"') := by
    rw [List.takeWhile_append, if_neg]
    intro hlen
    have hsplit :=
      congrArg List.length (List.takeWhile_append_dropWhile (p := (· != '"')) (l := cs))
    rw [List.length_append, hlen, Nat.add_eq_left, List.length_eq_zero_iff] at hsplit
    simp [hsplit] at hclosed
  have hdrop : (cs ++ '\n' :: more).dropWhile (· != '"')
      = cs.dropWhile (· != '"') ++ '\n' :: more := by
    simp only [List.dropWhile_append, hclosed, Bool.false_eq_true, if_false]
  simp only [readString, beforeBreak, htake, hdrop]
  cases hrest : cs.dropWhile (· != '"') with
  | nil => simp [hrest] at hclosed
  | cons quote rest => rfl

theorem readNumber_append (c : Char) (cs more : List Char) :
    readNumber c (cs ++ '\n' :: more) = beforeBreak more (readNumber c cs) := by
  have hbreak : Char.isDigit '\n' = false := by decide
  simp only [readNumber, beforeBreak, takeWhile_append_stop hbreak, dropWhile_append_stop hbreak]
  -- A point belongs to the number only with a digit behind it, and a line break is none.
  cases cs.dropWhile Char.isDigit with
  | nil => rfl
  | cons x rest =>
      by_cases hpoint : x = '.'
      · subst hpoint
        cases rest with
        | nil => simp [hbreak]
        | cons d after =>
            simp only [List.cons_append, takeWhile_append_stop hbreak,
              dropWhile_append_stop hbreak]
            split <;> rfl
      · simp [hpoint]

theorem readName_append (c : Char) (cs more : List Char) :
    readName c (cs ++ '\n' :: more) = beforeBreak more (readName c cs) := by
  have hbreak : isNamePart '\n' = false := by decide
  simp only [readName, beforeBreak, takeWhile_append_stop hbreak, dropWhile_append_stop hbreak]

theorem readComment_append (cs more : List Char) :
    readComment (cs ++ '\n' :: more) = beforeBreak more (readComment cs) := by
  have hbreak : ('\n' != '\n') = false := by decide
  simp only [readComment, beforeBreak, takeWhile_append_stop (p := (· != '\n')) hbreak,
    dropWhile_append_stop (p := (· != '\n')) hbreak]

theorem isPrefixOf_append_break {letters : List Char} (h : '\n' ∉ letters) (cs more : List Char) :
    letters.isPrefixOf (cs ++ '\n' :: more) = letters.isPrefixOf cs := by
  induction letters generalizing cs with
  | nil => rfl
  | cons l letters ih =>
      rw [List.mem_cons, not_or] at h
      cases cs with
      | nil => simpa [List.isPrefixOf] using fun hl => absurd hl.symm h.1
      | cons c cs => simp only [List.cons_append, List.isPrefixOf, ih h.2]

theorem break_notMem_letters (s : Symbol) : '\n' ∉ s.letters := by
  cases s <;> decide

theorem readMark_append (c : Char) (cs more : List Char) :
    readMark c (cs ++ '\n' :: more) = beforeBreak more (readMark c cs) := by
  have hmark : Symbol.ofMark? (c :: (cs ++ '\n' :: more)) = Symbol.ofMark? (c :: cs) := by
    unfold Symbol.ofMark?
    congr 1
    funext s
    exact isPrefixOf_append_break (break_notMem_letters s) (c :: cs) more
  unfold readMark
  rw [hmark]
  cases hs : Symbol.ofMark? (c :: cs) with
  | none => rfl
  | some s =>
      have hfound := List.find?_some hs
      have hpre : s.letters <+: c :: cs := List.isPrefixOf_iff_prefix.mp hfound
      have hle : s.letters.length - 1 ≤ cs.length := by
        have hlen := hpre.length_le
        rw [List.length_cons] at hlen
        omega
      simp only [beforeBreak, List.drop_append_of_le_length hle]

/-- A piece in front of a line break is read as at the end of a source, unless it is a string that
never ends. -/
theorem readPiece_append (h : (readPiece c cs).1.isUnterminated = false) (more : List Char) :
    readPiece c (cs ++ '\n' :: more) = beforeBreak more (readPiece c cs) := by
  have hhead : ((cs ++ '\n' :: more).head? == some '/') = (cs.head? == some '/') := by
    cases cs <;> rfl
  unfold readPiece at h ⊢
  rw [hhead]
  split
  · rfl
  split
  · next hblank hquote =>
    rw [if_neg hblank, if_pos hquote] at h
    exact readString_append h more
  split
  · exact readNumber_append c cs more
  split
  · exact readName_append c cs more
  split
  · exact readComment_append cs more
  · exact readMark_append c cs more

theorem pieces_append (h : ∀ p ∈ pieces cs, p.isUnterminated = false) (more : List Char) :
    pieces (cs ++ '\n' :: more) = pieces cs ++ .blank '\n' :: pieces more := by
  fun_induction pieces cs with
  | case1 =>
      rw [List.nil_append, pieces]
      rfl
  | case2 c cs ih =>
      have hfirst : (readPiece c cs).1.isUnterminated = false := h _ List.mem_cons_self
      have hrest : ∀ p ∈ pieces (readPiece c cs).2, p.isUnterminated = false :=
        fun p hp => h p (List.mem_cons_of_mem _ hp)
      rw [List.cons_append, pieces, readPiece_append hfirst, beforeBreak, ih hrest,
        List.cons_append]

theorem nameKind_ne_endOfInput (c : Char) (cs : List Char) : nameKind (c :: cs) ≠ .endOfInput := by
  unfold nameKind
  split <;> simp

/-- No piece of a source is the end of input. -/
theorem kind_ne_readPiece {kind : Token.Kind} {text : List Char}
    (h : (readPiece c cs).1 = .token kind text) : kind ≠ .endOfInput := by
  unfold readPiece at h
  split at h
  · cases h
  split at h
  · unfold readString at h
    dsimp only at h
    split at h
    · cases h
    · cases h
      simp
  split at h
  · unfold readNumber at h
    dsimp only at h
    split at h
    · split at h <;> cases h <;> simp
    · cases h
      simp
  split at h
  · cases h
    exact nameKind_ne_endOfInput c _
  split at h
  · cases h
  · unfold readMark at h
    split at h
    · cases h
      simp
    · cases h

theorem kind_ne_of_mem_pieces {kind : Token.Kind} {text : List Char}
    (h : .token kind text ∈ pieces cs) : kind ≠ .endOfInput := by
  fun_induction pieces cs with
  | case1 => simp at h
  | case2 c cs ih =>
      rcases List.mem_cons.mp h with h | h
      · exact kind_ne_readPiece h.symm
      · exact ih h

/-! ## Items -/

/-- The item on a line that is further below by some number. -/
def Item.lower (k : Nat) : Item → Item
  | .token t => .token ((Relabelling.below k).token t)
  | .error e => .error { e with line := e.line + k }

theorem Piece.item?_lower (line k : Nat) (p : Piece) :
    p.item? (line + k) = (p.item? line).map (Item.lower k) := by
  cases p <;> rfl

theorem Piece.lastLine_lower (line k : Nat) (p : Piece) :
    p.lastLine (line + k) = p.lastLine line + k := by
  simp only [lastLine]
  omega

theorem itemsFrom_lower (line k : Nat) (ps : List Piece) :
    itemsFrom (line + k) ps = (itemsFrom line ps).map (Item.lower k) := by
  induction ps generalizing line with
  | nil => rfl
  | cons p ps ih =>
      simp only [itemsFrom, Piece.lastLine_lower, Piece.item?_lower, ih]
      cases p.item? (p.lastLine line) <;> rfl

/-- The items of pieces without the end of input. -/
def bodyItems (line : Nat) : List Piece → List Item
  | [] => []
  | p :: ps =>
      let last := p.lastLine line
      match p.item? last with
      | some item => item :: bodyItems last ps
      | none => bodyItems last ps

/-- The line on which pieces end that begin on the given line. -/
def endLine (line : Nat) (ps : List Piece) : Nat :=
  ps.foldl Piece.lastLine line

theorem itemsFrom_append (line : Nat) (ps qs : List Piece) :
    itemsFrom line (ps ++ qs) = bodyItems line ps ++ itemsFrom (endLine line ps) qs := by
  induction ps generalizing line with
  | nil => rfl
  | cons p ps ih =>
      simp only [List.cons_append, itemsFrom, bodyItems, ih, endLine, List.foldl_cons]
      cases p.item? (p.lastLine line) <;> rfl

theorem endLine_eq (line : Nat) (ps : List Piece) :
    endLine line ps = line + (ps.flatMap Piece.text).count '\n' := by
  induction ps generalizing line with
  | nil => rfl
  | cons p ps ih =>
      rw [endLine, List.foldl_cons, ← endLine, ih, List.flatMap_cons, List.count_append,
        Piece.lastLine]
      omega

/-- A token among the items of pieces is that of one of them. -/
theorem exists_piece_of_token {line : Nat} {ps : List Piece} {t : Token}
    (h : .token t ∈ bodyItems line ps) :
    ∃ text, .token t.kind text ∈ ps ∧ t.lexeme = String.ofList text := by
  induction ps generalizing line with
  | nil => cases h
  | cons p ps ih =>
      have hlater (h : .token t ∈ bodyItems (p.lastLine line) ps) :
          ∃ text, .token t.kind text ∈ p :: ps ∧ t.lexeme = String.ofList text := by
        obtain ⟨text, hmem, hlexeme⟩ := ih h
        exact ⟨text, List.mem_cons_of_mem p hmem, hlexeme⟩
      cases p with
      | token kind text =>
          rcases List.mem_cons.mp h with heq | h
          · cases heq
            exact ⟨text, List.mem_cons_self, rfl⟩
          · exact hlater h
      | blank c => exact hlater h
      | comment text => exact hlater h
      | unexpected c => exact hlater ((List.mem_cons.mp h).resolve_left nofun)
      | unterminated text => exact hlater ((List.mem_cons.mp h).resolve_left nofun)

theorem notEnd_bodyItems {line : Nat} {ps : List Piece}
    (hps : ∀ kind text, .token kind text ∈ ps → kind ≠ .endOfInput) {t : Token}
    (ht : .token t ∈ bodyItems line ps) : Grammar.isEnd t = false := by
  obtain ⟨text, hmem, -⟩ := exists_piece_of_token ht
  have hkind := hps t.kind text hmem
  obtain ⟨kind, lexeme, line⟩ := t
  cases kind with
  | endOfInput => exact absurd rfl hkind
  | _ => rfl

theorem terminated_of_errors {line : Nat} {ps : List Piece}
    (h : ∀ e ∈ (itemsFrom line ps).filterMap Item.error?, e.fault ≠ .unterminatedString) :
    ∀ p ∈ ps, p.isUnterminated = false := by
  induction ps generalizing line with
  | nil => simp
  | cons p ps ih =>
      rw [itemsFrom] at h
      rw [List.forall_mem_cons]
      cases p with
      | unterminated text => exact absurd rfl (h _ List.mem_cons_self)
      | unexpected c => exact ⟨rfl, ih fun e he => h e (List.mem_cons_of_mem _ he)⟩
      | token kind text => exact ⟨rfl, ih h⟩
      | blank c => exact ⟨rfl, ih h⟩
      | comment text => exact ⟨rfl, ih h⟩

theorem filterMap_token?_lower (k : Nat) (xs : List Item) :
    (xs.map (Item.lower k)).filterMap Item.token?
      = (xs.filterMap Item.token?).map (Relabelling.below k).token := by
  rw [List.filterMap_map, List.map_filterMap]
  congr 1
  funext item
  cases item <;> rfl

theorem filterMap_error?_lower (k : Nat) (xs : List Item) :
    (xs.map (Item.lower k)).filterMap Item.error?
      = (xs.filterMap Item.error?).map fun e => { e with line := e.line + k } := by
  rw [List.filterMap_map, List.map_filterMap]
  congr 1
  funext item
  cases item <;> rfl

theorem items_eq (source : String) : items source = bodyItems 1 (pieces source.toList)
    ++ [.token (.endAt (1 + source.toList.count '\n'))] := by
  have happend := itemsFrom_append 1 (pieces source.toList) []
  rwa [List.append_nil, endLine_eq, flatMap_text_pieces, ← items_eq_itemsFrom] at happend

theorem tokens_eq (source : String) :
    tokens source = (bodyItems 1 (pieces source.toList)).filterMap Item.token?
      ++ [.endAt (1 + source.toList.count '\n')] := by
  rw [tokens, items_eq, List.filterMap_append]
  rfl

theorem notEnd_body (source : String) :
    ∀ t ∈ (bodyItems 1 (pieces source.toList)).filterMap Item.token?, Grammar.isEnd t = false := by
  intro t ht
  obtain ⟨item, hitem, htoken⟩ := List.mem_filterMap.mp ht
  cases item with
  | error e => simp [Item.token?] at htoken
  | token u =>
      obtain rfl : u = t := by simpa [Item.token?] using htoken
      exact notEnd_bodyItems (fun _ _ => kind_ne_of_mem_pieces) hitem

theorem errors_eq (source : String) :
    errors source = (bodyItems 1 (pieces source.toList)).filterMap Item.error? := by
  rw [errors, items_eq, List.filterMap_append]
  exact List.append_nil _

theorem dropLast_tokens (source : String) :
    (tokens source).dropLast = (bodyItems 1 (pieces source.toList)).filterMap Item.token? := by
  rw [tokens_eq, List.dropLast_concat]

theorem items_append {first : String}
    (h : ∀ e ∈ errors first, e.fault ≠ .unterminatedString) (second : String) :
    items (first ++ "\n" ++ second) = bodyItems 1 (pieces first.toList)
      ++ (items second).map (Item.lower (first.toList.count '\n' + 1)) := by
  have htext : (first ++ "\n" ++ second).toList = first.toList ++ '\n' :: second.toList := by
    simp
  have hbreak (qs : List Piece) : itemsFrom (endLine 1 (pieces first.toList)) (.blank '\n' :: qs)
      = itemsFrom (endLine 1 (pieces first.toList) + 1) qs := rfl
  have hline : endLine 1 (pieces first.toList) + 1 = 1 + (first.toList.count '\n' + 1) := by
    rw [endLine_eq, flatMap_text_pieces]
    omega
  have hclosed : ∀ p ∈ pieces first.toList, p.isUnterminated = false := by
    rw [errors, items_eq_itemsFrom] at h
    exact terminated_of_errors h
  rw [items_eq_itemsFrom, htext, pieces_append hclosed, itemsFrom_append, hbreak, hline,
    itemsFrom_lower, ← items_eq_itemsFrom]

/-- The tokens of two sources with a line break between them, where the first source has no lexical
errors, are the tokens of the first without its end of input, and then those of the second. -/
theorem tokens_append {first : String} (h : errors first = []) (second : String) :
    ∃ body last, tokens first = body ++ [.endAt last] ∧ (∀ t ∈ body, Grammar.isEnd t = false)
      ∧ tokens (first ++ "\n" ++ second)
        = body ++ (tokens second).map (Relabelling.below (first.toList.count '\n' + 1)).token
      ∧ (errors second = [] → errors (first ++ "\n" ++ second) = []) := by
  have hclosed : ∀ e ∈ errors first, e.fault ≠ .unterminatedString := by simp [h]
  have hitems := items_append hclosed second
  refine ⟨_, _, tokens_eq first, notEnd_body first, ?_, fun hsecond => ?_⟩
  · rw [tokens, hitems, List.filterMap_append, filterMap_token?_lower, tokens]
  · rw [errors_eq] at h
    rw [errors] at hsecond
    rw [errors, hitems, List.filterMap_append, h, List.nil_append, filterMap_error?_lower,
      hsecond, List.map_nil]

end Lexer

end Lox
