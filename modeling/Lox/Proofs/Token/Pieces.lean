import Lox.Token.Lexer

/-!
# Pieces of source text

A source is cut into pieces from left to right: a blank, a comment, a token, a character that begins
nothing, or a string that never ends. Each piece is the longest one of its form, and the pieces in
order are the whole source. A token or an error carries the line on which its piece ends.
-/

namespace Lox

/-- The first mark in `marks` that the text begins with. -/
def Symbol.ofMark? (text : List Char) : Option Symbol :=
  marks.find? fun s => s.letters.isPrefixOf text

namespace Lexer

/-- A piece of source text. -/
inductive Piece
  | blank (c : Char)
  | comment (text : List Char)
  | token (kind : Token.Kind) (text : List Char)
  | unexpected (c : Char)
  | unterminated (text : List Char)

def Piece.text : Piece → List Char
  | .blank c => [c]
  | .comment text => text
  | .token _ text => text
  | .unexpected c => [c]
  | .unterminated text => text

/-- The character separates tokens. -/
def isBlank (c : Char) : Bool :=
  c == ' ' || c == '\r' || c == '\t' || c == '\n'

/-- Read a string whose opening quote has been taken. -/
def readString (cs : List Char) : Piece × List Char :=
  let body := cs.takeWhile (· != '"')
  match cs.dropWhile (· != '"') with
  | [] => (.unterminated ('"' :: body), [])
  | quote :: rest => (.token (.string (String.ofList body)) ('"' :: body ++ [quote]), rest)

/-- Read a number from its first digit on. A point belongs to it only with a digit behind it. -/
def readNumber (c : Char) (cs : List Char) : Piece × List Char :=
  let whole := c :: cs.takeWhile Char.isDigit
  match cs.dropWhile Char.isDigit with
  | '.' :: d :: after =>
      if d.isDigit then
        let fraction := d :: after.takeWhile Char.isDigit
        (.token (.number (numberValue whole fraction)) (whole ++ '.' :: fraction),
          after.dropWhile Char.isDigit)
      else (.token (.number (numberValue whole [])) whole, '.' :: d :: after)
  | rest => (.token (.number (numberValue whole [])) whole, rest)

/-- Read a name from its first character on. -/
def readName (c : Char) (cs : List Char) : Piece × List Char :=
  let name := c :: cs.takeWhile isNamePart
  (.token (nameKind name) name, cs.dropWhile isNamePart)

/-- Read a comment whose first slash has been taken: it lasts until before the next line break. -/
def readComment (cs : List Char) : Piece × List Char :=
  (.comment ('/' :: cs.takeWhile (· != '\n')), cs.dropWhile (· != '\n'))

/-- Read a punctuation mark, or else refuse the character. -/
def readMark (c : Char) (cs : List Char) : Piece × List Char :=
  match Symbol.ofMark? (c :: cs) with
  | some s => (.token (.symbol s) s.letters, cs.drop (s.letters.length - 1))
  | none => (.unexpected c, cs)

/-- Read the piece at the front of a source, and return what follows it. -/
def readPiece (c : Char) (cs : List Char) : Piece × List Char :=
  if isBlank c then (.blank c, cs)
  else if c == '"' then readString cs
  else if c.isDigit then readNumber c cs
  else if isNameStart c then readName c cs
  else if c == '/' && cs.head? == some '/' then readComment cs
  else readMark c cs

theorem text_readString (cs : List Char) :
    (readString cs).1.text ++ (readString cs).2 = '"' :: cs := by
  have h : cs.takeWhile (· != '"') ++ cs.dropWhile (· != '"') = cs :=
    List.takeWhile_append_dropWhile
  unfold readString
  simp only
  split
  · rename_i hrest
    rw [hrest] at h
    simpa [Piece.text] using h
  · rename_i quote rest hrest
    rw [hrest] at h
    simpa [Piece.text] using h

theorem text_readNumber (c : Char) (cs : List Char) :
    (readNumber c cs).1.text ++ (readNumber c cs).2 = c :: cs := by
  have h : cs.takeWhile Char.isDigit ++ cs.dropWhile Char.isDigit = cs :=
    List.takeWhile_append_dropWhile
  unfold readNumber
  simp only
  split
  · rename_i d after hrest
    rw [hrest] at h
    split
    · have h' : after.takeWhile Char.isDigit ++ after.dropWhile Char.isDigit = after :=
        List.takeWhile_append_dropWhile
      simp only [Piece.text, List.cons_append, List.append_assoc, h', h]
    · simp only [Piece.text, List.cons_append, h]
  · simp only [Piece.text, List.cons_append, h]

theorem text_readName (c : Char) (cs : List Char) :
    (readName c cs).1.text ++ (readName c cs).2 = c :: cs := by
  simp only [readName, Piece.text, List.cons_append, List.takeWhile_append_dropWhile]

theorem text_readComment (cs : List Char) :
    (readComment cs).1.text ++ (readComment cs).2 = '/' :: cs := by
  simp only [readComment, Piece.text, List.cons_append, List.takeWhile_append_dropWhile]

theorem text_readMark (c : Char) (cs : List Char) :
    (readMark c cs).1.text ++ (readMark c cs).2 = c :: cs := by
  unfold readMark
  split
  · rename_i s hs
    have hpre := List.find?_some hs
    obtain ⟨t, ht⟩ := List.isPrefixOf_iff_prefix.mp hpre
    have hne : s.letters ≠ [] := by cases s <;> simp [Symbol.letters]
    obtain ⟨a, more, hmore⟩ := List.exists_cons_of_ne_nil hne
    simp only [Piece.text]
    rw [hmore] at ht ⊢
    simp only [List.cons_append, List.cons.injEq] at ht
    obtain ⟨rfl, rfl⟩ := ht
    simp
  · simp [Piece.text]

/-- A piece and what follows it are the source it was read from. -/
theorem text_readPiece (c : Char) (cs : List Char) :
    (readPiece c cs).1.text ++ (readPiece c cs).2 = c :: cs := by
  unfold readPiece
  split
  · simp [Piece.text]
  split
  · rename_i hc
    rw [beq_iff_eq] at hc
    rw [hc]
    exact text_readString cs
  split
  · exact text_readNumber c cs
  split
  · exact text_readName c cs
  split
  · rename_i hc
    simp only [Bool.and_eq_true, beq_iff_eq] at hc
    rw [hc.1]
    exact text_readComment cs
  · exact text_readMark c cs

/-- A piece is not empty. -/
theorem text_readPiece_ne_nil (c : Char) (cs : List Char) : (readPiece c cs).1.text ≠ [] := by
  unfold readPiece readMark readComment readName readNumber readString
  split
  · simp [Piece.text]
  split
  · simp only
    split <;> simp [Piece.text]
  split
  · simp only
    split
    · split <;> simp [Piece.text]
    · simp [Piece.text]
  split
  · simp [Piece.text]
  split
  · simp [Piece.text]
  · split
    · rename_i s _
      cases s <;> simp [Piece.text, Symbol.letters]
    · simp [Piece.text]

theorem length_readPiece_le (c : Char) (cs : List Char) :
    (readPiece c cs).2.length ≤ cs.length := by
  have h := congrArg List.length (text_readPiece c cs)
  have hpos := List.length_pos_iff.mpr (text_readPiece_ne_nil c cs)
  simp only [List.length_append, List.length_cons] at h
  omega

/-- The pieces of a source, in order. -/
def pieces : List Char → List Piece
  | [] => []
  | c :: cs => (readPiece c cs).1 :: pieces (readPiece c cs).2
termination_by source => source.length
decreasing_by
  have := length_readPiece_le c cs
  simp only [List.length_cons]
  omega

/-- The pieces of a source make up the whole source. -/
theorem flatMap_text_pieces (source : List Char) : (pieces source).flatMap Piece.text = source := by
  fun_induction pieces source with
  | case1 => rfl
  | case2 c cs ih => rw [List.flatMap_cons, ih, text_readPiece]

/-- What a piece that ends on the given line yields; blanks and comments yield nothing. -/
def Piece.item? (line : Nat) : Piece → Option Item
  | .blank _ => none
  | .comment _ => none
  | .token kind text => some (.token ⟨kind, String.ofList text, line⟩)
  | .unexpected c => some (.error ⟨.unexpected c, line⟩)
  | .unterminated _ => some (.error ⟨.unterminatedString, line⟩)

/-- The line on which a piece ends that begins on the given line. -/
def Piece.lastLine (line : Nat) (p : Piece) : Nat :=
  line + p.text.count '\n'

/-- What pieces yield that begin on the given line, ended by the end of input. -/
def itemsFrom (line : Nat) : List Piece → List Item
  | [] => [.token (.endAt line)]
  | p :: ps =>
      let last := p.lastLine line
      match p.item? last with
      | some item => item :: itemsFrom last ps
      | none => itemsFrom last ps

end Lexer

end Lox
