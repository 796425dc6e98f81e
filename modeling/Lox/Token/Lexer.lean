import Lox.Token

/-!
# Cutting source text into tokens

A scanner moves over the bytes of a source with two cursors, one at the first byte of the current
lexeme and one behind the last byte taken, and it counts lines. Its iterator yields a token or an
error at each call, the end of input once, and then nothing more. Where a step would take a byte
behind the end or cut the text inside a character, the step has no result.
-/

namespace Lox.Lexer

/-- Why a place in a source is no token. -/
inductive Fault
  | unterminatedString
  | unexpected (c : Char)
  deriving DecidableEq, Repr

def Fault.message : Fault → String
  | .unterminatedString => "Unterminated string."
  | .unexpected c => "Unexpected character: " ++ c.toString

/-- A lexical fault and the line that the scanner was on. -/
structure Error where
  fault : Fault
  line : Nat
  deriving DecidableEq, Repr

/-- What a source yields at one place. -/
inductive Item
  | token (t : Token)
  | error (e : Error)

def Item.token? : Item → Option Token
  | .token t => some t
  | .error _ => none

def Item.error? : Item → Option Error
  | .token _ => none
  | .error e => some e

/-- The character may begin a name. -/
def isNameStart (c : Char) : Bool :=
  c.isAlpha || c == '_'

/-- The character may continue a name. -/
def isNamePart (c : Char) : Bool :=
  isNameStart c || c.isDigit

/-- The value of a list of decimal digits. -/
def digitsValue (digits : List Char) : Nat :=
  digits.foldl (fun n d => 10 * n + (d.toNat - '0'.toNat)) 0

/-- The double nearest to the number with these digits before and after the point. -/
def numberValue (whole fraction : List Char) : Float :=
  Float.ofScientific (digitsValue (whole ++ fraction)) true fraction.length

/-- The double nearest to a number written with or without a point. -/
def numberOf (text : List Char) : Float :=
  numberValue (text.takeWhile (· != '.')) ((text.dropWhile (· != '.')).drop 1)

/-- The kind of a name: a reserved word is a symbol. -/
def nameKind (name : List Char) : Token.Kind :=
  match Symbol.ofWord? name with
  | some s => .symbol s
  | none => .identifier

/-- The mark written with this character, where the character begins nothing else. -/
def loneMark? : Char → Option Symbol
  | '(' => some .leftParen
  | ')' => some .rightParen
  | '\x7b' => some .leftBrace
  | '\x7d' => some .rightBrace
  | ',' => some .comma
  | '.' => some .dot
  | '-' => some .minus
  | '+' => some .plus
  | ';' => some .semicolon
  | '*' => some .star
  | '?' => some .question
  | ':' => some .colon
  | _ => none

/-- The marks written with this character: with an equals sign behind it, and without. -/
def equalMarks? : Char → Option (Symbol × Symbol)
  | '!' => some (.bangEqual, .bang)
  | '=' => some (.equalEqual, .equal)
  | '<' => some (.lessEqual, .less)
  | '>' => some (.greaterEqual, .greater)
  | _ => none

/-- The text between two bytes of a source, if both are boundaries of characters. -/
def slice? (source : String) (first last : Nat) : Option String :=
  if h : (String.Pos.Raw.mk first).IsValid source ∧ (String.Pos.Raw.mk last).IsValid source then
    if first ≤ last then some (source.extract ⟨_, h.1⟩ ⟨_, h.2⟩) else none
  else none

/-- The character that begins at a byte of a source, U+FFFD at the end. -/
def charAt? (source : String) (i : Nat) : Option Char :=
  if h : (String.Pos.Raw.mk i).IsValid source then
    some ((String.Pos.get? ⟨_, h⟩).getD '\uFFFD')
  else none

/-- A scanner of a source: the first byte of the current lexeme, the byte behind the last one taken,
and the current line. -/
structure Scanner where
  source : String
  start : Nat
  curr : Nat
  line : Nat

namespace Scanner

def new (source : String) : Scanner :=
  ⟨source, 0, 0, 1⟩

/-- The number of bytes of the source. -/
def size (s : Scanner) : Nat :=
  s.source.toByteArray.size

def atEnd (s : Scanner) : Bool :=
  s.size ≤ s.curr

/-- The character with the code of a byte, 0 behind the end. -/
def byteAt (s : Scanner) (i : Nat) : Char :=
  Char.ofUInt8 (s.source.toByteArray[i]?.getD 0)

def peek (s : Scanner) : Char :=
  s.byteAt s.curr

def peekNext (s : Scanner) : Char :=
  s.byteAt (s.curr + 1)

/-- The scanner one byte further. -/
def forward (s : Scanner) : Scanner :=
  { s with curr := s.curr + 1 }

/-- The scanner one line further. -/
def breakLine (s : Scanner) : Scanner :=
  { s with line := s.line + 1 }

/-- Take a byte. -/
def advance? (s : Scanner) : Option (Char × Scanner) :=
  if s.curr < s.size then some (s.peek, s.forward) else none

/-- Take the given byte if it is the next one, and tell whether it was. -/
def takeIf (c : Char) (s : Scanner) : Bool × Scanner :=
  if !s.atEnd && s.peek == c then (true, s.forward) else (false, s)

/-- Take bytes as long as there are some that pass. -/
def skipWhile (p : Char → Bool) (s : Scanner) : Scanner :=
  if s.curr < s.size then
    if p s.peek then skipWhile p s.forward else s
  else s
termination_by s.size - s.curr
decreasing_by
  simp only [forward, size] at *
  omega

/-- Take bytes up to a quote, counting the line breaks among them. -/
def skipString (s : Scanner) : Scanner :=
  if s.curr < s.size then
    if s.peek == '"' then s
    else if s.peek == '\n' then skipString s.forward.breakLine
    else skipString s.forward
  else s
termination_by s.size - s.curr
decreasing_by
  all_goals
    simp only [forward, breakLine, size] at *
    omega

/-- The text from the start of the lexeme to the cursor. -/
def lexeme? (s : Scanner) : Option String :=
  slice? s.source s.start s.curr

/-- What scanning finds: an error, the kind of a token, or nothing to be yielded. -/
abbrev Found := Except Error (Option Token.Kind) × Scanner

/-- Scan a string whose opening quote has been taken. -/
def scanString (s : Scanner) : Option Found :=
  let s := s.skipString
  if s.atEnd then some (.error ⟨.unterminatedString, s.line⟩, s)
  else do
    let (_, s) ← s.advance?
    let text ← slice? s.source (s.start + 1) (s.curr - 1)
    return (.ok (some (.string text)), s)

/-- Take the rest of a number. A point belongs to it only with a digit behind it. -/
def skipNumber (s : Scanner) : Scanner :=
  let s := s.skipWhile Char.isDigit
  if s.peek == '.' && s.peekNext.isDigit then s.forward.skipWhile Char.isDigit else s

/-- Scan a number whose first digit has been taken. -/
def scanNumber (s : Scanner) : Option Found := do
  let s := s.skipNumber
  let text ← s.lexeme?
  return (.ok (some (.number (numberOf text.toList))), s)

/-- Scan a name whose first character has been taken. -/
def scanName (s : Scanner) : Option Found := do
  let s := s.skipWhile isNamePart
  let text ← s.lexeme?
  return (.ok (some (nameKind text.toList)), s)

/-- Scan behind a slash: a comment lasts until before the next line break. -/
def scanSlash (s : Scanner) : Found :=
  match s.takeIf '/' with
  | (true, s) => (.ok none, s.skipWhile (· != '\n'))
  | (false, s) => (.ok (some (.symbol .slash)), s)

/-- Refuse the character at the start of the lexeme, and take all its bytes. -/
def refuse (s : Scanner) : Option Found := do
  let c ← charAt? s.source s.start
  return (.error ⟨.unexpected c, s.line⟩, { s with curr := s.start + c.utf8Size })

/-- Scan on from the first byte of a lexeme, which has been taken. -/
def scanFrom (c : Char) (s : Scanner) : Option Found :=
  match loneMark? c, equalMarks? c with
  | some mark, _ => some (.ok (some (.symbol mark)), s)
  | none, some (double, single) =>
      match s.takeIf '=' with
      | (true, s) => some (.ok (some (.symbol double)), s)
      | (false, s) => some (.ok (some (.symbol single)), s)
  | none, none =>
      match c with
      | ' ' | '\r' | '\t' => some (.ok none, s)
      | '\n' => some (.ok none, s.breakLine)
      | '/' => some s.scanSlash
      | '"' => s.scanString
      | _ =>
          if c.isDigit then s.scanNumber
          else if isNameStart c then s.scanName
          else s.refuse

/-- What is yielded for a lexeme: blanks and comments are no item. -/
def emit : Found → Option (Option Item × Scanner)
  | (.error e, s) => some (some (.error e), s)
  | (.ok none, s) => some (none, s)
  | (.ok (some kind), s) => do
      let lexeme ← s.lexeme?
      return (some (.token ⟨kind, lexeme, s.line⟩), s)

/-- Begin a lexeme at the cursor and scan it. -/
def pass (s : Scanner) : Option (Option Item × Scanner) := do
  let (c, s) ← { s with start := s.curr }.advance?
  let found ← s.scanFrom c
  emit found

/-! ## A pass moves the cursor on -/

/-- A later state of the same scan. -/
structure Later (s t : Scanner) : Prop where
  source : t.source = s.source
  curr : s.curr ≤ t.curr

theorem Later.trans {s t u : Scanner} (h : Later s t) (h' : Later t u) : Later s u :=
  ⟨h'.source.trans h.source, Nat.le_trans h.curr h'.curr⟩

theorem later_forward (s : Scanner) : Later s s.forward :=
  ⟨rfl, Nat.le_succ _⟩

theorem later_breakLine (s : Scanner) : Later s s.breakLine :=
  ⟨rfl, Nat.le_refl _⟩

theorem later_takeIf (c : Char) (s : Scanner) : Later s (s.takeIf c).2 := by
  unfold takeIf
  split
  · exact later_forward s
  · exact ⟨rfl, Nat.le_refl _⟩

theorem later_skipWhile (p : Char → Bool) (s : Scanner) : Later s (s.skipWhile p) := by
  fun_induction skipWhile p s with
  | case1 s _ _ ih => exact (later_forward s).trans ih
  | case2 | case3 => exact ⟨rfl, Nat.le_refl _⟩

theorem later_skipString (s : Scanner) : Later s s.skipString := by
  fun_induction skipString s with
  | case1 | case4 => exact ⟨rfl, Nat.le_refl _⟩
  | case2 s _ _ _ ih => exact ((later_forward s).trans (later_breakLine _)).trans ih
  | case3 s _ _ _ ih => exact (later_forward s).trans ih

theorem later_of_advance? {s t : Scanner} {c : Char} (h : s.advance? = some (c, t)) :
    Later s t := by
  unfold advance? at h
  split at h <;> cases h
  exact later_forward s

theorem later_of_scanString {s t : Scanner} {found : Except Error (Option Token.Kind)}
    (h : s.scanString = some (found, t)) : Later s t := by
  unfold scanString at h
  dsimp only at h
  split at h
  · cases h
    exact later_skipString s
  · simp only [Option.bind_eq_bind, Option.bind_eq_some_iff, Prod.exists] at h
    obtain ⟨_, u, hadvance, _, -, hdone⟩ := h
    cases hdone
    exact (later_skipString s).trans (later_of_advance? hadvance)

theorem later_skipNumber (s : Scanner) : Later s s.skipNumber := by
  have hwhole := later_skipWhile Char.isDigit s
  unfold skipNumber
  dsimp only
  split
  · exact (hwhole.trans (later_forward _)).trans (later_skipWhile _ _)
  · exact hwhole

theorem later_of_scanNumber {s t : Scanner} {found : Except Error (Option Token.Kind)}
    (h : s.scanNumber = some (found, t)) : Later s t := by
  simp only [scanNumber, Option.bind_eq_bind, Option.bind_eq_some_iff] at h
  obtain ⟨_, -, hdone⟩ := h
  cases hdone
  exact later_skipNumber s

theorem later_of_scanName {s t : Scanner} {found : Except Error (Option Token.Kind)}
    (h : s.scanName = some (found, t)) : Later s t := by
  simp only [scanName, Option.bind_eq_bind, Option.bind_eq_some_iff] at h
  obtain ⟨_, -, hdone⟩ := h
  cases hdone
  exact later_skipWhile _ s

theorem later_scanSlash (s : Scanner) : Later s s.scanSlash.2 := by
  have htaken := later_takeIf '/' s
  unfold scanSlash
  split
  · rename_i u hu
    rw [hu] at htaken
    exact htaken.trans (later_skipWhile _ u)
  · rename_i u hu
    rwa [hu] at htaken

theorem later_of_refuse {s t : Scanner} {found : Except Error (Option Token.Kind)}
    (h : s.refuse = some (found, t)) (hstart : s.curr = s.start + 1) : Later s t := by
  simp only [refuse, Option.bind_eq_bind, Option.bind_eq_some_iff] at h
  obtain ⟨c, -, hdone⟩ := h
  cases hdone
  refine ⟨rfl, ?_⟩
  have hpos := c.utf8Size_pos
  simp only
  omega

theorem later_of_scanFrom {s t : Scanner} {c : Char} {found : Except Error (Option Token.Kind)}
    (h : s.scanFrom c = some (found, t)) (hstart : s.curr = s.start + 1) : Later s t := by
  have htaken := later_takeIf '=' s
  unfold scanFrom at h
  split at h
  · cases h
    exact ⟨rfl, Nat.le_refl _⟩
  · split at h <;> rename_i u hu <;> cases h <;> rwa [hu] at htaken
  · split at h
    · cases h
      exact ⟨rfl, Nat.le_refl _⟩
    · cases h
      exact ⟨rfl, Nat.le_refl _⟩
    · cases h
      exact ⟨rfl, Nat.le_refl _⟩
    · cases h
      exact later_breakLine s
    · have hslash := later_scanSlash s
      rw [Option.some.inj h] at hslash
      exact hslash
    · exact later_of_scanString h
    · split at h
      · exact later_of_scanNumber h
      split at h
      · exact later_of_scanName h
      · exact later_of_refuse h hstart

theorem snd_of_emit {found : Found} {item? : Option Item} {t : Scanner}
    (h : emit found = some (item?, t)) : found.2 = t := by
  unfold emit at h
  split at h
  · cases h
    rfl
  · cases h
    rfl
  · simp only [Option.bind_eq_bind, Option.bind_eq_some_iff] at h
    obtain ⟨_, -, hdone⟩ := h
    cases hdone
    rfl

/-- A pass takes at least one byte. -/
theorem curr_lt_of_pass {s t : Scanner} {item? : Option Item} (h : s.pass = some (item?, t)) :
    t.source = s.source ∧ s.curr < t.curr := by
  simp only [pass, Option.bind_eq_bind, Option.bind_eq_some_iff, Prod.exists] at h
  obtain ⟨c, u, hadvance, found, v, hscan, hdone⟩ := h
  obtain rfl : v = t := snd_of_emit hdone
  unfold advance? at hadvance
  split at hadvance <;> cases hadvance
  have hlater := later_of_scanFrom hscan rfl
  exact ⟨hlater.source, hlater.curr⟩

/-! ## The iterator -/

/-- The next item, the end of input once, and nothing from then on. -/
def next (s : Scanner) : Option (Option Item × Scanner) :=
  if s.curr ≤ s.size then
    if s.curr = s.size then some (some (.token (.endAt s.line)), s.forward)
    else
      match _hpass : s.pass with
      | none => none
      | some (some item, s') => some (some item, s')
      | some (none, s') => s'.next
  else some (none, s)
termination_by s.size + 1 - s.curr
decreasing_by
  obtain ⟨hsource, hlt⟩ := curr_lt_of_pass _hpass
  simp only [size, hsource] at *
  omega

/-- A call that yields an item has moved the cursor on, and not from behind the end. -/
theorem curr_lt_of_next {s t : Scanner} {item : Item} (h : s.next = some (some item, t)) :
    t.source = s.source ∧ s.curr < t.curr ∧ s.curr ≤ s.size := by
  fun_induction next s with
  | case1 s hle hend =>
      cases h
      exact ⟨rfl, Nat.lt_succ_self _, hle⟩
  | case2 | case5 => simp at h
  | case3 s hle hend _ _ hpass =>
      cases h
      obtain ⟨hsource, hlt⟩ := curr_lt_of_pass hpass
      exact ⟨hsource, hlt, hle⟩
  | case4 s hle hend u hpass ih =>
      obtain ⟨hsource, hlt⟩ := curr_lt_of_pass hpass
      obtain ⟨hsource', hlt', -⟩ := ih h
      exact ⟨hsource'.trans hsource, Nat.lt_trans hlt hlt', hle⟩

/-- The items that the calls yield before the first one that yields none. -/
def drain (s : Scanner) : Option (List Item) :=
  match _hnext : s.next with
  | none => none
  | some (none, _) => some []
  | some (some item, s') => s'.drain.map (item :: ·)
termination_by s.size + 1 - s.curr
decreasing_by
  obtain ⟨hsource, hlt, hle⟩ := curr_lt_of_next _hnext
  simp only [size, hsource] at *
  omega

end Scanner

/-- The tokens and errors of a source in their order, ended by the end of input. -/
def items (source : String) : List Item :=
  (Scanner.new source).drain.getD []

/-- The tokens of a source, the last of them the end of input. -/
def tokens (source : String) : List Token :=
  (items source).filterMap Item.token?

/-- The errors of a source. -/
def errors (source : String) : List Error :=
  (items source).filterMap Item.error?

end Lox.Lexer
