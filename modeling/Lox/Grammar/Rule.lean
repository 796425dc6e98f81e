import Lox.Grammar.Fault

/-!
# Rules of the grammar

A rule takes tokens from the front of the input and yields a piece of syntax, or fails at the token
that it cannot take. Along the way it hands out node identities and records the errors that do not
make it fail. An input is the tokens before its first end of input, and taking is the only way in
which a rule changes it.
-/

namespace Lox.Grammar

/-- Where a parse stands. -/
structure Cursor where
  /-- The tokens that are not taken yet. -/
  rest : List Token
  /-- The line on which the input ends. -/
  endLine : Nat
  /-- The identity of the next node. -/
  nextId : NodeId
  /-- The errors recorded so far, in order. -/
  errors : List Error

/-- The token is the end of input. -/
def isEnd (t : Token) : Bool :=
  t.terminal == .endOfInput

/-- Where a parse of the tokens begins. The input ends at its first end of input, and without one
on the line of its last token. -/
def Cursor.ofTokens (tokens : List Token) (firstId : NodeId) : Cursor where
  rest := tokens.takeWhile (!isEnd ·)
  endLine :=
    match tokens.find? isEnd with
    | some t => t.line
    | none => (tokens.getLast?.map Token.line).getD 1
  nextId := firstId
  errors := []

/-- The next token, which is the end of input when all are taken. -/
def Cursor.next (c : Cursor) : Token :=
  c.rest.headD (.endAt c.endLine)

/-- The cursor with one more recorded error. -/
def Cursor.record (c : Cursor) (e : Error) : Cursor :=
  { c with errors := c.errors ++ [e] }

/-- A rule of the grammar. -/
abbrev Rule (α : Type) := EStateM Error Cursor α

def peek : Rule Token :=
  fun c => .ok c.next c

/-- The next token is this symbol. -/
def sees (s : Symbol) : Rule Bool :=
  fun c => .ok (c.next.terminal == .symbol s) c

/-- All tokens are taken. -/
def atEnd : Rule Bool :=
  fun c => .ok c.rest.isEmpty c

def take : Rule Token :=
  fun c => .ok c.next { c with rest := c.rest.tail }

/-- Take the next token if it is a terminal that satisfies `p`. -/
def takeIf (p : Terminal → Bool) : Rule (Option Token) :=
  fun c =>
    match c.rest with
    | [] => .ok none c
    | t :: rest => if p t.terminal then .ok (some t) { c with rest := rest } else .ok none c

/-- Take the next token if it is this symbol. -/
def accept (s : Symbol) : Rule (Option Token) :=
  takeIf (· == .symbol s)

/-- Take the next token if it is one of these symbols. -/
def acceptAny (symbols : List Symbol) : Rule (Option Token) :=
  takeIf fun
    | .symbol s => symbols.contains s
    | _ => false

/-- Fail at the next token because this part is missing. -/
def fail {α : Type} (part : Part) : Rule α :=
  fun c => .error ⟨.missing part, c.next⟩ c

/-- Take the next token, which has to be this terminal. -/
def expectTerminal (terminal : Terminal) (part : Part) : Rule Token := do
  match ← takeIf (· == terminal) with
  | some t => pure t
  | none => fail part

/-- Take the next token, which has to be this symbol. -/
def expect (s : Symbol) (part : Part) : Rule Token :=
  expectTerminal (.symbol s) part

/-- Take the next token, which has to be a name. -/
def expectName (part : Part) : Rule Token :=
  expectTerminal .identifier part

def freshId : Rule NodeId :=
  fun c => .ok c.nextId { c with nextId := c.nextId + 1 }

/-- Record a fault at a token and go on. -/
def record (fault : Fault) (token : Token) : Rule Unit :=
  fun c => .ok () (c.record ⟨fault, token⟩)

/-- Record a fault at the next token and go on. -/
def recordNext (fault : Fault) : Rule Unit :=
  fun c => .ok () (c.record ⟨fault, c.next⟩)

/-- The results of at most `n` rounds of a step, which is told how many results came before. -/
def collectUpTo {α : Type} (step : Nat → Rule (Option α)) : Nat → Nat → Rule (List α)
  | 0, _ => pure []
  | n + 1, count => do
      match ← step count with
      | none => pure []
      | some a => do
          let more ← collectUpTo step n (count + 1)
          pure (a :: more)

/-- The results of a step, repeated until it yields none. A step that yields something takes a
token, so that there are at most as many rounds as tokens. -/
def collect {α : Type} (step : Nat → Rule (Option α)) : Rule (List α) :=
  fun c => collectUpTo step c.rest.length 0 c

/-- The next item of a list, behind a comma. One past the limit is recorded as one too many. -/
def nextItem? {α : Type} (tooMany : Fault) (item : Rule α) (count : Nat) : Rule (Option α) := do
  match ← accept .comma with
  | none => pure none
  | some _ => do
      if maxArity ≤ count + 1 then recordNext tooMany
      let next ← item
      pure (some next)

/-- One or more items separated by commas. -/
def commaSeparated {α : Type} (tooMany : Fault) (item : Rule α) : Rule (List α) := do
  let first ← item
  let more ← collect (nextItem? tooMany item)
  pure (first :: more)

/-- An item, unless a closing brace or the end comes next. -/
def beforeBrace {α : Type} (item : Rule α) : Rule (Option α) := do
  if (← sees .rightBrace) || (← atEnd) then pure none
  else do
    let a ← item
    pure (some a)

end Lox.Grammar
