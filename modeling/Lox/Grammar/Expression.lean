import Lox.Grammar.Rule

/-!
# The grammar of expressions

Assignment, the conditional operator and the unary operators contain themselves to their right; the
binary operators form levels that associate to the left; calls and property accesses follow a
primary expression. A rule that contains itself does so behind a token, so that it is enough to
unfold it as often as there are tokens.
-/

namespace Lox.Grammar

/-- What may follow a callee or an object. -/
inductive Suffix
  | call (paren : Token) (arguments : List Expr)
  | get (name : Token)

/-- The expression extended by a suffix. -/
def Suffix.apply (e : Expr) : Suffix → Expr
  | .call paren arguments => .call e paren arguments
  | .get name => .get e name

/-- Arguments up to the closing parenthesis; the opening one has been taken. -/
def argumentList (expression : Rule Expr) : Rule Suffix := do
  let arguments ←
    if ← sees .rightParen then pure []
    else commaSeparated .tooManyArguments expression
  let paren ← expect .rightParen .argumentsEnd
  pure (.call paren arguments)

/-- A suffix, if one follows. -/
def suffix? (expression : Rule Expr) : Rule (Option Suffix) := do
  match ← acceptAny [.leftParen, .dot] with
  | none => pure none
  | some t =>
      if t.terminal == .symbol .dot then do
        let name ← expectName .propertyName
        pure (some (.get name))
      else do
        let call ← argumentList expression
        pure (some call)

def primary (expression : Rule Expr) : Rule Expr := do
  let t ← peek
  match t.kind with
  | .symbol .falseWord => do
      let _ ← take
      pure (.literal (.boolean false))
  | .symbol .trueWord => do
      let _ ← take
      pure (.literal (.boolean true))
  | .symbol .nilWord => do
      let _ ← take
      pure (.literal .nil)
  | .number x => do
      let _ ← take
      pure (.literal (.number x))
  | .string text => do
      let _ ← take
      pure (.literal (.string text))
  | .symbol .thisWord => do
      let keyword ← take
      let id ← freshId
      pure (.this id keyword)
  | .symbol .superWord => do
      let keyword ← take
      let _ ← expect .dot .superDot
      let method ← expectName .superMethodName
      let id ← freshId
      pure (.super id keyword method)
  | .identifier => do
      let name ← take
      let id ← freshId
      pure (.var id name)
  | .symbol .leftParen => do
      let _ ← take
      let inner ← expression
      let _ ← expect .rightParen .groupEnd
      pure (.group inner)
  | _ => fail .expression

/-- A primary expression with its suffixes. -/
def postfixed (expression : Rule Expr) : Rule Expr := do
  let base ← primary expression
  let suffixes ← collect fun _ => suffix? expression
  pure (suffixes.foldl Suffix.apply base)

/-- Operators that bind equally strongly, and the node they make. -/
structure Level where
  operators : List Symbol
  node : Expr → Token → Expr → Expr

/-- The levels of binary operators, the weakest first. -/
def levels : List Level :=
  [⟨[.orWord], .logical⟩,
   ⟨[.andWord], .logical⟩,
   ⟨[.bangEqual, .equalEqual], .binary⟩,
   ⟨[.greater, .greaterEqual, .less, .lessEqual], .binary⟩,
   ⟨[.minus, .plus], .binary⟩,
   ⟨[.slash, .star], .binary⟩]

/-- An operator of the level with its right operand, if one follows. -/
def rightOperand? (level : Level) (operand : Rule Expr) : Rule (Option (Token × Expr)) := do
  match ← acceptAny level.operators with
  | none => pure none
  | some operator => do
      let right ← operand
      pure (some (operator, right))

/-- Operands joined by the operators of a level, which associate to the left. -/
def leftAssociative (level : Level) (operand : Rule Expr) : Rule Expr := do
  let first ← operand
  let more ← collect fun _ => rightOperand? level operand
  pure (more.foldl (fun left (operator, right) => level.node left operator right) first)

/-- An expression of the given levels over unary expressions. -/
def binaryOver (unary : Rule Expr) : List Level → Rule Expr
  | [] => unary
  | level :: tighter => leftAssociative level (binaryOver unary tighter)

/-- The nonterminals that contain themselves. -/
inductive Nonterminal
  | expression
  | conditional
  | unary
  deriving DecidableEq, Repr

def unaryRule (self : Nonterminal → Rule Expr) : Rule Expr := do
  match ← acceptAny [.bang, .minus] with
  | some operator => do
      let operand ← self .unary
      pure (.unary operator operand)
  | none => postfixed (self .expression)

def conditionalRule (self : Nonterminal → Rule Expr) : Rule Expr := do
  let condition ← binaryOver (unaryRule self) levels
  match ← accept .question with
  | none => pure condition
  | some _ => do
      let thenBranch ← self .conditional
      let _ ← expect .colon .conditionalColon
      let elseBranch ← self .conditional
      pure (.conditional condition thenBranch elseBranch)

/-- The expression that assigns a value to a target. A target that cannot be assigned to is recorded
at the equals sign and stands for the whole. -/
def assignTo (target : Expr) (equals : Token) (value : Expr) : Rule Expr :=
  match target with
  | .var _ name => do
      let id ← freshId
      pure (.assign id name value)
  | .get object name => pure (.set object name value)
  | other => do
      record .invalidTarget equals
      pure other

def assignmentRule (self : Nonterminal → Rule Expr) : Rule Expr := do
  let target ← conditionalRule self
  match ← accept .equal with
  | none => pure target
  | some equals => do
      let value ← self .expression
      assignTo target equals value

/-- The rule of a nonterminal for inputs of at most `n` tokens. Without tokens no expression can
begin. -/
def expressionUpTo : Nat → Nonterminal → Rule Expr
  | 0, _ => fail .expression
  | n + 1, .expression => assignmentRule (expressionUpTo n)
  | n + 1, .conditional => conditionalRule (expressionUpTo n)
  | n + 1, .unary => unaryRule (expressionUpTo n)

def expression : Rule Expr :=
  fun c => expressionUpTo c.rest.length .expression c

end Lox.Grammar
