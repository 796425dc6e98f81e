import Lox.Grammar.Expression

/-!
# The grammar of statements

Declarations and statements. A declaration that fails is recorded, and the parse goes on at the next
place where a statement may begin, so that one broken statement gives one error.
-/

namespace Lox.Grammar

/-- The token begins a statement whatever stands before it. -/
def beginsStatement (t : Token) : Bool :=
  match t.kind with
  | .symbol s =>
      [Symbol.classWord, .funWord, .varWord, .forWord, .ifWord, .whileWord, .printWord,
        .returnWord].contains s
  | _ => false

/-- Skip to a token that begins a statement, or to behind a semicolon. -/
def skipStatement : List Token → List Token
  | [] => []
  | t :: rest =>
      if beginsStatement t then t :: rest
      else if t.terminal == .symbol .semicolon then rest
      else skipStatement rest

/-- Skip the token at which a statement failed, and then the rest of that statement. -/
def synchronize : List Token → List Token
  | [] => []
  | t :: rest => if t.terminal == .symbol .semicolon then rest else skipStatement rest

/-- Record the failure of a rule, and skip what is left of its statement. -/
def recover {α : Type} (rule : Rule α) : Rule (Option α) := fun c =>
  match rule c with
  | .ok a c => .ok (some a) c
  | .error e c => .ok none { c.record e with rest := synchronize c.rest }

/-- Declarations up to a closing brace or the end, those that failed left out. -/
def declarations (declaration : Rule (Option Stmt)) : Rule (List Stmt) := do
  let found ← collect fun _ => beforeBrace declaration
  pure (found.filterMap id)

/-- The body of a block; the opening brace has been taken. -/
def block (declaration : Rule (Option Stmt)) : Rule (List Stmt) := do
  let body ← declarations declaration
  let _ ← expect .rightBrace .blockEnd
  pure body

/-- The declaration of a callable, from its name on. -/
def callable (declaration : Rule (Option Stmt)) (sort : Callable) : Rule FunctionDecl := do
  let name ← expectName (.callableName sort)
  let _ ← expect .leftParen (.parametersStart sort)
  let params ←
    if ← sees .rightParen then pure []
    else commaSeparated .tooManyParameters (expectName .parameterName)
  let _ ← expect .rightParen .parametersEnd
  let _ ← expect .leftBrace (.bodyStart sort)
  let body ← block declaration
  pure ⟨name, params, body⟩

/-- A superclass, if one is named. -/
def superclass? : Rule (Option Expr) := do
  match ← accept .less with
  | none => pure none
  | some _ => do
      let name ← expectName .superclassName
      let id ← freshId
      pure (some (.var id name))

/-- The declaration of a class, from its name on. -/
def classRule (declaration : Rule (Option Stmt)) : Rule Stmt := do
  let name ← expectName .className
  let superclass ← superclass?
  let _ ← expect .leftBrace .classBodyStart
  let methods ← collect fun _ => beforeBrace (callable declaration .method)
  let _ ← expect .rightBrace .classBodyEnd
  pure (.classDecl name superclass methods)

/-- The declaration of a variable, from its name on. -/
def varRule : Rule Stmt := do
  let name ← expectName .variableName
  let initializer ←
    match ← accept .equal with
    | none => pure none
    | some _ => do
        let value ← expression
        pure (some value)
  let _ ← expect .semicolon .variableEnd
  pure (.var name initializer)

/-- An expression and its semicolon. -/
def expressionRule : Rule Stmt := do
  let e ← expression
  let _ ← expect .semicolon .expressionEnd
  pure (.expression e)

/-- A print statement, from its expression on. -/
def printRule : Rule Stmt := do
  let e ← expression
  let _ ← expect .semicolon .printEnd
  pure (.print e)

/-- An expression, unless this symbol stands in its place. -/
def expressionUnless (s : Symbol) : Rule (Option Expr) := do
  if ← sees s then pure none
  else do
    let e ← expression
    pure (some e)

/-- A return statement, behind its keyword. -/
def returnRule (keyword : Token) : Rule Stmt := do
  let value ← expressionUnless .semicolon
  let _ ← expect .semicolon .returnEnd
  pure (.ret keyword value)

/-- An if statement, from its condition on. An else belongs to the nearest if. -/
def ifRule (statement : Rule Stmt) : Rule Stmt := do
  let _ ← expect .leftParen .ifStart
  let condition ← expression
  let _ ← expect .rightParen .ifConditionEnd
  let thenBranch ← statement
  match ← accept .elseWord with
  | none => pure (.ifThen condition thenBranch)
  | some _ => do
      let elseBranch ← statement
      pure (.ifElse condition thenBranch elseBranch)

/-- A while statement, from its condition on. -/
def whileRule (statement : Rule Stmt) : Rule Stmt := do
  let _ ← expect .leftParen .whileStart
  let condition ← expression
  let _ ← expect .rightParen .whileConditionEnd
  let body ← statement
  pure (.loop condition body)

/-- The loop that a for statement stands for: the increment runs after each round of the body, and
the initializer before the loop in a block of its own. -/
def forLoop (initializer : Option Stmt) (condition increment : Option Expr) (body : Stmt) : Stmt :=
  let round :=
    match increment with
    | none => body
    | some e => .block [body, .expression e]
  let loop := Stmt.loop (condition.getD (.literal (.boolean true))) round
  match initializer with
  | none => loop
  | some s => .block [s, loop]

/-- The first clause of a for statement. -/
def forInitializer : Rule (Option Stmt) := do
  match ← acceptAny [.semicolon, .varWord] with
  | none => do
      let s ← expressionRule
      pure (some s)
  | some t =>
      if t.terminal == .symbol .semicolon then pure none
      else do
        let s ← varRule
        pure (some s)

/-- A for statement, from its clauses on. -/
def forRule (statement : Rule Stmt) : Rule Stmt := do
  let _ ← expect .leftParen .forStart
  let initializer ← forInitializer
  let condition ← expressionUnless .semicolon
  let _ ← expect .semicolon .forConditionEnd
  let increment ← expressionUnless .rightParen
  let _ ← expect .rightParen .forClausesEnd
  let body ← statement
  pure (forLoop initializer condition increment body)

def statementRule (statement : Rule Stmt) (declaration : Rule (Option Stmt)) : Rule Stmt := do
  let t ← peek
  match t.kind with
  | .symbol .forWord => do
      let _ ← take
      forRule statement
  | .symbol .ifWord => do
      let _ ← take
      ifRule statement
  | .symbol .whileWord => do
      let _ ← take
      whileRule statement
  | .symbol .returnWord => do
      let keyword ← take
      returnRule keyword
  | .symbol .leftBrace => do
      let _ ← take
      let body ← block declaration
      pure (.block body)
  | .symbol .printWord => do
      let _ ← take
      printRule
  | _ => expressionRule

/-- A declaration or a statement. -/
def declarationRule (statement : Rule Stmt) (declaration : Rule (Option Stmt)) : Rule Stmt := do
  let t ← peek
  match t.kind with
  | .symbol .classWord => do
      let _ ← take
      classRule declaration
  | .symbol .funWord => do
      let _ ← take
      let decl ← callable declaration .function
      pure (.function decl)
  | .symbol .varWord => do
      let _ ← take
      varRule
  | _ => statementRule statement declaration

mutual

/-- The rule of a statement for inputs of at most `n` tokens. -/
def statementUpTo : Nat → Rule Stmt
  | 0 => fail .expression
  | n + 1 => statementRule (statementUpTo n) (declarationUpTo n)

/-- The rule of a declaration for inputs of at most `n` tokens. -/
def declarationUpTo : Nat → Rule (Option Stmt)
  | 0 => recover (fail .expression)
  | n + 1 => recover (declarationRule (statementUpTo n) (declarationUpTo n))

end

/-- Declarations up to the end of an input of at most `n` tokens. -/
def programUpTo (n : Nat) : Rule (List Stmt) := do
  let found ← collect fun _ => do
    if ← atEnd then pure none
    else do
      let d ← declarationUpTo n
      pure (some d)
  pure (found.filterMap id)

/-- An expression that is the whole input. -/
def soleExpressionRule : Rule Expr := do
  let e ← expression
  if ← atEnd then pure e else fail .endOfExpression

/-- What a parse yields: its result, the errors in the order in which they were recorded, and the
identity that the next parse may begin with. -/
structure Parsed (α : Type) where
  result : α
  errors : List Error
  nextId : NodeId

/-- Parse a program. The statements that failed are missing from the result. -/
def parseProgram (tokens : List Token) (firstId : NodeId) : Parsed (List Stmt) :=
  let start := Cursor.ofTokens tokens firstId
  match programUpTo start.rest.length start with
  | .ok statements c => ⟨statements, c.errors, c.nextId⟩
  | .error e c => ⟨[], c.errors ++ [e], c.nextId⟩

/-- Parse a single expression. There is a result exactly when there is no error. -/
def parseExpression (tokens : List Token) (firstId : NodeId) : Parsed (Option Expr) :=
  match soleExpressionRule (.ofTokens tokens firstId) with
  | .ok e c => ⟨if c.errors.isEmpty then some e else none, c.errors, c.nextId⟩
  | .error e c => ⟨none, c.errors ++ [e], c.nextId⟩

end Lox.Grammar
