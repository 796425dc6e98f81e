import Lox.Proofs.Grammar.Words
import Lox.Proofs.Relabelling.Trees

/-!
# Unparsing

A tree is written out as its tokens, with no parentheses but those of its groups. The tokens that a
tree does not keep are written on the first line. A tree is well-formed if its operands bind as
strongly as their places ask for, so that its tokens need no more parentheses than it has groups.
-/

namespace Lox

/-- A symbol that no tree keeps. -/
def Token.mark (s : Symbol) : Token :=
  ⟨.symbol s, String.ofList s.letters, 1⟩

@[simp] theorem Token.mark_terminal (s : Symbol) : (Token.mark s).terminal = .symbol s := rfl

def Literal.token : Literal → Token
  | .nil => .mark .nilWord
  | .boolean true => .mark .trueWord
  | .boolean false => .mark .falseWord
  | .number x => ⟨.number x, Number.tokenText x, 1⟩
  | .string text => ⟨.string text, "\"" ++ text ++ "\"", 1⟩

/-- Items with commas between them. -/
def Token.separated : List (List Token) → List Token
  | [] => []
  | u :: us => u ++ us.flatMap (Token.mark .comma :: ·)

mutual

/-- The tokens of an expression. -/
@[simp] def Expr.tokens : Expr → List Token
  | .literal value => [value.token]
  | .group inner => .mark .leftParen :: (inner.tokens ++ [.mark .rightParen])
  | .unary operator operand => operator :: operand.tokens
  | .binary left operator right => left.tokens ++ operator :: right.tokens
  | .logical left operator right => left.tokens ++ operator :: right.tokens
  | .conditional c t e =>
      c.tokens ++ .mark .question :: (t.tokens ++ .mark .colon :: e.tokens)
  | .var _ name => [name]
  | .assign _ name value => name :: .mark .equal :: value.tokens
  | .call callee paren arguments =>
      callee.tokens ++ .mark .leftParen :: (Token.separated (Expr.listTokens arguments) ++ [paren])
  | .get object name => object.tokens ++ [.mark .dot, name]
  | .set object name value =>
      object.tokens ++ .mark .dot :: name :: .mark .equal :: value.tokens
  | .this _ keyword => [keyword]
  | .super _ keyword method => [keyword, .mark .dot, method]

/-- The tokens of each of the expressions. -/
@[simp] def Expr.listTokens : List Expr → List (List Token)
  | [] => []
  | e :: es => e.tokens :: Expr.listTokens es

end

/-- The tokens of an expression that may be missing, behind a token that introduces it. -/
def Expr.tokensAfter (intro : List Token) : Option Expr → List Token
  | none => []
  | some e => intro ++ e.tokens

mutual

/-- The tokens of a statement. -/
@[simp] def Stmt.tokens : Stmt → List Token
  | .expression e => e.tokens ++ [.mark .semicolon]
  | .print e => .mark .printWord :: (e.tokens ++ [.mark .semicolon])
  | .var name initializer =>
      .mark .varWord :: name :: (Expr.tokensAfter [.mark .equal] initializer ++ [.mark .semicolon])
  | .block body => .mark .leftBrace :: (Stmt.listTokens body ++ [.mark .rightBrace])
  | .ifThen c t =>
      .mark .ifWord :: .mark .leftParen :: (c.tokens ++ .mark .rightParen :: t.tokens)
  | .ifElse c t e =>
      .mark .ifWord :: .mark .leftParen
        :: (c.tokens ++ .mark .rightParen :: (t.tokens ++ .mark .elseWord :: e.tokens))
  | .loop c body =>
      .mark .whileWord :: .mark .leftParen :: (c.tokens ++ .mark .rightParen :: body.tokens)
  | .function decl => .mark .funWord :: decl.tokens
  | .ret keyword value => keyword :: (Expr.tokensAfter [] value ++ [.mark .semicolon])
  | .classDecl name superclass methods =>
      .mark .classWord :: name :: (Expr.tokensAfter [.mark .less] superclass
        ++ .mark .leftBrace :: (FunctionDecl.listTokens methods ++ [.mark .rightBrace]))

@[simp] def Stmt.listTokens : List Stmt → List Token
  | [] => []
  | s :: ss => s.tokens ++ Stmt.listTokens ss

/-- The tokens of a callable. -/
@[simp] def FunctionDecl.tokens : FunctionDecl → List Token
  | ⟨name, params, body⟩ =>
      name :: .mark .leftParen :: (Token.separated (params.map ([·])) ++ .mark .rightParen
        :: .mark .leftBrace :: (Stmt.listTokens body ++ [.mark .rightBrace]))

@[simp] def FunctionDecl.listTokens : List FunctionDecl → List Token
  | [] => []
  | f :: fs => f.tokens ++ FunctionDecl.listTokens fs

end

/-- How strongly an expression binds, the weakest first. -/
inductive Precedence
  | assignment | ternary | or | and | equality | comparison | term | factor | unary | call | primary
  deriving DecidableEq, Repr

/-- The place of a precedence in their order. -/
def Precedence.rank (p : Precedence) : Nat :=
  p.ctorIdx

theorem Precedence.rank_injective {p q : Precedence} (h : p.rank = q.rank) : p = q := by
  cases p <;> cases q <;> first | rfl | cases h

instance : LE Precedence := ⟨fun p q => p.rank ≤ q.rank⟩

instance : LT Precedence := ⟨fun p q => p.rank < q.rank⟩

instance (p q : Precedence) : Decidable (p ≤ q) := inferInstanceAs (Decidable (p.rank ≤ q.rank))

instance (p q : Precedence) : Decidable (p < q) := inferInstanceAs (Decidable (p.rank < q.rank))

/-- The precedence of the expressions that an operator joins. -/
def Precedence.ofOperator (operator : Token) : Precedence :=
  match operator.kind with
  | .symbol .orWord => .or
  | .symbol .andWord => .and
  | .symbol .bangEqual | .symbol .equalEqual => .equality
  | .symbol .greater | .symbol .greaterEqual | .symbol .less | .symbol .lessEqual => .comparison
  | .symbol .minus | .symbol .plus => .term
  | .symbol .slash | .symbol .star => .factor
  | _ => .primary

def Expr.precedence : Expr → Precedence
  | .assign .. | .set .. => .assignment
  | .conditional .. => .ternary
  | .binary _ operator _ | .logical _ operator _ => .ofOperator operator
  | .unary .. => .unary
  | .call .. | .get .. => .call
  | .literal _ | .group _ | .var .. | .this .. | .super .. => .primary

mutual

/-- The operands of an expression bind as strongly as their places ask for: those of an operator as
it does, the right one more strongly. Tokens have the terminals of their places. -/
@[simp] def Expr.WellFormed : Expr → Prop
  | .literal _ => True
  | .group inner => inner.WellFormed
  | .unary operator operand =>
      (operator.terminal = .symbol .bang ∨ operator.terminal = .symbol .minus)
        ∧ operand.WellFormed ∧ .unary ≤ operand.precedence
  | .binary left operator right =>
      .ofOperator operator ∈ [Precedence.equality, .comparison, .term, .factor]
        ∧ (left.WellFormed ∧ .ofOperator operator ≤ left.precedence)
        ∧ right.WellFormed ∧ .ofOperator operator < right.precedence
  | .logical left operator right =>
      .ofOperator operator ∈ [Precedence.or, .and]
        ∧ (left.WellFormed ∧ .ofOperator operator ≤ left.precedence)
        ∧ right.WellFormed ∧ .ofOperator operator < right.precedence
  | .conditional c t e =>
      (c.WellFormed ∧ .or ≤ c.precedence) ∧ (t.WellFormed ∧ .ternary ≤ t.precedence)
        ∧ e.WellFormed ∧ .ternary ≤ e.precedence
  | .var _ name => name.terminal = .identifier
  | .assign _ name value => name.terminal = .identifier ∧ value.WellFormed
  | .call callee paren arguments =>
      (callee.WellFormed ∧ .call ≤ callee.precedence) ∧ paren.terminal = .symbol .rightParen
        ∧ Expr.ListWellFormed arguments ∧ arguments.length ≤ maxArity
  | .get object name =>
      (object.WellFormed ∧ .call ≤ object.precedence) ∧ name.terminal = .identifier
  | .set object name value =>
      (object.WellFormed ∧ .call ≤ object.precedence) ∧ name.terminal = .identifier
        ∧ value.WellFormed
  | .this _ keyword => keyword.terminal = .symbol .thisWord
  | .super _ keyword method =>
      keyword.terminal = .symbol .superWord ∧ method.terminal = .identifier

@[simp] def Expr.ListWellFormed : List Expr → Prop
  | [] => True
  | e :: es => e.WellFormed ∧ Expr.ListWellFormed es

end

def Expr.WellFormed? : Option Expr → Prop
  | none => True
  | some e => e.WellFormed

/-- The superclass, if there is one, is a variable. -/
def Expr.IsSuperclassName : Option Expr → Prop
  | none => True
  | some (.var _ name) => name.terminal = .identifier
  | some _ => False

/-- The statement is the declaration of a variable, a function or a class. -/
def Stmt.isDeclaration : Stmt → Bool
  | .var .. | .function _ | .classDecl .. => true
  | _ => false

/-- The statement ends in an if without an else. -/
@[simp] def Stmt.endsOpen : Stmt → Bool
  | .ifThen .. => true
  | .ifElse _ _ e => e.endsOpen
  | .loop _ body => body.endsOpen
  | _ => false

mutual

/-- The parts of a statement are well-formed. Branches and loop bodies are no declarations, and an
else stands behind a branch that does not end in an if without one. -/
@[simp] def Stmt.WellFormed : Stmt → Prop
  | .expression e => e.WellFormed
  | .print e => e.WellFormed
  | .var name initializer => name.terminal = .identifier ∧ Expr.WellFormed? initializer
  | .block body => Stmt.ListWellFormed body
  | .ifThen c t => c.WellFormed ∧ t.WellFormed ∧ t.isDeclaration = false
  | .ifElse c t e =>
      c.WellFormed ∧ (t.WellFormed ∧ t.isDeclaration = false ∧ t.endsOpen = false)
        ∧ e.WellFormed ∧ e.isDeclaration = false
  | .loop c body => c.WellFormed ∧ body.WellFormed ∧ body.isDeclaration = false
  | .function decl => decl.WellFormed
  | .ret keyword value =>
      keyword.terminal = .symbol .returnWord ∧ Expr.WellFormed? value
  | .classDecl name superclass methods =>
      name.terminal = .identifier ∧ Expr.IsSuperclassName superclass
        ∧ FunctionDecl.ListWellFormed methods

@[simp] def Stmt.ListWellFormed : List Stmt → Prop
  | [] => True
  | s :: ss => s.WellFormed ∧ Stmt.ListWellFormed ss

/-- The name and the parameters of a callable are names, its body is well-formed, and it has no more
parameters than a call can have arguments. -/
@[simp] def FunctionDecl.WellFormed : FunctionDecl → Prop
  | ⟨name, params, body⟩ =>
      name.terminal = .identifier ∧ (∀ param ∈ params, param.terminal = .identifier)
        ∧ params.length ≤ maxArity ∧ Stmt.ListWellFormed body

@[simp] def FunctionDecl.ListWellFormed : List FunctionDecl → Prop
  | [] => True
  | f :: fs => f.WellFormed ∧ FunctionDecl.ListWellFormed fs

end

theorem Expr.listTokens_eq_map (es : List Expr) : Expr.listTokens es = es.map Expr.tokens := by
  induction es with
  | nil => rfl
  | cons e es ih => simp [ih]

theorem Stmt.listTokens_eq_flatMap (ss : List Stmt) :
    Stmt.listTokens ss = ss.flatMap Stmt.tokens := by
  induction ss with
  | nil => rfl
  | cons s ss ih => simp [ih]

theorem FunctionDecl.listTokens_eq_flatMap (fs : List FunctionDecl) :
    FunctionDecl.listTokens fs = fs.flatMap FunctionDecl.tokens := by
  induction fs with
  | nil => rfl
  | cons f fs ih => simp [ih]

theorem Expr.listWellFormed_iff {es : List Expr} :
    Expr.ListWellFormed es ↔ ∀ e ∈ es, e.WellFormed := by
  induction es with
  | nil => simp
  | cons e es ih => simp [ih]

theorem Stmt.listWellFormed_iff {ss : List Stmt} :
    Stmt.ListWellFormed ss ↔ ∀ s ∈ ss, s.WellFormed := by
  induction ss with
  | nil => simp
  | cons s ss ih => simp [ih]

theorem FunctionDecl.listWellFormed_iff {fs : List FunctionDecl} :
    FunctionDecl.ListWellFormed fs ↔ ∀ f ∈ fs, f.WellFormed := by
  induction fs with
  | nil => simp
  | cons f fs ih => simp [ih]

end Lox
