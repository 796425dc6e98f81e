import Lox.Proofs.Printing.Composed
import Lox.Proofs.Printing.Legible
import Lox.Syntax.Printer

/-!
# Bracketed texts of expressions

The text of an expression is a bracketed text. It is legible where the expression is composed of
legible tokens, and its word, or its head and the number of its parts, tell the shape of the
expression: an operator is no other head, a reserved word is no name, and a number begins with a
digit.
-/

namespace Lox

open Bracketed (IsWord)
open Token (Legible)

mutual

/-- The bracketed text of an expression. -/
@[simp] def Expr.bracketed : Expr → Bracketed
  | .literal value => .word value.treeText.toList
  | .group inner => .node "group".toList [inner.bracketed]
  | .unary operator operand => .node operator.lexeme.toList [operand.bracketed]
  | .binary left operator right => .node operator.lexeme.toList [left.bracketed, right.bracketed]
  | .logical left operator right => .node operator.lexeme.toList [left.bracketed, right.bracketed]
  | .conditional c t e => .node "?:".toList [c.bracketed, t.bracketed, e.bracketed]
  | .var _ name => .word name.lexeme.toList
  | .assign _ name value => .node "=".toList [.word name.lexeme.toList, value.bracketed]
  | .call callee _ arguments =>
      .node "call".toList (callee.bracketed :: Expr.listBracketed arguments)
  | .get object name => .node ".".toList [object.bracketed, .word name.lexeme.toList]
  | .set object name value =>
      .node ".=".toList [object.bracketed, .word name.lexeme.toList, value.bracketed]
  | .this _ _ => .word "this".toList
  | .super _ _ method => .node "super".toList [.word method.lexeme.toList]

@[simp] def Expr.listBracketed : List Expr → List Bracketed
  | [] => []
  | e :: es => e.bracketed :: Expr.listBracketed es

end

theorem intercalate_cons_eq (head : List Char) (parts : List (List Char)) :
    [' '].intercalate (head :: parts) = head ++ parts.flatMap (' ' :: ·) := by
  induction parts generalizing head with
  | nil => simp
  | cons part parts ih => simp [List.intercalate_cons_cons, ih]

/-- A head and parts in parentheses are the characters of a node. -/
theorem toList_parenthesized (head : String) {texts : List String} {parts : List Bracketed}
    (h : texts.map String.toList = parts.map Bracketed.letters) :
    (parenthesized head texts).toList = (Bracketed.node head.toList parts).letters := by
  have hparts : (parts.map Bracketed.letters).flatMap (' ' :: ·)
      = parts.flatMap fun part => ' ' :: part.letters := List.flatMap_map _ _ parts
  rw [parenthesized, String.toList_append, String.toList_append, String.toList_intercalate,
    List.map_cons, h, Bracketed.letters, Bracketed.closing_eq, ← hparts]
  change _ ++ [' '].intercalate _ ++ _ = _
  rw [intercalate_cons_eq]
  simp

mutual

/-- The text of an expression is its bracketed text. -/
theorem letters_bracketed : ∀ e : Expr, e.bracketed.letters = e.text.toList
  | .literal value => by rw [Expr.bracketed, Expr.text, Bracketed.letters]
  | .group inner => by
      rw [Expr.bracketed, Expr.text, toList_parenthesized]
      simp [letters_bracketed inner]
  | .unary operator operand => by
      rw [Expr.bracketed, Expr.text, toList_parenthesized]
      simp [letters_bracketed operand]
  | .binary left operator right => by
      rw [Expr.bracketed, Expr.text, toList_parenthesized]
      simp [letters_bracketed left, letters_bracketed right]
  | .logical left operator right => by
      rw [Expr.bracketed, Expr.text, toList_parenthesized]
      simp [letters_bracketed left, letters_bracketed right]
  | .conditional c t e => by
      rw [Expr.bracketed, Expr.text, toList_parenthesized]
      simp [letters_bracketed c, letters_bracketed t, letters_bracketed e]
  | .var id name => by rw [Expr.bracketed, Expr.text, Bracketed.letters]
  | .assign id name value => by
      rw [Expr.bracketed, Expr.text, toList_parenthesized]
      simp [letters_bracketed value]
  | .call callee paren arguments => by
      rw [Expr.bracketed, Expr.text, toList_parenthesized]
      simp [letters_bracketed callee, letters_listBracketed arguments]
  | .get object name => by
      rw [Expr.bracketed, Expr.text, toList_parenthesized]
      simp [letters_bracketed object]
  | .set object name value => by
      rw [Expr.bracketed, Expr.text, toList_parenthesized]
      simp [letters_bracketed object, letters_bracketed value]
  | .this id keyword => by rw [Expr.bracketed, Expr.text, Bracketed.letters]
  | .super id keyword method => by
      rw [Expr.bracketed, Expr.text, toList_parenthesized]
      simp

theorem letters_listBracketed : ∀ es : List Expr,
    (Expr.listBracketed es).map Bracketed.letters = (Expr.texts es).map String.toList
  | [] => by simp [Expr.texts]
  | e :: es => by simp [Expr.texts, letters_bracketed e, letters_listBracketed es]

end

/-- The operators of expressions. -/
def operators : List Symbol :=
  unaryOperators ++ binaryOperators ++ logicalOperators

theorem isWord_of_mem_operators : ∀ s ∈ operators, IsWord s.letters := by
  decide

variable {t : Token} {symbols : List Symbol} {e e' : Expr}

theorem isWord_of_isOneOf (h : t.IsOneOf Legible symbols) (hsub : symbols ⊆ operators) :
    IsWord t.lexeme.toList := by
  obtain ⟨ht, s, hs, hterminal⟩ := h
  rw [ht.lexeme_of_symbol hterminal]
  exact isWord_of_mem_operators s (hsub hs)

theorem isWord_of_isName (h : t.IsName Legible) : IsWord t.lexeme.toList :=
  h.1.isWord_of_name h.2

theorem numeric_of_literal {x : Float} (h : (Expr.literal (.number x)).Composed Legible) :
    Numeric (Number.treeText x) := by
  rw [Expr.Composed] at h
  obtain ⟨t, ht, hkind⟩ := h
  exact ht.numeric x hkind

theorem not_string_literal {text : String} : ¬ (Expr.literal (.string text)).Composed Legible := by
  rw [Expr.Composed]
  rintro ⟨t, ht, hkind⟩
  exact ht.not_string (congrArg Token.Kind.terminal hkind)

theorem isWord_literal : ∀ {value : Literal}, (Expr.literal value).Composed Legible →
    IsWord value.treeText.toList
  | .nil, _ => by decide
  | .boolean true, _ => by decide
  | .boolean false, _ => by decide
  | .number _, h => (numeric_of_literal h).isWord
  | .string _, h => (not_string_literal h).elim

mutual

/-- The text of an expression that is composed of legible tokens is legible. -/
theorem legible_bracketed : ∀ {e : Expr}, e.Composed Legible → e.bracketed.Legible
  | .literal _, h => isWord_literal h
  | .group _, h => ⟨by decide, legible_bracketed h, trivial⟩
  | .unary .., h => ⟨isWord_of_isOneOf h.1 (by decide), legible_bracketed h.2, trivial⟩
  | .binary .., h =>
      ⟨isWord_of_isOneOf h.2.1 (by decide), legible_bracketed h.1, legible_bracketed h.2.2, trivial⟩
  | .logical .., h =>
      ⟨isWord_of_isOneOf h.2.1 (by decide), legible_bracketed h.1, legible_bracketed h.2.2, trivial⟩
  | .conditional .., h =>
      ⟨by decide, legible_bracketed h.1, legible_bracketed h.2.1, legible_bracketed h.2.2, trivial⟩
  | .var .., h => isWord_of_isName h
  | .assign .., h => ⟨by decide, isWord_of_isName h.1, legible_bracketed h.2, trivial⟩
  | .call .., h => ⟨by decide, legible_bracketed h.1, legible_listBracketed h.2.2⟩
  | .get .., h => ⟨by decide, legible_bracketed h.1, isWord_of_isName h.2, trivial⟩
  | .set .., h =>
      ⟨by decide, legible_bracketed h.1, isWord_of_isName h.2.1, legible_bracketed h.2.2, trivial⟩
  | .this .., _ => show IsWord "this".toList by decide
  | .super .., h => ⟨by decide, isWord_of_isName h.2, trivial⟩

theorem legible_listBracketed : ∀ {es : List Expr}, Expr.ListComposed Legible es →
    Bracketed.ListLegible (Expr.listBracketed es)
  | [], _ => trivial
  | _ :: _, h => ⟨legible_bracketed h.1, legible_listBracketed h.2⟩

end

/-- What an expression is, without its parts. -/
inductive Shape
  | literal | group | unary | binary | logical | conditional | var | assign | call | get | set
  | this | super
  deriving DecidableEq

def Expr.shape : Expr → Shape
  | .literal _ => .literal
  | .group _ => .group
  | .unary .. => .unary
  | .binary .. => .binary
  | .logical .. => .logical
  | .conditional .. => .conditional
  | .var .. => .var
  | .assign .. => .assign
  | .call .. => .call
  | .get .. => .get
  | .set .. => .set
  | .this .. => .this
  | .super .. => .super

/-- The reserved words that are literals. -/
def literalWords : List Symbol :=
  [.nilWord, .trueWord, .falseWord]

/-- The shape of an expression that is written as a word. -/
def Shape.ofWord (word : List Char) : Shape :=
  if word = Symbol.thisWord.letters then .this
  else if word ∈ literalWords.map Symbol.letters ∨ word.head?.any Char.isDigit then .literal
  else .var

/-- The shape of an expression with this head and this number of parts. -/
def Shape.ofHead (head : List Char) (parts : Nat) : Shape :=
  if head = "group".toList then .group
  else if head = "?:".toList then .conditional
  else if head = "=".toList then .assign
  else if head = "call".toList then .call
  else if head = ".".toList then .get
  else if head = ".=".toList then .set
  else if head = "super".toList then .super
  else if head ∈ logicalOperators.map Symbol.letters then .logical
  else if parts = 1 then .unary
  else .binary

/-- The shape of the expression that a bracketed text is the text of. -/
def Bracketed.shape : Bracketed → Shape
  | word text => .ofWord text
  | node head parts => .ofHead head parts.length

theorem shape_of_unary : ∀ s ∈ unaryOperators, Shape.ofHead s.letters 1 = .unary := by
  decide

theorem shape_of_binary : ∀ s ∈ binaryOperators, Shape.ofHead s.letters 2 = .binary := by
  decide

theorem shape_of_logical : ∀ s ∈ logicalOperators, Shape.ofHead s.letters 2 = .logical := by
  decide

theorem shape_of_isOneOf {parts : Nat} {shape : Shape} (h : t.IsOneOf Legible symbols)
    (hall : ∀ s ∈ symbols, Shape.ofHead s.letters parts = shape) :
    Shape.ofHead t.lexeme.toList parts = shape := by
  obtain ⟨ht, s, hs, hterminal⟩ := h
  rw [ht.lexeme_of_symbol hterminal]
  exact hall s hs

theorem shape_of_isName (h : t.IsName Legible) : Shape.ofWord t.lexeme.toList = .var := by
  obtain ⟨d, cs, hlexeme, hd, -, hword⟩ := h.1.lexeme_of_name h.2
  have hdigit : d.isDigit = false := by
    rw [Bool.eq_false_iff]
    intro hdigit
    rw [Lexer.isNameStart_of_isDigit hdigit] at hd
    cases hd
  unfold Shape.ofWord
  rw [if_neg (hword .thisWord (by decide)).symm, if_neg]
  rintro (hmem | hmem)
  · obtain ⟨s, hs, heq⟩ := List.mem_map.mp hmem
    have hsub : literalWords ⊆ Symbol.words := by decide
    exact hword s (hsub hs) heq
  · rw [hlexeme] at hmem
    simp [hdigit] at hmem

theorem shape_of_numeric {text : String} (h : Numeric text) :
    Shape.ofWord text.toList = .literal := by
  obtain ⟨d, cs, htext, hd⟩ := h.lead
  unfold Shape.ofWord
  rw [htext, if_neg, if_pos (.inr (by simpa using hd))]
  intro hthis
  rw [(List.cons_eq_cons.mp hthis).1] at hd
  exact absurd hd (by decide)

theorem shape_of_literal : ∀ {value : Literal}, (Expr.literal value).Composed Legible →
    Shape.ofWord value.treeText.toList = .literal
  | .nil, _ => by decide
  | .boolean true, _ => by decide
  | .boolean false, _ => by decide
  | .number _, h => shape_of_numeric (numeric_of_literal h)
  | .string _, h => (not_string_literal h).elim

/-- The shape of an expression can be told from its text. -/
theorem shape_bracketed : ∀ {e : Expr}, e.Composed Legible → e.bracketed.shape = e.shape
  | .literal _, h => shape_of_literal h
  | .group _, _ => rfl
  | .unary .., h => shape_of_isOneOf h.1 shape_of_unary
  | .binary .., h => shape_of_isOneOf h.2.1 shape_of_binary
  | .logical .., h => shape_of_isOneOf h.2.1 shape_of_logical
  | .conditional .., _ => rfl
  | .var .., h => shape_of_isName h
  | .assign .., _ => rfl
  | .call .., _ => rfl
  | .get .., _ => rfl
  | .set .., _ => rfl
  | .this .., _ => rfl
  | .super .., _ => rfl

theorem shape_eq (h : e.Composed Legible) (h' : e'.Composed Legible)
    (heq : e.bracketed = e'.bracketed) : e.shape = e'.shape := by
  rw [← shape_bracketed h, heq, shape_bracketed h']

end Lox
