import Lox.Grammar.Expression
import Lox.Proofs.Concatenation.Extension

/-!
# Expressions with more tokens behind them

The rules of expressions on an input and on the input with more tokens behind it. Behind its last
token an expression may always go on, so that all of them look at the next one. The bound of the
longer input is larger, which makes no difference.
-/

namespace Lox.Grammar

variable {τ : Tail} {n : Nat} {expression₁ expression₂ : Rule Expr}

theorem open_argumentList (h : Open τ n expression₁ expression₂) :
    Open τ n (argumentList expression₁) (argumentList expression₂) := by
  unfold argumentList
  refine (open_sees _).bind_open fun empty => ?_
  have hclose (arguments : List Expr) : Closed τ n
      (do let paren ← expect .rightParen .argumentsEnd; pure (Suffix.call paren arguments))
      (do let paren ← expect .rightParen .argumentsEnd; pure (Suffix.call paren arguments)) :=
    (closed_expect _ _).closed_pure
  cases empty with
  | true => exact (hclose []).opened
  | false => exact (open_commaSeparated _ h).bind_open fun arguments => (hclose arguments).opened

theorem extends_suffix? (h : Open τ n expression₁ expression₂) :
    Extends τ (n + 1) (fun s? => s?.isSome) (fun _ => False) (suffix? expression₁)
      (suffix? expression₂) := by
  unfold suffix?
  refine open_takeIf_bind ?_ fun t => ?_
  · exact extends_none
  · dsimp only
    split
    · exact (closed_expectName _).open_pure
    · exact (open_argumentList h).open_pure

theorem open_primary (h : Open τ n expression₁ expression₂) :
    Open τ (n + 1) (primary expression₁) (primary expression₂) := by
  have hid (node : NodeId → Expr) : Open τ n (do let id ← freshId; pure (node id))
      (do let id ← freshId; pure (node id)) :=
    (extends_freshId (F := fun _ => False)).open_pure
  have hliteral (value : Literal) : Open τ n (pure (Expr.literal value))
      (pure (Expr.literal value)) :=
    .pure id
  unfold primary
  refine extends_peek_bind (fun line => extends_fail _) (fun _ => id) fun t => ?_
  generalize t.kind = kind
  split
  iterate 5
    · exact extendsAt_take_bind fun _ => hliteral _
  · exact extendsAt_take_bind fun keyword => hid _
  · refine extendsAt_take_bind fun keyword => (closed_expect _ _).bind_open fun dot => ?_
    exact (closed_expectName _).bind_open fun method => hid _
  · exact extendsAt_take_bind fun name => hid _
  · refine extendsAt_take_bind fun paren => h.bind_open fun inner => ?_
    exact (closed_expect _ _).open_pure
  · exact (extends_fail _).at

theorem open_postfixed (h : Open τ n expression₁ expression₂) :
    Open τ (n + 1) (postfixed expression₁) (postfixed expression₂) := by
  unfold postfixed
  refine (open_primary h).bind_open fun base => ?_
  exact (open_collect fun _ => extends_suffix? h).open_pure

theorem open_leftAssociative (level : Level) {operand operand' : Rule Expr}
    (h : Open τ n operand operand') :
    Open τ n (leftAssociative level operand) (leftAssociative level operand') := by
  unfold leftAssociative
  refine h.bind_open fun first => (open_collect fun _ => ?_).open_pure
  unfold rightOperand?
  refine Extends.le (open_takeIf_bind ?_ fun operator => ?_) (Nat.le_succ n)
  · exact extends_none
  · exact h.open_pure

theorem open_binaryOver {unary unary' : Rule Expr} (h : Open τ n unary unary') (ls : List Level) :
    Open τ n (binaryOver unary ls) (binaryOver unary' ls) := by
  induction ls with
  | nil => exact h
  | cons level tighter ih => exact open_leftAssociative level ih

section Rules

variable {self self' : Nonterminal → Rule Expr}

theorem open_unaryRule (hself : ∀ x, Open τ n (self x) (self' x)) :
    Open τ (n + 1) (unaryRule self) (unaryRule self') := by
  unfold unaryRule
  refine open_takeIf_bind ?_ fun operator => ?_
  · exact open_postfixed (hself .expression)
  · exact (hself .unary).open_pure

theorem open_conditionalRule (hself : ∀ x, Open τ n (self x) (self' x)) :
    Open τ (n + 1) (conditionalRule self) (conditionalRule self') := by
  unfold conditionalRule
  refine (open_binaryOver (open_unaryRule hself) levels).bind_open fun condition => ?_
  refine open_takeIf_bind (T := fun _ => False) ?_ fun question => ?_
  · exact .pure id
  · refine (hself .conditional).bind_open fun thenBranch => ?_
    refine (closed_expect _ _).bind_open fun colon => ?_
    exact (hself .conditional).open_pure

theorem open_assignTo (target : Expr) (equals : Token) (value : Expr) :
    Open τ n (assignTo target equals value) (assignTo target equals value) := by
  cases target with
  | var id name => exact (extends_freshId (F := fun _ => False)).open_pure
  | get object name => exact .pure id
  | _ => exact (extends_record _ equals (F := fun _ => False)).open_pure

theorem open_assignmentRule (hself : ∀ x, Open τ n (self x) (self' x)) :
    Open τ (n + 1) (assignmentRule self) (assignmentRule self') := by
  unfold assignmentRule
  refine (open_conditionalRule hself).bind_open fun target => ?_
  refine open_takeIf_bind (T := fun _ => False) ?_ fun equals => ?_
  · exact .pure id
  · exact (hself .expression).bind_open fun value => open_assignTo target equals value

end Rules

theorem open_expressionUpTo {m : Nat} (hle : n ≤ m) (x : Nonterminal) :
    Open τ n (expressionUpTo n x) (expressionUpTo m x) := by
  induction n generalizing m x with
  | zero =>
      intro c hc
      have hnil : c.rest = [] := List.length_eq_zero_iff.mp (by omega)
      exact ⟨le_rfl, fun hne => absurd hnil hne⟩
  | succ n ih =>
      obtain ⟨m, rfl⟩ : ∃ k, m = k + 1 := ⟨m - 1, by omega⟩
      have hself (x : Nonterminal) : Open τ n (expressionUpTo n x) (expressionUpTo m x) :=
        ih (by omega) x
      cases x with
      | expression => exact open_assignmentRule hself
      | conditional => exact open_conditionalRule hself
      | unary => exact open_unaryRule hself

theorem open_expression : Open τ n expression expression := by
  intro c _
  have hle : c.rest.length ≤ (c.extend τ).rest.length := by
    rw [Cursor.extend, List.length_append]
    omega
  exact open_expressionUpTo hle .expression c le_rfl

end Lox.Grammar
