import Lox.Grammar.Statement
import Lox.Proofs.Grammar.Yields
import Lox.Proofs.Syntax.Shape

/-!
# Expressions composed of tokens

An expression is composed of tokens with a property if every token that it keeps has the terminal of
its place and the property, and every literal is written as a token with the property. The rules of
expressions yield such expressions from tokens with the property.
-/

namespace Lox

/-- The kind of token that a literal is written as. -/
def Literal.kind : Literal → Token.Kind
  | .nil => .symbol .nilWord
  | .boolean true => .symbol .trueWord
  | .boolean false => .symbol .falseWord
  | .number x => .number x
  | .string text => .string text

/-- The operators with one operand. -/
def unaryOperators : List Symbol :=
  [.bang, .minus]

/-- The operators that evaluate both of their operands. -/
def binaryOperators : List Symbol :=
  [.bangEqual, .equalEqual, .greater, .greaterEqual, .less, .lessEqual, .minus, .plus, .slash,
    .star]

/-- The operators that may leave their right operand unevaluated. -/
def logicalOperators : List Symbol :=
  [.orWord, .andWord]

variable (Q : Token → Prop)

/-- The token is one of these symbols and has the property. -/
def Token.IsOneOf (t : Token) (symbols : List Symbol) : Prop :=
  Q t ∧ ∃ s ∈ symbols, t.terminal = .symbol s

theorem Token.IsOneOf.mono {Q : Token → Prop} {t : Token} {symbols more : List Symbol}
    (h : t.IsOneOf Q symbols) (hsub : symbols ⊆ more) : t.IsOneOf Q more := by
  obtain ⟨hQ, s, hs, ht⟩ := h
  exact ⟨hQ, s, hsub hs, ht⟩

mutual

/-- The expression is composed of tokens with the property. -/
@[simp] def Expr.Composed : Expr → Prop
  | .literal value => ∃ t, Q t ∧ t.kind = value.kind
  | .group inner => inner.Composed
  | .unary operator operand => operator.IsOneOf Q unaryOperators ∧ operand.Composed
  | .binary left operator right =>
      left.Composed ∧ operator.IsOneOf Q binaryOperators ∧ right.Composed
  | .logical left operator right =>
      left.Composed ∧ operator.IsOneOf Q logicalOperators ∧ right.Composed
  | .conditional c t e => c.Composed ∧ t.Composed ∧ e.Composed
  | .var _ name => name.IsName Q
  | .assign _ name value => name.IsName Q ∧ value.Composed
  | .call callee paren arguments =>
      callee.Composed ∧ paren.IsSymbol Q .rightParen ∧ Expr.ListComposed arguments
  | .get object name => object.Composed ∧ name.IsName Q
  | .set object name value => object.Composed ∧ name.IsName Q ∧ value.Composed
  | .this _ keyword => keyword.IsSymbol Q .thisWord
  | .super _ keyword method => keyword.IsSymbol Q .superWord ∧ method.IsName Q

@[simp] def Expr.ListComposed : List Expr → Prop
  | [] => True
  | e :: es => e.Composed ∧ Expr.ListComposed es

end

namespace Grammar

variable {Q : Token → Prop} {n : Nat} {t : Token} {expression : Rule Expr}

/-- From tokens with the property the rule yields expressions composed of such tokens. -/
abbrev Composes (Q : Token → Prop) (r : Rule Expr) : Prop :=
  ∀ n, Yields Q n r fun _ e => e.Composed Q

theorem yields_operator (symbols : List Symbol) :
    Yields Q n (acceptAny symbols) fun _ t? => ∀ t ∈ t?, t.IsOneOf Q symbols := by
  refine (yields_takeIf _).mono fun m t? _ h t ht => ?_
  obtain ⟨hQ, hterminal⟩ := h.2 t ht
  refine ⟨hQ, ?_⟩
  split at hterminal
  · next s hs => exact ⟨s, by simpa using hterminal, hs⟩
  · cases hterminal

theorem yields_name (part : Part) : Yields Q n (expectName part) fun _ t => t.IsName Q :=
  (yields_expectName part).mono fun _ _ _ h => h.2

theorem yields_symbol (s : Symbol) (part : Part) :
    Yields Q n (expect s part) fun _ t => t.IsSymbol Q s :=
  (yields_expect s part).mono fun _ _ _ h => h.2

/-- The suffix turns an expression composed of tokens with the property into another one. -/
def Suffix.Composed (Q : Token → Prop) (s : Suffix) : Prop :=
  ∀ e, e.Composed Q → (s.apply e).Composed Q

theorem composed_argumentList (he : Composes Q expression) :
    Yields Q n (argumentList expression) fun _ s => s.Composed Q := by
  have hclose : ∀ m arguments, n ≤ m → Expr.ListComposed Q arguments →
      Yields Q m (do
        let paren ← expect .rightParen .argumentsEnd
        pure (Suffix.call paren arguments)) fun _ s => s.Composed Q := by
    intro m arguments _ harguments
    refine (yields_symbol .rightParen .argumentsEnd).bind fun k paren _ hparen => .pure ?_
    intro callee hcallee
    simpa [Suffix.apply] using ⟨hcallee, hparen, harguments⟩
  unfold argumentList
  refine (yields_sees .rightParen).bind fun m empty hnm _ => ?_
  dsimp only
  split
  · exact Yields.bind (.pure (by simp)) fun k arguments hmk => hclose k arguments (hnm.trans hmk)
  · refine (yields_commaSeparated (P := fun _ _ e => e.Composed Q)
      (R := fun _ _ es => Expr.ListComposed Q es) he ?_ ?_ m).bind
      fun k arguments hmk => hclose k arguments (hnm.trans hmk)
    · exact fun _ _ _ => by simp
    · exact fun _ _ ha has => by simpa using ⟨ha, has⟩

theorem composed_suffix? (he : Composes Q expression) :
    Yields Q n (suffix? expression) fun _ s? => ∀ s ∈ s?, s.Composed Q := by
  unfold suffix?
  refine (yields_operator _).bind fun m t? _ ht => ?_
  cases t? with
  | none => exact .pure (by simp)
  | some t =>
      dsimp only
      split
      · refine (yields_name .propertyName).bind fun k name _ hname => .pure ?_
        rintro s ⟨⟩ object hobject
        simpa [Suffix.apply] using ⟨hobject, hname⟩
      · refine (composed_argumentList he).bind fun k call _ hcall => .pure ?_
        rintro s ⟨⟩
        exact hcall

theorem composed_literal {value : Literal} (ht : Q t) (hkind : t.kind = value.kind) :
    YieldsAt Q n t (do let _ ← take; pure (.literal value)) fun _ => Expr.Composed Q :=
  yieldsAt_take_bind (.pure ⟨t, ht, hkind⟩)

theorem composed_primary (he : Composes Q expression) : Composes Q (primary expression) := by
  intro n
  unfold primary
  refine yields_peek_bind (fun line => yields_fail _) fun t ht => ?_
  have hterminal {kind : Token.Kind} (h : t.kind = kind) : Q t ∧ t.terminal = kind.terminal :=
    ⟨ht, congrArg Token.Kind.terminal h⟩
  split
  · next hkind => exact composed_literal ht hkind
  · next hkind => exact composed_literal ht hkind
  · next hkind => exact composed_literal ht hkind
  · next hkind => exact composed_literal ht hkind
  · next hkind => exact composed_literal ht hkind
  · next hkind =>
    refine yieldsAt_take_bind (yields_freshId.bind fun m id _ _ => .pure ?_)
    rw [Expr.Composed]
    exact hterminal hkind
  · next hkind =>
    refine yieldsAt_take_bind ((yields_symbol .dot .superDot).bind fun m dot _ _ => ?_)
    refine (yields_name .superMethodName).bind fun k method _ hmethod => ?_
    refine yields_freshId.bind fun j id _ _ => .pure ?_
    simpa using ⟨hterminal hkind, hmethod⟩
  · next hkind =>
    refine yieldsAt_take_bind (yields_freshId.bind fun m id _ _ => .pure ?_)
    rw [Expr.Composed]
    exact hterminal hkind
  · refine yieldsAt_take_bind ((he n).bind fun m inner _ hinner => ?_)
    refine (yields_symbol .rightParen .groupEnd).bind fun k paren _ _ => .pure ?_
    simpa using hinner
  · exact (yields_fail _).at

theorem composed_postfixed (he : Composes Q expression) : Composes Q (postfixed expression) := by
  intro n
  unfold postfixed
  refine (composed_primary he n).bind fun m base _ hbase => ?_
  refine Yields.bind (yields_collect (P := fun _ _ s => s.Composed Q)
    (R := fun _ _ suffixes => ∀ e, e.Composed Q → (suffixes.foldl Suffix.apply e).Composed Q)
    (fun _ _ => composed_suffix? he) ?_ ?_ m) fun k suffixes _ hsuffixes => ?_
  · exact fun _ _ _ e h => h
  · exact fun _ _ hs hss e h => hss _ (hs e h)
  · exact .pure (hsuffixes base hbase)

/-- The node of the level is composed of its operands and an operator of the level. -/
def Level.Composes (level : Level) : Prop :=
  ∀ Q left operator right, left.Composed Q → operator.IsOneOf Q level.operators →
    right.Composed Q → (level.node left operator right).Composed Q

theorem composes_of_mem_levels : ∀ level ∈ levels, level.Composes := by
  have hlogical {symbols : List Symbol} (hsub : symbols ⊆ logicalOperators) :
      (Level.mk symbols .logical).Composes := by
    intro Q left operator right hleft hoperator hright
    simpa using ⟨hleft, hoperator.mono hsub, hright⟩
  have hbinary {symbols : List Symbol} (hsub : symbols ⊆ binaryOperators) :
      (Level.mk symbols .binary).Composes := by
    intro Q left operator right hleft hoperator hright
    simpa using ⟨hleft, hoperator.mono hsub, hright⟩
  simp only [levels, List.forall_mem_cons]
  refine ⟨hlogical ?_, hlogical ?_, hbinary ?_, hbinary ?_, hbinary ?_, hbinary ?_, nofun⟩
    <;> decide

theorem composed_leftAssociative {level : Level} {operand : Rule Expr} (hlevel : level.Composes)
    (ho : Composes Q operand) : Composes Q (leftAssociative level operand) := by
  intro n
  unfold leftAssociative
  refine (ho n).bind fun m first _ hfirst => ?_
  refine Yields.bind (yields_collect
    (P := fun _ _ p => p.1.IsOneOf Q level.operators ∧ p.2.Composed Q)
    (R := fun _ _ more => ∀ e, e.Composed Q →
      (more.foldl (fun left p => level.node left p.1 p.2) e).Composed Q)
    ?_ ?_ ?_ m) fun k more _ hmore => ?_
  · intro n count
    unfold rightOperand?
    refine (yields_operator _).bind fun m t? _ ht => ?_
    cases t? with
    | none => exact .pure (by simp)
    | some operator =>
        refine (ho m).bind fun k right _ hright => .pure ?_
        rintro p ⟨⟩
        exact ⟨ht operator rfl, hright⟩
  · exact fun _ _ _ e h => h
  · exact fun _ _ hp hmore e h => hmore _ (hlevel Q e _ _ h hp.1 hp.2)
  · exact .pure (hmore first hfirst)

theorem composed_binaryOver {unary : Rule Expr} (hu : Composes Q unary) (ls : List Level)
    (hls : ∀ level ∈ ls, level.Composes) : Composes Q (binaryOver unary ls) := by
  induction ls with
  | nil => exact hu
  | cons level tighter ih =>
      have htighter := ih fun l hl => hls l (List.mem_cons_of_mem level hl)
      exact composed_leftAssociative (hls level List.mem_cons_self) htighter

variable {self : Nonterminal → Rule Expr}

theorem composed_unaryRule (hself : ∀ s, Composes Q (self s)) : Composes Q (unaryRule self) := by
  intro n
  unfold unaryRule
  refine (yields_operator _).bind fun m t? _ ht => ?_
  cases t? with
  | none => exact composed_postfixed (hself .expression) m
  | some operator =>
      refine (hself .unary m).bind fun k operand _ h => .pure ?_
      simpa using ⟨ht operator rfl, h⟩

theorem composed_conditionalRule (hself : ∀ s, Composes Q (self s)) :
    Composes Q (conditionalRule self) := by
  intro n
  unfold conditionalRule
  refine (composed_binaryOver (composed_unaryRule hself) levels composes_of_mem_levels n).bind
    fun m condition _ hc => ?_
  refine (yields_accept .question).bind fun k t? _ _ => ?_
  cases t? with
  | none => exact .pure hc
  | some question =>
      refine (hself .conditional k).bind fun j thenBranch _ ht => ?_
      refine (yields_symbol .colon .conditionalColon).bind fun j' colon _ _ => ?_
      refine (hself .conditional j').bind fun i elseBranch _ he => .pure ?_
      simpa using ⟨hc, ht, he⟩

theorem composed_assignTo {target value : Expr} {equals : Token} (ht : target.Composed Q)
    (hv : value.Composed Q) :
    Yields Q n (assignTo target equals value) fun _ e => e.Composed Q := by
  unfold assignTo
  split
  · refine yields_freshId.bind fun i fresh _ _ => .pure ?_
    simpa using ⟨by simpa using ht, hv⟩
  · refine .pure ?_
    rw [Expr.Composed] at ht
    simpa using ⟨ht.1, ht.2, hv⟩
  · exact (yields_record _ _).bind fun i _ _ _ => .pure ht

theorem composed_assignmentRule (hself : ∀ s, Composes Q (self s)) :
    Composes Q (assignmentRule self) := by
  intro n
  unfold assignmentRule
  refine (composed_conditionalRule hself n).bind fun m target _ ht => ?_
  refine (yields_accept .equal).bind fun k t? _ _ => ?_
  cases t? with
  | none => exact .pure ht
  | some equals => exact (hself .expression k).bind fun j value _ hv => composed_assignTo ht hv

theorem composed_expressionUpTo (bound : Nat) : ∀ s, Composes Q (expressionUpTo bound s) := by
  induction bound with
  | zero =>
      intro s n
      simpa [expressionUpTo] using yields_fail .expression
  | succ bound ih =>
      intro s
      cases s with
      | expression => simpa [expressionUpTo] using composed_assignmentRule ih
      | conditional => simpa [expressionUpTo] using composed_conditionalRule ih
      | unary => simpa [expressionUpTo] using composed_unaryRule ih

theorem composed_expression : Composes Q Grammar.expression :=
  fun n c => composed_expressionUpTo c.rest.length .expression n c

end Grammar

end Lox
