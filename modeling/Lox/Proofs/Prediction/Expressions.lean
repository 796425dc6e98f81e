import Lox.Proofs.Prediction.Rounds

/-!
# Expressions pursue walks

The rules of expressions pursue walks along their names in the relaxed grammar. A target that cannot
be assigned to is recorded, and so is an argument that is one too many, but no part is missing there.
-/

namespace Lox.Grammar

open Ebnf (name seq alt opt star)

variable {n : Nat} {a : Ebnf} {x y : Name}

section Suffixes

variable {expression : Rule Expr}

theorem pursues_argumentList (he : Pursues n expression (Walks (name .expression))) :
    Pursues n (argumentList expression)
      (Walks (seq [opt (name .arguments), symbol .rightParen])) := by
  have hclose (arguments : List Expr) : Pursues n (do
      let paren ← expect .rightParen .argumentsEnd
      pure (Suffix.call paren arguments)) (Walks (seq [symbol .rightParen])) :=
    (pursues_expect _ _).seq fun _ => .nil
  unfold argumentList
  apply pursues_unless_bind (by decide) rfl
  · exact hclose []
  · have harguments : Pursues n (commaSeparated .tooManyArguments expression)
        (Walks (name .arguments)) :=
      .name (pursues_commaSeparated (fun _ => rfl) (.name _) he)
    exact harguments.seq hclose

/-- What may follow a callee or an object. -/
def suffixes : Ebnf :=
  alt [seq [symbol .leftParen, opt (name .arguments), symbol .rightParen], seq [symbol .dot, ident]]

theorem decided_suffixes : Decided suffixes :=
  have hcall : Decided (relaxed .call) := decided_relaxed .call
  hcall.of_seq_cons.2.of_seq_cons.1.of_star.1

theorem pursues_suffix? (he : Pursues n expression (Walks (name .expression))) :
    Pursues (n + 1) (suffix? expression) (Round (Unpredicted suffixes) suffixes) := by
  unfold suffix?
  refine pursues_acceptAny_round (W := fun t => Finds (if t.terminal == .symbol .dot then seq [ident]
    else seq [opt (name .arguments), symbol .rightParen])) le_rfl rfl ?_ ?_ ?_
  · exact pursues_pure_none
  · intro t
    dsimp only
    split
    · exact (pursues_expectName _).finds.mono fun _ _ _ h => ⟨h.1, h.2.single⟩
    · exact (pursues_argumentList he).finds
  · rintro t s w suffix? rest ht hs ⟨hne, h⟩
    refine ⟨hne, ?_⟩
    rw [ht] at h
    simp only [List.mem_cons, List.not_mem_nil, or_false] at hs
    rcases hs with rfl | rfl
    · exact .alt rfl (.seqCons (.take _ w) h)
    · exact .alt rfl (.seqCons (.take _ w) h)

/-- A token that is a primary expression by itself. -/
theorem pursuesAt_literal {t : Token} {s : Terminal} {f : Token → Rule Expr}
    (ht : t.terminal = s) (hs : s ∈ [.number, .string, .identifier, .symbol .trueWord,
      .symbol .falseWord, .symbol .nilWord, .symbol .thisWord])
    (hf : ∀ t', Pursues n (f t') Skips) :
    PursuesAt (n + 1) (some t) (take >>= f) (Walks (name .primary)) := by
  have hliteral : PursuesAt (n + 1) (some t) (take >>= f) (Walks (.terminal s)) := by
    refine pursuesAt_take_bind hf fun w e? rest h => ?_
    rw [ht]
    exact h.take s
  refine hliteral.choice ht rfl ?_
  simp only [List.mem_cons, List.not_mem_nil, or_false] at hs
  rcases hs with rfl | rfl | rfl | rfl | rfl | rfl | rfl <;> rfl

theorem pursues_primary (he : Pursues n expression (Walks (name .expression))) :
    Pursues (n + 1) (primary expression) (Walks (name .primary)) := by
  have hpure {e : Expr} : Pursues n (pure e) Skips := .pure fun _ => ⟨rfl, rfl⟩
  unfold primary
  refine pursues_peek_bind (fun t => ?_) fun line => ?_
  · have hterminal {kind : Token.Kind} (hkind : t.kind = kind) : t.terminal = kind.terminal :=
      congrArg Token.Kind.terminal hkind
    split
    iterate 5
      · next hkind =>
        exact pursuesAt_literal (hterminal hkind) (by simp [Token.Kind.terminal]) fun _ => hpure
    · next hkind =>
      refine pursuesAt_literal (hterminal hkind) (by decide) fun keyword => ?_
      exact pursues_freshId.skip fun id => hpure
    · next hkind =>
      refine (pursuesAt_symbol (hterminal hkind) fun keyword => ?_).choice (hterminal hkind) rfl rfl
      refine (pursues_expect _ _).seq fun dot => (pursues_expectName _).seq fun method => ?_
      exact pursues_freshId.skip fun id => .nil
    · next hkind =>
      refine pursuesAt_literal (hterminal hkind) (by decide) fun name => ?_
      exact pursues_freshId.skip fun id => hpure
    · next hkind =>
      refine (pursuesAt_symbol (hterminal hkind) fun paren => ?_).choice (hterminal hkind) rfl rfl
      exact he.seq fun inner => (pursues_expect _ _).seq fun paren => .nil
    · next hfalse htrue hnil hnumber hstring hthis hsuper hname hparen =>
      refine pursuesAt_fail rfl ?_
      rw [Option.map_some, Token.terminal]
      cases hkind : t.kind with
      | identifier => exact absurd hkind hname
      | number x => exact absurd hkind (hnumber x)
      | string text => exact absurd hkind (hstring text)
      | endOfInput => rfl
      | symbol s =>
          cases s with
          | falseWord => exact absurd hkind hfalse
          | trueWord => exact absurd hkind htrue
          | nilWord => exact absurd hkind hnil
          | thisWord => exact absurd hkind hthis
          | superWord => exact absurd hkind hsuper
          | leftParen => exact absurd hkind hparen
          | _ => rfl
  · exact pursuesAt_fail rfl rfl

theorem pursues_postfixed (he : Pursues n expression (Walks (name .expression))) :
    Pursues (n + 1) (postfixed expression) (Walks (name .call)) := by
  unfold postfixed
  apply Pursues.name
  refine (pursues_primary he).seq fun base => ?_
  exact (pursues_collect_predicted decided_suffixes rfl fun _ => pursues_suffix? he).seq
    fun suffixes => .nil

end Suffixes

/-- The part is one of the symbols. -/
structure Spells (b : Ebnf) (symbols : List Symbol) : Prop where
  firsts : b.firsts = symbols.map .symbol
  nonempty : b.nullable = false
  walk : ∀ s ∈ symbols, ∀ w, Walk b (.symbol s :: w) .passed w

theorem spells_symbol (s : Symbol) : Spells (symbol s) [s] where
  firsts := rfl
  nonempty := rfl
  walk := by
    intro s' hs w
    rw [List.mem_singleton.mp hs]
    exact .take _ w

theorem spells_anyOf (symbols : List Symbol) : Spells (anyOf symbols) symbols :=
  ⟨firsts_anyOf symbols, rfl, fun _ hs w => walk_anyOf hs w⟩

theorem pursues_leftAssociative {level : Level} {operand : Rule Expr} {b : Ebnf}
    (hx : relaxed x = seq [name y, star (seq [b, name y])]) (hb : Spells b level.operators)
    (h : Pursues n operand (Walks (name y))) :
    Pursues n (leftAssociative level operand) (Walks (name x)) := by
  have hne : (seq [b, name y]).nullable = false := by
    simp [Ebnf.nullable, Ebnf.nullableSeq, hb.nonempty]
  have hdecided : Decided (seq [b, name y]) := by
    have hx' := decided_relaxed x
    rw [hx] at hx'
    exact hx'.of_seq_cons.2.of_seq_cons.1.of_star.1
  have hround (k : Nat) : Pursues n (rightOperand? level operand)
      (Round (Unpredicted (seq [b, name y])) (seq [b, name y])) := by
    refine pursues_acceptAny_round (W := fun _ => Finds (seq [name y])) (Nat.le_succ n)
      ?_ ?_ ?_ ?_
    · simp [Ebnf.firsts, Ebnf.firstsSeq, hb.firsts, hb.nonempty]
    · exact pursues_pure_none
    · exact fun _ => h.finds.mono fun _ _ _ h => ⟨h.1, h.2.single⟩
    · rintro t s w right? rest - hs ⟨hright, h⟩
      exact ⟨hright, .seqCons (hb.walk s hs w) h⟩
  unfold leftAssociative
  apply Pursues.name
  rw [hx]
  refine h.seq fun first => ?_
  exact (pursues_collect_predicted hdecided hne hround).seq fun more => .nil

variable {self : Nonterminal → Rule Expr}

theorem pursues_unaryRule (hself : ∀ x, Pursues n (self x) (Walks (name x.name))) :
    Pursues (n + 1) (unaryRule self) (Walks (name .unary)) := by
  unfold unaryRule
  apply Pursues.name
  refine pursues_acceptAny_bind (W := fun _ => Walks (seq [name .unary])) (V := Walks (name .call))
    le_rfl ?_ (pursues_postfixed (hself .expression)) ?_ ?_
  · exact fun operator => (hself .unary).seq fun operand => .nil
  · intro t s w e? rest _ hs h
    refine .alt (a := seq [anyOf [.bang, .minus], name .unary]) ?_ (.seqCons (walk_anyOf hs w) h)
    simp only [List.mem_cons, List.not_mem_nil, or_false] at hs
    rcases hs with rfl | rfl <;> rfl
  · intro w e? rest hw h
    have hothers : ∀ b ∈ [seq [anyOf [.bang, .minus], name .unary]], b.predicts w.head? = false := by
      rw [List.forall_mem_singleton, Ebnf.predicts_eq_false]
      intro t ht hfirst
      obtain ⟨s, hs, rfl⟩ : ∃ s ∈ [Symbol.bang, .minus], .symbol s = t := List.mem_map.mp hfirst
      exact hw s hs ht
    exact Walk.alt_of_others _ h rfl hothers (by simp)

theorem pursues_conditionalRule (hself : ∀ x, Pursues n (self x) (Walks (name x.name))) :
    Pursues (n + 1) (conditionalRule self) (Walks (name .ternary)) := by
  have hbranch := hself .conditional
  have hcondition : Pursues (n + 1) (binaryOver (unaryRule self) levels)
      (Walks (name .logicOr)) := by
    refine pursues_leftAssociative (y := .logicAnd) rfl (spells_symbol _) ?_
    refine pursues_leftAssociative (y := .equality) rfl (spells_symbol _) ?_
    refine pursues_leftAssociative (y := .comparison) rfl (spells_anyOf _) ?_
    refine pursues_leftAssociative (y := .term) rfl (spells_anyOf _) ?_
    refine pursues_leftAssociative (y := .factor) rfl (spells_anyOf _) ?_
    refine pursues_leftAssociative (y := .unary) rfl (spells_anyOf _) ?_
    exact pursues_unaryRule hself
  unfold conditionalRule
  apply Pursues.name
  refine hcondition.seq fun condition => ?_
  apply pursues_accept_bind (l := [name .ternary, symbol .colon, name .ternary]) le_rfl
  · intro question
    refine hbranch.seq fun thenBranch => ?_
    exact (pursues_expect _ _).seq fun colon => hbranch.seq fun elseBranch => .nil
  · exact .nil

theorem pursues_assignTo (target : Expr) (equals : Token) (value : Expr) :
    Pursues n (assignTo target equals value) (Walks (seq [])) := by
  cases target with
  | var id name => exact pursues_freshId.skip fun _ => .nil
  | get object name => exact .nil
  | _ => exact (pursues_record rfl).skip fun _ => .nil

theorem pursues_assignmentRule (hself : ∀ x, Pursues n (self x) (Walks (name x.name))) :
    Pursues (n + 1) (assignmentRule self) (Walks (name .expression)) := by
  have hvalue : Pursues n (self .expression) (Walks (name .assignment)) :=
    (hself .expression).mono fun w e? rest h => by
      cases h with
      | name h => exact h
  unfold assignmentRule
  apply Pursues.name
  apply Pursues.name
  refine (pursues_conditionalRule hself).seq fun target => ?_
  apply pursues_accept_bind (l := [name .assignment]) le_rfl
  · exact fun equals => hvalue.seq fun value => pursues_assignTo target equals value
  · exact .nil

/-- Without terminals no expression can begin. -/
theorem walk_nonterminal_nil (x : Nonterminal) : Walk (name x.name) [] .stopped [] := by
  have hunary : Walk (name .unary) [] .stopped [] := .name (.altNone rfl)
  have hlevels : Walk (name .logicOr) [] .stopped [] :=
    .name (.seqStop (.name (.seqStop (.name (.seqStop (.name (.seqStop (.name (.seqStop
      (.name (.seqStop hunary)))))))))))
  have hternary : Walk (name .ternary) [] .stopped [] := .name (.seqStop hlevels)
  cases x with
  | expression => exact .name (.name (.seqStop hternary))
  | conditional => exact hternary
  | unary => exact hunary

theorem pursues_expressionUpTo (n : Nat) :
    ∀ x, Pursues n (expressionUpTo n x) (Walks (name x.name)) := by
  induction n with
  | zero => exact fun x => pursues_fail_of_nil _ (walk_nonterminal_nil x)
  | succ n ih =>
      intro x
      cases x with
      | expression => exact pursues_assignmentRule ih
      | conditional => exact pursues_conditionalRule ih
      | unary => exact pursues_unaryRule ih

theorem pursues_expression : Pursues n expression (Walks (name .expression)) :=
  ⟨fun c => (pursues_expressionUpTo c.rest.length .expression).keeps c,
    fun c _ => (pursues_expressionUpTo c.rest.length .expression).arrives c le_rfl⟩

end Lox.Grammar
