import Lox.Proofs.Grammar.Complete.Expressions
import Lox.Proofs.Unparse.Consumes

/-!
# Expressions are read back

The rules of expressions make of the tokens of a well-formed expression this expression again, as
long as what comes next cannot continue it. A postfixed expression is taken apart into its base and
suffixes, and an expression of a level of operators into its operands, as the rules take them.
-/

namespace Lox

/-- The expressions differ in nothing but the identities of nodes. -/
def Expr.Alike (a b : Expr) : Prop :=
  a.relabel .anonymous = b.relabel .anonymous

namespace Grammar

variable {rest : List Token} {n : Nat} {self : Nonterminal → Rule Expr}

/-- The precedences of operators that join two operands. -/
def joining : List Precedence :=
  [.or, .and, .equality, .comparison, .term, .factor]

theorem binary_mem_joining {l r : Expr} {t : Token} (h : (Expr.binary l t r).WellFormed) :
    (Expr.binary l t r).precedence ∈ joining :=
  List.mem_cons_of_mem _ (List.mem_cons_of_mem _ h.1)

theorem logical_mem_joining {l r : Expr} {t : Token} (h : (Expr.logical l t r).WellFormed) :
    (Expr.logical l t r).precedence ∈ joining :=
  List.mem_append_left [Precedence.equality, .comparison, .term, .factor] h.1

theorem not_call_le {p : Precedence} (h : p ∈ joining) : ¬ .call ≤ p := by
  cases p <;> revert h <;> decide

theorem beginsWith_literal (v : Literal) : beginsPrimary v.token.terminal = true := by
  cases v with
  | boolean b => cases b <;> rfl
  | _ => rfl

theorem beginsWith_primary : ∀ {e : Expr}, e.WellFormed → .call ≤ e.precedence →
    BeginsWith beginsPrimary e.tokens
  | .literal v, _, _ => beginsWith_cons (beginsWith_literal v)
  | .group _, _, _ => beginsWith_cons rfl
  | .var _ name, h, _ => beginsWith_cons (by rw [h]; rfl)
  | .this _ keyword, h, _ => beginsWith_cons (by rw [h]; rfl)
  | .super _ keyword _, h, _ => beginsWith_cons (by rw [h.1]; rfl)
  | .call callee _ _, h, _ => (beginsWith_primary h.1.1 h.1.2).append _
  | .get object _, h, _ => (beginsWith_primary h.1.1 h.1.2).append _
  | .unary .., _, hp => absurd hp (show ¬ Precedence.call ≤ .unary by decide)
  | .conditional .., _, hp => absurd hp (show ¬ Precedence.call ≤ .ternary by decide)
  | .assign .., _, hp => absurd hp (show ¬ Precedence.call ≤ .assignment by decide)
  | .set .., _, hp => absurd hp (show ¬ Precedence.call ≤ .assignment by decide)
  | .binary .., h, hp => absurd hp (not_call_le (binary_mem_joining h))
  | .logical .., h, hp => absurd hp (not_call_le (logical_mem_joining h))

theorem beginsWith_expression : ∀ {e : Expr}, e.WellFormed → BeginsWith beginsExpression e.tokens
  | .unary operator _, h => beginsWith_cons (by rcases h.1 with h | h <;> rw [h] <;> rfl)
  | .binary left _ _, h => (beginsWith_expression h.2.1.1).append _
  | .logical left _ _, h => (beginsWith_expression h.2.1.1).append _
  | .conditional c _ _, h => (beginsWith_expression h.1.1).append _
  | .assign _ name _, h => beginsWith_cons (by rw [h.1]; rfl)
  | .set object _ _, h => (beginsWith_expression h.1.1).append _
  | .literal v, _ => beginsWith_cons (beginsExpression_of_beginsPrimary _ (beginsWith_literal v))
  | .group _, _ => beginsWith_cons rfl
  | .var _ name, h => beginsWith_cons (by rw [h]; rfl)
  | .this _ keyword, h => beginsWith_cons (by rw [h]; rfl)
  | .super _ keyword _, h => beginsWith_cons (by rw [h.1]; rfl)
  | .call callee _ _, h => (beginsWith_expression h.1.1).append _
  | .get object _, h => (beginsWith_expression h.1.1).append _

def Suffix.tokens : Suffix → List Token
  | .call paren arguments =>
      .mark .leftParen :: (Token.separated (Expr.listTokens arguments) ++ [paren])
  | .get name => [.mark .dot, name]

/-- The suffix makes a well-formed expression of one that binds strongly enough. -/
def Suffix.WellFormed : Suffix → Prop
  | .call paren arguments =>
      paren.terminal = .symbol .rightParen ∧ Expr.ListWellFormed arguments
        ∧ arguments.length ≤ maxArity
  | .get name => name.terminal = .identifier

/-- The suffix makes the same of expressions that are alike. -/
def Suffix.Alike (s s' : Suffix) : Prop :=
  ∀ e e' : Expr, e.Alike e' → (s.apply e).Alike (s'.apply e')

/-- An expression that binds as strongly as a call is a primary one with suffixes. -/
theorem exists_suffixes : ∀ {e : Expr}, e.WellFormed → .call ≤ e.precedence →
    ∃ (base : Expr) (suffixes : List Suffix), e = suffixes.foldl Suffix.apply base
      ∧ (base.WellFormed ∧ base.precedence = .primary) ∧ (∀ s ∈ suffixes, s.WellFormed)
      ∧ e.tokens = base.tokens ++ suffixes.flatMap Suffix.tokens
  | .call callee paren arguments, h, _ => by
      obtain ⟨base, suffixes, rfl, hbase, hsuffixes, htokens⟩ := exists_suffixes h.1.1 h.1.2
      refine ⟨base, suffixes ++ [.call paren arguments], by simp [Suffix.apply], hbase, ?_, ?_⟩
      · simpa [or_imp, forall_and] using ⟨hsuffixes, h.2⟩
      · simp [htokens, Suffix.tokens]
  | .get object name, h, _ => by
      obtain ⟨base, suffixes, rfl, hbase, hsuffixes, htokens⟩ := exists_suffixes h.1.1 h.1.2
      refine ⟨base, suffixes ++ [.get name], by simp [Suffix.apply], hbase, ?_, ?_⟩
      · simpa [or_imp, forall_and] using ⟨hsuffixes, h.2⟩
      · simp [htokens, Suffix.tokens]
  | .literal v, h, _ => ⟨.literal v, [], rfl, ⟨h, rfl⟩, nofun, by simp⟩
  | .group inner, h, _ => ⟨.group inner, [], rfl, ⟨h, rfl⟩, nofun, by simp⟩
  | .var id name, h, _ => ⟨.var id name, [], rfl, ⟨h, rfl⟩, nofun, by simp⟩
  | .this id keyword, h, _ => ⟨.this id keyword, [], rfl, ⟨h, rfl⟩, nofun, by simp⟩
  | .super id keyword method, h, _ =>
      ⟨.super id keyword method, [], rfl, ⟨h, rfl⟩, nofun, by simp⟩
  | .unary .., _, hp => absurd hp (show ¬ Precedence.call ≤ .unary by decide)
  | .conditional .., _, hp => absurd hp (show ¬ Precedence.call ≤ .ternary by decide)
  | .assign .., _, hp => absurd hp (show ¬ Precedence.call ≤ .assignment by decide)
  | .set .., _, hp => absurd hp (show ¬ Precedence.call ≤ .assignment by decide)
  | .binary .., h, hp => absurd hp (not_call_le (binary_mem_joining h))
  | .logical .., h, hp => absurd hp (not_call_le (logical_mem_joining h))

theorem alike_foldl_apply {suffixes found : List Suffix}
    (h : List.Forall₂ Suffix.Alike suffixes found) :
    ∀ {base base' : Expr}, base.Alike base' →
      (suffixes.foldl Suffix.apply base).Alike (found.foldl Suffix.apply base') := by
  induction h with
  | nil => exact fun hbase => hbase
  | cons hs _ ih => exact fun hbase => ih (hs _ _ hbase)

/-- An operator of a level with its right operand. -/
def Level.tokens (x : Token × Expr) : List Token :=
  x.1 :: x.2.tokens

/-- The operands joined by the operators, from the left. -/
def Level.chain (level : Level) (first : Expr) (more : List (Token × Expr)) : Expr :=
  more.foldl (fun left (operator, right) => level.node left operator right) first

/-- The nodes of the level are the expressions of this precedence. -/
structure Level.JoinsAt (level : Level) (p : Precedence) : Prop where
  operator : ∀ t, .ofOperator t = p → ∃ s ∈ level.operators, t.terminal = .symbol s
  split : ∀ e : Expr, e.WellFormed → e.precedence = p → ∃ left operator right,
    e = level.node left operator right ∧ .ofOperator operator = p
      ∧ (left.WellFormed ∧ p ≤ left.precedence) ∧ right.WellFormed ∧ p < right.precedence
  tokens : ∀ l t r, (level.node l t r).tokens = l.tokens ++ t :: r.tokens
  alike : ∀ {l l' : Expr} (t : Token) {r r' : Expr}, l.Alike l' → r.Alike r' →
    (level.node l t r).Alike (level.node l' t r')

theorem symbol_of_ofOperator {t : Token} {p : Precedence} (h : .ofOperator t = p)
    (hp : p ≠ .primary) : ∃ s, t.terminal = .symbol s ∧ .ofOperator (.mark s) = p := by
  subst h
  obtain ⟨kind, lexeme, line⟩ := t
  cases kind with
  | symbol s => exact ⟨s, rfl, rfl⟩
  | _ => exact absurd rfl hp

theorem disjoint_precedences {p : Precedence} (h : p ∈ [Precedence.or, .and]) :
    p ∉ [Precedence.equality, .comparison, .term, .factor] := by
  cases p <;> revert h <;> decide

theorem joins_logical {p : Precedence} {operators : List Symbol} (hp : p ∈ [Precedence.or, .and])
    (hmem : ∀ s, Precedence.ofOperator (.mark s) = p → s ∈ operators) :
    Level.JoinsAt ⟨operators, .logical⟩ p := by
  constructor
  · intro t ht
    obtain ⟨s, hs, hmark⟩ := symbol_of_ofOperator ht (by rintro rfl; revert hp; decide)
    exact ⟨s, hmem s hmark, hs⟩
  · rintro e h rfl
    cases e with
    | logical l t r => exact ⟨l, t, r, rfl, rfl, h.2⟩
    | binary l t r => exact absurd h.1 (disjoint_precedences hp)
    | _ => simp [Expr.precedence] at hp
  · exact fun _ _ _ => rfl
  · intro l l' t r r' hl hr
    simp only [Expr.Alike, Expr.relabel] at hl hr ⊢
    rw [hl, hr]

theorem joins_binary {p : Precedence} {operators : List Symbol}
    (hp : p ∈ [Precedence.equality, .comparison, .term, .factor])
    (hmem : ∀ s, Precedence.ofOperator (.mark s) = p → s ∈ operators) :
    Level.JoinsAt ⟨operators, .binary⟩ p := by
  constructor
  · intro t ht
    obtain ⟨s, hs, hmark⟩ := symbol_of_ofOperator ht (by rintro rfl; revert hp; decide)
    exact ⟨s, hmem s hmark, hs⟩
  · rintro e h rfl
    cases e with
    | binary l t r => exact ⟨l, t, r, rfl, rfl, h.2⟩
    | logical l t r => exact absurd hp (disjoint_precedences h.1)
    | _ => simp [Expr.precedence] at hp
  · exact fun _ _ _ => rfl
  · intro l l' t r r' hl hr
    simp only [Expr.Alike, Expr.relabel] at hl hr ⊢
    rw [hl, hr]

/-- The levels are those of the precedences from this one on, over unary expressions. An operator
continues no operand of its own level. -/
inductive Ladder : Precedence → List Level → Prop
  | unary : Ladder .unary []
  | level {p q : Precedence} {level : Level} {tighter : List Level} (hjoins : level.JoinsAt p)
      (hnext : q.rank = p.rank + 1) (hnew : ∀ s ∈ level.operators, s ∉ continuing tighter)
      (h : Ladder q tighter) : Ladder p (level :: tighter)

theorem ladder_or : Ladder .or levels := by
  refine .level (q := .and) (joins_logical (by decide) ?_) rfl (by decide) ?_
  · intro s
    cases s <;> decide
  refine .level (q := .equality) (joins_logical (by decide) ?_) rfl (by decide) ?_
  · intro s
    cases s <;> decide
  refine .level (q := .comparison) (joins_binary (by decide) ?_) rfl (by decide) ?_
  · intro s
    cases s <;> decide
  refine .level (q := .term) (joins_binary (by decide) ?_) rfl (by decide) ?_
  · intro s
    cases s <;> decide
  refine .level (q := .factor) (joins_binary (by decide) ?_) rfl (by decide) ?_
  · intro s
    cases s <;> decide
  refine .level (joins_binary (by decide) ?_) rfl (by decide) .unary
  intro s
  cases s <;> decide

/-- An expression of a level is a chain of operands that bind more strongly. -/
theorem Level.JoinsAt.exists_chain {level : Level} {p : Precedence} (hjoins : level.JoinsAt p)
    {e : Expr} (h : e.WellFormed) (hp : p ≤ e.precedence) :
    ∃ first more, e = level.chain first more ∧ (first.WellFormed ∧ p < first.precedence)
      ∧ (∀ x ∈ more, .ofOperator x.1 = p ∧ x.2.WellFormed ∧ p < x.2.precedence)
      ∧ e.tokens = first.tokens ++ more.flatMap Level.tokens := by
  induction hn : e.tokens.length using Nat.strongRecOn generalizing e with
  | ind n ih =>
      subst hn
      rcases Nat.lt_or_eq_of_le hp with hlt | heq
      · exact ⟨e, [], rfl, ⟨h, hlt⟩, nofun, by simp⟩
      · have heq' := Precedence.rank_injective heq
        obtain ⟨l, t, r, rfl, ht, ⟨hl, hpl⟩, hr⟩ := hjoins.split e h heq'.symm
        have htokens := hjoins.tokens l t r
        have hlt : l.tokens.length < (level.node l t r).tokens.length := by
          simp [htokens]
        obtain ⟨first, more, rfl, hfirst, hmore, hchain⟩ := ih _ hlt hl hpl rfl
        refine ⟨first, more ++ [(t, r)], by simp [Level.chain], hfirst, fun x hx => ?_, ?_⟩
        · rcases List.mem_append.mp hx with hx | hx
          · exact hmore x hx
          · obtain rfl := List.mem_singleton.mp hx
            exact ⟨ht, hr⟩
        · simp [htokens, hchain, Level.tokens]

/-! ## Primary expressions and their suffixes -/

/-- The weakest precedence of the expressions of a nonterminal. -/
def Nonterminal.precedence : Nonterminal → Precedence
  | .expression => .assignment
  | .conditional => .ternary
  | .unary => .unary

/-- On inputs of at most `n` tokens, the rules make of the tokens of a well-formed expression one
that is alike. -/
def ConsumesUpTo (n : Nat) (self : Nonterminal → Rule Expr) : Prop :=
  ∀ (x : Nonterminal) (e : Expr) (rest : List Token), (e.tokens ++ rest).length ≤ n →
    e.WellFormed → x.precedence ≤ e.precedence → StopsAt x.continuing rest →
    Consumes (self x) e.tokens rest e.Alike

theorem assignment_le (p : Precedence) : Precedence.assignment ≤ p :=
  Nat.zero_le _

theorem relabel_eq_of_forall₂ {es es' : List Expr} (h : List.Forall₂ Expr.Alike es es') :
    Expr.listRelabel .anonymous es = Expr.listRelabel .anonymous es' := by
  induction h with
  | nil => rfl
  | cons he _ ih => rw [Expr.listRelabel, Expr.listRelabel, he, ih]

theorem alike_call {es es' : List Expr} (paren : Token) (h : List.Forall₂ Expr.Alike es es') :
    (Suffix.call paren es).Alike (.call paren es') := by
  intro e e' he
  simp only [Expr.Alike, Suffix.apply, Expr.relabel] at he ⊢
  rw [he, relabel_eq_of_forall₂ h]

theorem consumes_argumentList (hself : ConsumesUpTo n self) {paren : Token} {es : List Expr}
    (h : (Suffix.call paren es).WellFormed)
    (hn : (Token.separated (es.map Expr.tokens) ++ paren :: rest).length ≤ n) :
    Consumes (argumentList (self .expression)) (Token.separated (es.map Expr.tokens) ++ [paren])
      rest (Suffix.call paren es).Alike := by
  obtain ⟨hparen, hwell, hlen⟩ := h
  rw [Expr.listWellFormed_iff] at hwell
  have hclose : ∀ es', List.Forall₂ Expr.Alike es es' → Consumes (do
      let paren ← expect .rightParen .argumentsEnd
      pure (Suffix.call paren es')) [paren] rest (Suffix.call paren es).Alike := by
    intro es' hes
    refine (consumes_expect _ hparen).last fun paren' hparen' => ?_
    subst hparen'
    exact .pure (alike_call _ hes)
  unfold argumentList
  cases es with
  | nil =>
      refine (consumes_sees_self hparen).look fun empty hempty => ?_
      subst hempty
      exact Consumes.look (P := List.Forall₂ Expr.Alike []) (.pure .nil) hclose
  | cons e es =>
      have hbegins : BeginsWith beginsExpression (Token.separated ((e :: es).map Expr.tokens)) :=
        (beginsWith_expression (hwell e List.mem_cons_self)).append _
      have hstops : StopsAt [.rightParen]
          ((Token.separated ((e :: es).map Expr.tokens) ++ [paren]) ++ rest) :=
        ((hbegins.append _).append _).stopsAt (by decide)
      refine (consumes_sees_false hstops).look fun empty hempty => ?_
      subst hempty
      refine Consumes.bind (P := List.Forall₂ Expr.Alike (e :: es))
        (consumes_commaSeparated .tooManyArguments ?_ (stopsAt_symbol hparen (by decide))
          (List.cons_ne_nil e es) hlen) hclose
      intro x rest' hx hrest' hle
      apply hself .expression x rest' (hle.trans (by simpa using hn)) (hwell x hx)
        (assignment_le _)
      rcases hrest' with rfl | ⟨vs, rfl⟩
      · exact stopsAt_symbol hparen (by decide)
      · exact stopsAt_mark (by decide)

theorem consumes_suffix? (hself : ConsumesUpTo n self) {s : Suffix} (h : s.WellFormed)
    (hn : (s.tokens ++ rest).length ≤ n + 1) :
    Consumes (suffix? (self .expression)) s.tokens rest fun s? =>
      ∃ s', s? = some s' ∧ s.Alike s' := by
  unfold suffix?
  cases s with
  | call paren es =>
      rw [Suffix.tokens, Expr.listTokens_eq_map] at hn ⊢
      refine (consumes_acceptAny (t := .mark .leftParen) rfl (by decide)).cons fun t? ht => ?_
      subst ht
      dsimp only
      rw [if_neg (by rw [Token.mark_terminal]; decide)]
      refine (consumes_argumentList hself h ?_).last fun call hcall => .pure ⟨call, rfl, hcall⟩
      simpa using hn
  | get name =>
      refine (consumes_acceptAny (t := .mark .dot) rfl (by decide)).cons fun t? ht => ?_
      subst ht
      dsimp only
      rw [if_pos (by rw [Token.mark_terminal]; decide)]
      refine (consumes_expectName _ h).last fun name' hname => ?_
      subst hname
      refine .pure ⟨_, rfl, fun e e' he => ?_⟩
      simp only [Expr.Alike, Suffix.apply, Expr.relabel] at he ⊢
      rw [he]

theorem consumes_suffix?_none {expr : Rule Expr} (hrest : StopsAt suffixSymbols rest) :
    Consumes (suffix? expr) [] rest (· = none) := by
  unfold suffix?
  refine (consumes_acceptAny_none hrest).look fun t? ht => ?_
  subst ht
  exact .pure rfl

theorem consumes_primary (hself : ConsumesUpTo n self) {e : Expr} (h : e.WellFormed)
    (hp : e.precedence = .primary) (hn : (e.tokens ++ rest).length ≤ n + 1) :
    Consumes (primary (self .expression)) e.tokens rest e.Alike := by
  unfold primary
  cases e with
  | literal v =>
      cases v with
      | boolean b => cases b <;> exact consumes_peek_bind (consumes_take_bind (.pure rfl))
      | _ => exact consumes_peek_bind (consumes_take_bind (.pure rfl))
  | group inner =>
      refine consumes_peek_bind (consumes_take_bind ?_)
      refine (hself .expression inner _ ?_ h (assignment_le _) (stopsAt_mark (by decide))).bind
        fun inner' hinner => ?_
      · simpa using hn
      refine (consumes_expect _ rfl).last fun paren _ => .pure ?_
      exact congrArg Expr.group hinner
  | var id name =>
      apply consumes_peek_bind
      simp only [kind_of_identifier h]
      exact consumes_take_bind (consumes_freshId.last fun id' _ => .pure rfl)
  | this id keyword =>
      apply consumes_peek_bind
      simp only [kind_of_symbol h]
      exact consumes_take_bind (consumes_freshId.last fun id' _ => .pure rfl)
  | super id keyword method =>
      apply consumes_peek_bind
      simp only [kind_of_symbol h.1]
      refine consumes_take_bind ((consumes_expect _ rfl).cons fun dot _ => ?_)
      refine (consumes_expectName _ h.2).last fun method' hmethod => ?_
      subst hmethod
      exact consumes_freshId.last fun id' _ => .pure rfl
  | binary l t r => exact absurd (hp ▸ binary_mem_joining h) (by decide)
  | logical l t r => exact absurd (hp ▸ logical_mem_joining h) (by decide)
  | _ => cases hp

theorem consumes_postfixed (hself : ConsumesUpTo n self) {e : Expr} (h : e.WellFormed)
    (hp : .call ≤ e.precedence) (hrest : StopsAt suffixSymbols rest)
    (hn : (e.tokens ++ rest).length ≤ n + 1) :
    Consumes (postfixed (self .expression)) e.tokens rest e.Alike := by
  obtain ⟨base, suffixes, rfl, ⟨hbase, hprimary⟩, hsuffixes, htokens⟩ := exists_suffixes h hp
  rw [htokens] at hn ⊢
  unfold postfixed
  refine (consumes_primary hself hbase hprimary (by simpa using hn)).bind fun base' hbase' => ?_
  refine (consumes_collect (Q := Suffix.Alike) ?_ ?_ ?_).last fun found hfound =>
    .pure (alike_foldl_apply hfound hbase')
  · intro s _
    cases s <;> exact List.cons_ne_nil _ _
  · intro i s hs
    apply consumes_suffix? hself (hsuffixes s (List.mem_of_getElem? hs))
    have hbound := length_drop_flatMap Suffix.tokens hs
    simp only [List.length_append] at hbound hn ⊢
    omega
  · exact consumes_suffix?_none hrest

/-! ## Operators -/

theorem exists_eq_unary {e : Expr} (h : e.WellFormed) (hp : e.precedence = .unary) :
    ∃ t operand, e = .unary t operand := by
  cases e with
  | unary t operand => exact ⟨t, operand, rfl⟩
  | binary l t r => exact absurd (hp ▸ binary_mem_joining h) (by decide)
  | logical l t r => exact absurd (hp ▸ logical_mem_joining h) (by decide)
  | _ => cases hp

theorem consumes_unaryRule (hself : ConsumesUpTo n self) {e : Expr} (h : e.WellFormed)
    (hp : .unary ≤ e.precedence) (hrest : StopsAt suffixSymbols rest)
    (hn : (e.tokens ++ rest).length ≤ n + 1) : Consumes (unaryRule self) e.tokens rest e.Alike := by
  unfold unaryRule
  rcases Nat.lt_or_eq_of_le hp with hcall | hunary
  · have hstops : StopsAt [.bang, .minus] (e.tokens ++ rest) :=
      ((beginsWith_primary h hcall).append rest).stopsAt (by decide)
    refine (consumes_acceptAny_none hstops).look fun t? ht => ?_
    subst ht
    exact consumes_postfixed hself h hcall hrest hn
  · obtain ⟨t, operand, rfl⟩ := exists_eq_unary h (Precedence.rank_injective hunary.symm)
    have hoperator : ∃ s ∈ [Symbol.bang, .minus], t.terminal = .symbol s := by
      rcases h.1 with ht | ht
      · exact ⟨.bang, by decide, ht⟩
      · exact ⟨.minus, by decide, ht⟩
    obtain ⟨s, hs, ht⟩ := hoperator
    refine (consumes_acceptAny ht hs).cons fun t? ht? => ?_
    subst ht?
    refine (hself .unary operand rest ?_ h.2.1 h.2.2 hrest).last fun operand' hoperand => .pure ?_
    · simpa using hn
    · exact congrArg (Expr.unary t) hoperand

theorem StopsAt.operators {level : Level} {tighter : List Level}
    (h : StopsAt (continuing (level :: tighter)) rest) : StopsAt level.operators rest :=
  Stops.operators h

theorem StopsAt.tighter {level : Level} {tighter : List Level}
    (h : StopsAt (continuing (level :: tighter)) rest) : StopsAt (continuing tighter) rest :=
  Stops.tighter h

theorem Level.JoinsAt.alike_chain {level : Level} {p : Precedence} (hjoins : level.JoinsAt p)
    {more more' : List (Token × Expr)}
    (h : List.Forall₂ (fun x y => x.1 = y.1 ∧ x.2.Alike y.2) more more') :
    ∀ {first first' : Expr}, first.Alike first' →
      (level.chain first more).Alike (level.chain first' more') := by
  induction h with
  | nil => exact fun hfirst => hfirst
  | @cons x y _ _ hx _ ih =>
      obtain ⟨t, r⟩ := x
      obtain ⟨t', r'⟩ := y
      obtain ⟨rfl, hr⟩ := hx
      exact fun hfirst => ih (hjoins.alike _ hfirst hr)

/-- Operands are joined as long as an operator of the level follows. -/
theorem consumes_leftAssociative {level : Level} {tighter : List Level} {p : Precedence}
    {operand : Rule Expr} (hjoins : level.JoinsAt p)
    (hnew : ∀ s ∈ level.operators, s ∉ continuing tighter)
    (ho : ∀ (e : Expr) rest', (e.tokens ++ rest').length ≤ n → e.WellFormed → p < e.precedence →
      StopsAt (continuing tighter) rest' → Consumes operand e.tokens rest' e.Alike)
    {e : Expr} (h : e.WellFormed) (hp : p ≤ e.precedence)
    (hrest : StopsAt (continuing (level :: tighter)) rest) (hn : (e.tokens ++ rest).length ≤ n) :
    Consumes (leftAssociative level operand) e.tokens rest e.Alike := by
  obtain ⟨first, more, rfl, ⟨hfirst, hpfirst⟩, hmore, htokens⟩ := hjoins.exists_chain h hp
  rw [htokens] at hn ⊢
  have hfollow : ∀ more' : List (Token × Expr), (∀ x ∈ more', x ∈ more) →
      StopsAt (continuing tighter) (more'.flatMap Level.tokens ++ rest) := by
    intro more' hsub
    cases more' with
    | nil => exact hrest.tighter
    | cons x more' =>
        obtain ⟨s, hs, hx⟩ := hjoins.operator _ (hmore x (hsub x List.mem_cons_self)).1
        exact stopsAt_symbol hx (hnew s hs)
  unfold leftAssociative
  refine (ho first _ (by simpa using hn) hfirst hpfirst (hfollow more fun _ h => h)).bind
    fun first' hfirst' => ?_
  refine (consumes_collect (Q := fun x y => x.1 = y.1 ∧ x.2.Alike y.2) ?_ ?_ ?_).last
    fun more' hmore' => .pure ?_
  · exact fun x _ => List.cons_ne_nil _ _
  · rintro i ⟨t, r⟩ hx
    obtain ⟨ht, hr, hpr⟩ := hmore _ (List.mem_of_getElem? hx)
    obtain ⟨s, hs, hts⟩ := hjoins.operator t ht
    have hbound := length_drop_flatMap Level.tokens hx
    unfold rightOperand?
    refine (consumes_acceptAny hts hs).cons fun t? ht? => ?_
    subst ht?
    have hoperand := ho r ((more.drop (i + 1)).flatMap Level.tokens ++ rest) ?_ hr hpr
      (hfollow _ fun _ h => List.mem_of_mem_drop h)
    · exact hoperand.last fun right hright => .pure ⟨_, rfl, rfl, hright⟩
    · simp only [List.length_append, List.length_cons, Level.tokens] at hbound hn ⊢
      omega
  · unfold rightOperand?
    refine (consumes_acceptAny_none hrest.operators).look fun t? ht => ?_
    subst ht
    exact .pure rfl
  · exact hjoins.alike_chain hmore' hfirst'

theorem Ladder.consumes_binaryOver {p : Precedence} {ls : List Level} {unary : Rule Expr}
    (hladder : Ladder p ls)
    (hu : ∀ (e : Expr) rest, (e.tokens ++ rest).length ≤ n → e.WellFormed → .unary ≤ e.precedence →
      StopsAt suffixSymbols rest → Consumes unary e.tokens rest e.Alike) :
    ∀ (e : Expr) rest, (e.tokens ++ rest).length ≤ n → e.WellFormed → p ≤ e.precedence →
      StopsAt (continuing ls) rest → Consumes (binaryOver unary ls) e.tokens rest e.Alike := by
  induction hladder with
  | unary => exact hu
  | level hjoins hnext hnew _ ih =>
      intro e rest hn h hp hrest
      refine consumes_leftAssociative hjoins hnew (fun e rest' hn h hp => ?_) h hp hrest hn
      exact ih e rest' hn h (hnext.le.trans hp)

theorem exists_eq_conditional {e : Expr} (h : e.WellFormed) (hp : e.precedence = .ternary) :
    ∃ c t f, e = .conditional c t f := by
  cases e with
  | conditional c t f => exact ⟨c, t, f, rfl⟩
  | binary l t r => exact absurd (hp ▸ binary_mem_joining h) (by decide)
  | logical l t r => exact absurd (hp ▸ logical_mem_joining h) (by decide)
  | _ => cases hp

theorem exists_eq_assignment {e : Expr} (h : e.WellFormed) (hp : e.precedence = .assignment) :
    (∃ id name value, e = .assign id name value)
      ∨ ∃ object name value, e = .set object name value := by
  cases e with
  | assign id name value => exact .inl ⟨id, name, value, rfl⟩
  | set object name value => exact .inr ⟨object, name, value, rfl⟩
  | binary l t r => exact absurd (hp ▸ binary_mem_joining h) (by decide)
  | logical l t r => exact absurd (hp ▸ logical_mem_joining h) (by decide)
  | _ => cases hp

theorem consumes_conditionalRule (hself : ConsumesUpTo n self) {e : Expr} (h : e.WellFormed)
    (hp : .ternary ≤ e.precedence) (hrest : StopsAt Nonterminal.conditional.continuing rest)
    (hn : (e.tokens ++ rest).length ≤ n + 1) :
    Consumes (conditionalRule self) e.tokens rest e.Alike := by
  have hunary : ∀ (e : Expr) rest, (e.tokens ++ rest).length ≤ n + 1 → e.WellFormed →
      .unary ≤ e.precedence → StopsAt suffixSymbols rest →
      Consumes (unaryRule self) e.tokens rest e.Alike :=
    fun e rest hn h hp hrest => consumes_unaryRule hself h hp hrest hn
  have hcondition := ladder_or.consumes_binaryOver hunary
  unfold conditionalRule
  rcases Nat.lt_or_eq_of_le hp with hor | hternary
  · have hoperators : StopsAt (continuing levels) rest :=
      hrest.mono fun s hs => List.mem_cons_of_mem _ hs
    refine (hcondition e rest hn h hor hoperators).last fun condition hcond => ?_
    refine (consumes_accept_none (hrest.mono (by decide))).look fun t? ht => ?_
    subst ht
    exact .pure hcond
  · obtain ⟨c, t, f, rfl⟩ := exists_eq_conditional h (Precedence.rank_injective hternary.symm)
    obtain ⟨⟨hc, hpc⟩, ⟨ht, hpt⟩, hf, hpf⟩ := h
    simp only [Expr.tokens, List.length_append, List.length_cons] at hn
    refine (hcondition c _ ?_ hc hpc (stopsAt_mark (by decide))).bind fun c' hc' => ?_
    · simp only [List.append_eq, List.length_append, List.length_cons]
      omega
    refine (consumes_accept rfl).cons fun t? ht? => ?_
    subst ht?
    refine (hself .conditional t _ ?_ ht hpt (stopsAt_mark (by decide))).bind fun t' ht' => ?_
    · simp only [List.append_eq, List.length_append, List.length_cons]
      omega
    refine (consumes_expect _ rfl).cons fun colon _ => ?_
    refine (hself .conditional f rest ?_ hf hpf hrest).last fun f' hf' => .pure ?_
    · simp only [List.length_append]
      omega
    · simp only [Expr.Alike, Expr.relabel] at hc' ht' hf' ⊢
      rw [hc', ht', hf']

theorem Expr.Alike.eq_var {id : NodeId} {name : Token} {a : Expr} (h : (Expr.var id name).Alike a) :
    ∃ id', a = .var id' name := by
  cases a with
  | var id' name' =>
      obtain ⟨-, hname⟩ := Expr.var.inj h
      exact ⟨id', congrArg (Expr.var id') hname.symm⟩
  | _ => cases h

theorem Expr.Alike.eq_get {object a : Expr} {name : Token} (h : (Expr.get object name).Alike a) :
    ∃ object', a = .get object' name ∧ object.Alike object' := by
  cases a with
  | get object' name' =>
      obtain ⟨hobject, hname⟩ := Expr.get.inj h
      exact ⟨object', congrArg (Expr.get object') hname.symm, hobject⟩
  | _ => cases h

theorem consumes_assignmentRule (hself : ConsumesUpTo n self) {e : Expr} (h : e.WellFormed)
    (hrest : StopsAt Nonterminal.expression.continuing rest)
    (hn : (e.tokens ++ rest).length ≤ n + 1) :
    Consumes (assignmentRule self) e.tokens rest e.Alike := by
  unfold assignmentRule
  rcases Nat.lt_or_eq_of_le (assignment_le e.precedence) with hternary | hassignment
  · have hconditional : StopsAt Nonterminal.conditional.continuing rest :=
      hrest.mono fun s hs => List.mem_cons_of_mem _ hs
    refine (consumes_conditionalRule hself h hternary hconditional hn).last fun e' he => ?_
    refine (consumes_accept_none (hrest.mono (by decide))).look fun t? ht => ?_
    subst ht
    exact .pure he
  · have hequal : ∀ ts, StopsAt Nonterminal.conditional.continuing (.mark .equal :: ts) :=
      fun ts => stopsAt_mark (by decide)
    -- The target is read as a conditional expression that ends at the equals sign.
    rcases exists_eq_assignment h (Precedence.rank_injective hassignment.symm)
      with ⟨id, name, value, rfl⟩ | ⟨object, name, value, rfl⟩
    · have htarget : (Expr.var id name).WellFormed := h.1
      have hp : Precedence.ternary ≤ .primary := by decide
      refine Consumes.cons (consumes_conditionalRule hself htarget hp (hequal _) hn)
        fun target ht => ?_
      obtain ⟨id', rfl⟩ := Expr.Alike.eq_var ht
      refine (consumes_accept rfl).cons fun t? ht? => ?_
      subst ht?
      refine (hself .expression value rest ?_ h.2 (assignment_le _) hrest).last
        fun value' hvalue => consumes_freshId.last fun id'' _ => .pure ?_
      · simp only [Expr.tokens, List.length_append, List.length_cons] at hn ⊢
        omega
      · exact congrArg (Expr.assign 0 name) hvalue
    · have htarget : (Expr.get object name).WellFormed := ⟨h.1, h.2.1⟩
      have hp : Precedence.ternary ≤ .call := by decide
      have htokens : (Expr.set object name value).tokens
          = (Expr.get object name).tokens ++ .mark .equal :: value.tokens := by simp
      rw [htokens] at hn ⊢
      refine (consumes_conditionalRule hself htarget hp (hequal _) (by simpa using hn)).bind
        fun target ht => ?_
      obtain ⟨object', rfl, hobject⟩ := Expr.Alike.eq_get ht
      refine (consumes_accept rfl).cons fun t? ht? => ?_
      subst ht?
      refine (hself .expression value rest ?_ h.2.2 (assignment_le _) hrest).last
        fun value' hvalue => .pure ?_
      · simp only [List.length_append, List.length_cons] at hn ⊢
        omega
      · simp only [Expr.Alike, Expr.relabel] at hobject hvalue ⊢
        rw [hobject, hvalue]

theorem consumes_expressionUpTo (n : Nat) : ConsumesUpTo n (expressionUpTo n) := by
  induction n with
  | zero =>
      intro x e rest hn h _ _
      have hne := (beginsWith_expression h).ne_nil
      rw [List.length_append, Nat.le_zero, Nat.add_eq_zero_iff, List.length_eq_zero_iff] at hn
      exact absurd hn.1 hne
  | succ n ih =>
      intro x e rest hn h hp hrest
      cases x with
      | expression => exact consumes_assignmentRule ih h hrest hn
      | conditional => exact consumes_conditionalRule ih h hp hrest hn
      | unary => exact consumes_unaryRule ih h hp hrest hn

theorem consumes_expression {e : Expr} (h : e.WellFormed)
    (hrest : StopsAt Nonterminal.expression.continuing rest) :
    Consumes expression e.tokens rest e.Alike := by
  intro c hc
  refine consumes_expressionUpTo c.rest.length .expression e rest ?_ h (assignment_le _) hrest c hc
  rw [hc]

end Grammar

end Lox
