import Lox.Proofs.Grammar.Takes
import Lox.Proofs.Order.Rules

/-!
# Expressions in the order of their tokens

The tokens of an expression that refer to bindings, in the order of the source. A rule of
expressions has taken them in this order, takes no semicolon, and records only the faults of
expressions.
-/

namespace Lox

mutual

/-- The tokens of an expression that refer to bindings, in the order of the source. -/
@[simp] def Expr.references : Expr → List Token
  | .literal _ => []
  | .group inner => inner.references
  | .unary _ operand => operand.references
  | .binary left _ right => left.references ++ right.references
  | .logical left _ right => left.references ++ right.references
  | .conditional c t e => c.references ++ (t.references ++ e.references)
  | .var _ name => [name]
  | .assign _ name value => name :: value.references
  | .call callee _ arguments => callee.references ++ Expr.listReferences arguments
  | .get object _ => object.references
  | .set object _ value => object.references ++ value.references
  | .this _ keyword => [keyword]
  | .super _ keyword _ => [keyword]

@[simp] def Expr.listReferences : List Expr → List Token
  | [] => []
  | e :: es => e.references ++ Expr.listReferences es

end

@[simp] def Expr.references? : Option Expr → List Token
  | none => []
  | some e => e.references

namespace Grammar

variable {t : Token} {u : List Token} {expression : Rule Expr}

/-- The tokens that refer to bindings are among these, in this order. -/
abbrev Refers (tokens : List Token) (e : Expr) : Prop :=
  e.references.Sublist tokens

theorem inner_takes {terminal : Terminal} (hne : terminal ≠ .symbol .semicolon)
    (ht : t.terminal = terminal) : Manner.inner.takes t := by
  rw [← ht] at hne
  exact hne

/-- The suffix extends an expression by the references among these tokens. -/
def ExtendsBy (tokens : List Token) (s : Suffix) : Prop :=
  ∀ u e, Refers u e → Refers (u ++ tokens) (s.apply e)

theorem lays_argumentList (he : Lays .inner expression Refers) :
    Lays .inner (argumentList expression) ExtendsBy := by
  have hclose : ∀ u arguments, (Expr.listReferences arguments).Sublist u →
      Lays .inner (do
        let paren ← expect .rightParen .argumentsEnd
        pure (Suffix.call paren arguments)) fun v s => ExtendsBy (u ++ v) s := by
    intro u arguments ha
    refine (lays_expect .argumentsEnd fun _ => inner_takes (by decide)).bind fun v paren _ => ?_
    refine .pure fun w e hcallee => ?_
    exact hcallee.append (ha.trans (List.sublist_append_left u _))
  unfold argumentList
  refine (lays_sees .rightParen).bind fun v empty hv => ?_
  subst hv
  dsimp only
  split
  · exact Lays.bind (.pure (List.Sublist.refl [])) hclose
  · refine Lays.bind (lays_commaSeparated ?_ ?_ he ?_ ?_ ?_) hclose
    · exact .inr rfl
    · exact fun _ => inner_takes (by decide)
    · exact fun {t _ _} h => h.cons t
    · exact fun u => List.nil_sublist u
    · exact fun h h' => h.append h'

theorem lays_suffix? (he : Lays .inner expression Refers) :
    Lays .inner (suffix? expression) fun u s? => ∀ s ∈ s?, ExtendsBy u s := by
  unfold suffix?
  refine lays_acceptAny_bind (.pure (by simp)) fun t s hs ht => Lays.behind ?_ ?_
  · dsimp only
    split
    · refine (lays_expectName .propertyName fun _ => inner_takes (by decide)).bind
        fun v name _ => ?_
      refine .pure ?_
      rintro s ⟨⟩ u e hobject
      exact hobject.trans (List.sublist_append_left u _)
    · refine (lays_argumentList he).bind fun v call hcall => .pure ?_
      rintro s ⟨⟩ u e hcallee
      have h := hcall u e hcallee
      rw [List.append_nil]
      exact h.trans ((List.sublist_cons_self t v).append_left u)
  · refine inner_takes ?_ ht
    rcases List.mem_cons.mp hs with rfl | hs
    · decide
    · rw [List.mem_singleton.mp hs]
      decide

theorem laysAt_literal (value : Literal) (ht : Manner.inner.takes t) :
    LaysAt .inner t (do let _ ← take; pure (.literal value)) Refers :=
  laysAt_take_bind (Lays.behind (.pure (List.nil_sublist _)) ht)

theorem lays_primary (he : Lays .inner expression Refers) :
    Lays .inner (primary expression) Refers := by
  unfold primary
  refine lays_peek_bind (fun line => lays_fail _) fun t => ?_
  have htakes {kind : Token.Kind} (h : t.kind = kind) (hne : kind ≠ .symbol .semicolon) :
      Manner.inner.takes t := by
    rw [← h] at hne
    exact fun hsemicolon => hne (kind_of_symbol hsemicolon)
  split
  · rename_i hkind
    exact laysAt_literal _ (htakes hkind nofun)
  · rename_i hkind
    exact laysAt_literal _ (htakes hkind nofun)
  · rename_i hkind
    exact laysAt_literal _ (htakes hkind nofun)
  · rename_i hkind
    exact laysAt_literal _ (htakes hkind nofun)
  · rename_i hkind
    exact laysAt_literal _ (htakes hkind nofun)
  · rename_i hkind
    refine laysAt_take_bind (Lays.behind ?_ (htakes hkind nofun))
    exact lays_freshId.bind fun u id _ => .pure ((List.nil_sublist _).cons_cons t)
  · rename_i hkind
    refine laysAt_take_bind (Lays.behind ?_ (htakes hkind nofun))
    refine (lays_expect .superDot fun _ => inner_takes (by decide)).bind fun u dot _ => ?_
    refine (lays_expectName .superMethodName fun _ => inner_takes (by decide)).bind
      fun v method _ => ?_
    exact lays_freshId.bind fun w id _ => .pure ((List.nil_sublist _).cons_cons t)
  · rename_i hkind
    refine laysAt_take_bind (Lays.behind ?_ (htakes hkind nofun))
    exact lays_freshId.bind fun u id _ => .pure ((List.nil_sublist _).cons_cons t)
  · rename_i hkind
    refine laysAt_take_bind (Lays.behind ?_ (htakes hkind nofun))
    refine he.bind fun u inner hinner => ?_
    refine (lays_expect .groupEnd fun _ => inner_takes (by decide)).bind fun v paren _ => .pure ?_
    exact (hinner.trans (List.sublist_append_left u _)).cons t
  · exact (lays_fail _).at

theorem lays_postfixed (he : Lays .inner expression Refers) :
    Lays .inner (postfixed expression) Refers := by
  unfold postfixed
  refine (lays_primary he).bind fun u base hbase => ?_
  refine Lays.bind (lays_collect (P := ExtendsBy)
    (R := fun v suffixes => ∀ u e, Refers u e → Refers (u ++ v) (suffixes.foldl Suffix.apply e))
    (fun _ => lays_suffix? he) ?_ ?_) fun v suffixes hsuffixes => .pure ?_
  · exact fun v u e h => h.trans (List.sublist_append_left u v)
  · intro v w s ss hs hss u e h
    rw [← List.append_assoc]
    exact hss (u ++ v) _ (hs u e h)
  · rw [List.append_nil]
    exact hsuffixes u base hbase

/-- The node of the level has the references of its operands, and no operator is a semicolon. -/
structure Level.Orders (level : Level) : Prop where
  references : ∀ left operator right,
    (level.node left operator right).references = left.references ++ right.references
  operators : Symbol.semicolon ∉ level.operators

theorem orders_of_mem_levels : ∀ level ∈ levels, level.Orders := by
  intro level hlevel
  constructor
  · revert level
    simp [levels]
  · revert level
    decide

theorem lays_leftAssociative {level : Level} {operand : Rule Expr} (hlevel : level.Orders)
    (ho : Lays .inner operand Refers) : Lays .inner (leftAssociative level operand) Refers := by
  unfold leftAssociative
  refine ho.bind fun u first hfirst => ?_
  refine Lays.bind (lays_collect (P := fun v (p : Token × Expr) => Refers v p.2)
    (R := fun v more => ∀ u e, Refers u e →
      Refers (u ++ v) (more.foldl (fun left p => level.node left p.1 p.2) e))
    ?_ ?_ ?_) fun v more hmore => .pure ?_
  · intro count
    unfold rightOperand?
    refine lays_acceptAny_bind (.pure (by simp)) fun t s hs ht => Lays.behind ?_ ?_
    · refine ho.bind fun v right hright => .pure ?_
      rintro p ⟨⟩
      rw [List.append_nil]
      exact hright.cons t
    · refine inner_takes ?_ ht
      rintro ⟨⟩
      exact hlevel.operators hs
  · exact fun v u e h => h.trans (List.sublist_append_left u v)
  · intro v w p more hp hmore u e h
    rw [← List.append_assoc]
    refine hmore (u ++ v) _ ?_
    unfold Refers
    rw [hlevel.references]
    exact h.append hp
  · rw [List.append_nil]
    exact hmore u first hfirst

theorem lays_binaryOver {unary : Rule Expr} (hu : Lays .inner unary Refers) (ls : List Level)
    (hls : ∀ level ∈ ls, level.Orders) : Lays .inner (binaryOver unary ls) Refers := by
  induction ls with
  | nil => exact hu
  | cons level tighter ih =>
      have htighter := ih fun l hl => hls l (List.mem_cons_of_mem level hl)
      exact lays_leftAssociative (hls level List.mem_cons_self) htighter

variable {self : Nonterminal → Rule Expr}

theorem lays_unaryRule (hself : ∀ s, Lays .inner (self s) Refers) :
    Lays .inner (unaryRule self) Refers := by
  unfold unaryRule
  refine lays_acceptAny_bind (lays_postfixed (hself .expression)) fun t s hs ht =>
    Lays.behind ?_ ?_
  · refine (hself .unary).bind fun u operand h => .pure ?_
    rw [List.append_nil]
    exact h.cons t
  · refine inner_takes ?_ ht
    rintro ⟨⟩
    exact absurd hs (by decide)

theorem lays_conditionalRule (hself : ∀ s, Lays .inner (self s) Refers) :
    Lays .inner (conditionalRule self) Refers := by
  unfold conditionalRule
  refine (lays_binaryOver (lays_unaryRule hself) levels orders_of_mem_levels).bind
    fun u condition hc => ?_
  refine lays_accept_bind (.pure ?_) fun question hquestion => Lays.behind ?_ ?_
  · rw [List.append_nil]
    exact hc
  · refine (hself .conditional).bind fun v thenBranch ht => ?_
    refine (lays_expect .conditionalColon fun _ => inner_takes (by decide)).bind fun w colon _ => ?_
    refine (hself .conditional).bind fun x elseBranch he => .pure ?_
    rw [List.append_nil]
    exact hc.append ((ht.append (he.trans (List.sublist_append_right w x))).cons question)
  · exact inner_takes (by decide) hquestion

theorem lays_assignmentRule (hself : ∀ s, Lays .inner (self s) Refers) :
    Lays .inner (assignmentRule self) Refers := by
  unfold assignmentRule
  refine (lays_conditionalRule hself).bind fun u target htarget => ?_
  refine lays_accept_bind (.pure ?_) fun equals hequals => ?_
  · rw [List.append_nil]
    exact htarget
  · have htakes : Manner.inner.takes equals := inner_takes (by decide) hequals
    -- The value is dropped, but what was recorded in it stays in front of the invalid target.
    have hinvalid : LaysBehind .inner equals (do
        let _ ← self .expression
        record .invalidTarget equals
        pure target) fun v e => Refers (u ++ v) e :=
      (hself .expression).record_behind htakes fun _ _ _ =>
        htarget.trans (List.sublist_append_left u _)
    cases target with
    | var id name =>
        refine Lays.behind ((hself .expression).bind fun v value hv => ?_) htakes
        refine lays_freshId.bind fun w fresh hw => .pure ?_
        subst hw
        rw [List.append_nil, List.append_nil]
        exact htarget.append (hv.cons equals)
    | get object name =>
        refine Lays.behind ((hself .expression).bind fun v value hv => .pure ?_) htakes
        rw [List.append_nil]
        exact List.Sublist.append htarget (hv.cons equals)
    | _ => exact hinvalid

theorem lays_expressionUpTo (bound : Nat) : ∀ s, Lays .inner (expressionUpTo bound s) Refers := by
  induction bound with
  | zero =>
      intro s
      simpa [expressionUpTo] using lays_fail .expression
  | succ bound ih =>
      intro s
      cases s with
      | expression => simpa [expressionUpTo] using lays_assignmentRule ih
      | conditional => simpa [expressionUpTo] using lays_conditionalRule ih
      | unary => simpa [expressionUpTo] using lays_unaryRule ih

theorem lays_expression : Lays .inner Grammar.expression Refers :=
  fun c => lays_expressionUpTo c.rest.length .expression c

end Grammar

end Lox
