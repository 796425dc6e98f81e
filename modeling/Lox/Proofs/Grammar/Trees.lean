import Lox.Grammar.Statement
import Lox.Proofs.Grammar.Yields
import Lox.Proofs.Syntax.Shape

/-!
# The trees of a parse

A parse of tokens with a property yields trees that are built from such tokens, and whose nodes have
distinct identities between the one that is next when the parse begins and the one that is next when
it ends.
-/

namespace Lox.Grammar

variable {Q : Token → Prop} {n m k : Nat}

/-- The expression is built from tokens with the property, and its identities are distinct and
within the bounds. -/
structure GrownExpr (Q : Token → Prop) (n m : Nat) (e : Expr) : Prop where
  built : e.Built Q
  ids : DistinctWithin n m e.ids

structure GrownExprs (Q : Token → Prop) (n m : Nat) (es : List Expr) : Prop where
  built : Expr.ListBuilt Q es
  ids : DistinctWithin n m (Expr.listIds es)

structure GrownExpr? (Q : Token → Prop) (n m : Nat) (e : Option Expr) : Prop where
  built : Expr.Built? Q e
  ids : DistinctWithin n m (Expr.ids? e)

structure GrownStmt (Q : Token → Prop) (n m : Nat) (s : Stmt) : Prop where
  built : s.Built Q
  ids : DistinctWithin n m s.ids

structure GrownStmts (Q : Token → Prop) (n m : Nat) (ss : List Stmt) : Prop where
  built : Stmt.ListBuilt Q ss
  ids : DistinctWithin n m (Stmt.listIds ss)

structure GrownFunction (Q : Token → Prop) (n m : Nat) (f : FunctionDecl) : Prop where
  built : f.Built Q
  ids : DistinctWithin n m f.ids

structure GrownFunctions (Q : Token → Prop) (n m : Nat) (fs : List FunctionDecl) : Prop where
  built : FunctionDecl.ListBuilt Q fs
  ids : DistinctWithin n m (FunctionDecl.listIds fs)

theorem GrownExpr.mono {e : Expr} (h : GrownExpr Q n m e) (hmk : m ≤ k) : GrownExpr Q n k e :=
  ⟨h.built, h.ids.mono le_rfl hmk⟩

theorem GrownExprs.nil : GrownExprs Q n m [] :=
  ⟨by simp, by simpa using .nil⟩

theorem GrownExprs.cons {e : Expr} {es : List Expr} (hnm : n ≤ m) (hmk : m ≤ k)
    (he : GrownExpr Q n m e) (hes : GrownExprs Q m k es) : GrownExprs Q n k (e :: es) := by
  constructor
  · simpa using ⟨he.built, hes.built⟩
  · simpa using he.ids.append hes.ids hnm hmk

theorem GrownExpr?.none : GrownExpr? Q n m none :=
  ⟨trivial, .nil⟩

theorem GrownStmts.nil : GrownStmts Q n m [] :=
  ⟨by simp, by simpa using .nil⟩

theorem GrownStmts.cons {s : Stmt} {ss : List Stmt} (hnm : n ≤ m) (hmk : m ≤ k)
    (hs : GrownStmt Q n m s) (hss : GrownStmts Q m k ss) : GrownStmts Q n k (s :: ss) := by
  constructor
  · simpa using ⟨hs.built, hss.built⟩
  · simpa using hs.ids.append hss.ids hnm hmk

theorem GrownStmts.mono {ss : List Stmt} (h : GrownStmts Q m k ss) (hnm : n ≤ m) :
    GrownStmts Q n k ss :=
  ⟨h.built, h.ids.mono hnm le_rfl⟩

theorem GrownFunctions.nil : GrownFunctions Q n m [] :=
  ⟨by simp, by simpa using .nil⟩

theorem GrownFunctions.cons {f : FunctionDecl} {fs : List FunctionDecl} (hnm : n ≤ m)
    (hmk : m ≤ k) (hf : GrownFunction Q n m f) (hfs : GrownFunctions Q m k fs) :
    GrownFunctions Q n k (f :: fs) := by
  constructor
  · simpa using ⟨hf.built, hfs.built⟩
  · simpa using hf.ids.append hfs.ids hnm hmk

variable {expression : Rule Expr}

/-- The suffix turns a grown expression into a grown expression. -/
def GrowsBySuffix (Q : Token → Prop) (n m : Nat) (s : Suffix) : Prop :=
  ∀ k e, k ≤ n → GrownExpr Q k n e → GrownExpr Q k m (s.apply e)

theorem yields_argumentList (he : ∀ n, Yields Q n expression (GrownExpr Q n)) :
    Yields Q n (argumentList expression) (GrowsBySuffix Q n) := by
  have hclose : ∀ m arguments, n ≤ m → GrownExprs Q n m arguments →
      Yields Q m (do
        let paren ← expect .rightParen .argumentsEnd
        pure (Suffix.call paren arguments)) (GrowsBySuffix Q n) := by
    intro m arguments hnm ha
    refine (yields_expect .rightParen .argumentsEnd).bind fun k paren _ hparen => ?_
    obtain ⟨rfl, -⟩ := hparen
    refine .pure fun j e hj hcallee => ⟨?_, ?_⟩
    · simpa [Suffix.apply] using ⟨hcallee.built, ha.built⟩
    · simpa [Suffix.apply] using hcallee.ids.append ha.ids hj hnm
  unfold argumentList
  refine (yields_sees .rightParen).bind fun m empty _ hm => ?_
  subst hm
  dsimp only
  split
  · exact Yields.bind (.pure .nil) (hclose)
  · exact (yields_commaSeparated he (fun _ _ _ => .nil) .cons m).bind hclose

theorem yields_suffix? (he : ∀ n, Yields Q n expression (GrownExpr Q n)) :
    Yields Q n (suffix? expression) fun m s? => ∀ s ∈ s?, GrowsBySuffix Q n m s := by
  unfold suffix?
  refine (yields_acceptAny _).bind fun m t? _ hm => ?_
  subst hm
  cases t? with
  | none => exact .pure (by simp)
  | some t =>
      dsimp only
      split
      · refine (yields_expectName .propertyName).bind fun k name _ hname => ?_
        obtain ⟨rfl, -⟩ := hname
        refine .pure ?_
        rintro s ⟨⟩ j e hj hobject
        exact ⟨by simpa [Suffix.apply] using hobject.built,
          by simpa [Suffix.apply] using hobject.ids⟩
      · refine (yields_argumentList he).bind fun k call _ hcall => .pure ?_
        rintro s ⟨⟩
        exact hcall

theorem yieldsAt_literal {t : Token} (value : Literal) :
    YieldsAt Q n t (do let _ ← take; pure (.literal value)) (GrownExpr Q n) :=
  yieldsAt_take_bind (.pure ⟨by simp, by simpa using .nil⟩)

theorem yields_primary (he : ∀ n, Yields Q n expression (GrownExpr Q n)) :
    Yields Q n (primary expression) (GrownExpr Q n) := by
  unfold primary
  refine yields_peek_bind (fun line => yields_fail _) fun t ht => ?_
  split
  · exact yieldsAt_literal _
  · exact yieldsAt_literal _
  · exact yieldsAt_literal _
  · exact yieldsAt_literal _
  · exact yieldsAt_literal _
  · rename_i hkind
    refine yieldsAt_take_bind (yields_freshId.bind fun m id hnm hid => ?_)
    obtain ⟨rfl, rfl⟩ := hid
    refine .pure ⟨?_, by simpa using .single le_rfl (Nat.lt_succ_self _)⟩
    simpa using ⟨ht, congrArg Token.Kind.terminal hkind⟩
  · rename_i hkind
    refine yieldsAt_take_bind ((yields_expect .dot .superDot).bind fun m dot _ hdot => ?_)
    obtain ⟨rfl, -⟩ := hdot
    refine (yields_expectName .superMethodName).bind fun k method _ hmethod => ?_
    obtain ⟨rfl, -⟩ := hmethod
    refine yields_freshId.bind fun j id _ hid => ?_
    obtain ⟨rfl, rfl⟩ := hid
    refine .pure ⟨?_, by simpa using .single le_rfl (Nat.lt_succ_self _)⟩
    simpa using ⟨ht, congrArg Token.Kind.terminal hkind⟩
  · rename_i hkind
    refine yieldsAt_take_bind (yields_freshId.bind fun m id hnm hid => ?_)
    obtain ⟨rfl, rfl⟩ := hid
    refine .pure ⟨?_, by simpa using .single le_rfl (Nat.lt_succ_self _)⟩
    simpa using ⟨ht, congrArg Token.Kind.terminal hkind⟩
  · refine yieldsAt_take_bind ((he n).bind fun m inner hnm hinner => ?_)
    refine (yields_expect .rightParen .groupEnd).bind fun k paren _ hparen => ?_
    obtain ⟨rfl, -⟩ := hparen
    exact .pure ⟨by simpa using hinner.built, by simpa using hinner.ids⟩
  · exact (yields_fail _).at

theorem yields_postfixed (he : ∀ n, Yields Q n expression (GrownExpr Q n)) :
    Yields Q n (postfixed expression) (GrownExpr Q n) := by
  unfold postfixed
  refine (yields_primary he).bind fun m base hnm hbase => ?_
  refine Yields.bind (yields_collect (P := GrowsBySuffix Q)
    (R := fun n m suffixes => ∀ k e, k ≤ n → GrownExpr Q k n e →
      GrownExpr Q k m (suffixes.foldl Suffix.apply e))
    (fun n _ => yields_suffix? he) ?_ ?_ m) fun k suffixes _ hsuffixes => ?_
  · intro n m hnm k e _ h
    exact h.mono hnm
  · intro n m k s ss hnm hmk hs hss j e hj h
    exact hss j _ (hj.trans hnm) (hs j e hj h)
  · exact .pure (hsuffixes n base hnm hbase)

/-- The node of the level is made of its two operands. -/
def Level.Joins (level : Level) : Prop :=
  ∀ left operator right, (level.node left operator right).ids = left.ids ++ right.ids ∧
    ∀ Q, (level.node left operator right).Built Q ↔ left.Built Q ∧ right.Built Q

theorem joins_of_mem_levels : ∀ level ∈ levels, level.Joins := by
  simp [levels, Level.Joins]

theorem yields_leftAssociative {level : Level} {operand : Rule Expr} (hlevel : level.Joins)
    (ho : ∀ n, Yields Q n operand (GrownExpr Q n)) :
    Yields Q n (leftAssociative level operand) (GrownExpr Q n) := by
  unfold leftAssociative
  refine (ho n).bind fun m first hnm hfirst => ?_
  refine Yields.bind (yields_collect (P := fun n m (p : Token × Expr) => GrownExpr Q n m p.2)
    (R := fun n m more => ∀ k e, k ≤ n → GrownExpr Q k n e →
      GrownExpr Q k m (more.foldl (fun left p => level.node left p.1 p.2) e))
    ?_ ?_ ?_ m) fun k more _ hmore => ?_
  · intro n count
    unfold rightOperand?
    refine (yields_acceptAny _).bind fun m t? _ hm => ?_
    subst hm
    cases t? with
    | none => exact .pure (by simp)
    | some operator =>
        refine (ho m).bind fun k right _ hright => .pure ?_
        rintro p ⟨⟩
        exact hright
  · intro n m hnm k e _ h
    exact h.mono hnm
  · intro n m k p more hnm hmk hp hmore j e hj h
    refine hmore j _ (hj.trans hnm) ⟨?_, ?_⟩
    · exact ((hlevel e p.1 p.2).2 Q).mpr ⟨h.built, hp.built⟩
    · rw [(hlevel e p.1 p.2).1]
      exact h.ids.append hp.ids hj hnm
  · exact .pure (hmore n first hnm hfirst)

theorem yields_binaryOver {unary : Rule Expr} (hu : ∀ n, Yields Q n unary (GrownExpr Q n))
    (ls : List Level) (hls : ∀ level ∈ ls, level.Joins) :
    ∀ n, Yields Q n (binaryOver unary ls) (GrownExpr Q n) := by
  induction ls with
  | nil => exact hu
  | cons level tighter ih =>
      intro n
      have htighter := ih fun l hl => hls l (List.mem_cons_of_mem level hl)
      exact yields_leftAssociative (hls level List.mem_cons_self) htighter

variable {self : Nonterminal → Rule Expr}

theorem yields_unaryRule (hself : ∀ s n, Yields Q n (self s) (GrownExpr Q n)) :
    Yields Q n (unaryRule self) (GrownExpr Q n) := by
  unfold unaryRule
  refine (yields_acceptAny _).bind fun m t? _ hm => ?_
  subst hm
  cases t? with
  | none => exact yields_postfixed (hself .expression)
  | some operator =>
      refine (hself .unary m).bind fun k operand _ h => .pure ?_
      exact ⟨by simpa using h.built, by simpa using h.ids⟩

theorem yields_conditionalRule (hself : ∀ s n, Yields Q n (self s) (GrownExpr Q n)) :
    Yields Q n (conditionalRule self) (GrownExpr Q n) := by
  unfold conditionalRule
  refine (yields_binaryOver (fun _ => yields_unaryRule hself) levels joins_of_mem_levels n).bind
    fun m condition hnm hc => ?_
  refine (yields_accept .question).bind fun k t? _ hk => ?_
  obtain ⟨rfl, -⟩ := hk
  cases t? with
  | none => exact .pure hc
  | some question =>
      refine (hself .conditional k).bind fun j thenBranch hkj ht => ?_
      refine (yields_expect .colon .conditionalColon).bind fun j' colon _ hcolon => ?_
      obtain ⟨rfl, -⟩ := hcolon
      refine (hself .conditional j').bind fun i elseBranch hji he => .pure ⟨?_, ?_⟩
      · simpa using ⟨hc.built, ht.built, he.built⟩
      · have hids := (hc.ids.append ht.ids hnm hkj).append he.ids (hnm.trans hkj) hji
        simpa using hids

theorem yields_assignTo {target value : Expr} {equals : Token} (hkn : k ≤ m) (hmn : m ≤ n)
    (ht : GrownExpr Q k m target) (hv : GrownExpr Q m n value) :
    Yields Q n (assignTo target equals value) fun i e => GrownExpr Q k i e := by
  unfold assignTo
  split
  · rename_i id name
    refine yields_freshId.bind fun i fresh _ hid => ?_
    obtain ⟨rfl, rfl⟩ := hid
    refine .pure ⟨?_, ?_⟩
    · simpa using ⟨by simpa using ht.built, hv.built⟩
    · have hvalue := hv.ids.mono hkn (le_refl fresh)
      have hfresh : DistinctWithin fresh (fresh + 1) [fresh] := .single le_rfl (Nat.lt_succ_self _)
      simpa using hvalue.append hfresh (hkn.trans hmn) (Nat.le_succ _)
  · rename_i object name
    have hobject : GrownExpr Q k m object :=
      ⟨by simpa using ht.built, by simpa using ht.ids⟩
    refine .pure ⟨?_, ?_⟩
    · simpa using ⟨hobject.built, hv.built⟩
    · have hids := (hobject.ids.append hv.ids hkn hmn).perm List.perm_append_comm
      simpa using hids
  · refine (yields_record _ _).bind fun i _ _ hi => ?_
    subst hi
    exact .pure (ht.mono hmn)

theorem yields_assignmentRule (hself : ∀ s n, Yields Q n (self s) (GrownExpr Q n)) :
    Yields Q n (assignmentRule self) (GrownExpr Q n) := by
  unfold assignmentRule
  refine (yields_conditionalRule hself).bind fun m target hnm ht => ?_
  refine (yields_accept .equal).bind fun k t? _ hk => ?_
  obtain ⟨rfl, -⟩ := hk
  cases t? with
  | none => exact .pure ht
  | some equals =>
      refine (hself .expression k).bind fun j value hkj hv => ?_
      exact yields_assignTo hnm hkj ht hv

theorem yields_expressionUpTo (bound : Nat) :
    ∀ s n, Yields Q n (expressionUpTo bound s) (GrownExpr Q n) := by
  induction bound with
  | zero =>
      intro s n
      simpa [expressionUpTo] using yields_fail .expression
  | succ bound ih =>
      intro s n
      cases s with
      | expression => simpa [expressionUpTo] using yields_assignmentRule ih
      | conditional => simpa [expressionUpTo] using yields_conditionalRule ih
      | unary => simpa [expressionUpTo] using yields_unaryRule ih

theorem yields_expression : Yields Q n Grammar.expression (GrownExpr Q n) :=
  fun c => yields_expressionUpTo c.rest.length .expression n c

end Lox.Grammar
