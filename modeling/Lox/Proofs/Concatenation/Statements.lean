import Lox.Proofs.Concatenation.Expressions
import Lox.Proofs.Grammar.Programs

/-!
# Statements with more tokens behind them

A statement ends with a semicolon or a brace, behind which the parser does not look, or with a
branch of an if, behind which it looks for an else. If no else stands behind the input, a statement
is therefore parsed in the same way, even if it is the last one of the input.
-/

namespace Lox.Grammar

variable {α : Type} {τ : Tail} {n : Nat}

theorem length_synchronize_lt {ts : List Token} (h : ts ≠ []) :
    (synchronize ts).length < ts.length := by
  cases ts with
  | nil => exact absurd rfl h
  | cons t ts =>
      have hle := (skipStatement_suffix ts).length_le
      rw [synchronize, List.length_cons]
      split <;> omega

theorem skipStatement_append {ts : List Token} (h : skipStatement ts ≠ []) (more : List Token) :
    skipStatement (ts ++ more) = skipStatement ts ++ more := by
  induction ts with
  | nil => exact absurd rfl h
  | cons t ts ih =>
      rw [skipStatement] at h
      rw [List.cons_append, skipStatement, skipStatement]
      split
      · rfl
      · next hbegins =>
        rw [if_neg hbegins] at h
        split
        · rfl
        · next hsemicolon =>
          rw [if_neg hsemicolon] at h
          exact ih h

theorem synchronize_append {ts : List Token} (h : synchronize ts ≠ []) (more : List Token) :
    synchronize (ts ++ more) = synchronize ts ++ more := by
  cases ts with
  | nil => exact absurd rfl h
  | cons t ts =>
      rw [synchronize] at h
      rw [List.cons_append, synchronize, synchronize]
      split
      · rfl
      · next hsemicolon =>
        rw [if_neg hsemicolon] at h
        exact skipStatement_append h more

/-- A rule that recovers from failures. What it yields does not depend on what stands behind; after
a failure, it may only have skipped to the end. -/
structure Resumes (τ : Tail) (n : Nat) (r r' : Rule (Option α)) : Prop where
  same : Extends τ n (fun a? => a?.isSome) (fun a? => a?.isSome) r r'
  shorter : ∀ c a? c', c.rest.length ≤ n → c.rest ≠ [] → r c = .ok a? c' →
    c'.rest.length < c.rest.length

theorem resumes_recover {r r' : Rule α} (h : Closed τ n r r') :
    Resumes τ n (recover r) (recover r') where
  same c hc := by
    have hr := h c hc
    unfold recover
    cases hrc : r c with
    | ok a c' =>
        rw [hrc] at hr
        refine ⟨hr.1, fun _ => hr.2.1 trivial, fun _ => ?_⟩
        rw [hr.2.2 (.inr trivial)]
    | error e c' =>
        rw [hrc] at hr
        refine ⟨(synchronize_suffix _).length_le.trans hr.1, fun h => absurd h Bool.false_ne_true,
          fun hne => ?_⟩
        have hskip : synchronize c'.rest ≠ [] := hne.resolve_right Bool.false_ne_true
        have hne' : c'.rest ≠ [] := fun hnil => hskip (by rw [hnil, synchronize])
        rw [hr.2 hne']
        simp only [Cursor.extend, Cursor.record, synchronize_append hskip]
  shorter c a? c' hc hne hok := by
    have hr := h c hc
    unfold recover at hok
    cases hrc : r c with
    | ok a d =>
        rw [hrc] at hr hok
        cases hok
        exact hr.2.1 trivial
    | error e d =>
        rw [hrc] at hr hok
        cases hok
        by_cases hd : d.rest = []
        · have hpos := List.length_pos_iff.mpr hne
          simpa [hd, synchronize] using hpos
        · exact lt_of_lt_of_le (length_synchronize_lt hd) hr.1

theorem extends_beforeBrace {r r' : Rule α} {T F : α → Prop} (h : Extends τ n T F r r')
    (hshorter : ∀ c a c', c.rest.length ≤ n → c.rest ≠ [] → r c = .ok a c' →
      c'.rest.length < c.rest.length) :
    Extends τ n (fun a? => a?.isSome) (fun _ => False) (beforeBrace r) (beforeBrace r') := by
  unfold beforeBrace
  intro c hc
  cases hrest : c.rest with
  | nil =>
      simp only [bind_apply, sees, atEnd, hrest, List.isEmpty_nil, Bool.or_true, if_true]
      exact ⟨le_rfl, fun h => absurd h Bool.false_ne_true,
        fun hne => absurd hrest (hne.resolve_right id)⟩
  | cons t rest =>
      have hne : c.rest ≠ [] := by simp [hrest]
      have hnext : (c.extend τ).next = c.next := Cursor.next_extend hne
      have hempty : c.rest.isEmpty = false := by simp [hrest]
      have hempty' : (c.extend τ).rest.isEmpty = false := by simp [Cursor.extend, hrest]
      simp only [bind_apply, sees, atEnd, hnext, hempty, hempty', Bool.or_false]
      split
      · exact ⟨le_rfl, fun h => absurd h Bool.false_ne_true, fun _ => rfl⟩
      · have htaken := (h c hc).taken fun a c' => hshorter c a c' hc hne
        exact htaken.bind (U := fun _ _ => False)
          (fun a c' _ _ _ => ⟨le_rfl, False.elim, fun _ => rfl⟩)
          (fun _ _ _ => .inl trivial) fun _ _ => False.elim

section Rules

variable {statement statement' : Rule Stmt} {declaration declaration' : Rule (Option Stmt)}

theorem closed_block (hd : Resumes τ n declaration declaration') :
    Closed τ n (block declaration) (block declaration') := by
  have hbody : Open τ n (declarations declaration) (declarations declaration') :=
    (open_collect fun _ => extends_beforeBrace hd.same hd.shorter).open_pure
  unfold block
  exact hbody.bind_closed fun body => (closed_expect _ _).closed_pure

theorem closed_callable (hd : Resumes τ n declaration declaration') (sort : Callable) :
    Closed τ n (callable declaration sort) (callable declaration' sort) := by
  have hbody (name : Token) (params : List Token) : Closed τ n
      (do
        let _ ← expect .rightParen .parametersEnd
        let _ ← expect .leftBrace (.bodyStart sort)
        let body ← block declaration
        pure (⟨name, params, body⟩ : FunctionDecl))
      (do
        let _ ← expect .rightParen .parametersEnd
        let _ ← expect .leftBrace (.bodyStart sort)
        let body ← block declaration'
        pure (⟨name, params, body⟩ : FunctionDecl)) := by
    refine (closed_expect _ _).bind_closed fun paren => ?_
    exact (closed_expect _ _).bind_closed fun brace => (closed_block hd).closed_pure
  unfold callable
  refine (closed_expectName _).bind_closed fun name => ?_
  refine (closed_expect _ _).bind_closed fun paren => ?_
  refine (open_sees _).bind_closed fun empty => ?_
  cases empty with
  | true => exact hbody name []
  | false =>
      exact (open_commaSeparated _ (closed_expectName _).opened).bind_closed (hbody name)

theorem open_superclass? : Open τ n superclass? superclass? := by
  unfold superclass?
  refine open_takeIf.bind_open fun t? => ?_
  cases t? with
  | none => exact .pure id
  | some less =>
      refine (closed_expectName _).bind_open fun name => ?_
      exact (extends_freshId (F := fun _ => False)).open_pure

theorem closed_classRule (hd : Resumes τ n declaration declaration') :
    Closed τ n (classRule declaration) (classRule declaration') := by
  have hmethod := closed_callable hd .method
  unfold classRule
  refine (closed_expectName _).bind_closed fun name => ?_
  refine open_superclass?.bind_closed fun superclass => ?_
  refine (closed_expect _ _).bind_closed fun brace => ?_
  refine (open_collect fun _ => extends_beforeBrace hmethod ?_).bind_closed fun methods => ?_
  · intro c f c' hc _ hok
    have h := hmethod c hc
    rw [hok] at h
    exact h.2.1 trivial
  · exact (closed_expect _ _).closed_pure

theorem closed_varRule : Closed τ n varRule varRule := by
  have hclose (name : Token) (initializer : Option Expr) : Closed τ n
      (do let _ ← expect .semicolon .variableEnd; pure (Stmt.var name initializer))
      (do let _ ← expect .semicolon .variableEnd; pure (Stmt.var name initializer)) :=
    (closed_expect _ _).closed_pure
  unfold varRule
  refine (closed_expectName _).bind_closed fun name => ?_
  refine open_takeIf.bind_closed fun t? => ?_
  cases t? with
  | none => exact hclose name none
  | some equals => exact open_expression.bind_closed fun value => hclose name (some value)

theorem closed_expressionRule : Closed τ n expressionRule expressionRule :=
  open_expression.bind_closed fun _ => (closed_expect _ _).closed_pure

theorem closed_printRule : Closed τ n printRule printRule :=
  open_expression.bind_closed fun _ => (closed_expect _ _).closed_pure

theorem open_expressionUnless (s : Symbol) :
    Open τ n (expressionUnless s) (expressionUnless s) := by
  unfold expressionUnless
  refine (open_sees s).bind_open fun absent => ?_
  cases absent with
  | true => exact .pure id
  | false => exact open_expression.open_pure

theorem closed_returnRule (keyword : Token) :
    Closed τ n (returnRule keyword) (returnRule keyword) :=
  (open_expressionUnless _).bind_closed fun _ => (closed_expect _ _).closed_pure

def Tail.NoElse (τ : Tail) : Prop :=
  ∀ t, τ.tokens.head? = some t → (t.terminal == .symbol .elseWord) = false

theorem closed_ifRule (hτ : τ.NoElse) (hs : Closed τ n statement statement') :
    Closed τ n (ifRule statement) (ifRule statement') := by
  unfold ifRule
  refine (closed_expect _ _).bind_closed fun paren => ?_
  refine open_expression.bind_closed fun condition => ?_
  refine (closed_expect _ _).bind_closed fun paren => ?_
  refine hs.closed_bind (U := fun _ _ => False) fun thenBranch => ?_
  apply Extends.le _ (Nat.le_succ n)
  apply extends_takeIf_bind
  · exact .pure id
  · exact fun t => hs.closed_pure.mono (fun _ => False.elim) fun _ => id
  · exact fun _ _ => hτ

theorem closed_whileRule (hs : Closed τ n statement statement') :
    Closed τ n (whileRule statement) (whileRule statement') := by
  unfold whileRule
  refine (closed_expect _ _).bind_closed fun paren => ?_
  refine open_expression.bind_closed fun condition => ?_
  exact (closed_expect _ _).bind_closed fun paren => hs.closed_pure

theorem open_forInitializer : Open τ n forInitializer forInitializer := by
  unfold forInitializer
  refine open_takeIf.bind_open fun t? => ?_
  cases t? with
  | none => exact closed_expressionRule.open_pure
  | some t =>
      dsimp only
      split
      · exact .pure id
      · exact closed_varRule.open_pure

theorem closed_forRule (hs : Closed τ n statement statement') :
    Closed τ n (forRule statement) (forRule statement') := by
  unfold forRule
  refine (closed_expect _ _).bind_closed fun paren => ?_
  refine open_forInitializer.bind_closed fun initializer => ?_
  refine (open_expressionUnless _).bind_closed fun condition => ?_
  refine (closed_expect _ _).bind_closed fun semicolon => ?_
  refine (open_expressionUnless _).bind_closed fun increment => ?_
  exact (closed_expect _ _).bind_closed fun paren => hs.closed_pure

theorem closed_statementRule (hτ : τ.NoElse) (hs : Closed τ n statement statement')
    (hd : Resumes τ n declaration declaration') :
    Closed τ (n + 1) (statementRule statement declaration)
      (statementRule statement' declaration') := by
  unfold statementRule
  refine extends_peek_bind (fun line => closed_expressionRule) (fun _ => id) fun t => ?_
  generalize t.kind = kind
  split
  · exact extendsAt_take_bind fun _ => closed_forRule hs
  · exact extendsAt_take_bind fun _ => closed_ifRule hτ hs
  · exact extendsAt_take_bind fun _ => closed_whileRule hs
  · exact extendsAt_take_bind fun keyword => closed_returnRule keyword
  · exact extendsAt_take_bind fun _ => (closed_block hd).closed_pure
  · exact extendsAt_take_bind fun _ => closed_printRule
  · exact closed_expressionRule.at

theorem closed_declarationRule (hτ : τ.NoElse) (hs : Closed τ n statement statement')
    (hd : Resumes τ n declaration declaration') :
    Closed τ (n + 1) (declarationRule statement declaration)
      (declarationRule statement' declaration') := by
  have hstatement := closed_statementRule hτ hs hd
  unfold declarationRule
  refine extends_peek_bind (fun line => hstatement) (fun _ => id) fun t => ?_
  generalize t.kind = kind
  split
  · exact extendsAt_take_bind fun _ => closed_classRule hd
  · exact extendsAt_take_bind fun _ => (closed_callable hd .function).closed_pure
  · exact extendsAt_take_bind fun _ => closed_varRule
  · exact hstatement.at

end Rules

theorem closed_upTo (hτ : τ.NoElse) {m : Nat} (hle : n ≤ m) :
    Closed τ n (statementUpTo n) (statementUpTo m)
      ∧ Resumes τ n (declarationUpTo n) (declarationUpTo m) := by
  induction n generalizing m with
  | zero =>
      have hfail (r : Rule Stmt) : Closed τ 0 (fail .expression) r := by
        intro c hc
        have hnil : c.rest = [] := List.length_eq_zero_iff.mp (by omega)
        exact ⟨le_rfl, fun hne => absurd hnil hne⟩
      refine ⟨hfail _, ?_⟩
      cases m with
      | zero => exact resumes_recover (hfail _)
      | succ m => exact resumes_recover (hfail _)
  | succ n ih =>
      obtain ⟨m, rfl⟩ : ∃ k, m = k + 1 := ⟨m - 1, by omega⟩
      obtain ⟨hs, hd⟩ := ih (m := m) (by omega)
      constructor
      · exact closed_statementRule hτ hs hd
      · exact resumes_recover (closed_declarationRule hτ hs hd)

end Lox.Grammar
