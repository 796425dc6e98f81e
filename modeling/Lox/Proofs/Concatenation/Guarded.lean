import Lox.Proofs.Concatenation.Programs

/-!
# Inputs guarded by a semicolon

The rules on an input whose only semicolon is its last token, and in which no block and no for
statement can begin. No expression takes the semicolon, a statement that succeeds has taken it, and a
failure leaves it, so that what is skipped after a failure ends in front of it or with it.
-/

namespace Lox.Grammar

variable {α β : Type} {Q : Cursor → Prop} {τ : Tail} {n m : Nat} {c : Cursor}

/-- The terminals that end a statement, begin or end a block, or begin a for statement. -/
def fences : List Terminal :=
  [.symbol .semicolon, .symbol .leftBrace, .symbol .rightBrace, .symbol .forWord]

/-- The rest of the input is a semicolon with none of the fences before it. -/
def Cursor.Guarded (c : Cursor) : Prop :=
  ∃ w semicolon, c.rest = w ++ [semicolon] ∧ semicolon.terminal = .symbol .semicolon
    ∧ ∀ t ∈ w, t.terminal ∉ fences

/-- All tokens of the input are taken. -/
def Cursor.Taken (c : Cursor) : Prop :=
  c.rest = []

/-- In front of a guarding semicolon the rule either succeeds with `Q` or leaves the semicolon. -/
def Halts (r : Rule α) (Q : Cursor → Prop) : Prop :=
  ∀ c : Cursor, c.Guarded → match r c with
    | .ok _ c' => Q c'
    | .error _ c' => c'.Guarded

def HaltsAt (t : Token) (r : Rule α) (Q : Cursor → Prop) : Prop :=
  ∀ c : Cursor, c.Guarded → c.rest.head? = some t → match r c with
    | .ok _ c' => Q c'
    | .error _ c' => c'.Guarded

/-- The next token of a guarded input is its semicolon, or it may be taken. -/
theorem Cursor.Guarded.cases (h : c.Guarded) : ∃ t rest, c.rest = t :: rest ∧
    (t.terminal ∉ fences ∧ Cursor.Guarded { c with rest := rest }
      ∨ t.terminal = .symbol .semicolon ∧ rest = []) := by
  obtain ⟨w, semicolon, hrest, hsemicolon, hw⟩ := h
  cases w with
  | nil => exact ⟨semicolon, [], hrest, .inr ⟨hsemicolon, rfl⟩⟩
  | cons t w =>
      obtain ⟨ht, hw⟩ := List.forall_mem_cons.mp hw
      exact ⟨t, w ++ [semicolon], hrest, .inl ⟨ht, w, semicolon, rfl, hsemicolon, hw⟩⟩

theorem Cursor.Guarded.ne_nil (h : c.Guarded) : c.rest ≠ [] := by
  obtain ⟨t, rest, hrest, -⟩ := h.cases
  simp [hrest]

namespace Halts

variable {r : Rule α} {f : α → Rule β}

theorem pure {a : α} : Halts (pure a) Cursor.Guarded :=
  fun _ hc => hc

theorem bind (hr : Halts r Cursor.Guarded) (hf : ∀ a, Halts (f a) Q) : Halts (r >>= f) Q := by
  intro c hc
  have hr := hr c hc
  rw [bind_apply]
  cases hrc : r c with
  | error e c' =>
      rw [hrc] at hr
      exact hr
  | ok a c' =>
      rw [hrc] at hr
      exact hf a c' hr

/-- Behind the semicolon there is nothing to take. -/
theorem done (hr : Halts r Cursor.Taken)
    (hf : ∀ a (c : Cursor), c.Taken → ∃ b, f a c = .ok b c) : Halts (r >>= f) Cursor.Taken := by
  intro c hc
  have hr := hr c hc
  rw [bind_apply]
  cases hrc : r c with
  | error e c' =>
      rw [hrc] at hr
      exact hr
  | ok a c' =>
      rw [hrc] at hr
      obtain ⟨b, hfc⟩ := hf a c' hr
      dsimp only
      rw [hfc]
      exact hr

theorem done_pure {g : α → β} (hr : Halts r Cursor.Taken) :
    Halts (do let a ← r; Pure.pure (g a)) Cursor.Taken :=
  hr.done fun a _ _ => ⟨g a, rfl⟩

theorem «at» {t : Token} (h : Halts r Q) : HaltsAt t r Q :=
  fun c hc _ => h c hc

end Halts

theorem halts_fail (part : Part) : Halts (fail part : Rule α) Q :=
  fun _ hc => hc

theorem halts_sees (s : Symbol) : Halts (sees s) Cursor.Guarded :=
  fun _ hc => hc

theorem halts_freshId : Halts freshId Cursor.Guarded :=
  fun _ hc => hc

theorem halts_record (fault : Fault) (token : Token) : Halts (record fault token) Cursor.Guarded :=
  fun _ hc => hc

theorem halts_recordNext (fault : Fault) : Halts (recordNext fault) Cursor.Guarded :=
  fun _ hc => hc

theorem halts_takeIf {p : Terminal → Bool} (hp : p (.symbol .semicolon) = false) :
    Halts (takeIf p) Cursor.Guarded := by
  intro c hc
  obtain ⟨t, rest, hrest, ⟨-, hguarded⟩ | ⟨ht, -⟩⟩ := hc.cases
  · by_cases hpt : p t.terminal = true
    · simp only [takeIf, hrest, if_pos hpt]
      exact hguarded
    · simp only [takeIf, hrest, if_neg hpt]
      exact hc
  · simp only [takeIf, hrest, ht, hp, Bool.false_eq_true, if_false]
    exact hc

theorem halts_expectTerminal {t : Terminal} (ht : t ≠ .symbol .semicolon) (part : Part) :
    Halts (expectTerminal t part) Cursor.Guarded := by
  unfold expectTerminal
  apply Halts.bind
  · exact halts_takeIf (beq_eq_false_iff_ne.mpr ht.symm)
  · intro t?
    cases t? with
    | none => exact halts_fail part
    | some t => exact .pure

theorem halts_expect {s : Symbol} (hs : s ≠ .semicolon) (part : Part) :
    Halts (expect s part) Cursor.Guarded :=
  halts_expectTerminal (fun h => hs (Terminal.symbol.inj h)) part

theorem halts_expectName (part : Part) : Halts (expectName part) Cursor.Guarded :=
  halts_expectTerminal Terminal.noConfusion part

theorem halts_semicolon (part : Part) : Halts (expect .semicolon part) Cursor.Taken := by
  intro c hc
  obtain ⟨t, rest, hrest, ⟨ht, -⟩ | ⟨ht, hnil⟩⟩ := hc.cases
  · have hne : (t.terminal == .symbol .semicolon) = false := by
      rw [beq_eq_false_iff_ne]
      rintro heq
      rw [heq] at ht
      exact ht List.mem_cons_self
    simp only [expect, expectTerminal, bind_apply, takeIf, hrest, hne, Bool.false_eq_true, if_false]
    exact hc
  · simp only [expect, expectTerminal, bind_apply, takeIf, hrest, ht, beq_self_eq_true, if_true]
    exact hnil

/-- No block begins in front of the semicolon. -/
theorem halts_leftBrace_bind (part : Part) (f : Token → Rule β) :
    Halts (expect .leftBrace part >>= f) Q := by
  intro c hc
  obtain ⟨t, rest, hrest, ht⟩ := hc.cases
  have hne : (t.terminal == .symbol .leftBrace) = false := by
    rw [beq_eq_false_iff_ne]
    rintro heq
    rw [heq] at ht
    exact ht.elim (fun h => h.1 (by decide)) fun h => absurd h.1 (by decide)
  simp only [expect, expectTerminal, bind_apply, takeIf, hrest, hne, Bool.false_eq_true, if_false]
  exact hc

theorem halts_peek_bind {f : Token → Rule α} (hf : ∀ t, HaltsAt t (f t) Q) :
    Halts (peek >>= f) Q := by
  intro c hc
  obtain ⟨t, rest, hrest, -⟩ := hc.cases
  have hnext : c.next = t := by simp [Cursor.next, hrest]
  rw [bind_apply]
  simp only [peek, hnext]
  exact hf t c hc (by simp [hrest])

theorem haltsAt_take_bind {t : Token} {f : Token → Rule α} (ht : t.terminal ≠ .symbol .semicolon)
    (hf : ∀ t, Halts (f t) Q) : HaltsAt t (take >>= f) Q := by
  intro c hc hhead
  obtain ⟨u, rest, hrest, hu⟩ := hc.cases
  obtain rfl : u = t := by simpa [hrest] using hhead
  obtain ⟨-, hguarded⟩ := hu.resolve_right fun h => ht h.1
  rw [bind_apply]
  simp only [take, hrest, List.tail_cons]
  exact hf c.next { c with rest := rest } hguarded

/-- Neither a brace nor a for statement stands in front of the semicolon. -/
theorem haltsAt_fence {t : Token} {r : Rule α} (ht : t.terminal ∈ fences)
    (hne : t.terminal ≠ .symbol .semicolon) : HaltsAt t r Q := by
  intro c hc hhead
  obtain ⟨u, rest, hrest, hu⟩ := hc.cases
  obtain rfl : u = t := by simpa [hrest] using hhead
  exact (hu.elim (fun h => h.1 ht) fun h => hne h.1).elim

theorem halts_collect {step : Nat → Rule (Option α)} (hstep : ∀ k, Halts (step k) Cursor.Guarded) :
    Halts (collect step) Cursor.Guarded := by
  have hrounds (rounds : Nat) : ∀ k, Halts (collectUpTo step rounds k) Cursor.Guarded := by
    induction rounds with
    | zero => exact fun k => .pure
    | succ rounds ih =>
        intro k
        apply (hstep k).bind
        intro a?
        cases a? with
        | none => exact .pure
        | some a => exact (ih (k + 1)).bind fun more => .pure
  exact fun c => hrounds c.rest.length 0 c

theorem halts_commaSeparated {item : Rule α} (tooMany : Fault) (h : Halts item Cursor.Guarded) :
    Halts (commaSeparated tooMany item) Cursor.Guarded := by
  have hnext : Halts (do let next ← item; pure (some next)) Cursor.Guarded := h.bind fun _ => .pure
  unfold commaSeparated nextItem?
  apply h.bind
  intro first
  refine (halts_collect fun count => ?_).bind fun more => .pure
  apply (halts_takeIf rfl).bind
  intro comma?
  cases comma? with
  | none => exact .pure
  | some comma =>
      dsimp only
      split
      · exact (halts_recordNext tooMany).bind fun _ => hnext
      · exact hnext

/-! ## Expressions -/

theorem halts_acceptAny {symbols : List Symbol} (h : symbols.contains .semicolon = false) :
    Halts (acceptAny symbols) Cursor.Guarded :=
  halts_takeIf h

section Expressions

variable {expression : Rule Expr}

theorem halts_argumentList (h : Halts expression Cursor.Guarded) :
    Halts (argumentList expression) Cursor.Guarded := by
  unfold argumentList
  apply (halts_sees .rightParen).bind
  intro empty
  have hclose (arguments : List Expr) : Halts
      (do let paren ← expect .rightParen .argumentsEnd; pure (Suffix.call paren arguments))
      Cursor.Guarded :=
    (halts_expect (by decide) _).bind fun _ => .pure
  cases empty with
  | true => exact hclose []
  | false => exact (halts_commaSeparated _ h).bind hclose

theorem halts_suffix? (h : Halts expression Cursor.Guarded) :
    Halts (suffix? expression) Cursor.Guarded := by
  unfold suffix?
  apply (halts_acceptAny rfl).bind
  intro t?
  cases t? with
  | none => exact .pure
  | some t =>
      dsimp only
      split
      · exact (halts_expectName _).bind fun _ => .pure
      · exact (halts_argumentList h).bind fun _ => .pure

theorem halts_primary (h : Halts expression Cursor.Guarded) :
    Halts (primary expression) Cursor.Guarded := by
  have hne {t : Token} {kind : Token.Kind} (hkind : t.kind = kind)
      (hnot : kind.terminal ≠ .symbol .semicolon) : t.terminal ≠ .symbol .semicolon := by
    rw [Token.terminal, hkind]
    exact hnot
  unfold primary
  apply halts_peek_bind
  intro t
  split
  iterate 3
    · next hkind => exact haltsAt_take_bind (hne hkind (by decide)) fun _ => .pure
  iterate 2
    · next hkind => exact haltsAt_take_bind (hne hkind Terminal.noConfusion) fun _ => .pure
  · next hkind =>
    exact haltsAt_take_bind (hne hkind (by decide)) fun _ => halts_freshId.bind fun _ => .pure
  · next hkind =>
    refine haltsAt_take_bind (hne hkind (by decide)) fun _ => ?_
    apply (halts_expect (by decide) _).bind
    exact fun dot => (halts_expectName _).bind fun _ => halts_freshId.bind fun _ => .pure
  · next hkind =>
    exact haltsAt_take_bind (hne hkind (by decide)) fun _ => halts_freshId.bind fun _ => .pure
  · next hkind =>
    refine haltsAt_take_bind (hne hkind (by decide)) fun _ => h.bind fun inner => ?_
    exact (halts_expect (by decide) _).bind fun _ => .pure
  · exact (halts_fail _).at

theorem halts_postfixed (h : Halts expression Cursor.Guarded) :
    Halts (postfixed expression) Cursor.Guarded := by
  unfold postfixed
  apply (halts_primary h).bind
  exact fun base => (halts_collect fun _ => halts_suffix? h).bind fun _ => .pure

theorem halts_binaryOver {unary : Rule Expr} (h : Halts unary Cursor.Guarded) {ls : List Level}
    (hls : ∀ level ∈ ls, level.operators.contains .semicolon = false) :
    Halts (binaryOver unary ls) Cursor.Guarded := by
  induction ls with
  | nil => exact h
  | cons level tighter ih =>
      obtain ⟨hlevel, htighter⟩ := List.forall_mem_cons.mp hls
      have hoperand := ih htighter
      apply hoperand.bind
      intro first
      refine (halts_collect fun _ => ?_).bind fun _ => .pure
      apply (halts_acceptAny hlevel).bind
      intro operator?
      cases operator? with
      | none => exact .pure
      | some operator => exact hoperand.bind fun _ => .pure

variable {self : Nonterminal → Rule Expr}

theorem halts_unaryRule (hself : ∀ x, Halts (self x) Cursor.Guarded) :
    Halts (unaryRule self) Cursor.Guarded := by
  unfold unaryRule
  apply (halts_acceptAny rfl).bind
  intro operator?
  cases operator? with
  | none => exact halts_postfixed (hself .expression)
  | some operator => exact (hself .unary).bind fun _ => .pure

theorem halts_conditionalRule (hself : ∀ x, Halts (self x) Cursor.Guarded) :
    Halts (conditionalRule self) Cursor.Guarded := by
  unfold conditionalRule
  apply (halts_binaryOver (halts_unaryRule hself) (by decide)).bind
  intro condition
  apply (halts_takeIf rfl).bind
  intro question?
  cases question? with
  | none => exact .pure
  | some question =>
      apply (hself .conditional).bind
      intro thenBranch
      apply (halts_expect (by decide) _).bind
      exact fun colon => (hself .conditional).bind fun _ => .pure

theorem halts_assignTo (target : Expr) (equals : Token) (value : Expr) :
    Halts (assignTo target equals value) Cursor.Guarded := by
  cases target with
  | var id name => exact halts_freshId.bind fun _ => .pure
  | get object name => exact .pure
  | _ => exact (halts_record _ equals).bind fun _ => .pure

theorem halts_assignmentRule (hself : ∀ x, Halts (self x) Cursor.Guarded) :
    Halts (assignmentRule self) Cursor.Guarded := by
  unfold assignmentRule
  apply (halts_conditionalRule hself).bind
  intro target
  apply (halts_takeIf rfl).bind
  intro equals?
  cases equals? with
  | none => exact .pure
  | some equals => exact (hself .expression).bind fun value => halts_assignTo target equals value

end Expressions

theorem halts_expressionUpTo (n : Nat) (x : Nonterminal) :
    Halts (expressionUpTo n x) Cursor.Guarded := by
  induction n generalizing x with
  | zero => exact halts_fail .expression
  | succ n ih =>
      cases x with
      | expression => exact halts_assignmentRule ih
      | conditional => exact halts_conditionalRule ih
      | unary => exact halts_unaryRule ih

/-- An expression does not take the semicolon. -/
theorem halts_expression : Halts expression Cursor.Guarded :=
  fun c hc => halts_expressionUpTo c.rest.length .expression c hc

/-! ## Statements -/

section Statements

variable {statement : Rule Stmt}

theorem halts_callable (declaration : Rule (Option Stmt)) (sort : Callable) :
    Halts (callable declaration sort) Q := by
  have hbody (name : Token) (params : List Token) : Halts
      (do
        let _ ← expect .rightParen .parametersEnd
        let _ ← expect .leftBrace (.bodyStart sort)
        let body ← block declaration
        pure (⟨name, params, body⟩ : FunctionDecl)) Q :=
    (halts_expect (by decide) _).bind fun paren => halts_leftBrace_bind _ _
  unfold callable
  apply (halts_expectName _).bind
  intro name
  apply (halts_expect (by decide) _).bind
  intro paren
  apply (halts_sees _).bind
  intro empty
  cases empty with
  | true => exact hbody name []
  | false => exact (halts_commaSeparated _ (halts_expectName _)).bind (hbody name)

theorem halts_superclass? : Halts superclass? Cursor.Guarded := by
  apply (halts_takeIf rfl).bind
  intro less?
  cases less? with
  | none => exact .pure
  | some less => exact (halts_expectName _).bind fun name => halts_freshId.bind fun _ => .pure

theorem halts_classRule (declaration : Rule (Option Stmt)) : Halts (classRule declaration) Q := by
  unfold classRule
  apply (halts_expectName _).bind
  intro name
  exact halts_superclass?.bind fun superclass => halts_leftBrace_bind _ _

theorem halts_varRule : Halts varRule Cursor.Taken := by
  have hclose (name : Token) (initializer : Option Expr) : Halts
      (do let _ ← expect .semicolon .variableEnd; pure (Stmt.var name initializer)) Cursor.Taken :=
    (halts_semicolon _).done_pure
  unfold varRule
  apply (halts_expectName _).bind
  intro name
  apply (halts_takeIf rfl).bind
  intro equals?
  cases equals? with
  | none => exact hclose name none
  | some equals => exact halts_expression.bind fun value => hclose name (some value)

theorem halts_expressionRule : Halts expressionRule Cursor.Taken :=
  halts_expression.bind fun _ => (halts_semicolon _).done_pure

theorem halts_printRule : Halts printRule Cursor.Taken :=
  halts_expression.bind fun _ => (halts_semicolon _).done_pure

theorem halts_returnRule (keyword : Token) : Halts (returnRule keyword) Cursor.Taken := by
  have hvalue : Halts (expressionUnless .semicolon) Cursor.Guarded := by
    apply (halts_sees _).bind
    intro absent
    cases absent with
    | true => exact .pure
    | false => exact halts_expression.bind fun _ => .pure
  exact hvalue.bind fun _ => (halts_semicolon _).done_pure

theorem halts_ifRule (hs : Halts statement Cursor.Taken) : Halts (ifRule statement) Cursor.Taken := by
  unfold ifRule
  apply (halts_expect (by decide) _).bind
  intro paren
  apply halts_expression.bind
  intro condition
  apply (halts_expect (by decide) _).bind
  intro paren
  apply hs.done
  intro thenBranch c hc
  have hnone : accept .elseWord c = .ok none c := by
    simp only [accept, takeIf, show c.rest = [] from hc]
  refine ⟨.ifThen condition thenBranch, ?_⟩
  rw [bind_apply, hnone]
  rfl

theorem halts_whileRule (hs : Halts statement Cursor.Taken) :
    Halts (whileRule statement) Cursor.Taken := by
  unfold whileRule
  apply (halts_expect (by decide) _).bind
  intro paren
  apply halts_expression.bind
  intro condition
  apply (halts_expect (by decide) _).bind
  exact fun paren => hs.done_pure

theorem halts_statementRule (hs : Halts statement Cursor.Taken)
    (declaration : Rule (Option Stmt)) : Halts (statementRule statement declaration) Cursor.Taken := by
  have hterminal {t : Token} {s : Symbol} (hkind : t.kind = .symbol s) :
      t.terminal = .symbol s := by
    rw [Token.terminal, hkind]
    rfl
  have hne {t : Token} {s : Symbol} (hkind : t.kind = .symbol s) (hnot : s ≠ .semicolon) :
      t.terminal ≠ .symbol .semicolon := by
    rw [hterminal hkind]
    exact fun h => hnot (Terminal.symbol.inj h)
  unfold statementRule
  apply halts_peek_bind
  intro t
  split
  · next hkind => exact haltsAt_fence (by rw [hterminal hkind]; decide) (hne hkind (by decide))
  · next hkind => exact haltsAt_take_bind (hne hkind (by decide)) fun _ => halts_ifRule hs
  · next hkind => exact haltsAt_take_bind (hne hkind (by decide)) fun _ => halts_whileRule hs
  · next hkind =>
    exact haltsAt_take_bind (hne hkind (by decide)) fun keyword => halts_returnRule keyword
  · next hkind => exact haltsAt_fence (by rw [hterminal hkind]; decide) (hne hkind (by decide))
  · next hkind => exact haltsAt_take_bind (hne hkind (by decide)) fun _ => halts_printRule
  · exact halts_expressionRule.at

theorem halts_declarationRule (hs : Halts statement Cursor.Taken)
    (declaration : Rule (Option Stmt)) :
    Halts (declarationRule statement declaration) Cursor.Taken := by
  have hne {t : Token} {s : Symbol} (hkind : t.kind = .symbol s) (hnot : s ≠ .semicolon) :
      t.terminal ≠ .symbol .semicolon := by
    rw [Token.terminal, hkind]
    exact fun h => hnot (Terminal.symbol.inj h)
  unfold declarationRule
  apply halts_peek_bind
  intro t
  split
  · next hkind => exact haltsAt_take_bind (hne hkind (by decide)) fun _ => halts_classRule _
  · next hkind =>
    refine haltsAt_take_bind (hne hkind (by decide)) fun _ => ?_
    exact (halts_callable _ _).done_pure
  · next hkind => exact haltsAt_take_bind (hne hkind (by decide)) fun _ => halts_varRule
  · exact (halts_statementRule hs declaration).at

end Statements

theorem halts_statementUpTo (n : Nat) : Halts (statementUpTo n) Cursor.Taken := by
  induction n with
  | zero => exact halts_fail .expression
  | succ n ih => exact halts_statementRule ih (declarationUpTo n)

end Lox.Grammar
