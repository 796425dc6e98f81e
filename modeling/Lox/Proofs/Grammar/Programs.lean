import Lox.Proofs.Grammar.Trees

/-!
# The programs of a parse

What holds of the expressions of a parse holds of its statements. Branches and loop bodies are
statements and no declarations, so that they declare nothing in the scope around them.
-/

namespace Lox.Grammar

open Resolution (declaredNames)

variable {Q : Token → Prop} {n m k : Nat}

/-- A statement that declares nothing in the scope around it. -/
structure GrownBranch (Q : Token → Prop) (n m : Nat) (s : Stmt) : Prop where
  grown : GrownStmt Q n m s
  declaredNames_eq : declaredNames s = []

def GrownStmt? (Q : Token → Prop) (n m : Nat) (s? : Option Stmt) : Prop :=
  ∀ s ∈ s?, GrownStmt Q n m s

theorem GrownStmt.mono {s : Stmt} (h : GrownStmt Q m k s) (hnm : n ≤ m) : GrownStmt Q n k s :=
  ⟨h.built, h.ids.mono hnm le_rfl⟩

theorem skipStatement_suffix (tokens : List Token) : skipStatement tokens <:+ tokens := by
  induction tokens with
  | nil => exact List.suffix_refl []
  | cons t rest ih =>
      unfold skipStatement
      split
      · exact List.suffix_refl _
      · split
        · exact List.suffix_cons t rest
        · exact ih.trans (List.suffix_cons t rest)

theorem synchronize_suffix (tokens : List Token) : synchronize tokens <:+ tokens := by
  cases tokens with
  | nil => exact List.suffix_refl []
  | cons t rest =>
      rw [synchronize]
      split
      · exact List.suffix_cons t rest
      · exact (skipStatement_suffix rest).trans (List.suffix_cons t rest)

theorem yields_recover {rule : Rule Stmt} (h : Yields Q n rule (GrownStmt Q n)) :
    Yields Q n (recover rule) (GrownStmt? Q n) := by
  intro c hQ hn
  have hrule := h c hQ hn
  unfold recover
  cases hrc : rule c with
  | ok s c' =>
      rw [hrc] at hrule
      refine ⟨hrule.1, ?_⟩
      rintro s' ⟨⟩
      exact hrule.2
  | error e c' =>
      rw [hrc] at hrule
      refine ⟨⟨fun t ht => hrule.tokens t ((synchronize_suffix _).subset ht),
        hrule.le_nextId⟩, ?_⟩
      simp [GrownStmt?]

variable {declaration : Rule (Option Stmt)} {statement : Rule Stmt}

theorem GrownStmts.filterMap_cons {s? : Option Stmt} {found : List (Option Stmt)} (hnm : n ≤ m)
    (hmk : m ≤ k) (hs : GrownStmt? Q n m s?) (hfound : GrownStmts Q m k (found.filterMap id)) :
    GrownStmts Q n k ((s? :: found).filterMap id) := by
  cases s? with
  | none => exact hfound.mono hnm
  | some s => exact .cons hnm hmk (hs s rfl) hfound

theorem yields_declarations (hd : ∀ n, Yields Q n declaration (GrownStmt? Q n)) :
    Yields Q n (declarations declaration) (GrownStmts Q n) := by
  unfold declarations
  refine Yields.bind (yields_collect (P := GrownStmt? Q)
    (R := fun n m found => GrownStmts Q n m (found.filterMap id)) ?_ (fun _ _ _ => .nil)
    .filterMap_cons n) fun m found _ h => .pure h
  intro n count
  refine (yields_sees _).bind fun m closed _ hm => ?_
  subst hm
  refine yields_atEnd.bind fun k ended _ hk => ?_
  subst hk
  split
  · exact .pure (by simp)
  · refine (hd k).bind fun j s? _ hs => .pure ?_
    rintro s ⟨⟩
    exact hs

theorem yields_block (hd : ∀ n, Yields Q n declaration (GrownStmt? Q n)) :
    Yields Q n (block declaration) (GrownStmts Q n) := by
  unfold block
  refine (yields_declarations hd).bind fun m body hnm hbody => ?_
  refine (yields_expect _ _).bind fun k brace _ hbrace => ?_
  obtain ⟨rfl, -⟩ := hbrace
  exact .pure hbody

theorem yields_callable (hd : ∀ n, Yields Q n declaration (GrownStmt? Q n)) (sort : Callable) :
    Yields Q n (callable declaration sort) (GrownFunction Q n) := by
  unfold callable
  refine (yields_expectName _).bind fun m name _ hname => ?_
  obtain ⟨rfl, hname⟩ := hname
  refine (yields_expect _ _).bind fun k paren _ hparen => ?_
  obtain ⟨rfl, -⟩ := hparen
  have hrest : ∀ m params, k ≤ m → (∀ param ∈ params, param.IsName Q) →
      Yields Q m (do
        let _ ← expect .rightParen .parametersEnd
        let _ ← expect .leftBrace (.bodyStart sort)
        let body ← block declaration
        pure ⟨name, params, body⟩) (GrownFunction Q k) := by
    intro m params hkm hparams
    refine (yields_expect _ _).bind fun i paren _ hparen => ?_
    obtain ⟨rfl, -⟩ := hparen
    refine (yields_expect _ _).bind fun j brace _ hbrace => ?_
    obtain ⟨rfl, -⟩ := hbrace
    refine (yields_block hd).bind fun i body _ hbody => .pure ⟨?_, ?_⟩
    · simpa using ⟨hname, hparams, hbody.built⟩
    · simpa using hbody.ids.mono hkm le_rfl
  refine (yields_sees _).bind fun m empty _ hm => ?_
  subst hm
  dsimp only
  split
  · exact Yields.bind (P := fun _ params => ∀ param ∈ params, param.IsName Q)
      (.pure (by simp)) hrest
  · refine Yields.bind (yields_commaSeparated (P := fun _ _ => Token.IsName Q)
      (R := fun _ _ params => ∀ param ∈ params, param.IsName Q) ?_ (by simp) ?_ m) hrest
    · exact fun n => (yields_expectName _).mono fun _ _ _ h => h.2
    · intro n m k param params _ _ hparam hparams
      simpa using ⟨hparam, hparams⟩

/-- A superclass is a variable, or there is none. -/
structure GrownSuperclass (Q : Token → Prop) (n m : Nat) (e : Option Expr) : Prop where
  built : Expr.IsSuperclass Q e
  ids : DistinctWithin n m (Expr.ids? e)

theorem yields_superclass? : Yields Q n superclass? (GrownSuperclass Q n) := by
  unfold superclass?
  refine (yields_accept _).bind fun m less? _ hm => ?_
  obtain ⟨rfl, -⟩ := hm
  cases less? with
  | none => exact .pure ⟨trivial, .nil⟩
  | some less =>
      refine (yields_expectName _).bind fun k name _ hname => ?_
      obtain ⟨rfl, hname⟩ := hname
      refine yields_freshId.bind fun j id _ hid => ?_
      obtain ⟨rfl, rfl⟩ := hid
      exact .pure ⟨hname, by simpa using .single le_rfl (Nat.lt_succ_self _)⟩

theorem yields_classRule (hd : ∀ n, Yields Q n declaration (GrownStmt? Q n)) :
    Yields Q n (classRule declaration) (GrownStmt Q n) := by
  unfold classRule
  refine (yields_expectName _).bind fun m name _ hname => ?_
  obtain ⟨rfl, hname⟩ := hname
  refine yields_superclass?.bind fun k superclass hmk hs => ?_
  refine (yields_expect _ _).bind fun j brace _ hbrace => ?_
  obtain ⟨rfl, -⟩ := hbrace
  refine Yields.bind (yields_collect (P := GrownFunction Q) (R := GrownFunctions Q) ?_
    (fun _ _ _ => .nil) .cons j) fun i methods hji hmethods => ?_
  · intro n count
    refine (yields_sees _).bind fun m closed _ hm => ?_
    subst hm
    refine yields_atEnd.bind fun k ended _ hk => ?_
    subst hk
    split
    · exact .pure (by simp)
    · refine (yields_callable hd .method).bind fun j method _ h => .pure ?_
      rintro f ⟨⟩
      exact h
  · refine (yields_expect _ _).bind fun i' brace _ hbrace => ?_
    obtain ⟨rfl, -⟩ := hbrace
    refine .pure ⟨?_, ?_⟩
    · simpa using ⟨hname, hs.built, hmethods.built⟩
    · simpa using hs.ids.append hmethods.ids hmk hji

theorem yields_varRule : Yields Q n varRule (GrownStmt Q n) := by
  unfold varRule
  refine (yields_expectName _).bind fun m name _ hname => ?_
  obtain ⟨rfl, hname⟩ := hname
  have hrest : ∀ k initializer, m ≤ k → GrownExpr? Q m k initializer →
      Yields Q k (do
        let _ ← expect .semicolon .variableEnd
        pure (.var name initializer)) (GrownStmt Q m) := by
    intro k initializer _ hinitializer
    refine (yields_expect _ _).bind fun j semicolon _ h => ?_
    obtain ⟨rfl, -⟩ := h
    refine .pure ⟨?_, ?_⟩
    · simpa using ⟨hname, hinitializer.built⟩
    · simpa using hinitializer.ids
  refine (yields_accept _).bind fun k equal? _ hk => ?_
  obtain ⟨rfl, -⟩ := hk
  cases equal? with
  | none => exact Yields.bind (.pure .none) hrest
  | some equal =>
      refine yields_expression.bind fun j value hkj hv => ?_
      exact Yields.bind (P := GrownExpr? Q k) (.pure ⟨hv.built, hv.ids⟩)
        fun i initializer hji => hrest i initializer (hkj.trans hji)

/-! ## Statements -/

theorem yields_expressionRule : Yields Q n expressionRule (GrownBranch Q n) := by
  unfold expressionRule
  refine yields_expression.bind fun m e _ he => ?_
  refine (yields_expect _ _).bind fun k semicolon _ hk => ?_
  obtain ⟨rfl, -⟩ := hk
  refine .pure ⟨⟨?_, ?_⟩, by simp⟩
  · simpa using he.built
  · simpa using he.ids

theorem yields_printRule : Yields Q n printRule (GrownBranch Q n) := by
  unfold printRule
  refine yields_expression.bind fun m e _ he => ?_
  refine (yields_expect _ _).bind fun k semicolon _ hk => ?_
  obtain ⟨rfl, -⟩ := hk
  refine .pure ⟨⟨?_, ?_⟩, by simp⟩
  · simpa using he.built
  · simpa using he.ids

theorem yields_expressionUnless (s : Symbol) :
    Yields Q n (expressionUnless s) (GrownExpr? Q n) := by
  unfold expressionUnless
  refine (yields_sees s).bind fun m missing _ hm => ?_
  subst hm
  split
  · exact .pure .none
  · exact yields_expression.bind fun k e _ he => .pure ⟨he.built, he.ids⟩

theorem yields_returnRule (keyword : Token) :
    Yields Q n (returnRule keyword) (GrownBranch Q n) := by
  unfold returnRule
  refine (yields_expressionUnless _).bind fun m value _ hv => ?_
  refine (yields_expect _ _).bind fun k semicolon _ hk => ?_
  obtain ⟨rfl, -⟩ := hk
  refine .pure ⟨⟨?_, ?_⟩, by simp⟩
  · simpa using hv.built
  · simpa using hv.ids

theorem yields_ifRule (hs : ∀ n, Yields Q n statement (GrownBranch Q n)) :
    Yields Q n (ifRule statement) (GrownBranch Q n) := by
  unfold ifRule
  refine (yields_expect _ _).bind fun m paren _ hm => ?_
  obtain ⟨rfl, -⟩ := hm
  refine yields_expression.bind fun k condition hmk hc => ?_
  refine (yields_expect _ _).bind fun k' paren _ hk => ?_
  obtain ⟨rfl, -⟩ := hk
  refine (hs k').bind fun j thenBranch hkj ht => ?_
  refine (yields_accept _).bind fun j' else? _ hj => ?_
  obtain ⟨rfl, -⟩ := hj
  have hct := hc.ids.append ht.grown.ids hmk hkj
  cases else? with
  | none =>
      refine .pure ⟨⟨?_, ?_⟩, by simp [ht.declaredNames_eq]⟩
      · simpa using ⟨hc.built, ht.grown.built, ht.declaredNames_eq⟩
      · simpa using hct
  | some word =>
      refine (hs j').bind fun i elseBranch hji he => ?_
      refine .pure ⟨⟨?_, ?_⟩, by simp [ht.declaredNames_eq, he.declaredNames_eq]⟩
      · simpa using ⟨hc.built, ⟨ht.grown.built, ht.declaredNames_eq⟩,
          he.grown.built, he.declaredNames_eq⟩
      · simpa using hct.append he.grown.ids (hmk.trans hkj) hji

theorem yields_whileRule (hs : ∀ n, Yields Q n statement (GrownBranch Q n)) :
    Yields Q n (whileRule statement) (GrownBranch Q n) := by
  unfold whileRule
  refine (yields_expect _ _).bind fun m paren _ hm => ?_
  obtain ⟨rfl, -⟩ := hm
  refine yields_expression.bind fun k condition hmk hc => ?_
  refine (yields_expect _ _).bind fun k' paren _ hk => ?_
  obtain ⟨rfl, -⟩ := hk
  refine (hs k').bind fun j body hkj hb => ?_
  refine .pure ⟨⟨?_, ?_⟩, by simp [hb.declaredNames_eq]⟩
  · simpa using ⟨hc.built, hb.grown.built, hb.declaredNames_eq⟩
  · simpa using hc.ids.append hb.grown.ids hmk hkj

/-- A for statement without an increment, whose clauses come in order and its body last. -/
theorem GrownBranch.forLoop_none {initializer : Option Stmt} {condition : Option Expr}
    {round : Stmt} {j : Nat} (hi : GrownStmt? Q n m initializer) (hnm : n ≤ m)
    (hc : GrownExpr? Q m k condition) (hmk : m ≤ k) (hr : GrownBranch Q k j round) (hkj : k ≤ j) :
    GrownBranch Q n j (forLoop initializer condition none round) := by
  have hcondition : GrownExpr Q m k (condition.getD (.literal (.boolean true))) := by
    cases condition with
    | none => exact ⟨by simp, by simpa using .nil⟩
    | some e => exact ⟨hc.built, hc.ids⟩
  have hids := hcondition.ids.append hr.grown.ids hmk hkj
  unfold forLoop
  cases initializer with
  | none =>
      refine ⟨⟨?_, ?_⟩, by simpa using hr.declaredNames_eq⟩
      · simpa using ⟨hcondition.built, hr.grown.built, hr.declaredNames_eq⟩
      · simpa using hids.mono hnm le_rfl
  | some s =>
      have hs := hi s rfl
      refine ⟨⟨?_, ?_⟩, by simp⟩
      · simpa using
          ⟨hs.built, hcondition.built, hr.grown.built, hr.declaredNames_eq⟩
      · simpa using hs.ids.append hids hnm (hmk.trans hkj)

/-- The increment comes before the body in the source, but runs after it. -/
theorem GrownBranch.forLoop {initializer : Option Stmt} {condition increment : Option Expr}
    {body : Stmt} {i j : Nat} (hi : GrownStmt? Q n m initializer) (hnm : n ≤ m)
    (hc : GrownExpr? Q m k condition) (hmk : m ≤ k) (hincr : GrownExpr? Q k i increment)
    (hki : k ≤ i) (hb : GrownBranch Q i j body) (hij : i ≤ j) :
    GrownBranch Q n j (forLoop initializer condition increment body) := by
  cases increment with
  | none =>
      have hbody : GrownBranch Q k j body := ⟨hb.grown.mono hki, hb.declaredNames_eq⟩
      exact .forLoop_none hi hnm hc hmk hbody (hki.trans hij)
  | some e =>
      have hround : GrownBranch Q k j (.block [body, .expression e]) := by
        refine ⟨⟨?_, ?_⟩, by simp⟩
        · simpa using ⟨hb.grown.built, hincr.built⟩
        · have hids := (hincr.ids.append hb.grown.ids hki hij).perm List.perm_append_comm
          simpa using hids
      exact .forLoop_none hi hnm hc hmk hround (hki.trans hij)

theorem yields_forInitializer : Yields Q n forInitializer (GrownStmt? Q n) := by
  unfold forInitializer
  refine (yields_acceptAny _).bind fun m t? _ hm => ?_
  subst hm
  cases t? with
  | none =>
      refine yields_expressionRule.bind fun k s _ hs => .pure ?_
      rintro s' ⟨⟩
      exact hs.grown
  | some t =>
      dsimp only
      split
      · exact .pure (by simp [GrownStmt?])
      · refine yields_varRule.bind fun k s _ hs => .pure ?_
        rintro s' ⟨⟩
        exact hs

theorem yields_forRule (hs : ∀ n, Yields Q n statement (GrownBranch Q n)) :
    Yields Q n (forRule statement) (GrownBranch Q n) := by
  unfold forRule
  refine (yields_expect _ _).bind fun m paren _ hm => ?_
  obtain ⟨rfl, -⟩ := hm
  refine yields_forInitializer.bind fun k initializer hmk hi => ?_
  refine (yields_expressionUnless _).bind fun j condition hkj hc => ?_
  refine (yields_expect _ _).bind fun j' semicolon _ hj => ?_
  obtain ⟨rfl, -⟩ := hj
  refine (yields_expressionUnless _).bind fun i increment hji hincr => ?_
  refine (yields_expect _ _).bind fun i' paren _ hi' => ?_
  obtain ⟨rfl, -⟩ := hi'
  refine (hs i').bind fun l body hil hb => ?_
  exact .pure (.forLoop hi hmk hc hkj hincr hji hb hil)

theorem yields_statementRule (hs : ∀ n, Yields Q n statement (GrownBranch Q n))
    (hd : ∀ n, Yields Q n declaration (GrownStmt? Q n)) :
    Yields Q n (statementRule statement declaration) (GrownBranch Q n) := by
  unfold statementRule
  refine yields_peek_bind (fun line => yields_expressionRule) fun t ht => ?_
  split
  · exact yieldsAt_take_bind (yields_forRule hs)
  · exact yieldsAt_take_bind (yields_ifRule hs)
  · exact yieldsAt_take_bind (yields_whileRule hs)
  · exact yieldsAt_take_bind (yields_returnRule t)
  · refine yieldsAt_take_bind ((yields_block hd).bind fun m body _ hbody => .pure ?_)
    refine ⟨⟨?_, ?_⟩, by simp⟩
    · simpa using hbody.built
    · simpa using hbody.ids
  · exact yieldsAt_take_bind yields_printRule
  · exact yields_expressionRule.at

theorem yields_declarationRule (hs : ∀ n, Yields Q n statement (GrownBranch Q n))
    (hd : ∀ n, Yields Q n declaration (GrownStmt? Q n)) :
    Yields Q n (declarationRule statement declaration) (GrownStmt Q n) := by
  have hstatement : Yields Q n (statementRule statement declaration) (GrownStmt Q n) :=
    (yields_statementRule hs hd).mono fun _ _ _ h => h.grown
  unfold declarationRule
  refine yields_peek_bind (fun line => hstatement) fun t ht => ?_
  split
  · exact yieldsAt_take_bind (yields_classRule hd)
  · refine yieldsAt_take_bind ((yields_callable hd .function).bind fun m decl _ hdecl => .pure ?_)
    exact ⟨by simpa using hdecl.built, by simpa using hdecl.ids⟩
  · exact yieldsAt_take_bind yields_varRule
  · exact hstatement.at

theorem yields_statementUpTo_declarationUpTo (bound : Nat) :
    (∀ n, Yields Q n (statementUpTo bound) (GrownBranch Q n)) ∧
      ∀ n, Yields Q n (declarationUpTo bound) (GrownStmt? Q n) := by
  induction bound with
  | zero =>
      refine ⟨fun n => ?_, fun n => ?_⟩
      · simpa [statementUpTo] using yields_fail _
      · simpa [declarationUpTo] using yields_recover (yields_fail _)
  | succ bound ih =>
      obtain ⟨hs, hd⟩ := ih
      refine ⟨fun n => ?_, fun n => ?_⟩
      · simpa [statementUpTo] using yields_statementRule hs hd
      · simpa [declarationUpTo] using yields_recover (yields_declarationRule hs hd)

/-! ## Whole inputs -/

theorem yields_programUpTo (bound : Nat) : Yields Q n (programUpTo bound) (GrownStmts Q n) := by
  unfold programUpTo
  refine Yields.bind (yields_collect (P := GrownStmt? Q)
    (R := fun n m found => GrownStmts Q n m (found.filterMap id)) ?_ (fun _ _ _ => .nil)
    .filterMap_cons n) fun m found _ h => .pure h
  intro n count
  refine yields_atEnd.bind fun m ended _ hm => ?_
  subst hm
  split
  · exact .pure (by simp)
  · refine ((yields_statementUpTo_declarationUpTo bound).2 m).bind fun k s? _ hs => .pure ?_
    rintro s ⟨⟩
    exact hs

/-- A parse of tokens with a property yields statements that are built from such tokens, and their
identities are distinct and lie between the first one and the next one. -/
theorem grown_parseProgram {tokens : List Token} (hQ : ∀ t ∈ tokens, Q t) (firstId : NodeId) :
    firstId ≤ (parseProgram tokens firstId).nextId ∧
      GrownStmts Q firstId (parseProgram tokens firstId).nextId
        (parseProgram tokens firstId).result := by
  have hstart : ∀ t ∈ (Cursor.ofTokens tokens firstId).rest, Q t := fun t ht =>
    hQ t (List.takeWhile_subset _ ht)
  have h := yields_programUpTo (Cursor.ofTokens tokens firstId).rest.length _ hstart rfl
  unfold parseProgram
  dsimp only
  split
  · rename_i statements c hc
    rw [hc] at h
    exact ⟨h.1.le_nextId, h.2⟩
  · rename_i e c hc
    rw [hc] at h
    exact ⟨h.le_nextId, .nil⟩

end Lox.Grammar
