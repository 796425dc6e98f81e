import Lox.Proofs.Prediction.Expressions

/-!
# Statements pursue walks

The rules of statements and declarations pursue walks along their names in the relaxed grammar. A
declaration that recovers does so behind its first missing part.
-/

namespace Lox.Grammar

open Ebnf (name seq alt opt star)

variable {α β : Type} {n : Nat} {a : Ebnf} {parts : List Ebnf} {declaration : Rule (Option Stmt)}
  {statement : Rule Stmt}

/-- Rounds up to a closing brace, which is missing where they end otherwise. -/
theorem pursues_untilBrace {items : Rule α} {f : α → Rule β}
    (h : Pursues n items (Until BraceOrEnd a))
    (hf : ∀ x, Pursues n (f x) (Walks (seq (symbol .rightBrace :: parts)))) :
    Pursues n (items >>= f) (Walks (seq (star a :: symbol .rightBrace :: parts))) := by
  refine h.next hf ?_ fun x w u b? rest hu hrest => .seqCons hu.1 hrest
  rintro w rest (hstopped | ⟨hpassed, hend⟩)
  · exact .seqStop hstopped
  · refine .seqCons hpassed (.seqStop (.miss fun hbrace => ?_))
    exact hend (.inl hbrace)

theorem pursues_collect_beforeBrace {item : Rule α} {x : Name}
    (hx : .symbol .rightBrace ∉ x.firsts) (h : Pursues n item (Walks (name x))) :
    Pursues n (collect fun _ => beforeBrace item) (Until BraceOrEnd (name x)) := by
  have hstop : StopsUnpredicted BraceOrEnd (name x) := by
    refine ⟨.inr rfl, ?_⟩
    rintro w (hw | rfl)
    · rw [hw]
      exact decide_eq_false hx
    · rfl
  exact pursues_collect (.name x) rfl hstop fun _ => pursues_beforeBrace h

theorem pursues_declarations (hd : Pursues n declaration (Walks (name .declaration))) :
    Pursues n (declarations declaration) (Until BraceOrEnd (name .declaration)) := by
  unfold declarations
  exact (pursues_collect_beforeBrace (by decide) hd).map_until

theorem pursues_block (hd : Pursues n declaration (Walks (name .declaration))) :
    Pursues n (block declaration)
      (Walks (seq [star (name .declaration), symbol .rightBrace])) := by
  unfold block
  refine pursues_untilBrace (pursues_declarations hd) fun body => ?_
  exact (pursues_expect _ _).seq fun brace => .nil

theorem pursues_callable (hd : Pursues n declaration (Walks (name .declaration)))
    (sort : Callable) : Pursues n (callable declaration sort) (Walks (name .function)) := by
  have hblock (name : Token) (params : List Token) : Pursues n (do
      let body ← block declaration
      pure (FunctionDecl.mk name params body))
      (Walks (seq [star (Ebnf.name .declaration), symbol .rightBrace])) :=
    (pursues_block hd).map_walks
  have hclose (name : Token) (params : List Token) : Pursues n (do
      let _ ← expect .rightParen .parametersEnd
      let _ ← expect .leftBrace (.bodyStart sort)
      let body ← block declaration
      pure (FunctionDecl.mk name params body))
      (Walks (seq [symbol .rightParen, Ebnf.name .block])) := by
    refine (pursues_expect _ _).seq fun paren => ?_
    exact ((pursues_expect _ _).seq fun brace => hblock name params).name.mono
      fun _ _ _ h => h.single
  have hparameters : Pursues n (commaSeparated .tooManyParameters (expectName .parameterName))
      (Walks (name .parameters)) :=
    .name (pursues_commaSeparated (fun _ => rfl) (.terminal _) (pursues_expectName _))
  unfold callable
  apply Pursues.name
  refine (pursues_expectName _).seq fun name => (pursues_expect _ _).seq fun paren => ?_
  apply pursues_unless_bind (by decide) rfl
  · exact hclose name []
  · exact hparameters.seq fun params => hclose name params

theorem pursues_superclass? :
    Pursues n superclass? (Walks (opt (seq [symbol .less, ident]))) := by
  have hsuperclass : Pursues n superclass? (Walks (seq [opt (seq [symbol .less, ident])])) := by
    unfold superclass?
    apply pursues_accept_bind (l := [ident]) (Nat.le_succ n)
    · exact fun less => (pursues_expectName _).seq fun name => pursues_freshId.skip fun id => .nil
    · exact .nil
  exact hsuperclass.mono fun _ _ _ h => h.of_single

/-- A class behind its keyword. -/
theorem pursues_classRule (hd : Pursues n declaration (Walks (name .declaration))) :
    Pursues n (classRule declaration) (Walks (seq [ident, opt (seq [symbol .less, ident]),
      symbol .leftBrace, star (name .function), symbol .rightBrace])) := by
  have hmethods : Pursues n (collect fun _ => beforeBrace (callable declaration .method))
      (Until BraceOrEnd (name .function)) :=
    pursues_collect_beforeBrace (by decide) (pursues_callable hd .method)
  unfold classRule
  refine (pursues_expectName _).seq fun name => ?_
  refine pursues_superclass?.seq fun superclass => ?_
  refine (pursues_expect _ _).seq fun brace => pursues_untilBrace hmethods fun methods => ?_
  exact (pursues_expect _ _).seq fun brace => .nil

/-- The declaration of a variable behind its keyword. -/
theorem pursues_varRule : Pursues n varRule
    (Walks (seq [ident, opt (seq [symbol .equal, name .expression]), symbol .semicolon])) := by
  have hend (name : Token) (initializer : Option Expr) : Pursues n (do
      let _ ← expect .semicolon .variableEnd
      pure (Stmt.var name initializer)) (Walks (seq [symbol .semicolon])) :=
    (pursues_expect _ _).seq fun semicolon => .nil
  unfold varRule
  refine (pursues_expectName _).seq fun name => ?_
  apply pursues_accept_bind (l := [Ebnf.name .expression]) (Nat.le_succ n)
  · exact fun equal => pursues_expression.seq fun value => hend name (some value)
  · exact hend name none

theorem pursues_expressionRule : Pursues n expressionRule (Walks (name .exprStmt)) := by
  unfold expressionRule
  apply Pursues.name
  exact pursues_expression.seq fun e => (pursues_expect _ _).seq fun semicolon => .nil

theorem pursues_printRule :
    Pursues n printRule (Walks (seq [name .expression, symbol .semicolon])) := by
  unfold printRule
  exact pursues_expression.seq fun e => (pursues_expect _ _).seq fun semicolon => .nil

theorem pursues_expressionUnless_bind {s : Symbol} {f : Option Expr → Rule α}
    (hs : .symbol s ∉ expressionFirsts)
    (hf : ∀ e?, Pursues n (f e?) (Walks (seq (symbol s :: parts)))) :
    Pursues n (expressionUnless s >>= f)
      (Walks (seq (opt (name .expression) :: symbol s :: parts))) := by
  unfold expressionUnless
  rw [bind_assoc]
  apply pursues_unless_bind hs rfl
  · exact hf none
  · have hfound : Pursues n ((do let e ← expression; pure (some e)) >>= f)
        (Walks (seq (name .expression :: symbol s :: parts))) := by
      rw [bind_assoc]
      exact pursues_expression.seq fun e => hf (some e)
    exact hfound

theorem pursues_returnRule (keyword : Token) : Pursues n (returnRule keyword)
    (Walks (seq [opt (name .expression), symbol .semicolon])) := by
  unfold returnRule
  refine pursues_expressionUnless_bind (by decide) fun value => ?_
  exact (pursues_expect _ _).seq fun semicolon => .nil

theorem pursues_ifRule (hs : Pursues n statement (Walks (name .statement))) :
    Pursues n (ifRule statement) (Walks (seq [symbol .leftParen, name .expression,
      symbol .rightParen, name .statement, elsePart])) := by
  unfold ifRule
  refine (pursues_expect _ _).seq fun paren => pursues_expression.seq fun condition => ?_
  refine (pursues_expect _ _).seq fun paren => hs.seq fun thenBranch => ?_
  apply pursues_accept_bind (l := [name .statement]) (Nat.le_succ n)
  · exact fun elseWord => hs.seq fun elseBranch => .nil
  · exact .nil

theorem pursues_whileRule (hs : Pursues n statement (Walks (name .statement))) :
    Pursues n (whileRule statement) (Walks (seq [symbol .leftParen, name .expression,
      symbol .rightParen, name .statement])) := by
  unfold whileRule
  refine (pursues_expect _ _).seq fun paren => pursues_expression.seq fun condition => ?_
  exact (pursues_expect _ _).seq fun paren => hs.seq fun body => .nil

theorem pursues_forInitializer : Pursues n forInitializer
    (Walks (alt [name .varDecl, name .exprStmt, symbol .semicolon])) := by
  unfold forInitializer
  refine pursues_acceptAny_bind (V := Walks (name .exprStmt))
    (W := fun t => Walks (if t.terminal == .symbol .semicolon then seq []
      else seq [ident, opt (seq [symbol .equal, name .expression]), symbol .semicolon]))
    (Nat.le_succ n) ?_ ?_ ?_ ?_
  · intro t
    dsimp only
    split
    · exact .nil
    · exact pursues_varRule.map_walks
  · exact pursues_expressionRule.map_walks
  · intro t s w s? rest ht hs h
    rw [ht] at h
    simp only [List.mem_cons, List.not_mem_nil, or_false] at hs
    rcases hs with rfl | rfl
    · have htaken : Walks (seq [symbol .semicolon]) (.symbol .semicolon :: w) s? rest :=
        .seqCons (.take _ w) h
      exact .alt rfl htaken.of_single
    · exact .alt (a := name .varDecl) rfl (.name (.seqCons (.take _ w) h))
  · intro w s? rest hw h
    have hother {b : Ebnf} {s : Symbol} (hs : s ∈ [.semicolon, .varWord])
        (hb : b.firsts = [.symbol s]) : b.predicts w.head? = false := by
      rw [Ebnf.predicts_eq_false, hb]
      intro t ht hfirst
      rw [List.mem_singleton.mp hfirst] at ht
      exact hw s hs ht
    refine Walk.alt_of_others [name .varDecl] h rfl ?_ ?_
    · simpa using hother (b := name .varDecl) (s := .varWord) (by decide) rfl
    · simpa using hother (b := symbol .semicolon) (s := .semicolon) (by decide) rfl

theorem pursues_forRule (hs : Pursues n statement (Walks (name .statement))) :
    Pursues n (forRule statement) (Walks (seq [symbol .leftParen,
      alt [name .varDecl, name .exprStmt, symbol .semicolon], opt (name .expression),
      symbol .semicolon, opt (name .expression), symbol .rightParen, name .statement])) := by
  unfold forRule
  refine (pursues_expect _ _).seq fun paren => pursues_forInitializer.seq fun initializer => ?_
  refine pursues_expressionUnless_bind (by decide) fun condition => ?_
  refine (pursues_expect _ _).seq fun semicolon => ?_
  refine pursues_expressionUnless_bind (by decide) fun increment => ?_
  exact (pursues_expect _ _).seq fun paren => hs.seq fun body => .nil

/-- The rule of a choice that begins with a keyword of its own, where the keyword comes next. -/
theorem pursuesAt_keyword {t : Token} {s : Symbol} {x y : Name} {choices : List Ebnf}
    {f : Token → Rule α} (ht : t.terminal = .symbol s) (hx : relaxed x = alt choices)
    (hy : relaxed y = seq (symbol s :: parts))
    (hfind : choices.find? (·.predicts (some (.symbol s))) = some (name y))
    (hf : ∀ t', Pursues n (f t') (Walks (seq parts))) :
    PursuesAt (n + 1) (some t) (take >>= f) (Walks (name x)) := by
  have hchoice : PursuesAt (n + 1) (some t) (take >>= f) (Walks (name y)) := by
    refine (pursuesAt_symbol ht hf).mono fun w a? rest _ h => .name ?_
    rw [hy]
    exact h
  exact hchoice.choice ht hx hfind

theorem pursues_statementRule (hs : Pursues n statement (Walks (name .statement)))
    (hd : Pursues n declaration (Walks (name .declaration))) :
    Pursues (n + 1) (statementRule statement declaration) (Walks (name .statement)) := by
  have hexpression (t? : Option Token) : PursuesAt (n + 1) t? expressionRule
      (Walks (name .exprStmt)) := pursues_expressionRule.at t?
  unfold statementRule
  refine pursues_peek_bind (fun t => ?_) fun line => ?_
  · have hterminal {s : Symbol} (hkind : t.kind = .symbol s) : t.terminal = .symbol s :=
      congrArg Token.Kind.terminal hkind
    split
    · next hkind =>
      exact pursuesAt_keyword (hterminal hkind) rfl rfl rfl fun _ => pursues_forRule hs
    · next hkind =>
      exact pursuesAt_keyword (hterminal hkind) rfl rfl rfl fun _ => pursues_ifRule hs
    · next hkind =>
      exact pursuesAt_keyword (hterminal hkind) rfl rfl rfl fun _ => pursues_whileRule hs
    · next hkind => exact pursuesAt_keyword (hterminal hkind) rfl rfl rfl pursues_returnRule
    · next hkind =>
      refine pursuesAt_keyword (hterminal hkind) rfl rfl rfl fun _ => ?_
      exact (pursues_block hd).map_walks
    · next hkind =>
      exact pursuesAt_keyword (hterminal hkind) rfl rfl rfl fun _ => pursues_printRule
    · next hfor hif hwhile hreturn hbrace hprint =>
      refine (hexpression (some t)).otherwise [] rfl rfl ?_
      rw [Option.map_some]
      cases ht : t.terminal with
      | symbol s =>
          have hkind := kind_of_symbol ht
          cases s with
          | forWord => exact absurd hkind hfor
          | ifWord => exact absurd hkind hif
          | whileWord => exact absurd hkind hwhile
          | returnWord => exact absurd hkind hreturn
          | leftBrace => exact absurd hkind hbrace
          | printWord => exact absurd hkind hprint
          | _ => decide
      | _ => decide
  · exact (hexpression none).otherwise [] rfl rfl (by decide)

theorem pursues_declarationRule (hs : Pursues n statement (Walks (name .statement)))
    (hd : Pursues n declaration (Walks (name .declaration))) :
    Pursues (n + 1) (declarationRule statement declaration) (Walks (name .declaration)) := by
  have hstatement (t? : Option Token) : PursuesAt (n + 1) t? (statementRule statement declaration)
      (Walks (name .statement)) := (pursues_statementRule hs hd).at t?
  unfold declarationRule
  refine pursues_peek_bind (fun t => ?_) fun line => ?_
  · have hterminal {s : Symbol} (hkind : t.kind = .symbol s) : t.terminal = .symbol s :=
      congrArg Token.Kind.terminal hkind
    split
    · next hkind =>
      exact pursuesAt_keyword (hterminal hkind) rfl rfl rfl fun _ => pursues_classRule hd
    · next hkind =>
      refine pursuesAt_keyword (hterminal hkind) rfl rfl rfl fun _ => ?_
      exact (pursues_callable hd .function).seq fun decl => .nil
    · next hkind =>
      exact pursuesAt_keyword (hterminal hkind) rfl rfl rfl fun _ => pursues_varRule
    · next hclass hfun hvar =>
      refine (hstatement (some t)).otherwise [name .classDecl, name .funDecl, name .varDecl]
        rfl rfl ?_
      rw [Option.map_some]
      cases ht : t.terminal with
      | symbol s =>
          have hkind := kind_of_symbol ht
          cases s with
          | classWord => exact absurd hkind hclass
          | funWord => exact absurd hkind hfun
          | varWord => exact absurd hkind hvar
          | _ => decide
      | _ => decide
  · exact (hstatement none).otherwise [name .classDecl, name .funDecl, name .varDecl]
      rfl rfl (by decide)

theorem pursues_upTo (n : Nat) : Pursues n (statementUpTo n) (Walks (name .statement))
    ∧ Pursues n (declarationUpTo n) (Walks (name .declaration)) := by
  induction n with
  | zero =>
      have hstatement : Walk (name .statement) [] .stopped [] := .name (.altNone rfl)
      have hdeclaration : Walk (name .declaration) [] .stopped [] := .name (.altNone rfl)
      exact ⟨pursues_fail_of_nil _ hstatement, (pursues_fail_of_nil _ hdeclaration).recover⟩
  | succ n ih =>
      obtain ⟨hs, hd⟩ := ih
      exact ⟨pursues_statementRule hs hd, (pursues_declarationRule hs hd).recover⟩

theorem pursues_programUpTo (n : Nat) :
    Pursues n (programUpTo n) (Until (· = []) (name .declaration)) := by
  have hstop : StopsUnpredicted (· = []) (name .declaration) := by
    refine ⟨rfl, ?_⟩
    rintro _ rfl
    rfl
  have hfound : Pursues n (collect fun _ => beforeEnd (declarationUpTo n))
      (Until (· = []) (name .declaration)) :=
    pursues_collect (.name _) rfl hstop fun _ => pursues_beforeEnd (pursues_upTo n).2
  exact hfound.map_until

end Lox.Grammar
