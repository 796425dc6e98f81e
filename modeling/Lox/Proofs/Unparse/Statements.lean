import Lox.Proofs.Unparse.Expressions

/-!
# Programs are read back

The rules of statements and declarations make of the tokens of a well-formed tree this tree again. A
statement that ends in an if without an else must not be followed by an else, which would belong to
that if.
-/

namespace Lox

/-- The statements differ in nothing but the identities of nodes. -/
def Stmt.Alike (a b : Stmt) : Prop :=
  a.relabel .anonymous = b.relabel .anonymous

/-- The callables differ in nothing but the identities of nodes. -/
def FunctionDecl.Alike (a b : FunctionDecl) : Prop :=
  a.relabel .anonymous = b.relabel .anonymous

namespace Grammar

variable {α β : Type} {ts rest : List Token} {n : Nat} {declaration : Rule (Option Stmt)}
  {statement : Rule Stmt}

/-- On inputs of at most `n` tokens, the rule makes of the tokens of a well-formed statement one
that is alike. An open one is not followed by an else. -/
def ConsumesStatements (n : Nat) (statement : Rule Stmt) : Prop :=
  ∀ (s : Stmt) (rest : List Token), (s.tokens ++ rest).length ≤ n → s.WellFormed →
    s.isDeclaration = false → (s.endsOpen = true → StopsAt [.elseWord] rest) →
    Consumes statement s.tokens rest s.Alike

/-- On inputs of at most `n` tokens that do not go on with an else, the rule makes of the tokens of
a well-formed declaration one that is alike. -/
def ConsumesDeclarations (n : Nat) (declaration : Rule (Option Stmt)) : Prop :=
  ∀ (s : Stmt) (rest : List Token), (s.tokens ++ rest).length ≤ n → s.WellFormed →
    StopsAt [.elseWord] rest →
    Consumes declaration s.tokens rest fun s? => ∃ s', s? = some s' ∧ s.Alike s'

theorem beginsWith_statement {s : Stmt} (h : s.WellFormed) (hs : s.isDeclaration = false) :
    BeginsWith beginsStmt s.tokens := by
  cases s with
  | expression e =>
      refine ((beginsWith_expression h).mono fun t ht => ?_).append _
      simp [beginsStmt, ht]
  | ret keyword value => exact beginsWith_cons (by rw [h.1]; rfl)
  | var | function | classDecl => cases hs
  | _ => exact beginsWith_cons rfl

theorem beginsWith_declaration {s : Stmt} (h : s.WellFormed) :
    BeginsWith beginsDeclaration s.tokens := by
  cases hs : s.isDeclaration with
  | false => exact (beginsWith_statement h hs).mono fun t ht => by simp [beginsDeclaration, ht]
  | true =>
      cases s with
      | var | function | classDecl => exact beginsWith_cons rfl
      | _ => cases hs

theorem beginsWith_callable {f : FunctionDecl} (h : f.WellFormed) :
    BeginsWith (· == .identifier) f.tokens := by
  obtain ⟨name, params, body⟩ := f
  exact beginsWith_cons (by rw [h.1]; rfl)

theorem BeginsWith.exists_cons {p : Terminal → Bool} (h : BeginsWith p ts) :
    ∃ t us, ts = t :: us ∧ p t.terminal = true := by
  obtain ⟨_, _, hw, hp⟩ := h
  obtain ⟨t, us, rfl, rfl, -⟩ := List.map_eq_cons_iff.mp hw
  exact ⟨t, us, rfl, hp⟩

theorem BeginsWith.consumes_peek {p : Terminal → Bool} (h : BeginsWith p ts) {f : Token → Rule α}
    {P : α → Prop} (hf : ∀ t, p t.terminal = true → Consumes (f t) ts rest P) :
    Consumes (peek >>= f) ts rest P := by
  obtain ⟨t, us, rfl, ht⟩ := h.exists_cons
  exact consumes_peek_bind (hf t ht)

/-- No else comes next where a declaration or what follows it does. -/
theorem stopsAt_else {ss : List Stmt} (h : ∀ s ∈ ss, s.WellFormed)
    (hrest : StopsAt [.elseWord] rest) :
    StopsAt [.elseWord] (ss.flatMap Stmt.tokens ++ rest) := by
  cases ss with
  | nil => exact hrest
  | cons s ss =>
      rw [List.flatMap_cons, List.append_assoc]
      exact ((beginsWith_declaration (h s List.mem_cons_self)).append _).stopsAt (by decide)

theorem consumes_recover {rule : Rule α} {P : α → Prop} (h : Consumes rule ts rest P) :
    Consumes (recover rule) ts rest fun a? => ∃ a, a? = some a ∧ P a := by
  intro c hc
  obtain ⟨a, c', hrun, hrest, herrors, ha⟩ := h c hc
  refine ⟨some a, c', ?_, hrest, herrors, a, rfl, ha⟩
  unfold recover
  rw [hrun]

/-- Items up to a closing brace, each of which begins with something else. -/
theorem consumes_collect_beforeBrace {item : Rule α} {spell : β → List Token} {Q : β → α → Prop}
    {xs : List β} {p : Terminal → Bool} {brace : Token}
    (hbrace : brace.terminal = .symbol .rightBrace) (hp : p (.symbol .rightBrace) = false)
    (hxs : ∀ x ∈ xs, BeginsWith p (spell x))
    (hitem : ∀ i x, xs[i]? = some x → Consumes item (spell x)
      ((xs.drop (i + 1)).flatMap spell ++ brace :: rest) (Q x)) :
    Consumes (collect fun _ => beforeBrace item) (xs.flatMap spell) (brace :: rest) (List.Forall₂ Q xs) := by
  unfold beforeBrace
  apply consumes_collect
  · exact fun x hx => (hxs x hx).ne_nil
  · intro i x hx
    have hx' := hxs x (List.mem_of_getElem? hx)
    have hstops : StopsAt [.rightBrace] (spell x ++ ((xs.drop (i + 1)).flatMap spell
        ++ brace :: rest)) :=
      (hx'.append _).stopsAt (by simpa using hp)
    refine (consumes_sees_false hstops).look fun closed hclosed => ?_
    refine consumes_atEnd.look fun ended hended => ?_
    have hnot : ended = false := by
      rw [← Bool.not_eq_true, hended]
      simp [hx'.ne_nil]
    subst hclosed hnot
    exact (hitem i x hx).last fun a ha => .pure ⟨a, rfl, ha⟩
  · refine (consumes_sees_self hbrace).look fun closed hclosed => ?_
    refine consumes_atEnd.look fun ended _ => ?_
    subst hclosed
    exact .pure rfl

theorem relabel_filterMap {ss : List Stmt} {found : List (Option Stmt)}
    (h : List.Forall₂ (fun s s? => ∃ s', s? = some s' ∧ s.Alike s') ss found) :
    Stmt.listRelabel .anonymous ss = Stmt.listRelabel .anonymous (found.filterMap id) := by
  induction h with
  | nil => rfl
  | cons hs _ ih =>
      obtain ⟨s', rfl, hs⟩ := hs
      have hcons : ∀ l, (some s' :: l).filterMap id = s' :: l.filterMap id := fun _ => rfl
      rw [hcons, Stmt.listRelabel, Stmt.listRelabel, hs, ih]

theorem consumes_block (hd : ConsumesDeclarations n declaration) {body : List Stmt}
    (h : Stmt.ListWellFormed body)
    (hn : (Stmt.listTokens body ++ .mark .rightBrace :: rest).length ≤ n) :
    Consumes (block declaration) (Stmt.listTokens body ++ [.mark .rightBrace]) rest fun body' =>
      Stmt.listRelabel .anonymous body = Stmt.listRelabel .anonymous body' := by
  rw [Stmt.listWellFormed_iff] at h
  rw [Stmt.listTokens_eq_flatMap] at hn ⊢
  unfold block declarations
  refine Consumes.bind (P := fun body' => Stmt.listRelabel .anonymous body
    = Stmt.listRelabel .anonymous body') ?_ fun body' hbody =>
      (consumes_expect _ rfl).last fun brace _ => .pure hbody
  refine (consumes_collect_beforeBrace (p := beginsDeclaration) rfl (by decide)
    (fun s hs => beginsWith_declaration (h s hs)) fun i s hs => ?_).last
      fun found hfound => .pure (relabel_filterMap hfound)
  refine hd s ((body.drop (i + 1)).flatMap Stmt.tokens ++ _) ?_ (h s (List.mem_of_getElem? hs))
    (stopsAt_else (fun s hs => h s (List.mem_of_mem_drop hs)) (stopsAt_mark (by decide)))
  have hbound := length_drop_flatMap Stmt.tokens hs
  simp only [List.length_append, List.length_cons, List.append_eq, List.nil_append]
    at hbound hn ⊢
  omega

theorem consumes_callable (hd : ConsumesDeclarations n declaration) (sort : Callable)
    {f : FunctionDecl} (h : f.WellFormed) (hn : (f.tokens ++ rest).length ≤ n) :
    Consumes (callable declaration sort) f.tokens rest f.Alike := by
  obtain ⟨name, params, body⟩ := f
  obtain ⟨hname, hparams, hlen, hbody⟩ := h
  unfold callable
  refine (consumes_expectName _ hname).cons fun name' hname' => ?_
  subst hname'
  refine (consumes_expect _ rfl).cons fun paren _ => ?_
  have hrest : ∀ params', List.Forall₂ Eq params params' → Consumes (do
      let _ ← expect .rightParen .parametersEnd
      let _ ← expect .leftBrace (.bodyStart sort)
      let body ← block declaration
      pure (FunctionDecl.mk name' params' body)) (.mark .rightParen :: .mark .leftBrace
        :: (Stmt.listTokens body ++ [.mark .rightBrace])) rest
        (FunctionDecl.mk name' params body).Alike := by
    intro params' hparams'
    obtain rfl := List.forall₂_eq_eq_eq ▸ hparams'
    refine (consumes_expect _ rfl).cons fun paren _ => ?_
    refine (consumes_expect _ rfl).cons fun brace _ => ?_
    refine (consumes_block hd hbody ?_).last fun body' hbody' => .pure ?_
    · simp only [FunctionDecl.tokens, List.length_append, List.length_cons, List.length_nil]
        at hn ⊢
      omega
    · simp only [FunctionDecl.Alike, FunctionDecl.relabel]
      rw [hbody']
  cases params with
  | nil =>
      refine (consumes_sees_self rfl).look fun empty hempty => ?_
      subst hempty
      exact Consumes.look (P := List.Forall₂ Eq []) (.pure .nil) hrest
  | cons x xs =>
      have hstops : StopsAt [.rightParen] ((Token.separated ((x :: xs).map ([·]))
          ++ .mark .rightParen :: .mark .leftBrace
          :: (Stmt.listTokens body ++ [.mark .rightBrace])) ++ rest) :=
        stopsAt_cons (by simp [hparams x List.mem_cons_self])
      refine (consumes_sees_false hstops).look fun empty hempty => ?_
      subst hempty
      refine Consumes.bind (P := List.Forall₂ Eq (x :: xs)) (consumes_commaSeparated
        .tooManyParameters ?_ (stopsAt_mark (by decide)) (List.cons_ne_nil x xs) hlen) hrest
      intro y rest' hy _ _
      exact (consumes_expectName _ (hparams y hy)).mono fun _ h => h.symm

theorem consumes_superclass? {superclass : Option Expr} (h : Expr.IsSuperclassName superclass) :
    Consumes superclass? (Expr.tokensAfter [.mark .less] superclass) (.mark .leftBrace :: rest)
      fun superclass' => superclass.map (·.relabel .anonymous)
        = superclass'.map (·.relabel .anonymous) := by
  unfold superclass?
  cases superclass with
  | none =>
      refine (consumes_accept_none (stopsAt_mark (by decide))).look fun less? hless => ?_
      subst hless
      exact .pure rfl
  | some e =>
      cases e with
      | var id name =>
          refine Consumes.cons (consumes_accept rfl) fun less? hless => ?_
          subst hless
          refine (consumes_expectName _ h).last fun name' hname => ?_
          subst hname
          exact consumes_freshId.last fun id' _ => .pure rfl
      | _ => exact absurd h id

theorem relabel_methods {fs fs' : List FunctionDecl} (h : List.Forall₂ FunctionDecl.Alike fs fs') :
    FunctionDecl.listRelabel .anonymous fs = FunctionDecl.listRelabel .anonymous fs' := by
  induction h with
  | nil => rfl
  | cons hf _ ih => rw [FunctionDecl.listRelabel, FunctionDecl.listRelabel, hf, ih]

theorem consumes_classRule (hd : ConsumesDeclarations n declaration) {name : Token}
    {superclass : Option Expr} {methods : List FunctionDecl}
    (h : (Stmt.classDecl name superclass methods).WellFormed)
    (hn : ((Stmt.classDecl name superclass methods).tokens ++ rest).length ≤ n + 1) :
    Consumes (classRule declaration) (name :: (Expr.tokensAfter [.mark .less] superclass
      ++ .mark .leftBrace :: (FunctionDecl.listTokens methods ++ [.mark .rightBrace]))) rest
      (Stmt.classDecl name superclass methods).Alike := by
  obtain ⟨hname, hsuperclass, hmethods⟩ := h
  rw [FunctionDecl.listWellFormed_iff] at hmethods
  simp only [Stmt.tokens, FunctionDecl.listTokens_eq_flatMap, List.length_append,
    List.length_cons] at hn
  rw [FunctionDecl.listTokens_eq_flatMap]
  unfold classRule
  refine (consumes_expectName _ hname).cons fun name' hname' => ?_
  subst hname'
  refine (consumes_superclass? hsuperclass).bind fun superclass' hsuperclass' => ?_
  refine (consumes_expect _ rfl).cons fun brace _ => ?_
  refine Consumes.bind (P := List.Forall₂ FunctionDecl.Alike methods) (consumes_collect_beforeBrace
    (p := (· == .identifier)) rfl rfl (fun f hf => beginsWith_callable (hmethods f hf))
    fun i f hf => ?_) fun methods' hmethods' => ?_
  · apply consumes_callable hd .method (hmethods f (List.mem_of_getElem? hf))
    have hbound := length_drop_flatMap FunctionDecl.tokens hf
    simp only [List.append_eq, List.nil_append, List.length_append, List.length_cons,
      List.length_nil] at hbound hn ⊢
    omega
  · refine (consumes_expect _ rfl).last fun brace _ => .pure ?_
    simp only [Stmt.Alike, Stmt.relabel]
    rw [hsuperclass', relabel_methods hmethods']

theorem consumes_varRule {name : Token} {initializer : Option Expr}
    (h : (Stmt.var name initializer).WellFormed) :
    Consumes varRule (name :: (Expr.tokensAfter [.mark .equal] initializer ++ [.mark .semicolon]))
      rest (Stmt.var name initializer).Alike := by
  obtain ⟨hname, hinitializer⟩ := h
  unfold varRule
  refine (consumes_expectName _ hname).cons fun name' hname' => ?_
  subst hname'
  have hrest : ∀ initializer' : Option Expr, initializer.map (Expr.relabel .anonymous)
      = initializer'.map (Expr.relabel .anonymous) → Consumes (do
        let _ ← expect .semicolon .variableEnd
        pure (Stmt.var name' initializer')) [.mark .semicolon] rest
        (Stmt.var name' initializer).Alike := by
    intro initializer' h
    refine (consumes_expect _ rfl).last fun semicolon _ => .pure ?_
    exact congrArg (Stmt.var name') h
  cases initializer with
  | none =>
      refine (consumes_accept_none (stopsAt_mark (by decide))).look fun equal? hequal => ?_
      subst hequal
      exact Consumes.look (P := (· = none)) (.pure rfl) fun e' he => hrest e' (he ▸ rfl)
  | some e =>
      refine (consumes_accept rfl).cons fun equal? hequal => ?_
      subst hequal
      refine (consumes_expression hinitializer (stopsAt_mark (by decide))).bind fun e' he => ?_
      exact Consumes.look (P := (· = some e')) (.pure rfl) fun _ h =>
        hrest _ (h ▸ congrArg some he)

/-! ## Statements -/

theorem consumes_expressionUnless {s : Symbol} {value : Option Expr} {t : Token}
    (h : Expr.WellFormed? value) (ht : t.terminal = .symbol s)
    (hs : beginsExpression (.symbol s) = false) (hend : s ∉ Nonterminal.expression.continuing) :
    Consumes (expressionUnless s) (Expr.tokensAfter [] value) (t :: rest) fun value' =>
      value.map (Expr.relabel .anonymous) = value'.map (Expr.relabel .anonymous) := by
  unfold expressionUnless
  cases value with
  | none =>
      refine (consumes_sees_self ht).look fun missing hmissing => ?_
      subst hmissing
      exact .pure rfl
  | some e =>
      have hstops : StopsAt [s] (Expr.tokensAfter [] (some e) ++ t :: rest) :=
        ((beginsWith_expression h).append _).stopsAt (by simpa using hs)
      refine (consumes_sees_false hstops).look fun missing hmissing => ?_
      subst hmissing
      exact (consumes_expression h (stopsAt_symbol ht hend)).last
        fun e' he => .pure (congrArg some he)

theorem consumes_ifRule_none {c : Expr} {t : Stmt} (hc : c.WellFormed)
    (ht : Consumes statement t.tokens rest t.Alike) (hrest : StopsAt [.elseWord] rest) :
    Consumes (ifRule statement) (.mark .leftParen :: (c.tokens ++ .mark .rightParen :: t.tokens))
      rest (Stmt.ifThen c t).Alike := by
  unfold ifRule
  refine (consumes_expect _ rfl).cons fun paren _ => ?_
  refine (consumes_expression hc (stopsAt_mark (by decide))).bind fun c' hc' => ?_
  refine (consumes_expect _ rfl).cons fun paren _ => ?_
  refine ht.last fun t' ht' => ?_
  refine (consumes_accept_none hrest).look fun else? helse => ?_
  subst helse
  refine .pure ?_
  simp only [Expr.Alike, Stmt.Alike, Stmt.relabel] at hc' ht' ⊢
  rw [hc', ht']

theorem consumes_ifRule_else {c : Expr} {t e : Stmt} (hc : c.WellFormed)
    (ht : Consumes statement t.tokens (.mark .elseWord :: (e.tokens ++ rest)) t.Alike)
    (he : Consumes statement e.tokens rest e.Alike) :
    Consumes (ifRule statement) (.mark .leftParen
      :: (c.tokens ++ .mark .rightParen :: (t.tokens ++ .mark .elseWord :: e.tokens)))
      rest (Stmt.ifElse c t e).Alike := by
  unfold ifRule
  refine (consumes_expect _ rfl).cons fun paren _ => ?_
  refine (consumes_expression hc (stopsAt_mark (by decide))).bind fun c' hc' => ?_
  refine (consumes_expect _ rfl).cons fun paren _ => ?_
  refine ht.bind fun t' ht' => ?_
  refine (consumes_accept rfl).cons fun else? helse => ?_
  subst helse
  refine he.last fun e' he' => .pure ?_
  simp only [Expr.Alike, Stmt.Alike, Stmt.relabel] at hc' ht' he' ⊢
  rw [hc', ht', he']

theorem consumes_whileRule {c : Expr} {body : Stmt} (hc : c.WellFormed)
    (hbody : Consumes statement body.tokens rest body.Alike) :
    Consumes (whileRule statement)
      (.mark .leftParen :: (c.tokens ++ .mark .rightParen :: body.tokens)) rest
      (Stmt.loop c body).Alike := by
  unfold whileRule
  refine (consumes_expect _ rfl).cons fun paren _ => ?_
  refine (consumes_expression hc (stopsAt_mark (by decide))).bind fun c' hc' => ?_
  refine (consumes_expect _ rfl).cons fun paren _ => ?_
  refine hbody.last fun body' hbody' => .pure ?_
  simp only [Expr.Alike, Stmt.Alike, Stmt.relabel] at hc' hbody' ⊢
  rw [hc', hbody']

theorem consumes_expressionRule {e : Expr} (h : e.WellFormed) :
    Consumes expressionRule (Stmt.expression e).tokens rest (Stmt.expression e).Alike := by
  unfold expressionRule
  refine (consumes_expression h (stopsAt_mark (by decide))).bind fun e' he => ?_
  exact (consumes_expect _ rfl).last fun semicolon _ => .pure (congrArg Stmt.expression he)

theorem consumes_statementRule (hs : ConsumesStatements n statement)
    (hd : ConsumesDeclarations n declaration) {s : Stmt} (h : s.WellFormed)
    (hdeclares : s.isDeclaration = false) (hn : (s.tokens ++ rest).length ≤ n + 1)
    (hrest : s.endsOpen = true → StopsAt [.elseWord] rest) :
    Consumes (statementRule statement declaration) s.tokens rest s.Alike := by
  unfold statementRule
  cases s with
  | expression e =>
      refine ((beginsWith_expression h).append _).consumes_peek fun t ht => ?_
      split
      iterate 6
        · next hkind => cases terminal_of_kind ht hkind
      · exact consumes_expressionRule h
  | print e =>
      refine consumes_peek_bind (consumes_take_bind ?_)
      refine (consumes_expression h (stopsAt_mark (by decide))).bind fun e' he => ?_
      exact (consumes_expect _ rfl).last fun semicolon _ => .pure (congrArg Stmt.print he)
  | ret keyword value =>
      apply consumes_peek_bind
      simp only [kind_of_symbol h.1]
      apply consumes_take_bind
      refine (consumes_expressionUnless h.2 rfl (by decide) (by decide)).bind
        fun value' hvalue => ?_
      refine (consumes_expect _ rfl).last fun semicolon _ => .pure ?_
      exact congrArg (Stmt.ret keyword) hvalue
  | block body =>
      refine consumes_peek_bind (consumes_take_bind ?_)
      refine (consumes_block hd h ?_).last fun body' hbody => .pure (congrArg Stmt.block hbody)
      simpa using hn
  | ifThen c t =>
      simp only [Stmt.tokens, List.length_append, List.length_cons] at hn
      refine consumes_peek_bind (consumes_take_bind ?_)
      refine consumes_ifRule_none h.1 (hs t rest ?_ h.2.1 h.2.2 fun _ => hrest rfl) (hrest rfl)
      simp only [List.length_append]
      omega
  | ifElse c t e =>
      obtain ⟨hc, ⟨ht, htd, hclosed⟩, he, hed⟩ := h
      simp only [Stmt.tokens, List.length_append, List.length_cons] at hn
      refine consumes_peek_bind (consumes_take_bind ?_)
      refine consumes_ifRule_else hc (hs t _ ?_ ht htd ?_) (hs e rest ?_ he hed hrest)
      · simp only [List.length_append, List.length_cons]
        omega
      · rw [hclosed]
        exact nofun
      · simp only [List.length_append]
        omega
  | loop c body =>
      simp only [Stmt.tokens, List.length_append, List.length_cons] at hn
      refine consumes_peek_bind (consumes_take_bind ?_)
      refine consumes_whileRule h.1 (hs body rest ?_ h.2.1 h.2.2 hrest)
      simp only [List.length_append]
      omega
  | var | function | classDecl => cases hdeclares

theorem consumes_declarationRule (hs : ConsumesStatements n statement)
    (hd : ConsumesDeclarations n declaration) {s : Stmt} (h : s.WellFormed)
    (hn : (s.tokens ++ rest).length ≤ n + 1) (hrest : StopsAt [.elseWord] rest) :
    Consumes (declarationRule statement declaration) s.tokens rest s.Alike := by
  unfold declarationRule
  cases hdeclares : s.isDeclaration with
  | false =>
      have hrule := consumes_statementRule hs hd h hdeclares hn fun _ => hrest
      refine (beginsWith_statement h hdeclares).consumes_peek fun t ht => ?_
      split
      iterate 3
        · next hkind => cases terminal_of_kind ht hkind
      · exact hrule
  | true =>
      cases s with
      | var name initializer => exact consumes_peek_bind (consumes_take_bind (consumes_varRule h))
      | function f =>
          refine consumes_peek_bind (consumes_take_bind ?_)
          refine (consumes_callable hd .function h ?_).last
            fun f' hf => .pure (congrArg Stmt.function hf)
          simpa using hn
      | classDecl name superclass methods =>
          exact consumes_peek_bind (consumes_take_bind (consumes_classRule hd h hn))
      | _ => cases hdeclares

theorem consumes_upTo (n : Nat) :
    ConsumesStatements n (statementUpTo n) ∧ ConsumesDeclarations n (declarationUpTo n) := by
  induction n with
  | zero =>
      have hpos : ∀ {s : Stmt} {rest : List Token}, s.WellFormed →
          ¬ (s.tokens ++ rest).length ≤ 0 := by
        intro s rest h hn
        have hne := (beginsWith_declaration h).ne_nil
        rw [List.length_append, Nat.le_zero, Nat.add_eq_zero_iff, List.length_eq_zero_iff] at hn
        exact hne hn.1
      constructor
      · exact fun s rest hn h _ _ => absurd hn (hpos h)
      · exact fun s rest hn h _ => absurd hn (hpos h)
  | succ n ih =>
      obtain ⟨hs, hd⟩ := ih
      constructor
      · intro s rest hn h hdeclares hrest
        exact consumes_statementRule hs hd h hdeclares hn hrest
      · intro s rest hn h hrest
        exact consumes_recover (consumes_declarationRule hs hd h hn hrest)

end Grammar

end Lox
