import Lox.Proofs.Order.Expressions

/-!
# Statements in the order of their tokens

The orders in which the tokens that resolution looks at may have been written: the names that are
declared, the references, and the keywords of return statements. The tree of a loop does not say
whether it was written as a for statement, whose increment stands in front of its body. What a rule
of statements yields was written in one of these orders.
-/

namespace Lox

mutual

/-- The statement may have been written with these tokens in this order. -/
inductive Stmt.Written : List Token → Stmt → Prop
  | expression (e : Expr) : Stmt.Written e.references (.expression e)
  | print (e : Expr) : Stmt.Written e.references (.print e)
  | var (name : Token) (initializer : Option Expr) :
      Stmt.Written (name :: Expr.references? initializer) (.var name initializer)
  | block (body : List Stmt) {ts : List Token} :
      Stmt.ListWritten ts body → Stmt.Written ts (.block body)
  | ifThen (c : Expr) (t : Stmt) {ts : List Token} :
      Stmt.Written ts t → Stmt.Written (c.references ++ ts) (.ifThen c t)
  | ifElse (c : Expr) (t e : Stmt) {ts us : List Token} :
      Stmt.Written ts t → Stmt.Written us e →
        Stmt.Written (c.references ++ (ts ++ us)) (.ifElse c t e)
  | loop (c : Expr) (body : Stmt) {ts : List Token} :
      Stmt.Written ts body → Stmt.Written (c.references ++ ts) (.loop c body)
  /-- A for statement with an increment. -/
  | increment (c e : Expr) (body : Stmt) {ts : List Token} :
      Stmt.Written ts body →
        Stmt.Written (c.references ++ (e.references ++ ts)) (.loop c (.block [body, .expression e]))
  | function (decl : FunctionDecl) {ts : List Token} :
      FunctionDecl.Written ts decl → Stmt.Written ts (.function decl)
  | ret (keyword : Token) (value : Option Expr) :
      Stmt.Written (keyword :: Expr.references? value) (.ret keyword value)
  | classDecl (name : Token) (superclass : Option Expr) (methods : List FunctionDecl)
      {ts : List Token} :
      FunctionDecl.ListWritten ts methods →
        Stmt.Written (name :: (Expr.references? superclass ++ ts))
          (.classDecl name superclass methods)

inductive Stmt.ListWritten : List Token → List Stmt → Prop
  | nil : Stmt.ListWritten [] []
  | cons (s : Stmt) (ss : List Stmt) {ts us : List Token} :
      Stmt.Written ts s → Stmt.ListWritten us ss → Stmt.ListWritten (ts ++ us) (s :: ss)

inductive FunctionDecl.Written : List Token → FunctionDecl → Prop
  | mk (name : Token) (params : List Token) (body : List Stmt) {ts : List Token} :
      Stmt.ListWritten ts body → FunctionDecl.Written (name :: (params ++ ts)) ⟨name, params, body⟩

inductive FunctionDecl.ListWritten : List Token → List FunctionDecl → Prop
  | nil : FunctionDecl.ListWritten [] []
  | cons (f : FunctionDecl) (fs : List FunctionDecl) {ts us : List Token} :
      FunctionDecl.Written ts f → FunctionDecl.ListWritten us fs →
        FunctionDecl.ListWritten (ts ++ us) (f :: fs)

end

/-- The statement may have been written among these tokens. -/
def Stmt.WrittenIn (tokens : List Token) (s : Stmt) : Prop :=
  ∃ ts, s.Written ts ∧ ts.Sublist tokens

def Stmt.ListWrittenIn (tokens : List Token) (ss : List Stmt) : Prop :=
  ∃ ts, Stmt.ListWritten ts ss ∧ ts.Sublist tokens

def FunctionDecl.WrittenIn (tokens : List Token) (f : FunctionDecl) : Prop :=
  ∃ ts, f.Written ts ∧ ts.Sublist tokens

def FunctionDecl.ListWrittenIn (tokens : List Token) (fs : List FunctionDecl) : Prop :=
  ∃ ts, FunctionDecl.ListWritten ts fs ∧ ts.Sublist tokens

variable {u v w x : List Token} {s : Stmt} {ss : List Stmt} {f : FunctionDecl}
  {fs : List FunctionDecl}

theorem Stmt.WrittenIn.mono (h : s.WrittenIn u) (hsub : u.Sublist v) : s.WrittenIn v :=
  let ⟨ts, hts, htokens⟩ := h
  ⟨ts, hts, htokens.trans hsub⟩

theorem Stmt.ListWrittenIn.mono (h : Stmt.ListWrittenIn u ss) (hsub : u.Sublist v) :
    Stmt.ListWrittenIn v ss :=
  let ⟨ts, hts, htokens⟩ := h
  ⟨ts, hts, htokens.trans hsub⟩

theorem Stmt.ListWrittenIn.nil : Stmt.ListWrittenIn u [] :=
  ⟨[], .nil, List.nil_sublist u⟩

theorem Stmt.ListWrittenIn.cons (h : s.WrittenIn u) (h' : Stmt.ListWrittenIn v ss) :
    Stmt.ListWrittenIn (u ++ v) (s :: ss) := by
  obtain ⟨ts, hts, hu⟩ := h
  obtain ⟨us, hus, hv⟩ := h'
  exact ⟨ts ++ us, .cons _ _ hts hus, hu.append hv⟩

theorem FunctionDecl.ListWrittenIn.nil : FunctionDecl.ListWrittenIn u [] :=
  ⟨[], .nil, List.nil_sublist u⟩

theorem FunctionDecl.ListWrittenIn.cons (h : f.WrittenIn u)
    (h' : FunctionDecl.ListWrittenIn v fs) : FunctionDecl.ListWrittenIn (u ++ v) (f :: fs) := by
  obtain ⟨ts, hts, hu⟩ := h
  obtain ⟨us, hus, hv⟩ := h'
  exact ⟨ts ++ us, .cons _ _ hts hus, hu.append hv⟩

theorem Stmt.WrittenIn.block (h : Stmt.ListWrittenIn u ss) : (Stmt.block ss).WrittenIn u :=
  let ⟨ts, hts, htokens⟩ := h
  ⟨ts, .block ss hts, htokens⟩

theorem Stmt.WrittenIn.loop {c : Expr} (hc : c.references.Sublist u) (h : s.WrittenIn v) :
    (Stmt.loop c s).WrittenIn (u ++ v) := by
  obtain ⟨ts, hts, hv⟩ := h
  exact ⟨_, .loop c s hts, hc.append hv⟩

theorem Stmt.WrittenIn.increment {c e : Expr} (hc : c.references.Sublist u)
    (he : e.references.Sublist v) (h : s.WrittenIn w) :
    (Stmt.loop c (.block [s, .expression e])).WrittenIn (u ++ (v ++ w)) := by
  obtain ⟨ts, hts, hw⟩ := h
  exact ⟨_, .increment c e s hts, hc.append (he.append hw)⟩

namespace Grammar

variable {t : Token} {declaration : Rule (Option Stmt)} {statement : Rule Stmt}

/-- What was found, if anything, may have been written among these tokens. -/
def WrittenIn? (tokens : List Token) (s? : Option Stmt) : Prop :=
  ∀ s ∈ s?, s.WrittenIn tokens

theorem writtenIn_filterMap_cons {s? : Option Stmt} {found : List (Option Stmt)}
    (hs : WrittenIn? u s?) (hfound : Stmt.ListWrittenIn v (found.filterMap id)) :
    Stmt.ListWrittenIn (u ++ v) ((s? :: found).filterMap id) := by
  cases s? with
  | none => exact hfound.mono (List.sublist_append_right u v)
  | some s => exact .cons (hs s rfl) hfound

theorem lays_declarations (hd : Lays .any declaration WrittenIn?) :
    Lays .any (declarations declaration) Stmt.ListWrittenIn := by
  unfold declarations
  refine Lays.bind (lays_collect (P := WrittenIn?)
    (R := fun u found => Stmt.ListWrittenIn u (found.filterMap id)) ?_ (fun _ => .nil)
    writtenIn_filterMap_cons) fun u found h => .pure ?_
  · intro count
    refine (lays_sees _).bind fun u closed hu => ?_
    subst hu
    refine lays_atEnd.bind fun v ended hv => ?_
    subst hv
    split
    · exact .pure (by simp)
    · refine hd.bind fun w s? hs => .pure ?_
      rintro _ ⟨⟩
      rwa [List.append_nil]
  · rwa [List.append_nil]

theorem lays_block (hd : Lays .any declaration WrittenIn?) :
    Lays .any (block declaration) Stmt.ListWrittenIn := by
  unfold block
  refine (lays_declarations hd).bind fun u body hbody => ?_
  refine (lays_expect _ fun _ _ => trivial).bind fun v brace _ => .pure ?_
  exact hbody.mono (List.sublist_append_left u _)

theorem lays_callable (hd : Lays .any declaration WrittenIn?) (sort : Callable) :
    Lays .any (callable declaration sort) FunctionDecl.WrittenIn := by
  unfold callable
  refine (lays_expectName _ fun _ _ => trivial).bind fun u name hname => ?_
  subst hname
  refine (lays_expect _ fun _ _ => trivial).bind fun v paren _ => ?_
  have hrest : ∀ w params, params.Sublist w →
      Lays .any (do
        let _ ← expect .rightParen .parametersEnd
        let _ ← expect .leftBrace (.bodyStart sort)
        let body ← block declaration
        pure ⟨name, params, body⟩) fun x f =>
          FunctionDecl.WrittenIn ([name] ++ (v ++ (w ++ x))) f := by
    intro w params hparams
    refine (lays_expect _ fun _ _ => trivial).bind fun x paren _ => ?_
    refine (lays_expect _ fun _ _ => trivial).bind fun y brace _ => ?_
    refine (lays_block hd).bind fun z body hbody => .pure ?_
    obtain ⟨ts, hts, hz⟩ := hbody
    have hbraces : ts.Sublist (x ++ (y ++ (z ++ []))) := by
      rw [List.append_nil]
      exact hz.trans ((List.sublist_append_right y z).trans (List.sublist_append_right x _))
    refine ⟨_, .mk name params body hts, List.Sublist.cons_cons name ?_⟩
    exact (hparams.append hbraces).trans (List.sublist_append_right v _)
  refine (lays_sees _).bind fun w empty hw => ?_
  subst hw
  dsimp only
  split
  · exact Lays.bind (P := fun w params => params.Sublist w) (.pure (List.Sublist.refl [])) hrest
  · refine Lays.bind (lays_commaSeparated (P := fun w param => [param].Sublist w)
      (R := fun w params => params.Sublist w) trivial (fun _ _ => trivial) ?_ ?_ ?_ ?_) hrest
    · refine (lays_expectName _ fun _ _ => trivial).mono fun w param hparam => ?_
      rw [hparam]
    · exact fun {t _ _} h => h.cons t
    · exact fun w => List.nil_sublist w
    · exact fun h h' => h.append h'

theorem lays_superclass? :
    Lays .any superclass? fun u e => (Expr.references? e).Sublist u := by
  unfold superclass?
  refine lays_accept_bind (.pure (List.nil_sublist _)) fun less _ => Lays.behind ?_ trivial
  refine (lays_expectName _ fun _ _ => trivial).bind fun u name hname => ?_
  subst hname
  refine lays_freshId.bind fun v id _ => .pure ?_
  exact ((List.nil_sublist _).cons_cons name).cons less

theorem lays_classRule (hd : Lays .any declaration WrittenIn?) :
    Lays .any (classRule declaration) Stmt.WrittenIn := by
  unfold classRule
  refine (lays_expectName _ fun _ _ => trivial).bind fun u name hname => ?_
  subst hname
  refine lays_superclass?.bind fun v superclass hsuper => ?_
  refine (lays_expect _ fun _ _ => trivial).bind fun w brace _ => ?_
  refine Lays.bind (lays_collect (P := FunctionDecl.WrittenIn) (R := FunctionDecl.ListWrittenIn)
    ?_ (fun _ => .nil) .cons) fun x methods hmethods => ?_
  · intro count
    refine (lays_sees _).bind fun u closed hu => ?_
    subst hu
    refine lays_atEnd.bind fun v ended hv => ?_
    subst hv
    split
    · exact .pure (by simp)
    · refine (lays_callable hd .method).bind fun w method hmethod => .pure ?_
      rintro f ⟨⟩
      rwa [List.append_nil]
  · refine (lays_expect _ fun _ _ => trivial).bind fun y brace _ => .pure ?_
    obtain ⟨ts, hts, hx⟩ := hmethods
    refine ⟨_, .classDecl name superclass methods hts, (hsuper.append ?_).cons_cons name⟩
    exact (hx.trans (List.sublist_append_left x _)).trans (List.sublist_append_right w _)

theorem lays_varRule : Lays .any varRule Stmt.WrittenIn := by
  unfold varRule
  refine (lays_expectName _ fun _ _ => trivial).bind fun u name hname => ?_
  subst hname
  have hrest : ∀ u initializer, (Expr.references? initializer).Sublist u →
      Lays .any (do
        let _ ← expect .semicolon .variableEnd
        pure (Stmt.var name initializer)) fun v s => s.WrittenIn ([name] ++ (u ++ v)) := by
    intro u initializer hinitializer
    refine (lays_expect _ fun _ _ => trivial).bind fun v semicolon _ => .pure ?_
    refine ⟨_, .var name initializer, List.Sublist.cons_cons name ?_⟩
    exact hinitializer.trans (List.sublist_append_left u _)
  refine lays_accept_bind ?_ fun equals _ => Lays.behind ?_ trivial
  · dsimp only
    rw [pure_bind]
    exact hrest [] none (List.Sublist.refl [])
  · refine lays_expression.any.bind fun u value hvalue => ?_
    rw [pure_bind]
    exact hrest (equals :: u) (some value) (hvalue.cons equals)

/-! ## Statements -/

theorem lays_expressionRule : Lays .any expressionRule Stmt.WrittenIn := by
  unfold expressionRule
  refine lays_expression.any.bind fun u e he => ?_
  refine (lays_expect _ fun _ _ => trivial).bind fun v semicolon _ => .pure ?_
  exact ⟨_, .expression e, he.trans (List.sublist_append_left u _)⟩

theorem lays_printRule : Lays .any printRule Stmt.WrittenIn := by
  unfold printRule
  refine lays_expression.any.bind fun u e he => ?_
  refine (lays_expect _ fun _ _ => trivial).bind fun v semicolon _ => .pure ?_
  exact ⟨_, .print e, he.trans (List.sublist_append_left u _)⟩

theorem lays_expressionUnless (s : Symbol) :
    Lays .any (expressionUnless s) fun u e => (Expr.references? e).Sublist u := by
  unfold expressionUnless
  refine (lays_sees s).bind fun u missing _ => ?_
  split
  · exact .pure (List.nil_sublist _)
  · refine lays_expression.any.bind fun v e he => .pure ?_
    rw [List.append_nil]
    exact he.trans (List.sublist_append_right u v)

theorem lays_returnRule (keyword : Token) :
    Lays .any (returnRule keyword) fun u s => s.WrittenIn (keyword :: u) := by
  unfold returnRule
  refine (lays_expressionUnless _).bind fun u value hvalue => ?_
  refine (lays_expect _ fun _ _ => trivial).bind fun v semicolon _ => .pure ?_
  refine ⟨_, .ret keyword value, List.Sublist.cons_cons keyword ?_⟩
  exact hvalue.trans (List.sublist_append_left u _)

theorem lays_ifRule (hs : Lays .any statement Stmt.WrittenIn) :
    Lays .any (ifRule statement) Stmt.WrittenIn := by
  unfold ifRule
  refine (lays_expect _ fun _ _ => trivial).bind fun u paren _ => ?_
  refine lays_expression.any.bind fun v condition hc => ?_
  refine (lays_expect _ fun _ _ => trivial).bind fun w paren _ => ?_
  refine hs.bind fun x thenBranch ht => ?_
  obtain ⟨ts, hts, hx⟩ := ht
  have hthen : ts.Sublist (w ++ x) := hx.trans (List.sublist_append_right w x)
  refine lays_accept_bind (.pure ?_) fun word _ => Lays.behind ?_ trivial
  · rw [List.append_nil]
    refine ⟨_, .ifThen condition thenBranch hts, ?_⟩
    exact (hc.append hthen).trans (List.sublist_append_right u _)
  · refine hs.bind fun y elseBranch he => .pure ?_
    obtain ⟨us, hus, hy⟩ := he
    refine ⟨_, .ifElse condition thenBranch elseBranch hts hus, ?_⟩
    rw [List.append_nil, ← List.append_assoc w]
    exact (hc.append (hthen.append (hy.cons word))).trans (List.sublist_append_right u _)

theorem lays_whileRule (hs : Lays .any statement Stmt.WrittenIn) :
    Lays .any (whileRule statement) Stmt.WrittenIn := by
  unfold whileRule
  refine (lays_expect _ fun _ _ => trivial).bind fun u paren _ => ?_
  refine lays_expression.any.bind fun v condition hc => ?_
  refine (lays_expect _ fun _ _ => trivial).bind fun w paren _ => ?_
  refine hs.bind fun x body hb => .pure ?_
  rw [List.append_nil]
  refine Stmt.WrittenIn.mono (.loop hc (hb.mono ?_)) (List.sublist_append_right u _)
  exact List.sublist_append_right w x

/-- The clauses of a for statement come in order, and its body last. -/
theorem writtenIn_forLoop {initializer : Option Stmt} {condition increment : Option Expr}
    {body : Stmt} (hi : WrittenIn? u initializer) (hc : (Expr.references? condition).Sublist v)
    (hincrement : (Expr.references? increment).Sublist w) (hb : body.WrittenIn x) :
    (forLoop initializer condition increment body).WrittenIn (u ++ (v ++ (w ++ x))) := by
  have hcondition : (condition.getD (.literal (.boolean true))).references.Sublist v := by
    cases condition with
    | none => exact List.nil_sublist v
    | some e => exact hc
  unfold forLoop
  extract_lets round loop
  have hloop : loop.WrittenIn (v ++ (w ++ x)) := by
    cases increment with
    | none => exact .loop hcondition (hb.mono (List.sublist_append_right w x))
    | some e => exact .increment hcondition hincrement hb
  cases initializer with
  | none => exact hloop.mono (List.sublist_append_right u _)
  | some s =>
      have hall : Stmt.ListWrittenIn (u ++ (v ++ (w ++ x) ++ [])) [s, loop] :=
        .cons (hi s rfl) (.cons hloop .nil)
      rw [List.append_nil] at hall
      exact .block hall

theorem lays_forInitializer : Lays .any forInitializer WrittenIn? := by
  unfold forInitializer
  refine lays_acceptAny_bind ?_ fun t s _ _ => Lays.behind ?_ trivial
  · refine lays_expressionRule.bind fun u s hs => .pure ?_
    rintro _ ⟨⟩
    rwa [List.append_nil]
  · dsimp only
    split
    · exact .pure nofun
    · refine lays_varRule.bind fun u s hs => .pure ?_
      rintro _ ⟨⟩
      rw [List.append_nil]
      exact hs.mono (List.sublist_cons_self t u)

theorem lays_forRule (hs : Lays .any statement Stmt.WrittenIn) :
    Lays .any (forRule statement) Stmt.WrittenIn := by
  unfold forRule
  refine (lays_expect _ fun _ _ => trivial).bind fun u paren _ => ?_
  refine lays_forInitializer.bind fun v initializer hi => ?_
  refine (lays_expressionUnless _).bind fun w condition hc => ?_
  refine (lays_expect _ fun _ _ => trivial).bind fun x semicolon _ => ?_
  refine (lays_expressionUnless _).bind fun y increment hincrement => ?_
  refine (lays_expect _ fun _ _ => trivial).bind fun z paren _ => ?_
  refine hs.bind fun z' body hb => .pure ?_
  rw [List.append_nil]
  have hx : (Expr.references? increment).Sublist (x ++ y) :=
    hincrement.trans (List.sublist_append_right x y)
  have hz : body.WrittenIn (z ++ z') := hb.mono (List.sublist_append_right z z')
  have hloop := writtenIn_forLoop hi hc hx hz
  rw [List.append_assoc] at hloop
  exact hloop.mono (List.sublist_append_right u _)

/-- A keyword that the tree does not keep may stand in front. -/
theorem laysAt_keyword {r : Rule Stmt} (h : Lays .any r Stmt.WrittenIn) :
    LaysAt .any t (do let _ ← take; r) Stmt.WrittenIn := by
  refine laysAt_take_bind (Lays.behind (h.mono fun u s hs => ?_) trivial)
  exact hs.mono (List.sublist_cons_self t u)

theorem lays_statementRule (hs : Lays .any statement Stmt.WrittenIn)
    (hd : Lays .any declaration WrittenIn?) :
    Lays .any (statementRule statement declaration) Stmt.WrittenIn := by
  unfold statementRule
  refine lays_peek_bind (fun line => lays_expressionRule) fun t => ?_
  split
  · exact laysAt_keyword (lays_forRule hs)
  · exact laysAt_keyword (lays_ifRule hs)
  · exact laysAt_keyword (lays_whileRule hs)
  · exact laysAt_take_bind (Lays.behind (lays_returnRule t) trivial)
  · refine laysAt_keyword ((lays_block hd).bind fun u body hbody => .pure ?_)
    rw [List.append_nil]
    exact .block hbody
  · exact laysAt_keyword lays_printRule
  · exact lays_expressionRule.at

theorem lays_declarationRule (hs : Lays .any statement Stmt.WrittenIn)
    (hd : Lays .any declaration WrittenIn?) :
    Lays .any (declarationRule statement declaration) Stmt.WrittenIn := by
  have hstatement := lays_statementRule hs hd
  unfold declarationRule
  refine lays_peek_bind (fun line => hstatement) fun t => ?_
  split
  · exact laysAt_keyword (lays_classRule hd)
  · refine laysAt_keyword ((lays_callable hd .function).bind fun u decl hdecl => .pure ?_)
    obtain ⟨ts, hts, hu⟩ := hdecl
    rw [List.append_nil]
    exact ⟨ts, .function decl hts, hu⟩
  · exact laysAt_keyword lays_varRule
  · exact hstatement.at

theorem lays_statementUpTo_declarationUpTo (bound : Nat) :
    Lays .any (statementUpTo bound) Stmt.WrittenIn ∧
      Lays .any (declarationUpTo bound) WrittenIn? := by
  induction bound with
  | zero =>
      constructor
      · simpa [statementUpTo] using lays_fail _
      · rw [declarationUpTo]
        exact lays_recover (lays_fail _)
  | succ bound ih =>
      obtain ⟨hs, hd⟩ := ih
      constructor
      · simpa [statementUpTo] using lays_statementRule hs hd
      · rw [declarationUpTo]
        exact lays_recover (lays_declarationRule hs hd)

/-! ## Whole inputs -/

theorem lays_programUpTo (bound : Nat) : Lays .any (programUpTo bound) Stmt.ListWrittenIn := by
  unfold programUpTo
  refine Lays.bind (lays_collect (P := WrittenIn?)
    (R := fun u found => Stmt.ListWrittenIn u (found.filterMap id)) ?_ (fun _ => .nil)
    writtenIn_filterMap_cons) fun u found h => .pure ?_
  · intro count
    refine lays_atEnd.bind fun v ended hv => ?_
    subst hv
    split
    · exact .pure (by simp)
    · refine (lays_statementUpTo_declarationUpTo bound).2.bind fun w s? hs => .pure ?_
      rintro _ ⟨⟩
      rwa [List.append_nil]
  · rwa [List.append_nil]

end Grammar

end Lox
