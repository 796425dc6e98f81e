import Lox.Proofs.Replacement.Readings

/-!
# For statements and their while forms

The while form of a for statement is made of the same tokens and some more. Both are read as the same
statement, so that in a program one may stand for the other.
-/

namespace Lox.Grammar

open Ebnf (name)

variable {ts us rest : List Token} {n : Nat}

/-- The tokens of a for statement, clause by clause. The first clause ends with its semicolon. -/
structure ForTokens where
  word : Token
  leftParen : Token
  initializer : List Token
  condition : List Token
  semicolon : Token
  increment : List Token
  rightParen : Token
  body : List Token
  word_terminal : word.terminal = .symbol .forWord
  leftParen_terminal : leftParen.terminal = .symbol .leftParen
  initializer_derives : Derives (name .varDecl) (terminals initializer)
    ∨ Derives (name .exprStmt) (terminals initializer)
    ∨ terminals initializer = [.symbol .semicolon]
  condition_derives : condition = [] ∨ Derives (name .expression) (terminals condition)
  semicolon_terminal : semicolon.terminal = .symbol .semicolon
  increment_derives : increment = [] ∨ Derives (name .expression) (terminals increment)
  rightParen_terminal : rightParen.terminal = .symbol .rightParen

/-- The tokens that a while form may need besides those of the for statement. -/
structure WhileTokens where
  outerOpening : Token
  word : Token
  constant : Token
  innerOpening : Token
  semicolon : Token
  innerClosing : Token
  outerClosing : Token
  outerOpening_terminal : outerOpening.terminal = .symbol .leftBrace
  word_terminal : word.terminal = .symbol .whileWord
  constant_terminal : constant.terminal = .symbol .trueWord
  innerOpening_terminal : innerOpening.terminal = .symbol .leftBrace
  semicolon_terminal : semicolon.terminal = .symbol .semicolon
  innerClosing_terminal : innerClosing.terminal = .symbol .rightBrace
  outerClosing_terminal : outerClosing.terminal = .symbol .rightBrace

namespace ForTokens

variable (f : ForTokens) (w : WhileTokens)

def tokens : List Token :=
  f.word :: f.leftParen :: (f.initializer ++ (f.condition ++ f.semicolon
    :: (f.increment ++ f.rightParen :: f.body)))

/-- The body of the while statement, in which the increment follows the one of the for statement. -/
def round : List Token :=
  if f.increment = [] then f.body
  else w.innerOpening :: (f.body ++ (f.increment ++ [w.semicolon]) ++ [w.innerClosing])

def loop : List Token :=
  w.word :: f.leftParen :: ((if f.condition = [] then [w.constant] else f.condition)
    ++ f.rightParen :: f.round w)

/-- The while form: the while statement, in a block behind the initializer if there is one. -/
def asWhile : List Token :=
  if terminals f.initializer = [.symbol .semicolon] then f.loop w
  else w.outerOpening :: (f.initializer ++ f.loop w ++ [w.outerClosing])

/-- The body is a statement that ends where the rest begins: every else belongs to the nearest if. -/
def Ends (rest : List Token) : Prop :=
  ∃ d, Nearest d (terminals f.body) ∧ (d = true → StopsAt [.elseWord] rest)

end ForTokens

/-- The tokens are read as the expression, or there are none. -/
def ReadAsClause (ts : List Token) : Option Expr → Prop
  | none => ts = []
  | some e => BeginsWith beginsExpression ts ∧ ReadAsExpr ts e

theorem exists_readAsClause (h : ts = [] ∨ Derives (name .expression) (terminals ts)) :
    ∃ e?, ReadAsClause ts e? := by
  rcases h with rfl | h
  · exact ⟨none, rfl⟩
  · obtain ⟨e, he⟩ := exists_readAsExpr h
    exact ⟨some e, begins_expression h, he⟩

theorem ReadAsClause.consumes {e? : Option Expr} (h : ReadAsClause ts e?) {s : Symbol} {t : Token}
    (ht : t.terminal = .symbol s) (hs : beginsExpression (.symbol s) = false) (hend : s ∉ sought)
    (rest : List Token) : Consumes (expressionUnless s) ts (t :: rest) fun e?' =>
      e?.map (Expr.relabel .anonymous) = e?'.map (Expr.relabel .anonymous) := by
  unfold expressionUnless
  cases e? with
  | none =>
      obtain rfl : ts = [] := h
      refine (consumes_sees_self ht).look fun missing hmissing => ?_
      subst hmissing
      exact .pure rfl
  | some e =>
      obtain ⟨hbegins, he⟩ := h
      have hstops : StopsAt [s] (ts ++ t :: rest) := (hbegins.append _).stopsAt (by simpa using hs)
      refine (consumes_sees_false hstops).look fun missing hmissing => ?_
      subst hmissing
      exact (he _ (stopsAt_symbol ht hend)).last fun e' he' => .pure (congrArg some he')

/-- The tokens are read as the declaration wherever they stand. -/
structure ReadAsDecl (ts : List Token) (s : Stmt) : Prop where
  clause : terminals ts ≠ [.symbol .semicolon]
  begins : BeginsWith beginsDeclaration ts
  declared : ∀ rest, DeclaredAs ts rest s

/-- The tokens are read as the initializer of a for statement, or are a mere semicolon. -/
def ReadAsInitializer (ts : List Token) : Option Stmt → Prop
  | none => terminals ts = [.symbol .semicolon]
  | some s => ReadAsDecl ts s ∧ ∀ rest, Consumes forInitializer ts rest fun s? =>
      ∃ s', s? = some s' ∧ s.Alike s'

theorem readAsInitializer_varDecl (h : Derives (name .varDecl) (terminals ts)) :
    ∃ s, ReadAsInitializer ts (some s) := by
  obtain ⟨w, hw, -⟩ := derives_varDecl_iff.mp h
  obtain ⟨t, us, rfl, ht, -⟩ := List.map_eq_cons_iff.mp hw
  have htakes : Takes varRule (terminals us) (terminals []) fun _ => True :=
    takes_varRule (by simpa [ht] using h)
  obtain ⟨s, hs⟩ := htakes.exists_makes
  have hrule (rest : List Token) : Consumes varRule us rest s.Alike :=
    (hs.consumes (tracks_varRule (Seam.fair_closed [] rest)) rfl le_rfl).mono fun _ h => h.symm
  have hdeclared (rest : List Token) : DeclaredAs (t :: us) rest s := by
    intro n hn
    cases n with
    | zero => simp at hn
    | succ n =>
        rw [declarationUpTo]
        apply consumes_recover
        unfold declarationRule
        apply consumes_peek_bind
        simp only [kind_of_symbol ht]
        exact consumes_take_bind (hrule rest)
  have hbegins : BeginsWith beginsDeclaration (t :: us) := beginsWith_cons (by rw [ht]; rfl)
  refine ⟨s, ⟨by simp [ht], hbegins, hdeclared⟩, fun rest => ?_⟩
  unfold forInitializer
  refine (consumes_acceptAny ht (by decide)).cons fun t? ht? => ?_
  subst ht?
  dsimp only
  rw [if_neg (by rw [ht]; decide)]
  exact (hrule rest).last fun s' hs' => .pure ⟨s', rfl, hs'⟩

theorem readAsInitializer_exprStmt (h : Derives (name .exprStmt) (terminals ts)) :
    ∃ s, ReadAsInitializer ts (some s) := by
  obtain ⟨v, hw, hv⟩ := derives_exprStmt_iff.mp h
  obtain ⟨us, vs, rfl, rfl, hvs⟩ := List.map_eq_append_iff.mp hw
  obtain ⟨t, vs, rfl, ht, hnil⟩ := List.map_eq_cons_iff.mp hvs
  obtain rfl := List.map_eq_nil_iff.mp hnil
  obtain ⟨e, he⟩ := exists_readAsExpr hv
  have hbegins : BeginsWith beginsExpression us := begins_expression hv
  have hstmt : BeginsWith beginsStmt (us ++ [t]) :=
    (hbegins.mono fun t ht => by simp [beginsStmt, ht]).append _
  refine ⟨.expression e, ⟨?_, ?_, fun rest => ?_⟩, fun rest => ?_⟩
  · intro hsemicolon
    have hstops : StopsAt [.semicolon] (us ++ [t]) := (hbegins.append [t]).stopsAt (by decide)
    exact hstops _ List.mem_cons_self (congrArg List.head? hsemicolon)
  · exact hstmt.mono fun t ht => by simp [beginsDeclaration, ht]
  · exact (he.readAs hbegins ht rest).declaredAs hstmt
  · have hstops : StopsAt [.semicolon, .varWord] ((us ++ [t]) ++ rest) :=
      ((hbegins.append [t]).append rest).stopsAt (by decide)
    unfold forInitializer
    refine (consumes_acceptAny_none hstops).look fun t? ht? => ?_
    subst ht?
    exact (he.semicolon ht rest).last fun s hs => .pure ⟨s, rfl, hs⟩

theorem exists_readAsInitializer (h : Derives (name .varDecl) (terminals ts)
      ∨ Derives (name .exprStmt) (terminals ts) ∨ terminals ts = [.symbol .semicolon]) :
    ∃ s?, ReadAsInitializer ts s? := by
  rcases h with h | h | h
  · obtain ⟨s, hs⟩ := readAsInitializer_varDecl h
    exact ⟨some s, hs⟩
  · obtain ⟨s, hs⟩ := readAsInitializer_exprStmt h
    exact ⟨some s, hs⟩
  · exact ⟨none, h⟩

theorem ReadAsInitializer.consumes {s? : Option Stmt} (h : ReadAsInitializer ts s?)
    (rest : List Token) : Consumes forInitializer ts rest fun s?' =>
      s?.map (Stmt.relabel .anonymous) = s?'.map (Stmt.relabel .anonymous) := by
  cases s? with
  | none =>
      obtain ⟨t, us, rfl, ht, hnil⟩ := List.map_eq_cons_iff.mp h
      obtain rfl := List.map_eq_nil_iff.mp hnil
      unfold forInitializer
      refine (consumes_acceptAny ht (by decide)).last fun t? ht? => ?_
      subst ht?
      dsimp only
      rw [if_pos (by rw [ht]; decide)]
      exact .pure rfl
  | some s =>
      refine (h.2 rest).mono fun s?' hs => ?_
      obtain ⟨s', rfl, hs⟩ := hs
      exact congrArg some hs

/-! ## Both forms are read alike -/

section Forms

variable (f : ForTokens) (w : WhileTokens) {initializer : Option Stmt}
  {condition increment : Option Expr} {body : Stmt}

theorem ForTokens.readAs_tokens (hi : ReadAsInitializer f.initializer initializer)
    (hc : ReadAsClause f.condition condition) (hincr : ReadAsClause f.increment increment)
    (hbody : ReadAs f.body rest body) :
    ReadAs f.tokens rest (forLoop initializer condition increment body) := by
  intro n hn
  unfold ForTokens.tokens at hn ⊢
  cases n with
  | zero => simp at hn
  | succ n =>
      rw [statementUpTo]
      unfold statementRule
      apply consumes_peek_bind
      simp only [kind_of_symbol f.word_terminal]
      apply consumes_take_bind
      unfold forRule
      refine (consumes_expect _ f.leftParen_terminal).cons fun _ _ => ?_
      refine (hi.consumes _).bind fun i hi' => ?_
      refine (hc.consumes f.semicolon_terminal (by decide) (by decide) _).bind fun c hc' => ?_
      refine (consumes_expect _ f.semicolon_terminal).cons fun _ _ => ?_
      refine (hincr.consumes f.rightParen_terminal (by decide) (by decide) _).bind
        fun e he' => ?_
      refine (consumes_expect _ f.rightParen_terminal).cons fun _ _ => ?_
      refine (hbody n ?_).last fun b hb => .pure ?_
      · simp only [List.length_append, List.length_cons] at hn ⊢
        omega
      · rw [Stmt.Alike, relabel_forLoop, relabel_forLoop, hi', hc', he', hb]

theorem getElem?_pair_eq_some {α : Type} {x y z : α} {i : Nat} :
    [x, y][i]? = some z ↔ i = 0 ∧ x = z ∨ i = 1 ∧ y = z := by
  cases i with
  | zero => simp
  | succ i => cases i <;> simp

/-- The body of the loop, which ends with the increment. -/
theorem ForTokens.readAs_round (hincr : ReadAsClause f.increment increment)
    (hbegins : BeginsWith beginsStmt f.body)
    (hbody : ∀ us, us = rest ∨ StopsAt [.elseWord] us → ReadAs f.body us body) :
    ReadAs (f.round w) rest (increment.elim body fun e => .block [body, .expression e]) := by
  unfold ForTokens.round
  cases increment with
  | none =>
      have hnil : f.increment = [] := hincr
      rw [if_pos hnil]
      exact hbody rest (.inl rfl)
  | some e =>
      obtain ⟨hfirst, he⟩ := hincr
      have hincrement := he.readAs hfirst w.semicolon_terminal
      have hstmt : BeginsWith beginsStmt (f.increment ++ [w.semicolon]) :=
        (hfirst.mono fun t ht => by simp [beginsStmt, ht]).append _
      have hdecl (ts : List Token) (h : BeginsWith beginsStmt ts) :
          BeginsWith beginsDeclaration ts :=
        h.mono fun t ht => by simp [beginsDeclaration, ht]
      let items : List (List Token × Stmt) :=
        [(f.body, body), (f.increment ++ [w.semicolon], .expression e)]
      have hblock : ReadAs (w.innerOpening :: (items.flatMap Prod.fst ++ [w.innerClosing])) rest
          (.block (items.map Prod.snd)) :=
        readAs_block w.innerOpening_terminal w.innerClosing_terminal ?_ ?_
      · rw [if_neg hfirst.ne_nil]
        simpa [items] using hblock
      · simpa [items] using ⟨hdecl _ hbegins, hdecl _ hstmt⟩
      · intro i x hx
        obtain ⟨rfl, rfl⟩ | ⟨rfl, rfl⟩ := getElem?_pair_eq_some.mp hx
        · refine (hbody _ (.inr ?_)).declaredAs hbegins
          simpa [items] using ((hfirst.append _).stopsAt (by decide) :
            StopsAt [.elseWord] (f.increment ++ w.semicolon :: w.innerClosing :: rest))
        · exact (hincrement _).declaredAs hstmt

theorem ForTokens.readAs_loop (hc : ReadAsClause f.condition condition)
    (hincr : ReadAsClause f.increment increment) (hbegins : BeginsWith beginsStmt f.body)
    (hbody : ∀ us, us = rest ∨ StopsAt [.elseWord] us → ReadAs f.body us body) :
    ReadAs (f.loop w) rest (forLoop none condition increment body) := by
  have hcondition : ReadAsExpr (if f.condition = [] then [w.constant] else f.condition)
      (condition.getD (.literal (.boolean true))) := by
    cases condition with
    | none =>
        have hnil : f.condition = [] := hc
        rw [if_pos hnil]
        exact readAsExpr_true w.constant_terminal
    | some e =>
        rw [if_neg hc.1.ne_nil]
        exact hc.2
  have hloop := Grammar.readAs_loop w.word_terminal f.leftParen_terminal f.rightParen_terminal
    hcondition (f.readAs_round w hincr hbegins hbody)
  cases increment <;> exact hloop

theorem ForTokens.readAs_asWhile (hi : ReadAsInitializer f.initializer initializer)
    (hc : ReadAsClause f.condition condition) (hincr : ReadAsClause f.increment increment)
    (hbegins : BeginsWith beginsStmt f.body)
    (hbody : ∀ us, us = rest ∨ StopsAt [.elseWord] us → ReadAs f.body us body) :
    ReadAs (f.asWhile w) rest (forLoop initializer condition increment body) := by
  unfold ForTokens.asWhile
  cases initializer with
  | none =>
      have hsemicolon : terminals f.initializer = [.symbol .semicolon] := hi
      rw [if_pos hsemicolon]
      exact f.readAs_loop w hc hincr hbegins hbody
  | some s =>
      obtain ⟨hs, -⟩ := hi
      have hclosing : StopsAt [.elseWord] (w.outerClosing :: rest) :=
        stopsAt_symbol w.outerClosing_terminal (by decide)
      have hloop : ReadAs (f.loop w) (w.outerClosing :: rest)
          (forLoop none condition increment body) :=
        f.readAs_loop w hc hincr hbegins
          fun us hus => hbody us (.inr (hus.elim (fun h => h ▸ hclosing) id))
      have hfirst (p : Terminal → Bool) (hp : p (.symbol .whileWord) = true) :
          BeginsWith p (f.loop w) :=
        beginsWith_cons (by rw [w.word_terminal, hp])
      let items : List (List Token × Stmt) :=
        [(f.initializer, s), (f.loop w, forLoop none condition increment body)]
      have hblock : ReadAs (w.outerOpening :: (items.flatMap Prod.fst ++ [w.outerClosing])) rest
          (.block (items.map Prod.snd)) :=
        readAs_block w.outerOpening_terminal w.outerClosing_terminal ?_ ?_
      · rw [if_neg hs.clause]
        change ReadAs _ rest (.block [s, forLoop none condition increment body])
        simpa [items] using hblock
      · simpa [items] using ⟨hs.begins, hfirst _ (by decide)⟩
      · intro i x hx
        obtain ⟨rfl, rfl⟩ | ⟨rfl, rfl⟩ := getElem?_pair_eq_some.mp hx
        · exact hs.declared _
        · exact hloop.declaredAs (hfirst _ (by decide))

/-- Both forms are read as the same statement. -/
theorem ForTokens.exists_readAs (h : f.Ends rest) :
    ∃ s, ReadAs f.tokens rest s ∧ ReadAs (f.asWhile w) rest s := by
  obtain ⟨d, hnearest, helse⟩ := h
  obtain ⟨initializer, hi⟩ := exists_readAsInitializer f.initializer_derives
  obtain ⟨condition, hc⟩ := exists_readAsClause f.condition_derives
  obtain ⟨increment, hincr⟩ := exists_readAsClause f.increment_derives
  obtain ⟨body, hbody⟩ := Grammar.exists_readAs hnearest
  have hbegins : BeginsWith beginsStmt f.body := begins_statement hnearest.derives
  refine ⟨forLoop initializer condition increment body,
    f.readAs_tokens hi hc hincr (hbody rest helse),
    f.readAs_asWhile w hi hc hincr hbegins fun us hus => hbody us fun hd => ?_⟩
  rcases hus with rfl | hus
  · exact helse hd
  · exact hus

end Forms

/-! ## The one in the place of the other -/

section Replacing

variable (f : ForTokens) (w : WhileTokens)

/-- The inputs that go on with a for statement and with its while form. -/
def ForTokens.seam (rest : List Token) : Seam :=
  ⟨f.tokens ++ rest, f.asWhile w ++ rest, 0⟩

theorem ForTokens.exists_first :
    ∃ t us s, f.asWhile w = t :: us ∧ t.terminal = .symbol s
      ∧ s ∈ [Symbol.leftBrace, .whileWord] := by
  unfold ForTokens.asWhile
  split
  · exact ⟨_, _, _, rfl, w.word_terminal, by decide⟩
  · exact ⟨_, _, _, rfl, w.outerOpening_terminal, by decide⟩

theorem ForTokens.fair_seam (rest : List Token) : (f.seam w rest).Fair where
  first _ := ⟨_, _, rfl, f.word_terminal⟩
  second _ := by
    obtain ⟨t, us, s, hfirst, ht, hs⟩ := f.exists_first w
    exact ⟨t, us ++ rest, s, by rw [ForTokens.seam, hfirst, List.cons_append], ht, hs⟩

theorem ForTokens.quiet_seam (rest : List Token) :
    (f.seam w rest).Quiet (· == .symbol .elseWord) := by
  intro _ t us hsecond ht
  obtain ⟨u, v, s, hfirst, hu, hs⟩ := f.exists_first w
  rw [ForTokens.seam, hfirst, List.cons_append] at hsecond
  obtain ⟨rfl, -⟩ := List.cons.inj hsecond
  rw [hu, beq_iff_eq, Terminal.symbol.injEq] at ht
  exact absurd (ht ▸ hs) (by decide)

/-- Whatever the bounds are, both forms are read as the same statement. -/
theorem ForTokens.filled_seam (h : f.Ends rest) : (f.seam w rest).Filled := by
  intro _ n m c s d hrun hclean hc _ c' hc' hlen
  obtain ⟨t, hfor, hwhile⟩ := f.exists_readAs w h
  have hbounds := tracks_statementUpTo_declarationUpTo (Seam.fair_closed [] [])
    (fun _ _ _ h => by cases h) (Seam.filled_closed [] []) n c.rest.length
  obtain ⟨s₁, d₁, hrun₁, -, hmeets, hs₁⟩ := hbounds.1.found c s d hrun hclean (Nat.zero_le _) c
    (.inl ⟨c.rest, (List.append_nil _).symm, (List.append_nil _).symm⟩) le_rfl
  obtain ⟨s₂, d₂, hrun₂, hd₂, -, hs₂⟩ := hfor c.rest.length (by rw [hc]; rfl) c hc
  cases hrun₁.symm.trans hrun₂
  have hd : d.rest = rest := by
    obtain ⟨u, hu, hu'⟩ | ⟨-, hlt, -⟩ := hmeets
    · rw [hu, ← hd₂, hu']
      rfl
    · exact absurd hlt (Nat.not_lt_zero _)
  obtain ⟨s', d', hrun', hd', herrors', hs'⟩ := hwhile m (by rwa [hc'] at hlen) c' hc'
  refine ⟨s', d', hrun', herrors', .inr ⟨hd.trans hd'.symm, ?_, ?_⟩, ?_⟩
  · rw [hd]
    simp only [ForTokens.seam, ForTokens.tokens, List.length_append, List.length_cons]
    omega
  · obtain ⟨u, v, p, hfirst, -⟩ := f.exists_first w
    rw [hd, ForTokens.seam, hfirst]
    simp only [List.length_append, List.length_cons]
    omega
  · exact hs'.symm.trans (hs₂.trans hs₁)

end Replacing

end Lox.Grammar
