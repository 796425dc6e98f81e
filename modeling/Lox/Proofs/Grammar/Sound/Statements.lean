import Lox.Proofs.Grammar.Sound.Expressions

/-!
# Words of statements and programs

The rules of statements and declarations that record no error take words of the grammar. A program
without errors is taken whole.
-/

namespace Lox.Grammar

open Ebnf (name)

variable {α : Type} {declaration : Rule (Option Stmt)} {statement : Rule Stmt}

/-- Where a rule recovers from a failure, it has recorded an error. -/
theorem reads_recover {rule : Rule α} {P : List Terminal → Prop} (h : Reads rule fun _ w => P w) :
    Reads (recover rule) fun _ w => P w := by
  intro c
  have hc := h c
  unfold recover
  cases hrc : rule c with
  | ok a c' =>
      rw [hrc] at hc
      exact hc
  | error e c' =>
      rw [hrc] at hc
      have hle : c.errors.length < (c'.errors ++ [e]).length := by
        rw [List.length_append, List.length_singleton]
        omega
      exact ⟨hle.le, fun hclean => absurd hclean hle.ne'⟩

theorem reads_collect_beforeBrace {item : Rule α} {P : List Terminal → Prop}
    (hitem : Reads item fun _ w => P w) :
    Reads (collect fun _ => beforeBrace item) fun _ w => ∃ ws : List (List Terminal), w = ws.flatten ∧ ∀ v ∈ ws, P v := by
  refine (reads_collect (P := fun _ _ w => P w) fun _ => ?_).mono fun _ w h => ?_
  · unfold beforeBrace
    refine (reads_sees .rightBrace).bind fun closed u => ?_
    refine reads_atEnd.bind fun ended v => ?_
    split
    · refine .pure fun hv hu => ?_
      rw [hu, hv]
      rfl
    · refine hitem.bind fun a w => .pure fun hw hv hu => ?_
      rw [hu, hv, List.append_nil]
      exact hw
  · obtain ⟨ws, rfl, -, hws⟩ := h.exists_words
    refine ⟨ws, rfl, fun v hv => ?_⟩
    obtain ⟨_, _, hP⟩ := hws v hv
    exact hP

theorem reads_block (hd : Reads declaration fun _ w => Derives (name .declaration) w) :
    Reads (block declaration) fun _ w => Derives (name .block) (.symbol .leftBrace :: w) := by
  unfold block declarations
  refine Reads.bind ((reads_collect_beforeBrace hd).bind (R := fun _ w =>
    ∃ ws : List (List Terminal), w = ws.flatten ∧ ∀ v ∈ ws, Derives (name .declaration) v)
      fun found u => .pure fun hu => ?_) fun body u => ?_
  · rwa [List.append_nil]
  · refine (reads_expect _ _).bind fun brace v => .pure fun hv hu => ?_
    obtain ⟨ws, rfl, hws⟩ := hu
    exact derives_block_iff.mpr ⟨ws, by rw [hv]; simp, hws⟩

theorem reads_callable (hd : Reads declaration fun _ w => Derives (name .declaration) w)
    (sort : Callable) :
    Reads (callable declaration sort) fun _ w => Derives (name .function) w := by
  unfold callable
  refine (reads_expectName _).bind fun f u => ?_
  refine (reads_expect _ _).bind fun paren p => ?_
  have hrest : ∀ params v, Reads (do
      let _ ← expect .rightParen .parametersEnd
      let _ ← expect .leftBrace (.bodyStart sort)
      let body ← block declaration
      pure (FunctionDecl.mk f params body)) fun _ w =>
        v = [] ∨ Derives (name .parameters) v →
        Derives (name .function) (.identifier :: .symbol .leftParen :: (v ++ w)) := by
    intro params v
    refine (reads_expect _ _).bind fun paren p => ?_
    refine (reads_expect _ _).bind fun brace b => ?_
    refine (reads_block hd).bind fun body w => .pure fun hw hb hp hv => ?_
    subst hb hp
    exact derives_function_iff.mpr ⟨v, .symbol .leftBrace :: w, by simp, hv, hw⟩
  refine (reads_sees .rightParen).bind fun empty e => ?_
  split
  · refine Reads.bind (P := fun _ v => v = []) (.pure rfl) fun params v => ?_
    refine (hrest params v).mono fun decl w h hv he hp hu => ?_
    subst hv he hp hu
    exact h (.inl rfl)
  · refine (reads_commaSeparated .tooManyParameters (reads_expectName _)).bind fun params v => ?_
    refine (hrest params v).mono fun decl w h hv he hp hu => ?_
    subst he hp hu
    exact h (.inr (derives_parameters_iff.mpr hv))

theorem reads_superclass? :
    Reads superclass? fun _ w => w = [] ∨ w = [.symbol .less, .identifier] := by
  unfold superclass?
  refine (reads_accept _).bind fun less? u => ?_
  cases less? with
  | none => exact .pure fun hu => .inl (by rw [hu]; rfl)
  | some less =>
      refine (reads_expectName _).bind fun x v => ?_
      refine reads_freshId.bind fun id w => .pure fun hw hv hu => .inr ?_
      obtain ⟨rfl, hless⟩ := hu
      rw [hw, hv, hless]
      rfl

theorem reads_classRule (hd : Reads declaration fun _ w => Derives (name .declaration) w) :
    Reads (classRule declaration) fun _ w =>
      Derives (name .classDecl) (.symbol .classWord :: w) := by
  unfold classRule
  refine (reads_expectName _).bind fun x i => ?_
  refine reads_superclass?.bind fun superclass u => ?_
  refine (reads_expect _ _).bind fun brace b => ?_
  refine (reads_collect_beforeBrace (reads_callable hd .method)).bind fun methods v => ?_
  refine (reads_expect _ _).bind fun brace b' => .pure fun hb' hv hb hu hi => ?_
  obtain ⟨ws, rfl, hws⟩ := hv
  subst hb' hb hi
  exact derives_classDecl_iff.mpr ⟨u, ws, by simp, hu, hws⟩

theorem reads_varRule :
    Reads varRule fun _ w => Derives (name .varDecl) (.symbol .varWord :: w) := by
  unfold varRule
  refine (reads_expectName _).bind fun x i => ?_
  have hrest : ∀ initializer u, Reads (do
      let _ ← expect .semicolon .variableEnd
      pure (Stmt.var x initializer)) fun _ w =>
        (u = [] ∨ ∃ v, u = .symbol .equal :: v ∧ Derives (name .expression) v) →
        Derives (name .varDecl) (.symbol .varWord :: .identifier :: (u ++ w)) := by
    intro initializer u
    refine (reads_expect _ _).bind fun semicolon v => .pure fun hv hu => ?_
    subst hv
    exact derives_varDecl_iff.mpr ⟨u, by simp, hu⟩
  refine (reads_accept _).bind fun equal? q => ?_
  cases equal? with
  | none =>
      refine Reads.bind (P := fun _ v => v = []) (.pure rfl) fun initializer v => ?_
      refine (hrest initializer v).mono fun _ w h hv hq hi => ?_
      obtain rfl : q = [] := hq
      subst hv hi
      exact h (.inl rfl)
  | some equal =>
      refine reads_expression.bind fun value v => ?_
      refine Reads.bind (P := fun _ v => v = []) (.pure rfl) fun initializer v' => ?_
      refine (hrest initializer (.symbol .equal :: v)).mono fun _ w h hv' hv hq hi => ?_
      obtain ⟨rfl, hequal⟩ := hq
      subst hv' hi
      rw [hequal]
      exact h (.inr ⟨v, rfl, hv⟩)

/-! ## Statements -/

theorem reads_expressionRule : Reads expressionRule fun _ w => Derives (name .exprStmt) w := by
  unfold expressionRule
  refine reads_expression.bind fun e u => ?_
  refine (reads_expect _ _).bind fun semicolon v => .pure fun hv hu => ?_
  subst hv
  exact derives_exprStmt_iff.mpr ⟨u, by simp, hu⟩

theorem reads_printRule :
    Reads printRule fun _ w => Derives (name .printStmt) (.symbol .printWord :: w) := by
  unfold printRule
  refine reads_expression.bind fun e u => ?_
  refine (reads_expect _ _).bind fun semicolon v => .pure fun hv hu => ?_
  subst hv
  exact derives_printStmt_iff.mpr ⟨u, by simp, hu⟩

theorem reads_expressionUnless (s : Symbol) :
    Reads (expressionUnless s) fun _ w => w = [] ∨ Derives (name .expression) w := by
  unfold expressionUnless
  refine (reads_sees s).bind fun missing u => ?_
  split
  · exact .pure fun hu => .inl (by rw [hu]; rfl)
  · refine reads_expression.bind fun e v => .pure fun hv hu => .inr ?_
    subst hu
    simpa using hv

theorem reads_returnRule (keyword : Token) : Reads (returnRule keyword) fun _ w =>
    Derives (name .returnStmt) (.symbol .returnWord :: w) := by
  unfold returnRule
  refine (reads_expressionUnless _).bind fun value u => ?_
  refine (reads_expect _ _).bind fun semicolon v => .pure fun hv hu => ?_
  subst hv
  exact derives_returnStmt_iff.mpr ⟨u, by simp, hu⟩

theorem reads_ifRule (hs : Reads statement fun _ w => Derives (name .statement) w) :
    Reads (ifRule statement) fun _ w => Derives (name .ifStmt) (.symbol .ifWord :: w) := by
  unfold ifRule
  refine (reads_expect _ _).bind fun paren p => ?_
  refine reads_expression.bind fun condition e => ?_
  refine (reads_expect _ _).bind fun paren p' => ?_
  refine hs.bind fun thenBranch u => ?_
  refine (reads_accept _).bind fun else? q => ?_
  cases else? with
  | none =>
      refine .pure fun hq hu hp' he hp => ?_
      obtain rfl : q = [] := hq
      subst hp' hp
      exact derives_ifStmt_iff.mpr ⟨e, u, [], by simp, he, hu, .inl rfl⟩
  | some word =>
      refine hs.bind fun elseBranch v => .pure fun hv hq hu hp' he hp => ?_
      obtain ⟨rfl, hword⟩ := hq
      subst hp' hp
      rw [hword]
      exact derives_ifStmt_iff.mpr
        ⟨e, u, .symbol .elseWord :: v, by simp, he, hu, .inr ⟨v, rfl, hv⟩⟩

theorem reads_whileRule (hs : Reads statement fun _ w => Derives (name .statement) w) :
    Reads (whileRule statement) fun _ w =>
      Derives (name .whileStmt) (.symbol .whileWord :: w) := by
  unfold whileRule
  refine (reads_expect _ _).bind fun paren p => ?_
  refine reads_expression.bind fun condition e => ?_
  refine (reads_expect _ _).bind fun paren p' => ?_
  refine hs.bind fun body u => .pure fun hu hp' he hp => ?_
  subst hp' hp
  exact derives_whileStmt_iff.mpr ⟨e, u, by simp, he, hu⟩

theorem reads_forInitializer : Reads forInitializer fun _ w =>
    Derives (name .varDecl) w ∨ Derives (name .exprStmt) w ∨ w = [.symbol .semicolon] := by
  unfold forInitializer
  refine (reads_acceptAny _).bind fun t? u => ?_
  cases t? with
  | none =>
      refine reads_expressionRule.bind fun s v => .pure fun hv hu => .inr (.inl ?_)
      obtain rfl : u = [] := hu
      simpa using hv
  | some t =>
      dsimp only
      split
      · next hsemicolon =>
        refine .pure fun hu => .inr (.inr ?_)
        rw [hu.1, beq_iff_eq.mp hsemicolon]
        rfl
      · next hsemicolon =>
        refine reads_varRule.bind fun s v => .pure fun hv hu => .inl ?_
        obtain ⟨rfl, hterminal⟩ := hu
        have hvar : t.terminal = .symbol .varWord := by simp_all
        rw [hvar, List.append_nil]
        exact hv

theorem reads_forRule (hs : Reads statement fun _ w => Derives (name .statement) w) :
    Reads (forRule statement) fun _ w => Derives (name .forStmt) (.symbol .forWord :: w) := by
  unfold forRule
  refine (reads_expect _ _).bind fun paren p => ?_
  refine reads_forInitializer.bind fun initializer i => ?_
  refine (reads_expressionUnless _).bind fun condition c => ?_
  refine (reads_expect _ _).bind fun semicolon q => ?_
  refine (reads_expressionUnless _).bind fun increment e => ?_
  refine (reads_expect _ _).bind fun paren p' => ?_
  refine hs.bind fun body u => .pure fun hu hp' he hq hc hi hp => ?_
  subst hp' hq hp
  exact derives_forStmt_iff.mpr ⟨i, c, e, u, by simp, hi, hc, he, hu⟩

theorem reads_statementRule (hs : Reads statement fun _ w => Derives (name .statement) w)
    (hd : Reads declaration fun _ w => Derives (name .declaration) w) :
    Reads (statementRule statement declaration) fun _ w => Derives (name .statement) w := by
  have hexpression : Reads expressionRule fun _ w => Derives (name .statement) w :=
    reads_expressionRule.mono fun _ _ h => derives_statement_iff.mpr (.inl h)
  unfold statementRule
  refine reads_peek_bind (fun line => hexpression) fun t => ?_
  split
  · next hkind =>
    refine readsAt_symbol_bind hkind fun _ => (reads_forRule hs).mono fun _ w h => ?_
    exact derives_statement_iff.mpr (.inr (.inl h))
  · next hkind =>
    refine readsAt_symbol_bind hkind fun _ => (reads_ifRule hs).mono fun _ w h => ?_
    exact derives_statement_iff.mpr (.inr (.inr (.inl h)))
  · next hkind =>
    refine readsAt_symbol_bind hkind fun _ => (reads_whileRule hs).mono fun _ w h => ?_
    exact derives_statement_iff.mpr (.inr (.inr (.inr (.inr (.inr (.inl h))))))
  · next hkind =>
    refine readsAt_symbol_bind hkind fun keyword => (reads_returnRule keyword).mono fun _ w h => ?_
    exact derives_statement_iff.mpr (.inr (.inr (.inr (.inr (.inl h)))))
  · next hkind =>
    refine readsAt_symbol_bind hkind fun _ => (reads_block hd).bind fun body w => .pure fun h => ?_
    rw [List.append_nil]
    exact derives_statement_iff.mpr (.inr (.inr (.inr (.inr (.inr (.inr h))))))
  · next hkind =>
    refine readsAt_symbol_bind hkind fun _ => reads_printRule.mono fun _ w h => ?_
    exact derives_statement_iff.mpr (.inr (.inr (.inr (.inl h))))
  · exact hexpression.at

theorem reads_declarationRule (hs : Reads statement fun _ w => Derives (name .statement) w)
    (hd : Reads declaration fun _ w => Derives (name .declaration) w) :
    Reads (declarationRule statement declaration) fun _ w => Derives (name .declaration) w := by
  have hstatement : Reads (statementRule statement declaration) fun _ w =>
      Derives (name .declaration) w :=
    (reads_statementRule hs hd).mono fun _ _ h => derives_declaration_iff.mpr (.inr (.inr (.inr h)))
  unfold declarationRule
  refine reads_peek_bind (fun line => hstatement) fun t => ?_
  split
  · next hkind =>
    refine readsAt_symbol_bind hkind fun _ => (reads_classRule hd).mono fun _ w h => ?_
    exact derives_declaration_iff.mpr (.inl h)
  · next hkind =>
    refine readsAt_symbol_bind hkind fun _ => (reads_callable hd .function).bind fun decl w =>
      .pure fun h => ?_
    rw [List.append_nil]
    exact derives_declaration_iff.mpr (.inr (.inl (derives_funDecl_iff.mpr ⟨w, rfl, h⟩)))
  · next hkind =>
    refine readsAt_symbol_bind hkind fun _ => reads_varRule.mono fun _ w h => ?_
    exact derives_declaration_iff.mpr (.inr (.inr (.inl h)))
  · exact hstatement.at

theorem reads_upTo (n : Nat) :
    Reads (statementUpTo n) (fun _ w => Derives (name .statement) w)
      ∧ Reads (declarationUpTo n) fun _ w => Derives (name .declaration) w := by
  induction n with
  | zero => exact ⟨reads_fail _, reads_recover (reads_fail _)⟩
  | succ n ih =>
      obtain ⟨hs, hd⟩ := ih
      exact ⟨reads_statementRule hs hd, reads_recover (reads_declarationRule hs hd)⟩

/-! ## Programs -/

/-- Where declarations are repeated up to the end, either the end is reached or no round is left. -/
theorem rest_eq_nil_or_length_eq (declaration : Rule (Option Stmt)) (rounds : Nat) :
    ∀ {k : Nat} {c c' : Cursor} {found : List (Option Stmt)}, collectUpTo (fun _ => do
        if ← atEnd then pure none
        else do
          let d ← declaration
          pure (some d)) rounds k c = .ok found c' →
      c'.rest = [] ∨ found.length = rounds := by
  induction rounds with
  | zero =>
      rintro k c c' found ⟨⟩
      exact .inr rfl
  | succ rounds ih =>
      intro k c c' found h
      obtain ⟨d?, d, hround, hmore⟩ := bind_eq_ok h
      obtain ⟨_, _, ⟨⟩, hround⟩ := bind_eq_ok hround
      split at hround
      · next hend =>
        cases hround
        cases hmore
        exact .inl (List.isEmpty_iff.mp hend)
      · obtain ⟨a, e, -, ⟨⟩⟩ := bind_eq_ok hround
        obtain ⟨more, e', hmore, ⟨⟩⟩ := bind_eq_ok hmore
        rcases ih hmore with hrest | hlen
        · exact .inl hrest
        · exact .inr (by rw [List.length_cons, hlen])

/-- A program that is parsed without an error consists of declarations of the grammar. -/
theorem derives_of_programUpTo {n : Nat} {c c' : Cursor} {statements : List Stmt}
    (h : programUpTo n c = .ok statements c') (hclean : c'.errors.length = c.errors.length) :
    ∃ ws : List (List Terminal), c.input = ws.flatten
      ∧ ∀ v ∈ ws, Derives (name .declaration) v := by
  have hreads : Reads (collect fun _ => do
      if ← atEnd then pure none
      else do
        let d ← declarationUpTo n
        pure (some d)) (Rounds (fun _ _ w => Derives (name .declaration) w) 0) := by
    refine reads_collect fun _ => reads_atEnd.bind fun ended u => ?_
    split
    · refine .pure fun hu => ?_
      rw [hu]
      rfl
    · refine (reads_upTo n).2.bind fun d v => .pure fun hv hu => ?_
      rw [hu, List.append_nil]
      exact hv
  obtain ⟨found, d, hfound, ⟨⟩⟩ := bind_eq_ok h
  have hread := hreads c
  rw [hfound] at hread
  obtain ⟨w, hinput, hw⟩ := hread.2 hclean
  obtain ⟨ws, rfl, hlen, hws⟩ := hw.exists_words
  have hderives : ∀ v ∈ ws, Derives (name .declaration) v := by
    intro v hv
    obtain ⟨_, _, h⟩ := hws v hv
    exact h
  refine ⟨ws, ?_, hderives⟩
  rcases rest_eq_nil_or_length_eq _ _ hfound with hrest | hrounds
  · rw [hinput, Cursor.input, hrest, List.map_nil, List.append_nil]
  · -- Each declaration has a token, so that without rounds left there are no tokens either.
    have hle := length_le_flatten fun v hv => (begins_declaration (hderives v hv)).ne_nil
    have hlength := congrArg List.length hinput
    rw [Cursor.input, List.length_map, List.length_append] at hlength
    have hnil : c'.input = [] := List.length_eq_zero_iff.mp (by omega)
    rw [hinput, hnil, List.append_nil]

end Lox.Grammar
