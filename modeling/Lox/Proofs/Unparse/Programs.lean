import Lox.Proofs.Unparse.Statements

/-!
# Parsing undoes unparsing

The tokens of a well-formed program contain no end of input. Up to the end of input that is put
behind them, the parser reads them back as the program.
-/

namespace Lox.Grammar

variable {ts : List Token} {n : Nat}

def NoEnd (ts : List Token) : Prop :=
  ∀ t ∈ ts, isEnd t = false

@[simp] theorem noEnd_nil : NoEnd [] :=
  nofun

@[simp] theorem noEnd_cons {t : Token} : NoEnd (t :: ts) ↔ isEnd t = false ∧ NoEnd ts :=
  List.forall_mem_cons

@[simp] theorem noEnd_append {us vs : List Token} : NoEnd (us ++ vs) ↔ NoEnd us ∧ NoEnd vs :=
  List.forall_mem_append

@[simp] theorem noEnd_separated {us : List (List Token)} (h : ∀ u ∈ us, NoEnd u) :
    NoEnd (Token.separated us) := by
  cases us with
  | nil => exact noEnd_nil
  | cons u us =>
      rw [Token.separated, noEnd_append]
      refine ⟨h u List.mem_cons_self, fun t ht => ?_⟩
      obtain ⟨v, hv, ht⟩ := List.mem_flatMap.mp ht
      rcases List.mem_cons.mp ht with rfl | ht
      · rfl
      · exact h v (List.mem_cons_of_mem u hv) t ht

theorem isEnd_name {t : Token} (h : t.terminal = .identifier) : isEnd t = false := by
  rw [isEnd, h]
  rfl

theorem isEnd_symbol {t : Token} {s : Symbol} (h : t.terminal = .symbol s) : isEnd t = false := by
  rw [isEnd, h]
  rfl

@[simp] theorem isEnd_mark (s : Symbol) : isEnd (.mark s) = false := rfl

theorem isEnd_operator {t : Token} (h : .ofOperator t ≠ Precedence.primary) : isEnd t = false := by
  obtain ⟨s, hs, -⟩ := symbol_of_ofOperator rfl h
  exact isEnd_symbol hs

theorem isEnd_literal (v : Literal) : isEnd v.token = false := by
  cases v with
  | boolean b => cases b <;> rfl
  | _ => rfl

mutual

theorem noEnd_expr : ∀ {e : Expr}, e.WellFormed → NoEnd e.tokens
  | .literal v, _ => by simp [isEnd_literal]
  | .group inner, h => by simp [show NoEnd inner.tokens from noEnd_expr h]
  | .unary t operand, h => by
      have ht : isEnd t = false := by
        rcases h.1 with ht | ht <;> exact isEnd_symbol ht
      simp [ht, noEnd_expr h.2.1]
  | .binary l t r, h => by
      have ht : isEnd t = false :=
        isEnd_operator fun ht => absurd (ht ▸ h.1) (by decide)
      simp [ht, noEnd_expr h.2.1.1, noEnd_expr h.2.2.1]
  | .logical l t r, h => by
      have ht : isEnd t = false :=
        isEnd_operator fun ht => absurd (ht ▸ h.1) (by decide)
      simp [ht, noEnd_expr h.2.1.1, noEnd_expr h.2.2.1]
  | .conditional c t e, h => by
      simp [noEnd_expr h.1.1, noEnd_expr h.2.1.1, noEnd_expr h.2.2.1]
  | .var _ name, h => by simp [isEnd_name h]
  | .assign _ name value, h => by simp [isEnd_name h.1, noEnd_expr h.2]
  | .call callee paren es, h => by
      simp [noEnd_expr h.1.1, isEnd_symbol h.2.1, noEnd_separated (noEnd_exprs h.2.2.1)]
  | .get object name, h => by simp [noEnd_expr h.1.1, isEnd_name h.2]
  | .set object name value, h => by
      simp [noEnd_expr h.1.1, isEnd_name h.2.1, noEnd_expr h.2.2]
  | .this _ keyword, h => by simp [isEnd_symbol h]
  | .super _ keyword method, h => by simp [isEnd_symbol h.1, isEnd_name h.2]

theorem noEnd_exprs : ∀ {es : List Expr}, Expr.ListWellFormed es →
    ∀ u ∈ Expr.listTokens es, NoEnd u
  | [], _ => nofun
  | e :: es, h => by simpa using ⟨noEnd_expr h.1, noEnd_exprs h.2⟩

end

theorem noEnd_tokensAfter (intro : List Token) {e : Option Expr} (hintro : NoEnd intro)
    (h : Expr.WellFormed? e) : NoEnd (Expr.tokensAfter intro e) := by
  cases e with
  | none => exact noEnd_nil
  | some e => exact noEnd_append.mpr ⟨hintro, noEnd_expr h⟩

theorem wellFormed_superclass {e : Option Expr} (h : Expr.IsSuperclassName e) :
    Expr.WellFormed? e := by
  cases e with
  | none => exact trivial
  | some e =>
      cases e with
      | var => exact h
      | _ => exact absurd h id

mutual

theorem noEnd_stmt : ∀ {s : Stmt}, s.WellFormed → NoEnd s.tokens
  | .expression e, h => by simp [show NoEnd e.tokens from noEnd_expr h]
  | .print e, h => by simp [show NoEnd e.tokens from noEnd_expr h]
  | .var name initializer, h => by
      simp [isEnd_name h.1, noEnd_tokensAfter [.mark .equal] (by simp) h.2]
  | .block body, h => by simp [show NoEnd (Stmt.listTokens body) from noEnd_stmts h]
  | .ifThen c t, h => by simp [noEnd_expr h.1, noEnd_stmt h.2.1]
  | .ifElse c t e, h => by simp [noEnd_expr h.1, noEnd_stmt h.2.1.1, noEnd_stmt h.2.2.1]
  | .loop c body, h => by simp [noEnd_expr h.1, noEnd_stmt h.2.1]
  | .function f, h => by simp [show NoEnd f.tokens from noEnd_callable h]
  | .ret keyword value, h => by
      simp [isEnd_symbol h.1, noEnd_tokensAfter [] noEnd_nil h.2]
  | .classDecl name superclass methods, h => by
      simp [isEnd_name h.1, noEnd_callables h.2.2,
        noEnd_tokensAfter [.mark .less] (by simp) (wellFormed_superclass h.2.1)]

theorem noEnd_stmts : ∀ {ss : List Stmt}, Stmt.ListWellFormed ss → NoEnd (Stmt.listTokens ss)
  | [], _ => noEnd_nil
  | s :: ss, h => by simp [noEnd_stmt h.1, noEnd_stmts h.2]

theorem noEnd_callable : ∀ {f : FunctionDecl}, f.WellFormed → NoEnd f.tokens
  | ⟨name, params, body⟩, h => by
      have hparams : NoEnd (Token.separated (params.map ([·]))) := by
        apply noEnd_separated
        simpa using fun x hx => isEnd_name (h.2.1 x hx)
      simp [isEnd_name h.1, hparams, noEnd_stmts h.2.2.2]

theorem noEnd_callables : ∀ {fs : List FunctionDecl}, FunctionDecl.ListWellFormed fs →
    NoEnd (FunctionDecl.listTokens fs)
  | [], _ => noEnd_nil
  | f :: fs, h => by simp [noEnd_callable h.1, noEnd_callables h.2]

end

theorem consumes_programUpTo {program : List Stmt} (h : Stmt.ListWellFormed program)
    (hn : (Stmt.listTokens program).length ≤ n) :
    Consumes (programUpTo n) (Stmt.listTokens program) [] fun program' =>
      Stmt.listRelabel .anonymous program = Stmt.listRelabel .anonymous program' := by
  rw [Stmt.listWellFormed_iff] at h
  rw [Stmt.listTokens_eq_flatMap] at hn ⊢
  unfold programUpTo
  refine (consumes_collect (Q := fun s s? => ∃ s', s? = some s' ∧ s.Alike s') ?_ ?_ ?_).last
    fun found hfound => .pure (relabel_filterMap hfound)
  · exact fun s hs => (beginsWith_declaration (h s hs)).ne_nil
  · intro i s hs
    have hwell := h s (List.mem_of_getElem? hs)
    have hrest : StopsAt [.elseWord] ((program.drop (i + 1)).flatMap Stmt.tokens ++ []) :=
      stopsAt_else (fun s hs => h s (List.mem_of_mem_drop hs)) nofun
    refine consumes_atEnd.look fun ended hended => ?_
    have hnot : ended = false := by
      rw [← Bool.not_eq_true, hended]
      simp [(beginsWith_declaration hwell).ne_nil]
    subst hnot
    refine ((consumes_upTo n).2 s _ ?_ hwell hrest).last fun d hd => .pure ⟨d, rfl, hd⟩
    have hbound := length_drop_flatMap Stmt.tokens hs
    simp only [List.length_append, List.length_nil] at hbound ⊢
    omega
  · refine consumes_atEnd.look fun ended hended => ?_
    obtain rfl : ended = true := hended.mpr rfl
    exact .pure rfl

/-- Parsing the tokens of a well-formed program gives no error and the program, in which only the
identities of nodes may differ. -/
theorem parseProgram_listTokens {program : List Stmt} (h : Stmt.ListWellFormed program)
    (line : Nat) (firstId : NodeId) :
    (parseProgram (Stmt.listTokens program ++ [.endAt line]) firstId).errors = []
      ∧ Stmt.listRelabel .anonymous
          (parseProgram (Stmt.listTokens program ++ [.endAt line]) firstId).result
        = Stmt.listRelabel .anonymous program := by
  have hrest := Cursor.rest_ofTokens_endAt (noEnd_stmts h) line firstId
  have hconsumes := consumes_programUpTo h (le_of_eq (congrArg List.length hrest).symm)
  obtain ⟨program', c', hrun, -, herrors, hprogram⟩ := hconsumes _ (by rw [hrest, List.append_nil])
  simp only [parseProgram, hrun]
  exact ⟨herrors, hprogram.symm⟩

/-- A class whose initializer sets a field, and a conditional with an else for the right if. -/
def exampleProgram : List Stmt :=
  let name (x : String) : Token := .ofName x 3
  let here : Expr := .this 4 (.mark .thisWord)
  let sum : Expr :=
    .binary (.binary (.literal (.number 1)) (.mark .minus) (.var 9 (name "x"))) (.mark .minus)
      (.unary (.mark .minus) (.group (.binary (.literal .nil) (.mark .plus) here)))
  [.classDecl (name "A") (some (.var 7 (name "B")))
      [⟨name "init", [name "x"],
        [.expression (.set here (name "x") sum), .ret (.mark .returnWord) none]⟩],
    .ifElse (.logical (.var 0 (name "a")) (.mark .orWord) (.literal (.boolean true)))
      (.block [.ifThen (.var 1 (name "b")) (.print (.literal (.string "s")))])
      (.loop (.call (.get (.var 2 (name "c")) (name "m")) (.mark .rightParen) [.literal .nil, here])
        (.expression (.assign 5 (name "a")
          (.conditional (.var 3 (name "b")) (.super 6 (.mark .superWord) (name "m")) here))))]

theorem parseProgram_listTokens_exampleProgram :
    Stmt.ListWellFormed exampleProgram
      ∧ (parseProgram (Stmt.listTokens exampleProgram ++ [.endAt 3]) 10).errors = []
      ∧ Stmt.listRelabel .anonymous
          (parseProgram (Stmt.listTokens exampleProgram ++ [.endAt 3]) 10).result
        = Stmt.listRelabel .anonymous exampleProgram := by
  have hwell : Stmt.ListWellFormed exampleProgram := by
    simp [exampleProgram, Token.ofName, Expr.WellFormed?, Expr.IsSuperclassName]
    decide
  exact ⟨hwell, parseProgram_listTokens hwell 3 10⟩

end Lox.Grammar
