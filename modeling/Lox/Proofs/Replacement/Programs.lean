import Lox.Proofs.Grammar.Language
import Lox.Proofs.Relabelling.Fresh
import Lox.Proofs.Replacement.Loops
import Lox.Proofs.Unparse.Programs

/-!
# For statements in programs

In an accepted program a for statement may be replaced by its while form. The program has the same
trees up to the identities of their nodes, so that it breaks the same rules and runs alike.
-/

namespace Lox

open Resolution (ofStmts)

namespace Grammar

variable {f : ForTokens} {pre post : List Token} {firstId : NodeId}

/-- Tokens from which the parser makes an expression. -/
theorem derives_of_expression {ts : List Token} {e : Expr} {line : Nat} {next : NodeId}
    (h : expression ⟨ts, 0, 0, []⟩ = .ok e ⟨[], line, next, []⟩) :
    Derives (.name .expression) (terminals ts) := by
  have hreads := reads_expression ⟨ts, 0, 0, []⟩
  rw [h] at hreads
  obtain ⟨w, hw, hderives⟩ := hreads.2 rfl
  obtain rfl : terminals ts = w := hw.trans (List.append_nil w)
  exact hderives

/-- What counts of the tokens is what comes before an end of input. -/
theorem ForTokens.Ends.takeWhile (h : f.Ends post) : f.Ends (post.takeWhile (!isEnd ·)) := by
  obtain ⟨d, hnearest, helse⟩ := h
  refine ⟨d, hnearest, fun hd s hs heq => helse hd s hs ?_⟩
  cases post with
  | nil => cases heq
  | cons t post =>
      rw [List.takeWhile_cons] at heq
      split at heq
      · exact heq
      · cases heq

theorem exists_run_of_clean {tokens : List Token}
    (h : (parseProgram tokens firstId).errors = []) :
    ∃ ss d, programUpTo (Cursor.ofTokens tokens firstId).rest.length
          (Cursor.ofTokens tokens firstId) = .ok ss d ∧ d.errors = []
        ∧ (parseProgram tokens firstId).result = ss := by
  unfold parseProgram at h ⊢
  dsimp only at h ⊢
  split at h
  · next ss d hrun => exact ⟨ss, d, hrun, h, rfl⟩
  · next e d hrun => simp at h

theorem parseProgram_of_run {tokens : List Token} {ss : List Stmt} {d : Cursor}
    (h : programUpTo (Cursor.ofTokens tokens firstId).rest.length
      (Cursor.ofTokens tokens firstId) = .ok ss d) :
    parseProgram tokens firstId = ⟨ss, d.errors, d.nextId⟩ := by
  unfold parseProgram
  dsimp only
  rw [h]

theorem ForTokens.noEnd_asWhile (w : WhileTokens) (h : NoEnd f.tokens) : NoEnd (f.asWhile w) := by
  simp only [ForTokens.tokens, noEnd_cons, noEnd_append] at h
  obtain ⟨-, hleft, hinitializer, hcondition, -, hincrement, hright, hbody⟩ := h
  have hround : NoEnd (f.round w) := by
    unfold ForTokens.round
    split
    · exact hbody
    · simp [hbody, hincrement, isEnd_symbol w.innerOpening_terminal,
        isEnd_symbol w.semicolon_terminal, isEnd_symbol w.innerClosing_terminal]
  have hcondition' : NoEnd (if f.condition = [] then [w.constant] else f.condition) := by
    split
    · simp [isEnd_symbol w.constant_terminal]
    · exact hcondition
  have hloop : NoEnd (f.loop w) := by
    simp only [ForTokens.loop, noEnd_cons, noEnd_append]
    exact ⟨isEnd_symbol w.word_terminal, hleft, hcondition', hright, hround⟩
  unfold ForTokens.asWhile
  split
  · exact hloop
  · simp [hinitializer, hloop, isEnd_symbol w.outerOpening_terminal,
      isEnd_symbol w.outerClosing_terminal]

/-- Without errors before, there are none after the replacement, and the trees are alike. -/
theorem alike_parseProgram_asWhile (w : WhileTokens) (hends : f.Ends post)
    (hbefore : NoEnd (pre ++ f.tokens))
    (hclean : (parseProgram (pre ++ f.tokens ++ post) firstId).errors = []) :
    (parseProgram (pre ++ f.asWhile w ++ post) firstId).errors = []
      ∧ Stmt.listRelabel .anonymous (parseProgram (pre ++ f.tokens ++ post) firstId).result
        = Stmt.listRelabel .anonymous
            (parseProgram (pre ++ f.asWhile w ++ post) firstId).result := by
  let rest := post.takeWhile (!isEnd ·)
  have hfirst : (Cursor.ofTokens (pre ++ f.tokens ++ post) firstId).rest
      = pre ++ (f.tokens ++ rest) := by
    rw [Cursor.rest_ofTokens_append hbefore, List.append_assoc]
    rfl
  have hafter : NoEnd (pre ++ f.asWhile w) := by
    rw [noEnd_append] at hbefore ⊢
    exact ⟨hbefore.1, f.noEnd_asWhile w hbefore.2⟩
  have hsecond : (Cursor.ofTokens (pre ++ f.asWhile w ++ post) firstId).rest
      = pre ++ (f.asWhile w ++ rest) := by
    rw [Cursor.rest_ofTokens_append hafter, List.append_assoc]
    rfl
  have hne : f.asWhile w ++ rest ≠ [] := by
    obtain ⟨t, us, s, hw, -⟩ := f.exists_first w
    rw [hw]
    exact List.cons_ne_nil _ _
  obtain ⟨ss, d, hrun, hd, hss⟩ := exists_run_of_clean hclean
  obtain ⟨ss', d', hrun', herrors, -, halike⟩ := (tracks_programUpTo (f.fair_seam w rest)
    (f.quiet_seam w rest) (f.filled_seam w hends.takeWhile) (List.cons_ne_nil _ _) hne _ _).found
      _ ss d hrun (congrArg List.length hd) (Nat.zero_le _)
      (Cursor.ofTokens (pre ++ f.asWhile w ++ post) firstId) (.inl ⟨pre, hfirst, hsecond⟩) le_rfl
  rw [parseProgram_of_run hrun', hss]
  exact ⟨herrors, halike.symm⟩

end Grammar

namespace Session

open Grammar

/-- In a program that parses without errors, a for statement is replaced by its while form. Then the
program parses without errors to the same statements with other identities, and it breaks the same
rules. In a new session nothing else is seen of its run, and nothing else is seen of the run of a
source that is scanned as the program with the for statement. -/
theorem asWhile_runs_alike (f : ForTokens) (w : WhileTokens) {pre post : List Token}
    {firstId : NodeId} (hends : f.Ends post) (hbefore : NoEnd (pre ++ f.tokens))
    (hclean : (parseProgram (pre ++ f.tokens ++ post) firstId).errors = []) :
    (parseProgram (pre ++ f.asWhile w ++ post) firstId).errors = []
      ∧ (∃ g : NodeId → NodeId, Function.Injective g ∧
          (parseProgram (pre ++ f.asWhile w ++ post) firstId).result
            = Stmt.listRelabel (.ofIds g)
                (parseProgram (pre ++ f.tokens ++ post) firstId).result)
      ∧ (ofStmts .program [] (parseProgram (pre ++ f.asWhile w ++ post) firstId).result).errors
          = (ofStmts .program [] (parseProgram (pre ++ f.tokens ++ post) firstId).result).errors
      ∧ (∀ sink time steps,
          seen ((initial sink time).runProgram steps
              (parseProgram (pre ++ f.asWhile w ++ post) firstId).result)
            = seen ((initial sink time).runProgram steps
              (parseProgram (pre ++ f.tokens ++ post) firstId).result))
      ∧ ∀ source, Lexer.errors source = [] → Lexer.tokens source = pre ++ f.tokens ++ post →
          ∀ sink time steps,
            seen ((initial sink time).run steps source)
              = seen ((initial sink time).runProgram steps
                (parseProgram (pre ++ f.asWhile w ++ post) 0).result) := by
  have hrenamed (id : NodeId)
      (hclean : (parseProgram (pre ++ f.tokens ++ post) id).errors = []) :
      (parseProgram (pre ++ f.asWhile w ++ post) id).errors = []
        ∧ (Stmt.listIds (parseProgram (pre ++ f.tokens ++ post) id).result).Nodup
        ∧ ∃ g : NodeId → NodeId, Function.Injective g ∧
            Stmt.listRelabel (.ofIds g) (parseProgram (pre ++ f.tokens ++ post) id).result
              = (parseProgram (pre ++ f.asWhile w ++ post) id).result := by
    obtain ⟨herrors, halike⟩ := alike_parseProgram_asWhile w hends hbefore hclean
    have hgrown (tokens : List Token) : (Stmt.listIds (parseProgram tokens id).result).Nodup :=
      (grown_parseProgram (fun (t : Token) (_ : t ∈ tokens) => trivial) id).2.ids.nodup
    exact ⟨herrors, hgrown _, exists_relabel_of_alike halike (hgrown _) (hgrown _)⟩
  obtain ⟨herrors, hnodup, g, hg, hresult⟩ := hrenamed firstId hclean
  refine ⟨herrors, ⟨g, hg, hresult.symm⟩, ?_, fun sink time steps => ?_,
    fun source hlex hsource sink time steps => ?_⟩
  · rw [← hresult, Resolution.errors_ofIds]
  · rw [← hresult]
    apply seen_runProgram_ofIds hg hnodup <;> rfl
  · have hclean₀ := (errors_parseProgram_eq_nil_iff _ 0).mpr
      ((errors_parseProgram_eq_nil_iff _ firstId).mp hclean)
    obtain ⟨-, hnodup, g, hg, hresult⟩ := hrenamed 0 hclean₀
    have hinitial : (initial sink time).nextId = 0 := rfl
    rw [run_eq_runProgram hlex (by rw [hsource, hinitial]; exact hclean₀), hsource, hinitial,
      ← hresult]
    refine Eq.symm ?_
    apply seen_runProgram_ofIds hg hnodup <;> rfl

/-- A loop that prints a variable once, with its body a line below its increment. -/
theorem asWhile_runs_alike_once :
    ∃ (f : ForTokens) (w : WhileTokens) (post : List Token),
      f.Ends post ∧ NoEnd ([] ++ f.tokens)
        ∧ (parseProgram ([] ++ f.tokens ++ post) 0).errors = []
        ∧ Lexer.errors "for (var a = true; a; a = false)\nprint a;" = []
        ∧ Lexer.tokens "for (var a = true; a; a = false)\nprint a;" = [] ++ f.tokens ++ post
        ∧ ((initial .unlimited fun _ => 0).runProgram 40
            (parseProgram ([] ++ f.asWhile w ++ post) 0).result).map
              (fun r => (r.1, r.2.σ.sink.written.toList)) = some (.ok, "true\n".toUTF8.toList)
        ∧ ∀ sink time steps,
            seen ((initial sink time).run steps "for (var a = true; a; a = false)\nprint a;")
              = seen ((initial sink time).runProgram steps
                (parseProgram ([] ++ f.asWhile w ++ post) 0).result) := by
  let a : Token := ⟨.identifier, "a", 1⟩
  let f : ForTokens := {
    word := .mark .forWord
    leftParen := .mark .leftParen
    initializer := [.mark .varWord, a, .mark .equal, .mark .trueWord, .mark .semicolon]
    condition := [a]
    semicolon := .mark .semicolon
    increment := [a, .mark .equal, .mark .falseWord]
    rightParen := .mark .rightParen
    body := [⟨.symbol .printWord, "print", 2⟩, ⟨.identifier, "a", 2⟩, ⟨.symbol .semicolon, ";", 2⟩]
    word_terminal := rfl
    leftParen_terminal := rfl
    initializer_derives := .inl (derives_varDecl_iff.mpr
      ⟨.symbol .equal :: terminals [.mark .trueWord], rfl,
        .inr ⟨_, rfl, derives_of_expression rfl⟩⟩)
    condition_derives := .inr (derives_of_expression rfl)
    semicolon_terminal := rfl
    increment_derives := .inr (derives_of_expression rfl)
    rightParen_terminal := rfl }
  let w : WhileTokens := {
    outerOpening := .mark .leftBrace
    word := .mark .whileWord
    constant := .mark .trueWord
    innerOpening := .mark .leftBrace
    semicolon := .mark .semicolon
    innerClosing := .mark .rightBrace
    outerClosing := .mark .rightBrace
    outerOpening_terminal := rfl
    word_terminal := rfl
    constant_terminal := rfl
    innerOpening_terminal := rfl
    semicolon_terminal := rfl
    innerClosing_terminal := rfl
    outerClosing_terminal := rfl }
  have hends : f.Ends [.endAt 2] := by
    have hprint : Derives (.name .printStmt) (terminals f.body) :=
      derives_printStmt_iff.mpr ⟨terminals [a], rfl, derives_of_expression rfl⟩
    exact ⟨false, .simple (.inr (.inl hprint)), fun h => Bool.noConfusion h⟩
  have hbefore : NoEnd ([] ++ f.tokens) := by
    unfold NoEnd
    decide
  have hclean : (parseProgram ([] ++ f.tokens ++ [.endAt 2]) 0).errors = [] := by decide +kernel
  have hlexical : Lexer.errors "for (var a = true; a; a = false)\nprint a;" = [] := by
    decide +kernel
  have hsource : Lexer.tokens "for (var a = true; a; a = false)\nprint a;"
      = [] ++ f.tokens ++ [.endAt 2] := by decide +kernel
  obtain ⟨-, -, -, -, hrun⟩ := asWhile_runs_alike f w hends hbefore hclean
  exact ⟨f, w, [.endAt 2], hends, hbefore, hclean, hlexical, hsource, by decide +kernel,
    hrun _ hlexical hsource⟩

end Session

end Lox
