import Lox.Command
import Lox.Proofs.Machine.Evaluation
import Lox.Proofs.Replacement.Programs
import Lox.Proofs.Session.Batch
import Lox.Proofs.Token.Joining

/-!
# Evaluating and printing

An expression is evaluated on its own, without any check of static rules, or it is printed by a
program. As long as it does not name `this` or `super`, both come to the same output, error output
and exit code. The tree of the expression is the same in front of a semicolon, the rules find
nothing in it, and its evaluation ends in both cases.
-/

namespace Lox

open Machine (State Config Outcome Failure)
open Resolution (ofExpr ofExprs ofStmts)

namespace Grammar

variable {Q : Token → Prop} {tokens ts : List Token} {e : Expr} {n : NodeId} {c d : Cursor}

/-- An expression that is accepted takes the whole input without an error. -/
theorem exists_expression_of_sole (h : (parseExpression tokens n).result = some e) :
    ∃ d, expression (.ofTokens tokens n) = .ok e d ∧ d.rest = [] ∧ d.errors = []
      ∧ (parseExpression tokens n).errors = [] := by
  unfold parseExpression at h ⊢
  split at h
  · next e' c hrun =>
    dsimp only at h ⊢
    split at h
    · next hclean =>
      obtain rfl := Option.some.inj h
      obtain ⟨e'', d, hexpression, hrest⟩ := bind_eq_ok hrun
      simp only [bind_apply, atEnd] at hrest
      split at hrest
      · next hend =>
        cases hrest
        have hclean := List.isEmpty_iff.mp hclean
        exact ⟨_, hexpression, List.isEmpty_iff.mp hend, hclean, hclean⟩
      · cases hrest
    · cases h
  · cases h

/-- The inputs of which the first one has one token more, which no result has taken. -/
theorem calm_more (t : Token) : Seam.Calm ⟨[t], [], 1⟩ where
  first h := absurd h (lt_irrefl 1)
  second h := absurd h (lt_irrefl 1)
  quiet := by
    rintro s - - u k ⟨⟩
  opened h := absurd h (List.cons_ne_nil t [])

/-- An expression that is a whole input stands in front of a semicolon as well. -/
theorem exists_expression_before_semicolon (h : expression c = .ok e d) (hend : d.rest = [])
    (hclean : d.errors = c.errors) {semicolon : Token}
    (hsemicolon : semicolon.terminal = .symbol .semicolon) {start : Cursor}
    (hstart : start.rest = c.rest ++ [semicolon]) :
    ∃ a c', expression start = .ok a c' ∧ c'.input = [.symbol .semicolon]
      ∧ c'.errors = start.errors ∧ a.relabel .anonymous = e.relabel .anonymous := by
  have hreads := reads_expression c
  rw [h] at hreads
  obtain ⟨w, hw, hderives⟩ := hreads.2 (congrArg List.length hclean)
  rw [Cursor.input, Cursor.input, hend, List.map_nil, List.append_nil] at hw
  have hinput : start.input = w ++ [.symbol .semicolon] := by
    rw [Cursor.input, hstart, List.map_append, List.map_singleton, hsemicolon, hw]
  have hstops : Stops Nonterminal.expression.continuing [.symbol .semicolon] :=
    stops_symbol (by decide)
  obtain ⟨a, c', hrun, hleft, herrors, -⟩ := takes_expression hderives hstops start hinput
  have hlen : c'.rest.length = 1 := Cursor.length_rest hleft
  -- In front of nothing, the tree is found again, so that it is the given one.
  obtain ⟨b, d', hrun', -, -, halike⟩ :=
    (tracks_expression (calm_more semicolon) c.rest.length).found start a c' hrun
      (congrArg List.length herrors) hlen.ge c
      (.inl ⟨c.rest, hstart, (List.append_nil c.rest).symm⟩) le_rfl
  obtain ⟨rfl, -⟩ := EStateM.Result.ok.inj (h.symm.trans hrun')
  exact ⟨a, c', hrun, hleft, herrors, halike.symm⟩

/-- A print statement that is a whole input is the only statement of its program. -/
theorem parseProgram_of_printRule {print : Token}
    (hprint : print.kind = .symbol .printWord)
    (hrest : (Cursor.ofTokens tokens n).rest = print :: ts)
    (hrun : printRule { Cursor.ofTokens tokens n with rest := ts } = .ok (.print e) d)
    (hleft : d.rest = []) : parseProgram tokens n = ⟨[.print e], d.errors, d.nextId⟩ := by
  apply parseProgram_of_run
  generalize Cursor.ofTokens tokens n = start at hrest hrun ⊢
  have hdeclaration : declarationUpTo (ts.length + 1) start = .ok (some (.print e)) d := by
    simp only [declarationUpTo, recover, declarationRule, statementRule, bind_apply, peek, take,
      Cursor.next, hrest, List.headD_cons, List.tail_cons, hprint, hrun]
  have hne : start.rest ≠ [] := by simp [hrest]
  rw [programUpTo_eq, bind_apply, collect, hrest, List.length_cons, collectUpTo, bind_apply,
    programRound_ne_nil hne, bind_apply, hdeclaration]
  simp only [pure, EStateM.pure, bind_apply, collectUpTo_nil hleft]
  rfl

/-- The program that prints an expression, which is a whole input without errors. -/
theorem parseProgram_print (h : expression c = .ok e d) (hend : d.rest = [])
    (hclean : d.errors = c.errors) {print semicolon : Token}
    (hprint : print.kind = .symbol .printWord)
    (hsemicolon : semicolon.terminal = .symbol .semicolon)
    (htokens : (Cursor.ofTokens tokens n).rest = print :: (c.rest ++ [semicolon]))
    (hQ : ∀ t ∈ c.rest ++ [semicolon], Q t) :
    ∃ a next, parseProgram tokens n = ⟨[.print a], [], next⟩
      ∧ a.relabel .anonymous = e.relabel .anonymous ∧ a.Built Q := by
  have hstart : { Cursor.ofTokens tokens n with rest := c.rest ++ [semicolon] }.rest
      = c.rest ++ [semicolon] := rfl
  obtain ⟨a, c', hrun, hleft, herrors, halike⟩ :=
    exists_expression_before_semicolon h hend hclean hsemicolon hstart
  have htake : Takes (expect .semicolon .printEnd) [.symbol .semicolon] [] fun _ => True :=
    takes_expect .semicolon .printEnd
  obtain ⟨_, d', hexpect, hleft', herrors', -⟩ := htake c' hleft
  have hrule : printRule { Cursor.ofTokens tokens n with rest := c.rest ++ [semicolon] }
      = .ok (.print a) d' := by
    rw [printRule, bind_apply, hrun]
    simp only [bind_apply, hexpect]
    rfl
  have hparse := parseProgram_of_printRule hprint htokens hrule (List.map_eq_nil_iff.mp hleft')
  rw [herrors', herrors] at hparse
  have hyields := yields_expression (n := n)
    { Cursor.ofTokens tokens n with rest := c.rest ++ [semicolon] } hQ rfl
  rw [hrun] at hyields
  exact ⟨a, d'.nextId, hparse, halike, hyields.2.built⟩

end Grammar

namespace Resolution

/-- The token is neither `this` nor `super`. -/
def IsFree (t : Token) : Prop :=
  t.terminal ≠ .symbol .thisWord ∧ t.terminal ≠ .symbol .superWord

mutual

/-- Nothing is found in an expression at the top level without `this` and `super`. -/
theorem ofExpr_eq_none : ∀ {e : Expr}, e.Built IsFree → ofExpr .program [] e = .none
  | .literal _, _ => rfl
  | .group inner, h => ofExpr_eq_none (e := inner) h
  | .unary _ operand, h => ofExpr_eq_none (e := operand) h
  | .binary _ _ _, h => by rw [ofExpr, ofExpr_eq_none h.1, ofExpr_eq_none h.2]; rfl
  | .logical _ _ _, h => by rw [ofExpr, ofExpr_eq_none h.1, ofExpr_eq_none h.2]; rfl
  | .conditional _ _ _, h => by
      rw [ofExpr, ofExpr_eq_none h.1, ofExpr_eq_none h.2.1, ofExpr_eq_none h.2.2]
      rfl
  | .var _ _, _ => rfl
  | .assign _ _ _, h => by rw [ofExpr, ofExpr_eq_none h.2]; rfl
  | .call _ _ _, h => by rw [ofExpr, ofExpr_eq_none h.1, ofExprs_eq_none h.2]; rfl
  | .get object _, h => ofExpr_eq_none (e := object) h
  | .set _ _ _, h => by rw [ofExpr, ofExpr_eq_none h.1, ofExpr_eq_none h.2]; rfl
  | .this _ _, h => absurd h.2 h.1.1
  | .super _ _ _, h => absurd h.2 h.1.2

theorem ofExprs_eq_none : ∀ {es : List Expr}, Expr.ListBuilt IsFree es →
    ofExprs .program [] es = .none
  | [], _ => rfl
  | _ :: _, h => by rw [ofExprs, ofExpr_eq_none h.1, ofExprs_eq_none h.2]; rfl

end

end Resolution

namespace Command

variable {a e : Expr} {σ σ' : State} {n : Nat}

theorem reportValue_relabel (o : Outcome .value) (D : Machine.Distances) :
    reportValue (o.relabel .anonymous D) = reportValue o := by
  obtain ⟨result, σ⟩ := o
  cases result with
  | ok v =>
      have hdisplay := State.relabel_display (φ := .anonymous) (D := D) (σ := σ) v
      simp only [reportValue, Outcome.relabel, Machine.relabelResult, Machine.Answer.relabel,
        hdisplay]
      rfl
  | error failure => cases failure <;> rfl

/-- Expressions that differ in their identities are evaluated alike where nothing is local. -/
theorem exists_outcome_of_alike (halike : a.relabel .anonymous = e.relabel .anonymous)
    (hσ : ∀ id : NodeId, σ.distances[id]? = none) {o : Outcome .value}
    (h : (Config.eval a .done σ).advance n = .inr o) :
    ∃ o', (Config.eval e .done σ).advance n = .inr o' ∧ reportValue o' = reportValue o := by
  have hmatches : σ.Matches .anonymous ∅ := fun id => by simp [hσ]
  have hrun := Config.relabel_advance (c := Config.eval a .done σ) hmatches n
  have hrun' := Config.relabel_advance (c := Config.eval e .done σ) hmatches n
  rw [Config.relabel, halike] at hrun
  rw [Config.relabel, hrun, h] at hrun'
  cases hend : (Config.eval e .done σ).advance n with
  | inl c =>
      rw [hend] at hrun'
      cases hrun'
  | inr o' =>
      rw [hend] at hrun'
      have ho := Sum.inr.inj hrun'
      refine ⟨o', rfl, ?_⟩
      rw [← reportValue_relabel o' ∅, ← ho, reportValue_relabel]

/-- The program that prints an expression ends with the report of its evaluation. -/
theorem exists_report_of_print {result : Except Failure Value} (hsink : σ'.sink = .unlimited)
    (h : (Config.eval a .done σ).advance n = .inl (.ofExcept (a := .value) .done σ' result)) :
    ∃ k o, (Config.ofProgram [.print a] σ).advance k = .inr o
      ∧ ∀ s : Session, s.diagnostics = [] →
        Report.ofSession (s.finish o).2 (s.finish o).1.exitCode = reportValue ⟨result, σ'⟩ := by
  have hprint : (Config.exec (.print a) .done σ : Config .flow).advance (1 + n)
      = .inl (.ofExcept (a := .value) (.push .print .done) σ' result) := by
    have hfirst : (Config.exec (.print a) .done σ : Config .flow).advance 1
        = .inl (.eval a (.push .print .done) σ) := rfl
    have honto : (Config.eval a (.push .print .done) σ : Config .flow).advance n
        = .inl ((Config.ofExcept (a := .value) .done σ' result).onto (.push .print .done)) :=
      Config.advance_onto h
    rw [Config.advance_add hfirst]
    rwa [Config.onto_ofExcept] at honto
  cases result with
  | ok v =>
      have hfits : σ'.canPrint (σ'.display v) = true := by
        rw [State.canPrint, hsink]
        exact beq_self_eq_true _
      have hrefuses : (σ'.print (σ'.display v)).sink.refusesFlush = false := by
        simp [State.print, Sink.write, hsink, Sink.unlimited]
      have hresume : (Config.ofExcept (a := .value) (.push .print .done) σ' (.ok v)
          : Config .flow).advance 1
            = .inl (.answer (a := .flow) .normal .done (σ'.print (σ'.display v))) := by
        simp [Config.advance, Config.ofExcept, Config.step, Config.resume, Config.resumeValue,
          hfits]
      rw [← Config.advance_add hprint] at hresume
      have hstatement := Config.advance_statement hresume rfl []
      refine ⟨_, ⟨.ok .normal, σ'.print (σ'.display v)⟩,
        (Config.advance_add hstatement 1).trans ?_, fun s hs => ?_⟩
      · simp [Config.ofProgram, Config.inProgram, hrefuses, Config.advance, Config.step]
      · simp [Session.finish, Report.ofSession, reportValue, hs]
  | error failure =>
      have hresume : (Config.ofExcept (a := .value) (.push .print .done) σ' (.error failure)
          : Config .flow).advance 1 = .inl (.fail (a := .flow) failure .done σ') := rfl
      rw [← Config.advance_add hprint] at hresume
      have hstatement := Config.advance_statement hresume rfl []
      refine ⟨_, ⟨.error failure, σ'.reset⟩, (Config.advance_add hstatement 1).trans rfl,
        fun s hs => ?_⟩
      simp [Session.finish, Report.ofSession, reportValue, Session.report, hs, State.reset]

/-- The program that prints the expression that a source is. The semicolon stands on a line of its
own, since the source may end in a comment. -/
def printing (source : String) : String :=
  "print " ++ source ++ "\n" ++ ";"

/-- The program that prints an expression passes all checks, and nothing in it is local. -/
theorem clean_printing {source : String} (hlexical : Lexer.errors source = [])
    (hfree : ∀ t ∈ Lexer.tokens source, Resolution.IsFree t)
    (hparse : (Grammar.parseExpression (Lexer.tokens source) 0).result = some e) :
    ∃ a, Session.Clean (printing source) 0
      ∧ (Session.parsed (printing source) 0).result = [.print a]
      ∧ (ofStmts .program [] [.print a]).locals = []
      ∧ a.relabel .anonymous = e.relabel .anonymous := by
  have hitems := Lexer.items_word_append (s := .printWord) (by decide) source
  have hprint : Lexer.tokens ("print " ++ source)
      = ⟨.symbol .printWord, "print", 1⟩ :: Lexer.tokens source :=
    congrArg (List.filterMap Lexer.Item.token?) hitems
  have hlexical' : Lexer.errors ("print " ++ source) = [] :=
    (congrArg (List.filterMap Lexer.Item.error?) hitems).trans hlexical
  obtain ⟨ts, last, hts, hnoEnd, -⟩ := Lexer.tokens_append hlexical ""
  obtain ⟨body, last', hbody, hnoEnd', hjoined, hclean⟩ := Lexer.tokens_append hlexical' ";"
  have hsplit : ⟨.symbol .printWord, "print", 1⟩ :: ts ++ [.endAt last]
      = body ++ [.endAt last'] := by
    rw [← hbody, hprint, hts]
    rfl
  obtain ⟨rfl, -⟩ := List.append_inj' hsplit rfl
  let below := ("print " ++ source).toList.count '\n' + 1
  let semicolon : Token := ⟨.symbol .semicolon, ";", 1 + below⟩
  have htokens : Lexer.tokens (printing source)
      = ⟨.symbol .printWord, "print", 1⟩ :: (ts ++ [semicolon]) ++ [.endAt semicolon.line] := by
    rw [printing, hjoined]
    have hend : Lexer.tokens ";" = [⟨.symbol .semicolon, ";", 1⟩, .endAt 1] := by decide +kernel
    simp [hend, semicolon, below, Relabelling.token, Relabelling.below, Token.endAt]
  obtain ⟨d, hrun, hend, herrors, -⟩ := Grammar.exists_expression_of_sole hparse
  have hrest : (Grammar.Cursor.ofTokens (Lexer.tokens source) 0).rest = ts := by
    rw [hts]
    exact Grammar.Cursor.rest_ofTokens_endAt hnoEnd last 0
  have hrest' : (Grammar.Cursor.ofTokens (Lexer.tokens (printing source)) 0).rest
      = ⟨.symbol .printWord, "print", 1⟩ :: (ts ++ [semicolon]) := by
    rw [htokens]
    apply Grammar.Cursor.rest_ofTokens_endAt
    rw [← List.cons_append, List.forall_mem_append]
    exact ⟨hnoEnd', by simp [semicolon, Grammar.isEnd, Token.terminal, Token.Kind.terminal]⟩
  have hfree' : ∀ t ∈ ts ++ [semicolon], Resolution.IsFree t := by
    rw [List.forall_mem_append]
    refine ⟨fun t ht => hfree t ?_, ?_⟩
    · rw [hts]
      exact List.mem_append_left _ ht
    · simp [semicolon, Resolution.IsFree, Token.terminal, Token.Kind.terminal]
  rw [← hrest] at hrest' hfree'
  obtain ⟨a, next, hprogram, halike, hbuilt⟩ := Grammar.parseProgram_print hrun hend herrors rfl rfl
    hrest' hfree'
  have hfound : ofStmts .program [] [.print a] = .none := by
    rw [ofStmts, Resolution.ofStmt, Resolution.ofExpr_eq_none hbuilt]
    rfl
  refine ⟨a, ⟨?_, ?_, ?_⟩, ?_, ?_, halike⟩
  · exact hclean (by decide +kernel)
  · rw [Session.parsed, hprogram]
  · rw [Session.parsed, hprogram, hfound]
    rfl
  · rw [Session.parsed, hprogram]
  · rw [hfound]
    rfl

/-- A source that is accepted as an expression and does not name `this` or `super` is evaluated with
the same report as the program that prints it. Both runs end. -/
theorem printValue_agrees_with_print {source : String} (hlexical : Lexer.errors source = [])
    (hfree : ∀ t ∈ Lexer.tokens source, Resolution.IsFree t)
    (hparse : (Grammar.parseExpression (Lexer.tokens source) 0).result.isSome)
    (time : Nat → Float) :
    ∃ report k, ∀ n, k ≤ n → printValue n time source = some report
      ∧ runProgram n time (printing source) = some report := by
  obtain ⟨e, hparse⟩ := Option.isSome_iff_exists.mp hparse
  obtain ⟨a, hclean, hresult, hlocals, halike⟩ := clean_printing hlexical hfree hparse
  have hplain := Machine.plain_initial .unlimited time
  obtain ⟨d, result, σ, hrun, hσ, -⟩ := Machine.settles_eval a hplain .done
  have hend : (Config.eval a .done (.initial .unlimited time)).advance (d + 1)
      = .inr ⟨result, σ⟩ := by
    rw [Config.advance_add hrun]
    cases result <;> rfl
  -- The two trees differ in identities, which do not matter where nothing is local.
  obtain ⟨o', heval, hreport⟩ := exists_outcome_of_alike halike hplain.distances hend
  obtain ⟨k, o, hprogram, hfinish⟩ := exists_report_of_print hσ.sink hrun
  obtain ⟨s, hcheck, hstate, -, hdiagnostics⟩ :=
    hclean.check (s := Session.initial .unlimited time)
  rw [Session.nextId_initial, hresult] at hcheck hstate
  rw [hlocals] at hstate
  refine ⟨reportValue ⟨result, σ⟩, max (d + 1) k, fun n hn => ⟨?_, ?_⟩⟩
  · obtain ⟨j, rfl⟩ := Nat.exists_eq_add_of_le (le_of_max_le_left hn)
    have hsole : soleExpression source = .ok e := by
      obtain ⟨-, -, -, -, hclean⟩ := Grammar.exists_expression_of_sole hparse
      simp [soleExpression, hlexical, hparse, hclean]
    rw [printValue, hsole, Option.map_eq_some_iff]
    refine ⟨o', ?_, hreport⟩
    rw [Config.run, Config.advance_of_end heval]
    rfl
  · obtain ⟨j, rfl⟩ := Nat.exists_eq_add_of_le (le_of_max_le_right hn)
    have hstart : s.σ = .initial .unlimited time := hstate
    rw [runProgram, Session.run_eq hcheck, hstart, Config.advance_of_end hprogram,
      Sum.getRight?_inr, Option.map_some, Option.map_some]
    exact congrArg some (hfinish s hdiagnostics)

/-- A call with an argument too many, closed on the second line and followed by a comment. -/
theorem printValue_agrees_with_print_of_call :
    let source := "clock // takes no argument\n(nil) // but gets one"
    Lexer.errors source = [] ∧ (∀ t ∈ Lexer.tokens source, Resolution.IsFree t)
      ∧ (Grammar.parseExpression (Lexer.tokens source) 0).result.isSome
      ∧ (∃ report k, ∀ n, k ≤ n → printValue n (fun _ => 0) source = some report
          ∧ runProgram n (fun _ => 0) (printing source) = some report)
      ∧ (runProgram 20 (fun _ => 0) (printing source)).map (fun r => (r.errors, r.exitCode))
        = some ("Expected 0 arguments but got 1.\n[line 2]\n", 70) := by
  intro source
  have hlexical : Lexer.errors source = [] := by decide +kernel
  have hfree : ∀ t ∈ Lexer.tokens source, Resolution.IsFree t := by
    unfold Resolution.IsFree
    decide +kernel
  have hparse : (Grammar.parseExpression (Lexer.tokens source) 0).result.isSome := by
    decide +kernel
  exact ⟨hlexical, hfree, hparse,
    printValue_agrees_with_print hlexical hfree hparse fun _ => 0, by decide +kernel⟩

end Command

end Lox
