import Mathlib.Logic.Function.Iterate
import Lox.Proofs.Concatenation.Containment
import Lox.Proofs.Termination.Loops

/-!
# Parsing ends

Whatever stands in place of the rules at the bottom, the rules unfolded more often than there are
tokens never come to it. They take tokens from the front of their input and do nothing else to it, a
declaration takes at least one, and so a parse takes each token at most once and none behind the
first end of input.
-/

namespace Lox.Grammar

variable {α : Type} {n m : Nat} {c : Cursor}

/-- What the rules that contain themselves call. The rules of statements also call that of an
expression, which is unfolded on its own. -/
structure Calls where
  expression : Nonterminal → Rule Expr
  statement : Rule Stmt
  declaration : Rule (Option Stmt)

namespace Calls

/-- The rules, which call the given ones. -/
def unfold (calls : Calls) : Calls where
  expression
    | .expression => assignmentRule calls.expression
    | .conditional => conditionalRule calls.expression
    | .unary => unaryRule calls.expression
  statement := statementRule calls.statement calls.declaration
  declaration := recover (declarationRule calls.statement calls.declaration)

/-- The rules for inputs of at most `n` tokens. -/
def upTo (n : Nat) : Calls where
  expression := expressionUpTo n
  statement := statementUpTo n
  declaration := declarationUpTo n

/-- From the cursor on, both sets of rules do the same. -/
structure SameAt (c : Cursor) (calls calls' : Calls) : Prop where
  expression : ∀ x, calls.expression x c = calls'.expression x c
  statement : calls.statement c = calls'.statement c
  declaration : calls.declaration c = calls'.declaration c

/-- On inputs of at most `n` tokens, both sets of rules do the same. -/
structure Agree (n : Nat) (calls calls' : Calls) : Prop where
  expression : ∀ x, Agrees [] n (calls.expression x) (calls'.expression x)
  statement : Agrees [] n calls.statement calls'.statement
  declaration : Agrees [] n calls.declaration calls'.declaration

variable {calls calls' : Calls}

theorem Agree.unfold (h : Agree n calls calls') : Agree (n + 1) calls.unfold calls'.unfold where
  expression
    | .expression => agrees_assignmentRule h.expression
    | .conditional => agrees_conditionalRule h.expression
    | .unary => agrees_unaryRule h.expression
  statement := agrees_statementRule h.statement h.declaration
  declaration := agrees_recover (agrees_declarationRule h.statement h.declaration)

/-- Without tokens every rule fails before it calls another one. -/
theorem agree_unfold_zero (calls calls' : Calls) : Agree 0 calls.unfold calls'.unfold := by
  have hfails {β : Type} {r r' : Rule β}
      (hr : ∀ c : Cursor, c.rest = [] → r c = .error ⟨.missing .expression, c.next⟩ c)
      (hr' : ∀ c : Cursor, c.rest = [] → r' c = .error ⟨.missing .expression, c.next⟩ c) :
      Agrees [] 0 r r' := by
    intro c hc
    have hnil : c.rest = [] := List.length_eq_zero_iff.mp (by omega)
    rw [hr c hnil, hr' (c.preceded []) hnil]
    exact ⟨le_rfl, rfl⟩
  constructor
  · intro x
    cases x with
    | expression =>
        exact hfails (fun _ => assignmentRule_at_end _) fun _ => assignmentRule_at_end _
    | conditional =>
        exact hfails (fun _ => conditionalRule_at_end _) fun _ => conditionalRule_at_end _
    | unary => exact hfails (fun _ => unaryRule_at_end _) fun _ => unaryRule_at_end _
  · exact hfails (fun _ hc => statementRule_at_end hc _ _) fun _ hc => statementRule_at_end hc _ _
  · exact agrees_recover (hfails (fun _ hc => declarationRule_at_end hc _ _)
      fun _ hc => declarationRule_at_end hc _ _)

/-- What is called at the bottom of so many unfoldings makes no difference. -/
theorem agree_iterate (n : Nat) (calls calls' : Calls) :
    Agree n (Calls.unfold^[n + 1] calls) (Calls.unfold^[n + 1] calls') := by
  induction n with
  | zero => exact agree_unfold_zero calls calls'
  | succ n ih =>
      rw [Function.iterate_succ_apply', Function.iterate_succ_apply' _ (n + 1) calls']
      exact ih.unfold

theorem upTo_succ (n : Nat) : upTo (n + 1) = (upTo n).unfold := by
  have hexpression : (upTo (n + 1)).expression = (upTo n).unfold.expression := by
    funext x
    cases x <;> rfl
  rw [upTo, unfold]
  exact congrArg (Calls.mk · _ _) hexpression

theorem upTo_eq_iterate (n : Nat) : upTo n = Calls.unfold^[n] (upTo 0) := by
  induction n with
  | zero => rfl
  | succ n ih => rw [upTo_succ, ih, Function.iterate_succ_apply']

theorem agree_upTo (hle : n ≤ m) : Agree n (upTo n) (upTo m) :=
  ⟨agrees_expressionUpTo hle, (agrees_upTo hle).1, (agrees_upTo hle).2⟩

theorem eq_of_agrees {r r' : Rule α} (h : Agrees [] n r r') (hc : c.rest.length ≤ n) :
    r c = r' c := by
  have hsame : r' c = precededResult [] (r c) := (h c hc).2
  rw [hsame]
  cases r c <;> rfl

theorem Agree.sameAt (h : Agree n calls calls') (hc : c.rest.length ≤ n) :
    SameAt c calls calls' where
  expression x := eq_of_agrees (h.expression x) hc
  statement := eq_of_agrees h.statement hc
  declaration := eq_of_agrees h.declaration hc

theorem SameAt.trans {calls'' : Calls} (h : SameAt c calls calls') (h' : SameAt c calls' calls'') :
    SameAt c calls calls'' where
  expression x := (h.expression x).trans (h'.expression x)
  statement := h.statement.trans h'.statement
  declaration := h.declaration.trans h'.declaration

theorem SameAt.symm (h : SameAt c calls calls') : SameAt c calls' calls where
  expression x := (h.expression x).symm
  statement := h.statement.symm
  declaration := h.declaration.symm

/-- With more unfoldings than tokens, the rules are those for inputs of so many tokens. -/
theorem sameAt_iterate (beyond : Calls) (hn : c.rest.length < n) (hm : c.rest.length ≤ m) :
    SameAt c (Calls.unfold^[n] beyond) (upTo m) := by
  obtain ⟨k, rfl⟩ := Nat.exists_eq_add_one_of_ne_zero (Nat.ne_zero_of_lt hn)
  have hk : c.rest.length ≤ k := Nat.le_of_lt_succ hn
  have hbottom : SameAt c (Calls.unfold^[k + 1] beyond) (upTo (k + 1)) := by
    rw [upTo_eq_iterate (k + 1)]
    exact (agree_iterate k beyond (upTo 0)).sameAt hk
  have hexact {j : Nat} (hj : c.rest.length ≤ j) : SameAt c (upTo c.rest.length) (upTo j) :=
    (agree_upTo hj).sameAt le_rfl
  exact hbottom.trans ((hexact hn.le).symm.trans (hexact hm))

end Calls

/-- A declaration before the end of the input takes a token. -/
theorem exists_taken_declarationUpTo (hn : c.rest.length ≤ n) (hne : c.rest ≠ []) :
    ∃ s? d t taken, declarationUpTo n c = .ok s? d ∧ c.rest = t :: taken ++ d.rest := by
  obtain ⟨s?, d, hrun⟩ : ∃ s? d, declarationUpTo n c = .ok s? d := by
    cases n <;> exact exists_recover _ c
  obtain ⟨taken, htaken⟩ := (lays_statementUpTo_declarationUpTo n).2.onlyTakes c
  rw [hrun] at htaken
  have hlt := (resumes_declarationUpTo n).shorter c s? d hn hne hrun
  cases taken with
  | nil => exact absurd (congrArg List.length htaken) hlt.ne
  | cons t taken => exact ⟨s?, d, t, taken, hrun, htaken.symm⟩

/-- A program succeeds and takes all of its input. -/
theorem exists_programUpTo (hn : c.rest.length ≤ n) :
    ∃ statements d, programUpTo n c = .ok statements d ∧ d.rest = [] := by
  obtain ⟨found, d, hrun⟩ := exists_collectUpTo n c.rest.length 0 c
  obtain ⟨k, e, hlast⟩ := isRound_program.exists_last c.rest.length hn le_rfl hrun
  refine ⟨found.filterMap id, d, ?_, ?_⟩
  · rw [programUpTo_eq, bind_apply, collect, hrun]
    rfl
  · by_cases he : e.rest = []
    · rw [programRound_nil he] at hlast
      cases hlast
      exact he
    · rw [programRound_ne_nil he] at hlast
      obtain ⟨s?, d', -, hpure⟩ := bind_eq_ok hlast
      cases hpure

theorem onlyTakes_soleExpressionRule : OnlyTakes soleExpressionRule := by
  refine lays_expression.onlyTakes.bind fun e => ?_
  refine (lays_atEnd (M := .any)).onlyTakes.bind fun ended => ?_
  split
  · exact .pure
  · exact (lays_fail (M := .any) (P := fun _ _ => True) .endOfExpression).onlyTakes

/-- What a rule takes, from the beginning of an input, of the tokens before its first end. -/
theorem exists_taken {r : Rule α} (h : OnlyTakes r) (tokens : List Token) (firstId : NodeId) :
    ∃ taken, taken ++ leftOver (r (.ofTokens tokens firstId)) = tokens.takeWhile (!isEnd ·)
      ∧ taken.length ≤ tokens.length := by
  obtain ⟨taken, htaken⟩ := h (.ofTokens tokens firstId)
  refine ⟨taken, htaken, ?_⟩
  have hle := (List.takeWhile_prefix (!isEnd ·) (l := tokens)).length_le
  have hlength := congrArg List.length htaken
  rw [List.length_append] at hlength
  exact (Nat.le_add_right _ _).trans (hlength.le.trans hle)

/-- Parsing ends on every list of tokens. The recursion of the rules ends by itself, with no more
calls inside of one another than there are tokens and one more, and so do their loops, after as many
rounds. The rules only take tokens, and a declaration before the end takes one at least, whether it
succeeds or not. A parse of a program takes the tokens before the first end of input, each once, and
a parse of a single expression takes some of them. -/
theorem parsing_ends (tokens : List Token) (firstId : NodeId) :
    (∀ (beyond : Calls) n m (c : Cursor), c.rest.length < n → c.rest.length ≤ m →
        Calls.SameAt c (Calls.unfold^[n] beyond) (.upTo m))
      ∧ (∀ n {α : Type} (step : Nat → Rule (Option α)), Loop n step →
        ∀ after rounds (c : Cursor), c.rest.length ≤ n → c.rest.length < rounds →
          collectThen step after rounds 0 c = collect step c)
      ∧ (∀ n, (∀ x, OnlyTakes (expressionUpTo n x)) ∧ OnlyTakes (statementUpTo n)
        ∧ OnlyTakes (declarationUpTo n) ∧ OnlyTakes (programUpTo n))
      ∧ (∀ n (c : Cursor), c.rest.length ≤ n → c.rest ≠ [] →
        ∃ s? d t taken, declarationUpTo n c = .ok s? d ∧ c.rest = t :: taken ++ d.rest)
      ∧ (∃ statements d, programUpTo (Cursor.ofTokens tokens firstId).rest.length
            (.ofTokens tokens firstId) = .ok statements d ∧ d.rest = []
          ∧ parseProgram tokens firstId = ⟨statements, d.errors, d.nextId⟩)
      ∧ (∀ n, ∃ taken, taken ++ leftOver (programUpTo n (.ofTokens tokens firstId))
            = tokens.takeWhile (!isEnd ·) ∧ taken.length ≤ tokens.length)
      ∧ ∃ taken, taken ++ leftOver (soleExpressionRule (.ofTokens tokens firstId))
            = tokens.takeWhile (!isEnd ·) ∧ taken.length ≤ tokens.length := by
  have hprogram (n : Nat) : OnlyTakes (programUpTo n) := (lays_programUpTo n).onlyTakes
  refine ⟨fun beyond n m c => Calls.sameAt_iterate beyond, ?_, fun n => ⟨fun x => ?_, ?_, ?_,
    hprogram n⟩, fun n c => exists_taken_declarationUpTo, ?_,
    fun n => exists_taken (hprogram n) _ _, exists_taken onlyTakes_soleExpressionRule _ _⟩
  · intro n α step hloop after rounds c hn hlt
    exact hloop.isRound.collectThen_eq after rounds _ 0 c hn hlt le_rfl
  · exact (lays_expressionUpTo n x).onlyTakes
  · exact (lays_statementUpTo_declarationUpTo n).1.onlyTakes
  · exact (lays_statementUpTo_declarationUpTo n).2.onlyTakes
  · obtain ⟨statements, d, hrun, hrest⟩ := exists_programUpTo (c := .ofTokens tokens firstId) le_rfl
    exact ⟨statements, d, hrun, hrest, by rw [parseProgram, hrun]⟩

/-- A brace that closes nothing, and a semicolon behind the end of the input. -/
def strayBrace : List Token :=
  [⟨.symbol .rightBrace, "\x7d", 1⟩, .endAt 1, ⟨.symbol .semicolon, ";", 1⟩]

/-- The brace is taken, although no statement can begin with it, and the semicolon is not. -/
theorem parsing_of_stray_brace_ends :
    let c := Cursor.ofTokens strayBrace 0
    (∀ beyond, Calls.SameAt c (Calls.unfold^[2] beyond) (.upTo 1))
      ∧ (∀ after, collectThen (fun _ => programRound 1) after 2 0 c
        = collect (fun _ => programRound 1) c)
      ∧ (∃ s? d t taken, declarationUpTo 1 c = .ok s? d ∧ c.rest = t :: taken ++ d.rest)
      ∧ (∃ taken, taken ++ leftOver (programUpTo 1 c) = strayBrace.take 1)
      ∧ (parseProgram strayBrace 0).errors.map (·.fault) = [.missing .expression] := by
  intro c
  obtain ⟨hcalls, hloops, -, hdeclaration, -, hprogram, -⟩ := parsing_ends strayBrace 0
  obtain ⟨taken, htaken, -⟩ := hprogram 1
  refine ⟨fun beyond => hcalls beyond 2 1 c (by decide) (by decide),
    fun after => hloops 1 _ .program after 2 c (by decide) (by decide),
    hdeclaration 1 c (by decide) (by decide), ⟨taken, htaken⟩, by decide +kernel⟩

end Lox.Grammar
