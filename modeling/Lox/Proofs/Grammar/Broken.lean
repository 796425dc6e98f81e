import Lox.Proofs.Grammar.Recovery

/-!
# Statements that lack their semicolon

A simple statement without its semicolon fails in front of what comes next, or goes on with the
expression that does. The rules of statements, blocks, functions and classes around it pass the failure
on, or go on with what the parser has not skipped.
-/

namespace Lox.Grammar

open Ebnf (name)

variable {α β : Type} {t : Terminal} {e u v w after rest input : List Terminal} {n : Nat}
  {declaration : Rule (Option Stmt)} {statement : Rule Stmt}

theorem Boundary.stops (h : Boundary after) {symbols : List Symbol}
    (hbegins : ∀ s ∈ symbols, beginsDeclaration (.symbol s) = false)
    (hother : ∀ s ∈ symbols, s ≠ .elseWord ∧ s ≠ .rightBrace) : Stops symbols after := by
  rcases h with ⟨u, v, rfl, hu⟩ | h
  · exact ((begins_declaration hu).append v).stops hbegins
  · intro s hs hhead
    rcases h _ hhead with heq | heq
    · exact (hother s hs).1 (Terminal.symbol.inj heq)
    · exact (hother s hs).2 (Terminal.symbol.inj heq)

theorem Boundary.stops_semicolon (h : Boundary after) : Stops [.semicolon] after :=
  h.stops (by decide) (by decide)

/-- Of the symbols that continue an expression, only a minus and an opening parenthesis can come
next. -/
theorem Boundary.continues (h : Boundary after) {s : Symbol}
    (hs : s ∈ Nonterminal.expression.continuing) (hhead : after.head? = some (.symbol s)) :
    Continues s := by
  have hall : ∀ s ∈ Nonterminal.expression.continuing, (s = .minus ∨ s = .leftParen)
      ∨ (beginsDeclaration (.symbol s) = false ∧ s ≠ .elseWord ∧ s ≠ .rightBrace) := by decide
  rcases hall s hs with hcontinues | ⟨hbegins, hother⟩
  · exact hcontinues
  · have hstops : Stops [s] after := h.stops (by simpa using hbegins) (by simpa using hother)
    exact absurd hhead (hstops s List.mem_cons_self)

theorem Continues.begins {s : Symbol} (h : Continues s) : beginsExpression (.symbol s) = true := by
  rcases h with rfl | rfl <;> decide

/-- The rule takes the word; or else it goes on up to the next semicolon, and records at most one
error. -/
def Runs (r : Rule α) (u after : List Terminal) : Prop :=
  Takes r u after (fun _ => True)
    ∨ Leaves r (u ++ after) (.symbol .semicolon :: resumption after) fun _ => True

theorem runs_of_lenient (hw : Lenient (u ++ w)) (he : Derives (name .expression) w) :
    Runs expression u (w ++ .symbol .semicolon :: v) := by
  have hstops : Stops Nonterminal.expression.continuing (.symbol .semicolon :: v) :=
    stops_symbol (by decide)
  have hleaves := leaves_expression hw hstops
  rw [List.append_assoc] at hleaves
  refine .inr ?_
  rwa [resumption_append (isBoundary_of_mem he rfl)]

/-- In front of a boundary an expression stops, unless the one that comes next continues it. -/
theorem runs_expression (hu : Derives (name .expression) u) (hafter : Boundary after) :
    Runs expression u after := by
  by_cases hstops : Stops Nonterminal.expression.continuing after
  · exact .inl (takes_expression hu hstops)
  obtain ⟨s, hs, hhead⟩ : ∃ s ∈ Nonterminal.expression.continuing,
      after.head? = some (.symbol s) := by
    simpa [Stops] using hstops
  have hcontinues := hafter.continues hs hhead
  rcases hafter.expression with ⟨e, v, rfl, he⟩ | hnone
  · obtain ⟨t, e, rfl, -⟩ := begins_expression he
    obtain rfl : t = .symbol s := Option.some.inj hhead
    exact runs_of_lenient (lenient_append hcontinues hu he) he
  · have hbegins := hnone _ hhead
    rw [hcontinues.begins] at hbegins
    cases hbegins

/-- What ends with the missing semicolon. -/
theorem Runs.breaks {r : Rule α} {f : α → Rule β} (h : Runs r u after)
    (hfails : ∀ a, Fails (f a) after)
    (htakes : ∀ a, Takes (f a) [.symbol .semicolon] (resumption after) fun _ => True) :
    Breaks (r >>= f) u after [] (resumption after) := by
  rcases h with h | h
  · rw [← List.append_nil u]
    exact .behind h fun a _ => (hfails a).breaks
  · exact (h.bind (w := [.symbol .semicolon]) fun a _ => htakes a).breaks

section Simple

variable (hafter : Boundary after)
include hafter

theorem fails_semicolon {part : Part} {f : Token → Rule α} :
    Fails (expect .semicolon part >>= f) after :=
  (fails_expect hafter.stops_semicolon).bind f

theorem breaks_expressionRule (hu : Derives (name .expression) u) :
    Breaks expressionRule u after [] (resumption after) := by
  refine (runs_expression hu hafter).breaks (fun e => fails_semicolon hafter) fun e => ?_
  exact (takes_expect _ _).last fun semicolon _ => .pure trivial

theorem breaks_printRule (hu : Derives (name .expression) u) :
    Breaks printRule u after [] (resumption after) := by
  refine (runs_expression hu hafter).breaks (fun e => fails_semicolon hafter) fun e => ?_
  exact (takes_expect _ _).last fun semicolon _ => .pure trivial

/-- In place of a value that a return statement lacks there may be an expression that comes next. -/
theorem runs_expression_or (hu : u = [] ∨ Derives (name .expression) u) :
    Runs expression u after ∨ u = [] ∧ NoExpression after := by
  rcases hu with rfl | hu
  · rcases hafter.expression with ⟨e, v, rfl, he⟩ | hnone
    · exact .inl (runs_of_lenient (.strict he) he)
    · exact .inr ⟨rfl, hnone⟩
  · exact .inl (runs_expression hu hafter)

theorem stops_semicolon_append (hu : u = [] ∨ Derives (name .expression) u) :
    Stops [.semicolon] (u ++ after) := by
  rcases hu with rfl | hu
  · exact hafter.stops_semicolon
  · exact ((begins_expression hu).append after).stops (by decide)

theorem breaks_returnRule (keyword : Token) (hu : u = [] ∨ Derives (name .expression) u) :
    Breaks (returnRule keyword) u after [] (resumption after) := by
  have hsees := takes_sees_false (stops_semicolon_append hafter hu)
  unfold returnRule
  rcases runs_expression_or hafter hu with h | ⟨rfl, hnone⟩
  · have hvalue : Runs (expressionUnless .semicolon) u after := by
      unfold expressionUnless
      refine h.imp (fun h => .look hsees fun missing hmissing => ?_)
        fun h => .look hsees fun missing hmissing => ?_
      · subst hmissing
        exact h.last fun e _ => .pure trivial
      · subst hmissing
        exact h.last fun e _ => .pure trivial
    refine hvalue.breaks (fun value => fails_semicolon hafter) fun value => ?_
    exact (takes_expect _ _).last fun semicolon _ => .pure trivial
  · have hvalue : Fails (expressionUnless .semicolon) after := by
      unfold expressionUnless
      refine hsees.look_fails fun missing hmissing => ?_
      subst hmissing
      exact (fails_expression hnone).bind _
    exact (hvalue.bind _).breaks

theorem breaks_varRule (hu : u = [] ∨ ∃ e, u = .symbol .equal :: e ∧ Derives (name .expression) e) :
    Breaks varRule (.identifier :: u) after [] (resumption after) := by
  unfold varRule
  refine .cons (takes_expectName _) fun x _ => ?_
  rcases hu with rfl | ⟨e, rfl, he⟩
  · have hstops : Stops [.equal] after := hafter.stops (by decide) (by decide)
    refine .look (takes_accept_none hstops) fun equal? hequal => ?_
    subst hequal
    exact (fails_semicolon hafter).breaks
  · refine .cons (takes_accept _) fun equal? hequal => ?_
    obtain ⟨equal, rfl⟩ := hequal
    refine (runs_expression he hafter).breaks (fun value => fails_semicolon hafter) fun value => ?_
    exact (takes_expect _ _).last fun semicolon _ => .pure trivial

theorem breaks_statementRule
    (h : Derives (name .exprStmt) (u ++ [.symbol .semicolon])
      ∨ Derives (name .printStmt) (u ++ [.symbol .semicolon])
      ∨ Derives (name .returnStmt) (u ++ [.symbol .semicolon])) :
    Breaks (statementRule statement declaration) u after [] (resumption after) := by
  unfold statementRule
  rcases h with h | h | h
  · obtain ⟨e, heq, he⟩ := derives_exprStmt_iff.mp h
    obtain rfl : u = e := List.append_cancel_right heq
    obtain ⟨t, v, rfl, ht⟩ := begins_expression he
    refine breaks_peek_bind fun tok htok => ?_
    rw [← htok] at ht
    split
    iterate 6
      · next hkind => cases terminal_of_kind ht hkind
    · exact breaks_expressionRule hafter he
  · obtain ⟨e, heq, he⟩ := derives_printStmt_iff.mp h
    obtain rfl : u = .symbol .printWord :: e := List.append_cancel_right heq
    refine breaks_peek_bind fun tok htok => ?_
    simp only [kind_of_symbol htok]
    exact breaks_take_bind fun _ => breaks_printRule hafter he
  · obtain ⟨e, heq, he⟩ := derives_returnStmt_iff.mp h
    obtain rfl : u = .symbol .returnWord :: e := List.append_cancel_right heq
    refine breaks_peek_bind fun tok htok => ?_
    simp only [kind_of_symbol htok]
    exact breaks_take_bind fun keyword => breaks_returnRule hafter keyword he

end Simple

/-! ## Statements around it -/

theorem breaks_whileRule (he : Derives (name .expression) e)
    (hu : Breaks statement u after v rest) :
    Breaks (whileRule statement) (.symbol .leftParen :: (e ++ .symbol .rightParen :: u)) after v
      rest := by
  unfold whileRule
  refine .cons (takes_expect _ _) fun paren _ => ?_
  refine .behind (takes_expression he (stops_symbol (by decide))) fun condition _ => ?_
  refine .cons (takes_expect _ _) fun paren _ => ?_
  exact hu.last fun body => .pure trivial

theorem breaks_forRule {i c : List Terminal}
    (hi : Derives (name .varDecl) i ∨ Derives (name .exprStmt) i ∨ i = [.symbol .semicolon])
    (hc : c = [] ∨ Derives (name .expression) c) (he : e = [] ∨ Derives (name .expression) e)
    (hu : Breaks statement u after v rest) :
    Breaks (forRule statement) (.symbol .leftParen
      :: (i ++ (c ++ .symbol .semicolon :: (e ++ .symbol .rightParen :: u)))) after v rest := by
  unfold forRule
  refine .cons (takes_expect _ _) fun paren _ => ?_
  refine .behind (takes_forInitializer hi) fun initializer _ => ?_
  refine .behind (takes_expressionUnless hc (by decide) (by decide)) fun condition _ => ?_
  refine .cons (takes_expect _ _) fun semicolon _ => ?_
  refine .behind (takes_expressionUnless he (by decide) (by decide)) fun increment _ => ?_
  refine .cons (takes_expect _ _) fun paren _ => ?_
  exact hu.last fun body => .pure trivial

theorem breaks_loop {head : List Terminal} (hhead : IsLoopHead head)
    (hu : Breaks statement u after v rest) :
    Breaks (statementRule statement declaration) (head ++ u) after v rest := by
  unfold statementRule
  rcases hhead with ⟨e, rfl, he⟩ | ⟨i, c, e, rfl, hi, hc, he⟩
  · have hrule := breaks_whileRule he hu
    refine breaks_peek_bind fun tok htok => ?_
    simp only [kind_of_symbol htok]
    exact breaks_take_bind fun _ => by simpa using hrule
  · have hrule := breaks_forRule hi hc he hu
    refine breaks_peek_bind fun tok htok => ?_
    simp only [kind_of_symbol htok]
    exact breaks_take_bind fun _ => by simpa using hrule

/-- The semicolon is missing in the first branch. -/
theorem breaks_ifRule (he : Derives (name .expression) e)
    (hu : Breaks statement u after v (w ++ rest)) (hv : v = [] → w = [])
    (hw : w = [] ∧ Stops [.elseWord] rest
      ∨ ∃ w', w = .symbol .elseWord :: w' ∧ Takes statement w' rest fun _ => True) :
    Breaks (statementRule statement declaration) (.symbol .ifWord :: .symbol .leftParen
      :: (e ++ .symbol .rightParen :: u)) after (v ++ w) rest := by
  unfold statementRule
  refine breaks_peek_bind fun tok htok => ?_
  simp only [kind_of_symbol htok]
  refine breaks_take_bind fun _ => ?_
  unfold ifRule
  refine .cons (takes_expect _ _) fun paren _ => ?_
  refine .behind (takes_expression he (stops_symbol (by decide))) fun condition _ => ?_
  refine .cons (takes_expect _ _) fun paren _ => ?_
  refine hu.bind hv fun thenBranch => ?_
  rcases hw with ⟨rfl, hrest⟩ | ⟨w', rfl, hw'⟩
  · refine (takes_accept_none hrest).look fun else? helse => ?_
    subst helse
    exact .pure trivial
  · refine (takes_accept _).cons fun else? helse => ?_
    obtain ⟨word, rfl⟩ := helse
    exact hw'.last fun elseBranch _ => .pure trivial

/-- The semicolon is missing in the second branch. -/
theorem breaks_elseBranch (he : Derives (name .expression) e)
    (hw : Takes statement w (.symbol .elseWord :: u ++ after) fun _ => True)
    (hu : Breaks statement u after v rest) :
    Breaks (statementRule statement declaration) (.symbol .ifWord :: .symbol .leftParen
      :: (e ++ .symbol .rightParen :: (w ++ .symbol .elseWord :: u))) after v rest := by
  unfold statementRule
  refine breaks_peek_bind fun tok htok => ?_
  simp only [kind_of_symbol htok]
  refine breaks_take_bind fun _ => ?_
  unfold ifRule
  refine .cons (takes_expect _ _) fun paren _ => ?_
  refine .behind (takes_expression he (stops_symbol (by decide))) fun condition _ => ?_
  refine .cons (takes_expect _ _) fun paren _ => ?_
  refine .behind hw fun thenBranch _ => ?_
  refine .cons (takes_accept _) fun else? helse => ?_
  obtain ⟨word, rfl⟩ := helse
  exact hu.last fun elseBranch => .pure trivial

/-! ## Sequences around it -/

/-- One round of a repetition leaves the words of the later ones, with at most one more error. -/
theorem leaves_collectUpTo {step : Nat → Rule (Option α)} {ws₁ ws₂ : List (List Terminal)}
    (hbefore : ∀ k i w, ws₁[i]? = some w → Takes (step k) w ((ws₁.drop (i + 1)).flatten ++ input)
      fun a? => ∃ a, a? = some a)
    (hbroken : ∀ k, Leaves (step k) input (ws₂.flatten ++ rest) fun a? => ∃ a, a? = some a)
    (hafter : ∀ k i w, ws₂[i]? = some w → Takes (step k) w ((ws₂.drop (i + 1)).flatten ++ rest)
      fun a? => ∃ a, a? = some a)
    (hend : ∀ k, Takes (step k) [] rest (· = none)) {rounds k : Nat}
    (hrounds : ws₁.length + ws₂.length < rounds) :
    Leaves (collectUpTo step rounds k) (ws₁.flatten ++ input) rest fun _ => True := by
  obtain ⟨rounds, rfl⟩ : ∃ n, rounds = n + 1 := ⟨rounds - 1, by omega⟩
  induction ws₁ generalizing rounds k with
  | nil =>
      have hlen : ws₂.length ≤ rounds := by
        rw [List.length_nil] at hrounds
        omega
      -- From here on every round takes its word, so that nothing more is recorded.
      refine (hbroken k).bind fun a? ha => ?_
      obtain ⟨a, rfl⟩ := ha
      have hmore := takes_collectUpTo (Q := fun _ _ => True) (k := k + 1) hlen
        (fun i w hw => (hafter (k + 1 + i) i w hw).mono fun a? ⟨a, ha⟩ => ⟨a, ha, trivial⟩)
        (hend (k + 1 + ws₂.length))
      exact hmore.last fun as _ => .pure trivial
  | cons w ws₁ ih =>
      rw [List.length_cons] at hrounds
      obtain ⟨rounds, rfl⟩ : ∃ n, rounds = n + 1 := ⟨rounds - 1, by omega⟩
      rw [List.flatten_cons, List.append_assoc]
      refine .behind (hbefore k 0 w rfl) fun a? ha => ?_
      obtain ⟨a, rfl⟩ := ha
      have hmore := ih (fun k i v hv => hbefore k (i + 1) v hv) rounds (k := k + 1) (by omega)
      exact hmore.last fun as _ => .pure trivial

theorem leaves_collect {step : Nat → Rule (Option α)} {ws₁ ws₂ : List (List Terminal)}
    (hne₁ : ∀ w ∈ ws₁, w ≠ []) (hne₂ : ∀ w ∈ ws₂, w ≠ [])
    (hinput : (ws₂.flatten ++ rest).length < input.length)
    (hbefore : ∀ k i w, ws₁[i]? = some w → Takes (step k) w ((ws₁.drop (i + 1)).flatten ++ input)
      fun a? => ∃ a, a? = some a)
    (hbroken : ∀ k, Leaves (step k) input (ws₂.flatten ++ rest) fun a? => ∃ a, a? = some a)
    (hafter : ∀ k i w, ws₂[i]? = some w → Takes (step k) w ((ws₂.drop (i + 1)).flatten ++ rest)
      fun a? => ∃ a, a? = some a)
    (hend : ∀ k, Takes (step k) [] rest (· = none)) :
    Leaves (collect step) (ws₁.flatten ++ input) rest fun _ => True := by
  intro c hc
  refine leaves_collectUpTo hbefore hbroken hafter hend ?_ c hc
  have h₁ := length_le_flatten hne₁
  have h₂ := length_le_flatten hne₂
  rw [Cursor.length_rest hc]
  simp only [List.length_append] at hinput ⊢
  omega

theorem leaves_beforeBrace {item : Rule α} (hinput : input ≠ [])
    (hbrace : Stops [.rightBrace] input) (h : Leaves item input rest fun _ => True) :
    Leaves (beforeBrace item) input rest fun a? => ∃ a, a? = some a := by
  unfold beforeBrace
  refine .look (takes_sees_false hbrace) fun closed hclosed => ?_
  refine .look (takes_atEnd_false hinput) fun ended hended => ?_
  subst hclosed hended
  exact h.last fun a _ => .pure ⟨a, rfl⟩

theorem leaves_beforeEnd {item : Rule α} (hinput : input ≠ [])
    (h : Leaves item input rest fun _ => True) :
    Leaves (beforeEnd item) input rest fun a? => ∃ a, a? = some a := by
  unfold beforeEnd
  refine .look (takes_atEnd_false hinput) fun ended hended => ?_
  subst hended
  exact h.last fun a _ => .pure ⟨a, rfl⟩

/-- Items up to a closing brace, one of which lacks its semicolon. -/
theorem leaves_collect_beforeBrace {item : Rule α} {ws₁ ws₂ : List (List Terminal)} {p : Terminal → Bool}
    (hp : p (.symbol .rightBrace) = false) (hws₁ : ∀ w ∈ ws₁, Begins p w) (hu : Begins p u)
    (hws₂ : ∀ w ∈ ws₂, Begins p w)
    (hlen : (ws₂.flatten ++ .symbol .rightBrace :: rest).length ≤ after.length)
    (hbefore : ∀ i w, ws₁[i]? = some w → Takes item w
      ((ws₁.drop (i + 1)).flatten ++ (u ++ after)) fun _ => True)
    (hbroken : Leaves item (u ++ after) (ws₂.flatten ++ .symbol .rightBrace :: rest) fun _ => True)
    (hbehind : ∀ i w, ws₂[i]? = some w → Takes item w
      ((ws₂.drop (i + 1)).flatten ++ .symbol .rightBrace :: rest) fun _ => True) :
    Leaves (collect fun _ => beforeBrace item) (ws₁.flatten ++ (u ++ after))
      (.symbol .rightBrace :: rest) fun _ => True := by
  have hbrace {w : List Terminal} (hw : Begins p w) (rest : List Terminal) :
      Stops [.rightBrace] (w ++ rest) :=
    (hw.append rest).stops (by simpa using hp)
  refine leaves_collect (fun w hw => (hws₁ w hw).ne_nil) (fun w hw => (hws₂ w hw).ne_nil) ?_
    (fun _ i w hw => ?_) (fun _ => ?_) (fun _ i w hw => ?_) fun _ => takes_beforeBrace_end item
  · have hpos := List.length_pos_iff.mpr hu.ne_nil
    simp only [List.length_append] at hlen ⊢
    omega
  · have hbegins := hws₁ w (List.mem_of_getElem? hw)
    exact takes_beforeBrace_item hbegins.ne_nil (hbrace hbegins _) (hbefore i w hw)
  · exact leaves_beforeBrace (hu.append after).ne_nil (hbrace hu after) hbroken
  · have hbegins := hws₂ w (List.mem_of_getElem? hw)
    exact takes_beforeBrace_item hbegins.ne_nil (hbrace hbegins _) (hbehind i w hw)

theorem leaves_block {ws₁ ws₂ : List (List Terminal)} (hd : TakesDeclarations n declaration)
    (h₁ : ∀ w ∈ ws₁, Derives (name .declaration) w) (hu : Begins beginsDeclaration u)
    (h₂ : ∀ w ∈ ws₂, Derives (name .declaration) w)
    (hbroken : Leaves declaration (u ++ after) (ws₂.flatten ++ .symbol .rightBrace :: rest)
      fun _ => True)
    (hlen : (ws₂.flatten ++ .symbol .rightBrace :: rest).length ≤ after.length)
    (hn : (ws₁.flatten ++ (u ++ after)).length ≤ n) :
    Leaves (block declaration) (ws₁.flatten ++ (u ++ after)) rest fun _ => True := by
  have hlen' : (ws₂.flatten ++ .symbol .rightBrace :: rest).length ≤ n := by
    simp only [List.length_append] at hlen hn ⊢
    omega
  have hitems : Leaves (declarations declaration) (ws₁.flatten ++ (u ++ after))
      (.symbol .rightBrace :: rest) fun _ => True := by
    unfold declarations
    refine (leaves_collect_beforeBrace (by decide) (fun w hw => begins_declaration (h₁ w hw)) hu
      (fun w hw => begins_declaration (h₂ w hw)) hlen (fun i w hw => ?_) hbroken
      fun i w hw => ?_).last fun found _ => .pure trivial
    · exact hd.item h₁ ((hu.append after).stops (by decide)) hn hw
    · exact hd.item h₂ (stops_symbol (by decide)) hlen' hw
  unfold block
  refine hitems.bind (w := [.symbol .rightBrace]) fun body _ => ?_
  exact (takes_expect _ _).last fun brace _ => .pure trivial

theorem leaves_callable {params : List Terminal} (sort : Callable)
    (hparams : params = [] ∨ Derives (name .parameters) params)
    (hblock : Leaves (block declaration) input rest fun _ => True) :
    Leaves (callable declaration sort) (.identifier :: .symbol .leftParen
      :: (params ++ .symbol .rightParen :: .symbol .leftBrace :: input)) rest fun _ => True := by
  unfold callable
  refine .cons (takes_expectName _) fun f _ => ?_
  refine .cons (takes_expect _ _) fun paren _ => ?_
  have hrest : ∀ params, Leaves (do
      let _ ← expect .rightParen .parametersEnd
      let _ ← expect .leftBrace (.bodyStart sort)
      let body ← block declaration
      pure (FunctionDecl.mk f params body)) (.symbol .rightParen :: .symbol .leftBrace :: input)
      rest fun _ => True := by
    intro params
    refine .cons (takes_expect _ _) fun paren _ => ?_
    refine .cons (takes_expect _ _) fun brace _ => ?_
    exact hblock.last fun body _ => .pure trivial
  rcases hparams with rfl | hparams
  · refine .look (takes_sees_self _) fun empty hempty => ?_
    subst hempty
    exact .look (P := fun _ => True) (.pure trivial) fun params _ => hrest params
  · obtain ⟨x, us, rfl, rfl, -, -⟩ := derives_parameters_iff.mp hparams
    have hstops : Stops [.rightParen] ([Terminal.identifier] ++ us.flatten ++ .symbol .rightParen
        :: .symbol .leftBrace :: input) := stops_cons (by simp)
    refine .look (takes_sees_false hstops) fun empty hempty => ?_
    subst hempty
    refine .behind (P := fun _ => True) (takes_commaSeparated .tooManyParameters ?_
      (stops_symbol (by decide)) (derives_parameters_iff.mp hparams)) fun params _ => hrest params
    rintro _ rest' rfl - -
    exact takes_expectName _

theorem leaves_classRule {superclass : List Terminal} {ws₁ ws₂ : List (List Terminal)}
    (hd : TakesDeclarations n declaration)
    (hsuperclass : superclass = [] ∨ superclass = [.symbol .less, .identifier])
    (h₁ : ∀ w ∈ ws₁, Derives (name .function) w) (hu : Begins (· == .identifier) u)
    (h₂ : ∀ w ∈ ws₂, Derives (name .function) w)
    (hbroken : Leaves (callable declaration .method) (u ++ after)
      (ws₂.flatten ++ .symbol .rightBrace :: rest) fun _ => True)
    (hlen : (ws₂.flatten ++ .symbol .rightBrace :: rest).length ≤ after.length)
    (hn : (ws₁.flatten ++ (u ++ after)).length ≤ n) :
    Leaves (classRule declaration) (.identifier
      :: (superclass ++ .symbol .leftBrace :: (ws₁.flatten ++ (u ++ after)))) rest
      fun _ => True := by
  have hlen' : (ws₂.flatten ++ .symbol .rightBrace :: rest).length ≤ n := by
    simp only [List.length_append] at hlen hn ⊢
    omega
  have hmethods : Leaves (collect fun _ => beforeBrace (callable declaration .method))
      (ws₁.flatten ++ (u ++ after)) (.symbol .rightBrace :: rest) fun _ => True :=
    leaves_collect_beforeBrace rfl (fun w hw => begins_function (h₁ w hw)) hu
      (fun w hw => begins_function (h₂ w hw)) hlen (fun i w hw => hd.method h₁ hn hw) hbroken
      fun i w hw => hd.method h₂ hlen' hw
  unfold classRule
  refine .cons (takes_expectName _) fun x _ => ?_
  refine .behind (takes_superclass? hsuperclass (stops_symbol (by decide))) fun superclass _ => ?_
  refine .cons (takes_expect _ _) fun brace _ => ?_
  refine hmethods.bind (w := [.symbol .rightBrace]) fun methods _ => ?_
  exact (takes_expect _ _).last fun brace _ => .pure trivial

end Lox.Grammar
