import Lox.Proofs.Grammar.Complete.Statements
import Lox.Proofs.Grammar.Merging
import Lox.Proofs.Grammar.Semicolons

/-!
# Rules that meet a missing semicolon

Where the semicolon behind a statement is missing, its rule has taken what stands before and fails
at what stands behind, unless that continues the statement. A failure makes the parser skip up to a
boundary of statements. A rule around it passes the failure on, or goes on behind what is skipped, and
in both cases there is no second error.
-/

namespace Lox.Grammar

open Ebnf (name)

variable {α β : Type} {t : Terminal} {u v w after rest input : List Terminal}

/-- What is left behind the next semicolon, or from the next terminal on that begins a statement. -/
def skipped : List Terminal → List Terminal
  | [] => []
  | t :: rest =>
      if t = .symbol .semicolon then rest
      else if isBoundary t then t :: rest
      else skipped rest

/-- What is left when a statement has failed in front of these terminals. -/
def resumption : List Terminal → List Terminal
  | [] => []
  | t :: rest => if t = .symbol .semicolon then rest else skipped rest

theorem map_skipStatement (tokens : List Token) :
    (skipStatement tokens).map Token.terminal = skipped (tokens.map Token.terminal) := by
  induction tokens with
  | nil => rfl
  | cons tok tokens ih =>
      have hbegins : beginsStatement tok
          = (isBoundary tok.terminal && tok.terminal != .symbol .semicolon) := by
        obtain ⟨kind, lexeme, line⟩ := tok
        cases kind with
        | symbol s => cases s <;> rfl
        | _ => rfl
      simp only [skipStatement, List.map_cons, skipped, hbegins]
      by_cases hsemicolon : tok.terminal = .symbol .semicolon
      · simp [hsemicolon]
      · by_cases hboundary : isBoundary tok.terminal = true
        · simp [hsemicolon, hboundary]
        · simp [hsemicolon, hboundary, ih]

theorem map_synchronize (tokens : List Token) :
    (synchronize tokens).map Token.terminal = resumption (tokens.map Token.terminal) := by
  cases tokens with
  | nil => rfl
  | cons tok tokens =>
      simp only [synchronize, List.map_cons, resumption, beq_iff_eq]
      split
      · rfl
      · exact map_skipStatement tokens

theorem skipped_append (hw : ∀ t ∈ w, isBoundary t = false) (rest : List Terminal) :
    skipped (w ++ .symbol .semicolon :: rest) = rest := by
  induction w with
  | nil => rfl
  | cons t w ih =>
      rw [List.forall_mem_cons] at hw
      have hsemicolon : t ≠ .symbol .semicolon := by
        rintro rfl
        exact absurd hw.1 (by decide)
      simp [skipped, hsemicolon, hw.1, ih hw.2]

/-- In front of an expression everything up to its semicolon is skipped. -/
theorem resumption_append (hw : ∀ t ∈ w, isBoundary t = false) (rest : List Terminal) :
    resumption (w ++ .symbol .semicolon :: rest) = rest := by
  cases w with
  | nil => rfl
  | cons t w =>
      rw [List.forall_mem_cons] at hw
      have hsemicolon : t ≠ .symbol .semicolon := by
        rintro rfl
        exact absurd hw.1 (by decide)
      simp only [List.cons_append, resumption, hsemicolon, if_false]
      exact skipped_append hw.2 rest

theorem length_skipped_le (w : List Terminal) : (skipped w).length ≤ w.length := by
  induction w with
  | nil => exact Nat.le_refl 0
  | cons t w ih =>
      unfold skipped
      split
      · exact Nat.le_succ _
      split
      · exact Nat.le_refl _
      · exact ih.trans (Nat.le_succ _)

theorem length_resumption_le (w : List Terminal) : (resumption w).length ≤ w.length := by
  cases w with
  | nil => exact Nat.le_refl 0
  | cons t w =>
      rw [resumption]
      split
      · exact Nat.le_succ _
      · exact (length_skipped_le w).trans (Nat.le_succ _)

/-- On the input the rule fails without taking anything. -/
def Fails (r : Rule α) (input : List Terminal) : Prop :=
  ∀ c, c.input = input → ∃ e c', r c = .error e c' ∧ c'.input = input ∧ c'.errors = c.errors

theorem Fails.bind {r : Rule α} (h : Fails r input) (f : α → Rule β) : Fails (r >>= f) input := by
  intro c hc
  obtain ⟨e, c', hrun, h⟩ := h c hc
  refine ⟨e, c', ?_, h⟩
  rw [bind_apply, hrun]

theorem Takes.look_fails {r : Rule α} {f : α → Rule β} {P : α → Prop} (hr : Takes r [] input P)
    (hf : ∀ a, P a → Fails (f a) input) : Fails (r >>= f) input := by
  intro c hc
  obtain ⟨a, c', hrun, hinput, herrors, ha⟩ := hr c hc
  obtain ⟨e, d, hfail, hinput', herrors'⟩ := hf a ha c' hinput
  refine ⟨e, d, ?_, hinput', herrors'.trans herrors⟩
  rw [bind_apply, hrun]
  exact hfail

theorem fails_fail (part : Part) : Fails (fail part : Rule α) input :=
  fun c hc => ⟨_, c, rfl, hc, rfl⟩

theorem fails_expect {s : Symbol} {part : Part} (h : Stops [s] input) :
    Fails (expect s part) input := by
  refine (takes_accept_none h).look_fails fun t? ht => ?_
  subst ht
  exact fails_fail part

/-- Nothing that begins an expression comes next. -/
def NoExpression (w : List Terminal) : Prop :=
  ∀ t, w.head? = some t → beginsExpression t = false

theorem fails_peek_bind {f : Token → Rule α}
    (hf : ∀ tok, tok.terminal = input.headD .endOfInput → Fails (f tok) input) :
    Fails (peek >>= f) input := by
  intro c hc
  obtain ⟨e, c', hrun, h⟩ := hf c.next (Cursor.terminal_next hc) c hc
  refine ⟨e, c', ?_, h⟩
  rw [bind_apply]
  exact hrun

theorem fails_primary {expression : Rule Expr} (h : NoExpression input) :
    Fails (primary expression) input := by
  refine fails_peek_bind fun tok htok => ?_
  have hnext : beginsPrimary tok.terminal = false := by
    rw [htok]
    cases input with
    | nil => rfl
    | cons t input =>
        have ht := h t rfl
        rw [beginsExpression, Bool.or_eq_false_iff] at ht
        exact ht.1
  split
  iterate 9
    · next hkind =>
      rw [Token.terminal, hkind] at hnext
      cases hnext
  · exact fails_fail .expression

theorem fails_unaryRule {self : Nonterminal → Rule Expr} (h : NoExpression input) :
    Fails (unaryRule self) input := by
  have hstops : Stops [.bang, .minus] input := by
    intro s hs hhead
    have hnot := h _ hhead
    have hbegins : ∀ s ∈ [Symbol.bang, .minus], beginsExpression (.symbol s) = true := by decide
    rw [hbegins s hs] at hnot
    cases hnot
  refine (takes_acceptAny_none hstops).look_fails fun t? ht => ?_
  subst ht
  exact (fails_primary h).bind _

theorem fails_binaryOver {unary : Rule Expr} (h : Fails unary input) (ls : List Level) :
    Fails (binaryOver unary ls) input := by
  induction ls with
  | nil => exact h
  | cons level tighter ih => exact ih.bind _

/-- Where nothing that begins an expression comes next, an expression fails at once. -/
theorem fails_expression (h : NoExpression input) : Fails expression input := by
  have hupTo (n : Nat) : Fails (expressionUpTo n .expression) input := by
    cases n with
    | zero => exact fails_fail _
    | succ n => exact ((fails_binaryOver (fails_unaryRule h) levels).bind _).bind _
  exact fun c hc => hupTo _ c hc

/-! ## Rules with one more error -/

/-- On the input the rule yields a result that satisfies `P`, with at most one more error, and
leaves the rest. -/
def Leaves (r : Rule α) (input rest : List Terminal) (P : α → Prop) : Prop :=
  ∀ c, c.input = input → ∃ a c', r c = .ok a c' ∧ c'.input = rest
    ∧ c'.errors.length ≤ c.errors.length + 1 ∧ P a

theorem Takes.leaves {r : Rule α} {P : α → Prop} (h : Takes r w rest P) :
    Leaves r (w ++ rest) rest P := by
  intro c hc
  obtain ⟨a, c', hrun, hinput, herrors, ha⟩ := h c hc
  exact ⟨a, c', hrun, hinput, by rw [herrors]; exact Nat.le_succ _, ha⟩

namespace Leaves

variable {r : Rule α} {f : α → Rule β} {P : α → Prop} {R : β → Prop}

/-- Nothing is recorded before. -/
theorem behind (hr : Takes r u input P) (hf : ∀ a, P a → Leaves (f a) input rest R) :
    Leaves (r >>= f) (u ++ input) rest R := by
  intro c hc
  obtain ⟨a, c', hrun, hinput, herrors, ha⟩ := hr c hc
  obtain ⟨b, d, hrun', hinput', herrors', hb⟩ := hf a ha c' hinput
  refine ⟨b, d, ?_, hinput', by rwa [herrors] at herrors', hb⟩
  rw [bind_apply, hrun]
  exact hrun'

theorem cons (hr : Takes r [t] input P) (hf : ∀ a, P a → Leaves (f a) input rest R) :
    Leaves (r >>= f) (t :: input) rest R :=
  behind hr hf

theorem look (hr : Takes r [] input P) (hf : ∀ a, P a → Leaves (f a) input rest R) :
    Leaves (r >>= f) input rest R :=
  behind hr hf

/-- Nothing is recorded afterwards. -/
theorem bind (hr : Leaves r input (w ++ rest) P) (hf : ∀ a, P a → Takes (f a) w rest R) :
    Leaves (r >>= f) input rest R := by
  intro c hc
  obtain ⟨a, c', hrun, hinput, herrors, ha⟩ := hr c hc
  obtain ⟨b, d, hrun', hinput', herrors', hb⟩ := hf a ha c' hinput
  refine ⟨b, d, ?_, hinput', by rwa [← herrors'] at herrors, hb⟩
  rw [bind_apply, hrun]
  exact hrun'

/-- After the first rule nothing more is taken. -/
theorem last (hr : Leaves r input rest P) (hf : ∀ a, P a → Takes (f a) [] rest R) :
    Leaves (r >>= f) input rest R :=
  hr.bind hf

end Leaves

theorem leaves_assignTo (target : Expr) (equals : Token) (value : Expr) :
    Leaves (assignTo target equals value) rest rest fun _ => True := by
  unfold assignTo
  cases target with
  | var id x => exact (takes_freshId.last fun id _ => .pure trivial).leaves
  | get object x => exact (Takes.pure trivial).leaves
  | _ => exact fun c hc => ⟨_, _, rfl, hc, by simp [Cursor.record], trivial⟩

/-- An expression in which one target may be invalid is taken, with an error for that target. -/
theorem leaves_expressionUpTo (hw : Lenient w) (hrest : Stops Nonterminal.expression.continuing rest)
    {n : Nat} (hn : (w ++ rest).length ≤ n) :
    Leaves (expressionUpTo n .expression) (w ++ rest) rest fun _ => True := by
  induction hw generalizing n with
  | strict hw => exact (takes_expressionUpTo n .expression _ rest hn hw hrest).leaves
  | @invalid u v hu hv =>
      simp only [List.length_append, List.length_cons] at hn
      obtain ⟨n, rfl⟩ : ∃ m, n = m + 1 := ⟨n - 1, by omega⟩
      have hself := takes_expressionUpTo n
      rw [List.append_assoc, expressionUpTo, assignmentRule]
      refine .behind (takes_conditionalRule hself hu (stops_symbol (by decide)) ?_)
        fun target _ => ?_
      · simp only [List.length_append, List.length_cons]
        omega
      refine .cons (takes_accept _) fun t? ht => ?_
      obtain ⟨equals, rfl⟩ := ht
      refine .behind (hself .expression v rest ?_ hv hrest) fun value _ => ?_
      · rw [List.length_append]
        omega
      · exact leaves_assignTo target equals value
  | @assign u v hu hv ih =>
      simp only [List.length_append, List.length_cons] at hn
      obtain ⟨n, rfl⟩ : ∃ m, n = m + 1 := ⟨n - 1, by omega⟩
      rw [List.append_assoc, expressionUpTo, assignmentRule]
      refine .behind (takes_conditionalRule_target (takes_expressionUpTo n) hu
        (stops_symbol (by decide)) ?_) fun target htarget => ?_
      · simp only [List.length_append, List.length_cons]
        omega
      refine .cons (takes_accept _) fun t? ht => ?_
      obtain ⟨equals, rfl⟩ := ht
      refine (ih ?_).last fun value _ => takes_assignTo htarget equals value
      rw [List.length_append]
      omega

theorem leaves_expression (hw : Lenient w) (hrest : Stops Nonterminal.expression.continuing rest) :
    Leaves expression (w ++ rest) rest fun _ => True := by
  intro c hc
  refine leaves_expressionUpTo hw hrest ?_ c hc
  rw [Cursor.length_rest hc]

/-! ## Rules around a missing semicolon -/

/-- The rule has taken `u` and fails in front of what stands behind the missing semicolon, without
an error recorded and with nothing of its word left; or else it yields a result with at most one more
error. -/
def Breaks (r : Rule α) (u after v rest : List Terminal) : Prop :=
  ∀ c, c.input = u ++ after →
    match r c with
    | .ok _ c' => c'.input = rest ∧ c'.errors.length ≤ c.errors.length + 1
    | .error _ c' => v = [] ∧ c'.input = after ∧ c'.errors = c.errors

theorem Fails.breaks {r : Rule α} (h : Fails r after) : Breaks r [] after [] rest := by
  intro c hc
  obtain ⟨e, c', hrun, hinput, herrors⟩ := h c hc
  rw [hrun]
  exact ⟨rfl, hinput, herrors⟩

theorem Leaves.breaks {r : Rule α} {P : α → Prop} (h : Leaves r (u ++ after) rest P) :
    Breaks r u after v rest := by
  intro c hc
  obtain ⟨a, c', hrun, hinput, herrors, -⟩ := h c hc
  rw [hrun]
  exact ⟨hinput, herrors⟩

namespace Breaks

variable {r : Rule α} {f : α → Rule β} {P : α → Prop}

/-- The semicolon is missing behind what the first rule takes. -/
theorem behind (hr : Takes r w (u ++ after) P) (hf : ∀ a, P a → Breaks (f a) u after v rest) :
    Breaks (r >>= f) (w ++ u) after v rest := by
  intro c hc
  obtain ⟨a, c', hrun, hinput, herrors, ha⟩ := hr c (by rw [hc, List.append_assoc])
  have hbreaks := hf a ha c' hinput
  rw [herrors] at hbreaks
  rw [bind_apply, hrun]
  exact hbreaks

theorem cons (hr : Takes r [t] (u ++ after) P) (hf : ∀ a, P a → Breaks (f a) u after v rest) :
    Breaks (r >>= f) (t :: u) after v rest :=
  behind hr hf

theorem look (hr : Takes r [] (u ++ after) P) (hf : ∀ a, P a → Breaks (f a) u after v rest) :
    Breaks (r >>= f) u after v rest :=
  behind hr hf

/-- The semicolon is missing in what the first rule takes. What the second one takes is not left out
when the first one fails. -/
theorem bind (hr : Breaks r u after v (w ++ rest)) (hv : v = [] → w = [])
    (hf : ∀ a, Takes (f a) w rest fun _ => True) : Breaks (r >>= f) u after (v ++ w) rest := by
  intro c hc
  have hbreaks := hr c hc
  rw [bind_apply]
  cases hrun : r c with
  | error e c' =>
      rw [hrun] at hbreaks
      obtain ⟨rfl, hinput, herrors⟩ := hbreaks
      exact ⟨hv rfl, hinput, herrors⟩
  | ok a c' =>
      rw [hrun] at hbreaks
      obtain ⟨hinput, herrors⟩ := hbreaks
      obtain ⟨b, d, hrun', hinput', herrors', -⟩ := hf a c' hinput
      dsimp only
      rw [hrun']
      exact ⟨hinput', by rwa [herrors']⟩

/-- After the first rule nothing more is taken. -/
theorem last (hr : Breaks r u after v rest)
    (hf : ∀ a, Takes (f a) [] rest fun _ => True) : Breaks (r >>= f) u after v rest := by
  rw [← List.append_nil v]
  exact bind hr (fun _ => rfl) hf

end Breaks

theorem breaks_peek_bind {f : Token → Rule α}
    (hf : ∀ tok, tok.terminal = t → Breaks (f tok) (t :: u) after v rest) :
    Breaks (peek >>= f) (t :: u) after v rest := by
  intro c hc
  have hbreaks := hf c.next (Cursor.terminal_next hc) c hc
  rw [bind_apply]
  exact hbreaks

theorem breaks_take_bind {f : Token → Rule α} (hf : ∀ tok, Breaks (f tok) u after v rest) :
    Breaks (take >>= f) (t :: u) after v rest := by
  intro c hc
  obtain ⟨tok, tail, hrest, -, htail⟩ := Cursor.rest_of_input hc
  have hbreaks := hf c.next { c with rest := tail } htail
  rw [bind_apply]
  simp only [take, hrest, List.tail_cons]
  exact hbreaks

/-- A declaration that fails is skipped up to the place where the parser goes on. -/
theorem Breaks.recover {rule : Rule α} (h : Breaks rule u after v rest)
    (hafter : resumption after = v ++ rest) :
    Leaves (recover rule) (u ++ after) rest fun _ => True := by
  intro c hc
  have hbreaks := h c hc
  unfold Grammar.recover
  cases hrun : rule c with
  | error e c' =>
      rw [hrun] at hbreaks
      obtain ⟨rfl, hinput, herrors⟩ := hbreaks
      refine ⟨none, _, rfl, ?_, ?_, trivial⟩
      · exact (map_synchronize _).trans (by rw [← hinput] at hafter; exact hafter)
      · simp [Cursor.record, herrors]
  | ok a c' =>
      rw [hrun] at hbreaks
      exact ⟨some a, c', rfl, hbreaks.1, hbreaks.2, trivial⟩

end Lox.Grammar
