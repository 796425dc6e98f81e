import Mathlib.Data.List.Forall2
import Lox.Proofs.Grammar.Reads

/-!
# What rules take

On an input that begins with a word and goes on in a certain way, a rule takes exactly that word and
records no error. Such statements compose along the sequence of a rule, where each part goes on with
the words of the later ones.
-/

namespace Lox.Grammar

variable {α β : Type} {t : Terminal} {u v w rest : List Terminal}

/-- On every input of the word and what it goes on with, the rule takes the word without a new
error, and its result satisfies `P`. -/
def Takes (r : Rule α) (w rest : List Terminal) (P : α → Prop) : Prop :=
  ∀ c, c.input = w ++ rest →
    ∃ a c', r c = .ok a c' ∧ c'.input = rest ∧ c'.errors = c.errors ∧ P a

namespace Takes

variable {r : Rule α} {f : α → Rule β} {P P' : α → Prop} {R : β → Prop}

theorem pure {a : α} (h : P a) : Takes (pure a) [] rest P :=
  fun c hc => ⟨a, c, rfl, hc, rfl, h⟩

theorem bind (hr : Takes r u (v ++ rest) P) (hf : ∀ a, P a → Takes (f a) v rest R) :
    Takes (r >>= f) (u ++ v) rest R := by
  intro c hc
  obtain ⟨a, c', hrun, hinput, herrors, ha⟩ := hr c (by rw [hc, List.append_assoc])
  obtain ⟨b, d, hrun', hinput', herrors', hb⟩ := hf a ha c' hinput
  refine ⟨b, d, ?_, hinput', herrors'.trans herrors, hb⟩
  rw [bind_apply, hrun]
  exact hrun'

/-- The first rule takes one terminal. -/
theorem cons (hr : Takes r [t] (v ++ rest) P) (hf : ∀ a, P a → Takes (f a) v rest R) :
    Takes (r >>= f) (t :: v) rest R :=
  hr.bind hf

/-- The first rule takes nothing. -/
theorem look (hr : Takes r [] (w ++ rest) P) (hf : ∀ a, P a → Takes (f a) w rest R) :
    Takes (r >>= f) w rest R :=
  hr.bind hf

/-- After the first rule nothing more is taken. -/
theorem last (hr : Takes r w rest P) (hf : ∀ a, P a → Takes (f a) [] rest R) :
    Takes (r >>= f) w rest R := by
  rw [← List.append_nil w]
  exact hr.bind hf

theorem mono (hr : Takes r w rest P) (hP : ∀ a, P a → P' a) : Takes r w rest P' := by
  intro c hc
  obtain ⟨a, c', hrun, hinput, herrors, ha⟩ := hr c hc
  exact ⟨a, c', hrun, hinput, herrors, hP a ha⟩

end Takes

/-- What comes next is none of these symbols. -/
def Stops (symbols : List Symbol) (rest : List Terminal) : Prop :=
  ∀ s ∈ symbols, rest.head? ≠ some (.symbol s)

theorem Stops.mono {symbols more : List Symbol} (h : Stops more rest)
    (hsub : ∀ s ∈ symbols, s ∈ more) : Stops symbols rest :=
  fun s hs => h s (hsub s hs)

theorem stops_cons {symbols : List Symbol} (h : ∀ s ∈ symbols, t ≠ .symbol s) :
    Stops symbols (t :: w) := by
  intro s hs heq
  exact h s hs (Option.some.inj heq)

theorem stops_symbol {symbols : List Symbol} {s : Symbol} (h : s ∉ symbols) :
    Stops symbols (.symbol s :: w) := by
  refine stops_cons fun s' hs' heq => ?_
  obtain rfl := Terminal.symbol.inj heq
  exact h hs'

theorem Cursor.rest_of_input {c : Cursor} (h : c.input = t :: w) :
    ∃ tok tail, c.rest = tok :: tail ∧ tok.terminal = t ∧ tail.map Token.terminal = w :=
  List.map_eq_cons_iff.mp h

theorem Cursor.length_rest {c : Cursor} (h : c.input = w) : c.rest.length = w.length := by
  rw [← h, Cursor.input, List.length_map]

theorem Cursor.terminal_next {c : Cursor} (h : c.input = w) :
    c.next.terminal = w.headD .endOfInput := by
  subst h
  cases hrest : c.rest with
  | nil => simp [Cursor.next, Cursor.input, hrest, Token.endAt, Token.terminal, Token.Kind.terminal]
  | cons tok tail => simp [Cursor.next, Cursor.input, hrest]

/-- Tokens without an end of input come first in what is to be parsed. -/
theorem Cursor.rest_ofTokens_append {body : List Token} (hbody : ∀ tok ∈ body, isEnd tok = false)
    (tokens : List Token) (firstId : NodeId) :
    (Cursor.ofTokens (body ++ tokens) firstId).rest
      = body ++ (Cursor.ofTokens tokens firstId).rest := by
  refine List.takeWhile_append_of_pos fun tok htok => ?_
  rw [hbody tok htok]
  rfl

theorem Cursor.rest_ofTokens_endAt {body : List Token} (hbody : ∀ tok ∈ body, isEnd tok = false)
    (line : Nat) (firstId : NodeId) :
    (Cursor.ofTokens (body ++ [.endAt line]) firstId).rest = body :=
  (rest_ofTokens_append hbody _ firstId).trans (List.append_nil body)

theorem takes_sees (s : Symbol) :
    Takes (sees s) [] rest fun b => b = true ↔ rest.head? = some (.symbol s) := by
  intro c hc
  refine ⟨_, c, rfl, hc, rfl, ?_⟩
  simp only [Cursor.terminal_next hc, beq_iff_eq]
  cases rest with
  | nil => simp
  | cons t rest => simp

theorem takes_sees_self (s : Symbol) :
    Takes (sees s) [] (.symbol s :: rest) (· = true) :=
  (takes_sees s).mono fun _ hb => hb.mpr rfl

theorem takes_sees_false {s : Symbol} (h : Stops [s] rest) : Takes (sees s) [] rest (· = false) :=
  (takes_sees s).mono fun b hb => by
    cases b with
    | false => rfl
    | true => exact absurd (hb.mp rfl) (h s List.mem_cons_self)

theorem takes_atEnd : Takes atEnd [] rest fun b => b = true ↔ rest = [] := by
  intro c hc
  refine ⟨_, c, rfl, hc, rfl, ?_⟩
  simp only [List.isEmpty_iff, ← List.length_eq_zero_iff, Cursor.length_rest hc, List.nil_append]

theorem takes_atEnd_false (hrest : rest ≠ []) : Takes atEnd [] rest (· = false) := by
  refine takes_atEnd.mono fun ended hended => ?_
  rw [← Bool.not_eq_true, hended]
  exact hrest

theorem takes_freshId : Takes freshId [] rest fun _ => True :=
  fun _ hc => ⟨_, _, rfl, hc, rfl, trivial⟩

theorem takes_takeIf {p : Terminal → Bool} (h : p t = true) :
    Takes (takeIf p) [t] rest fun t? => ∃ tok, t? = some tok ∧ tok.terminal = t := by
  intro c hc
  obtain ⟨tok, tail, hrest, rfl, htail⟩ := Cursor.rest_of_input hc
  refine ⟨some tok, { c with rest := tail }, ?_, htail, rfl, tok, rfl, rfl⟩
  unfold takeIf
  rw [hrest]
  simp only [h, if_true]

theorem takes_takeIf_none {p : Terminal → Bool} (h : ∀ t, rest.head? = some t → p t = false) :
    Takes (takeIf p) [] rest (· = none) := by
  intro c hc
  refine ⟨none, c, ?_, hc, rfl, rfl⟩
  unfold takeIf
  cases hrest : c.rest with
  | nil => rfl
  | cons tok tail =>
      have hp := h tok.terminal (by rw [← List.nil_append rest, ← hc, Cursor.input, hrest]; rfl)
      simp [hp]

theorem takes_accept (s : Symbol) :
    Takes (accept s) [.symbol s] rest fun t? => ∃ tok, t? = some tok := by
  have h : (Terminal.symbol s == .symbol s) = true := beq_self_eq_true _
  exact (takes_takeIf (p := (· == .symbol s)) h).mono fun _ ⟨tok, htok, _⟩ => ⟨tok, htok⟩

theorem takes_accept_none {s : Symbol} (h : Stops [s] rest) :
    Takes (accept s) [] rest (· = none) := by
  refine takes_takeIf_none fun t ht => ?_
  rw [beq_eq_false_iff_ne]
  rintro rfl
  exact h s List.mem_cons_self ht

theorem takes_acceptAny {symbols : List Symbol} {s : Symbol} (hs : s ∈ symbols) :
    Takes (acceptAny symbols) [.symbol s] rest fun t? =>
      ∃ tok, t? = some tok ∧ tok.terminal = .symbol s :=
  takes_takeIf (by simpa using hs)

theorem takes_acceptAny_none {symbols : List Symbol} (h : Stops symbols rest) :
    Takes (acceptAny symbols) [] rest (· = none) := by
  refine takes_takeIf_none fun t ht => ?_
  cases t with
  | symbol s =>
      have hs : s ∉ symbols := fun hs => h s hs ht
      simpa using hs
  | _ => rfl

theorem takes_expectTerminal (t : Terminal) (part : Part) :
    Takes (expectTerminal t part) [t] rest fun _ => True := by
  unfold expectTerminal
  refine (takes_takeIf (p := (· == t)) (beq_self_eq_true t)).cons fun t? ht => ?_
  obtain ⟨tok, rfl, -⟩ := ht
  exact .pure trivial

theorem takes_expect (s : Symbol) (part : Part) :
    Takes (expect s part) [.symbol s] rest fun _ => True :=
  takes_expectTerminal _ part

theorem takes_expectName (part : Part) :
    Takes (expectName part) [.identifier] rest fun _ => True :=
  takes_expectTerminal _ part

theorem takes_peek_bind {f : Token → Rule α} {P : α → Prop}
    (hf : ∀ tok, tok.terminal = t → Takes (f tok) (t :: w) rest P) :
    Takes (peek >>= f) (t :: w) rest P := by
  intro c hc
  have hnext := Cursor.terminal_next hc
  obtain ⟨a, c', hrun, h⟩ := hf c.next hnext c hc
  refine ⟨a, c', ?_, h⟩
  rw [bind_apply]
  exact hrun

theorem takes_take_bind {f : Token → Rule α} {P : α → Prop}
    (hf : ∀ tok, Takes (f tok) w rest P) : Takes (take >>= f) (t :: w) rest P := by
  intro c hc
  obtain ⟨tok, tail, hrest, -, htail⟩ := Cursor.rest_of_input hc
  obtain ⟨a, c', hrun, h⟩ := hf c.next { c with rest := tail } htail
  refine ⟨a, c', ?_, h⟩
  rw [bind_apply]
  simp only [take, hrest, List.tail_cons]
  exact hrun

theorem terminal_of_kind {tok : Token} {s : Symbol} {p : Terminal → Bool}
    (ht : p tok.terminal = true) (hkind : tok.kind = .symbol s) : p (.symbol s) = true := by
  rwa [Token.terminal, hkind] at ht

theorem kind_of_symbol {tok : Token} {s : Symbol} (h : tok.terminal = .symbol s) :
    tok.kind = .symbol s := by
  obtain ⟨kind, lexeme, line⟩ := tok
  cases kind <;> cases h
  rfl

theorem kind_of_identifier {tok : Token} (h : tok.terminal = .identifier) :
    tok.kind = .identifier := by
  obtain ⟨kind, lexeme, line⟩ := tok
  cases kind <;> cases h
  rfl

theorem kind_of_string {tok : Token} (h : tok.terminal = .string) :
    ∃ text, tok.kind = .string text := by
  obtain ⟨kind, lexeme, line⟩ := tok
  cases kind <;> cases h
  exact ⟨_, rfl⟩

theorem kind_of_number {tok : Token} (h : tok.terminal = .number) :
    ∃ x, tok.kind = .number x := by
  obtain ⟨kind, lexeme, line⟩ := tok
  cases kind <;> cases h
  exact ⟨_, rfl⟩

/-- A repetition takes one word in each round, and ends where its step finds nothing more. -/
theorem takes_collectUpTo {step : Nat → Rule (Option α)} {Q : List Terminal → α → Prop}
    {ws : List (List Terminal)} :
    ∀ {rounds k : Nat}, ws.length ≤ rounds →
      (∀ i u, ws[i]? = some u → Takes (step (k + i)) u ((ws.drop (i + 1)).flatten ++ rest)
        fun a? => ∃ a, a? = some a ∧ Q u a) →
      Takes (step (k + ws.length)) [] rest (· = none) →
      Takes (collectUpTo step rounds k) ws.flatten rest (List.Forall₂ Q ws) := by
  induction ws with
  | nil =>
      intro rounds k _ _ hend
      cases rounds with
      | zero => exact .pure .nil
      | succ rounds =>
          refine hend.look fun a? ha => ?_
          subst ha
          exact .pure .nil
  | cons u ws ih =>
      intro rounds k hlen hstep hend
      obtain ⟨rounds, rfl⟩ : ∃ n, rounds = n + 1 := by
        cases rounds with
        | zero => cases hlen
        | succ n => exact ⟨n, rfl⟩
      refine (hstep 0 u rfl).bind fun a? ha => ?_
      obtain ⟨a, rfl, ha⟩ := ha
      have hmore : Takes (collectUpTo step rounds (k + 1)) ws.flatten rest
          (List.Forall₂ Q ws) := by
        apply ih
        · simpa using hlen
        · intro i v hv
          have h := hstep (i + 1) v hv
          rwa [Nat.add_comm i 1, ← Nat.add_assoc, Nat.add_comm 1 i] at h
        · rwa [List.length_cons, ← Nat.add_assoc, Nat.add_right_comm] at hend
      exact hmore.last fun as has => .pure (.cons ha has)

theorem takes_collect {step : Nat → Rule (Option α)} {Q : List Terminal → α → Prop}
    {ws : List (List Terminal)} (hne : ∀ u ∈ ws, u ≠ [])
    (hstep : ∀ i u, ws[i]? = some u → Takes (step i) u ((ws.drop (i + 1)).flatten ++ rest)
      fun a? => ∃ a, a? = some a ∧ Q u a)
    (hend : Takes (step ws.length) [] rest (· = none)) :
    Takes (collect step) ws.flatten rest (List.Forall₂ Q ws) := by
  intro c hc
  have hlen : ws.length ≤ c.rest.length := by
    rw [Cursor.length_rest hc, List.length_append]
    exact (length_le_flatten hne).trans (Nat.le_add_right _ _)
  refine takes_collectUpTo hlen (fun i u hu => ?_) ?_ c hc
  · rw [Nat.zero_add]
    exact hstep i u hu
  · rw [Nat.zero_add]
    exact hend

theorem takes_collect_nil {step : Nat → Rule (Option α)}
    (hend : Takes (step 0) [] rest (· = none)) : Takes (collect step) [] rest (· = []) := by
  have h : Takes (collect step) ([] : List (List Terminal)).flatten rest
      (List.Forall₂ (fun _ _ => True) []) := takes_collect nofun nofun hend
  exact h.mono fun _ hnil => List.forall₂_nil_left_iff.mp hnil

theorem flatten_follows {P : List Terminal → Prop} {ws : List (List Terminal)}
    (hws : ∀ v ∈ ws, ∃ v', v = .symbol .comma :: v' ∧ P v') :
    ws.flatten ++ rest = rest ∨ ∃ v, ws.flatten ++ rest = .symbol .comma :: v := by
  cases ws with
  | nil => exact .inl rfl
  | cons v ws =>
      obtain ⟨v', rfl, -⟩ := hws v List.mem_cons_self
      exact .inr ⟨_, rfl⟩

theorem length_drop_flatten {ws : List (List α)} {u : List α} {i : Nat} (hu : ws[i]? = some u) :
    (u ++ (ws.drop (i + 1)).flatten).length ≤ ws.flatten.length := by
  obtain ⟨hi, rfl⟩ := List.getElem?_eq_some_iff.mp hu
  have hsplit : ws.flatten = (ws.take i).flatten ++ (ws[i] ++ (ws.drop (i + 1)).flatten) := by
    rw [← List.flatten_cons, ← List.drop_eq_getElem_cons hi, ← List.flatten_append,
      List.take_append_drop]
  rw [hsplit]
  exact (List.sublist_append_right _ _).length_le

theorem takes_commaSeparated {item : Rule α} (tooMany : Fault) {P : List Terminal → Prop}
    (hitem : ∀ u rest', P u → (rest' = rest ∨ ∃ v, rest' = .symbol .comma :: v) →
      (u ++ rest').length ≤ (w ++ rest).length → Takes item u rest' fun _ => True)
    (hrest : Stops [.comma] rest) (h : Listed P w) :
    Takes (commaSeparated tooMany item) w rest fun _ => True := by
  obtain ⟨u, ws, rfl, hu, hlen, hws⟩ := h
  unfold commaSeparated nextItem?
  refine (hitem u _ hu (flatten_follows hws) (by simp)).bind fun first _ => ?_
  refine (takes_collect (Q := fun _ _ => True) ?_ ?_ ?_).last fun more _ => .pure trivial
  · intro v hv
    obtain ⟨v', rfl, -⟩ := hws v hv
    exact List.cons_ne_nil _ _
  · intro i v hv
    obtain ⟨v', rfl, hv'⟩ := hws v (List.mem_of_getElem? hv)
    have hi : ¬ maxArity ≤ i + 1 := by
      have hlt := (List.getElem?_eq_some_iff.mp hv).1
      omega
    refine (takes_accept .comma).cons fun comma? hcomma => ?_
    obtain ⟨comma, rfl⟩ := hcomma
    dsimp only
    rw [if_neg hi]
    have hdrop : ∀ v ∈ ws.drop (i + 1), ∃ v', v = .symbol .comma :: v' ∧ P v' :=
      fun v hv => hws v (List.mem_of_mem_drop hv)
    refine (hitem v' _ hv' (flatten_follows hdrop) ?_).last fun next _ => .pure ⟨next, rfl, trivial⟩
    have hbound := length_drop_flatten hv
    simp only [List.length_append, List.length_cons] at hbound ⊢
    omega
  · refine (takes_accept_none hrest).look fun comma? hcomma => ?_
    subst hcomma
    exact .pure rfl

end Lox.Grammar
