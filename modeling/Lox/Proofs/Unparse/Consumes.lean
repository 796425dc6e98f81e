import Lox.Proofs.Grammar.Takes
import Lox.Proofs.Unparse.Tokens

/-!
# What rules make of tokens

On an input that begins with given tokens and goes on in a certain way, a rule takes exactly these
tokens, records no error, and yields a result with a given property. In contrast to words of
terminals, tokens determine the result up to the identities of its nodes.
-/

namespace Lox.Grammar

variable {α β γ : Type} {t : Token} {us vs ts rest : List Token}

/-- On every input of the tokens and what they are followed by, the rule takes the tokens without a
new error, and its result satisfies `P`. -/
def Consumes (r : Rule α) (ts rest : List Token) (P : α → Prop) : Prop :=
  ∀ c, c.rest = ts ++ rest →
    ∃ a c', r c = .ok a c' ∧ c'.rest = rest ∧ c'.errors = c.errors ∧ P a

namespace Consumes

variable {r : Rule α} {f : α → Rule β} {P P' : α → Prop} {R : β → Prop}

theorem pure {a : α} (h : P a) : Consumes (pure a) [] rest P :=
  fun c hc => ⟨a, c, rfl, hc, rfl, h⟩

theorem bind (hr : Consumes r us (vs ++ rest) P) (hf : ∀ a, P a → Consumes (f a) vs rest R) :
    Consumes (r >>= f) (us ++ vs) rest R := by
  intro c hc
  obtain ⟨a, c', hrun, hrest, herrors, ha⟩ := hr c (by rw [hc, List.append_assoc])
  obtain ⟨b, d, hrun', hrest', herrors', hb⟩ := hf a ha c' hrest
  refine ⟨b, d, ?_, hrest', herrors'.trans herrors, hb⟩
  rw [bind_apply, hrun]
  exact hrun'

/-- The first rule takes one token. -/
theorem cons (hr : Consumes r [t] (vs ++ rest) P) (hf : ∀ a, P a → Consumes (f a) vs rest R) :
    Consumes (r >>= f) (t :: vs) rest R :=
  hr.bind hf

/-- The first rule takes nothing. -/
theorem look (hr : Consumes r [] (ts ++ rest) P) (hf : ∀ a, P a → Consumes (f a) ts rest R) :
    Consumes (r >>= f) ts rest R :=
  hr.bind hf

/-- After the first rule nothing more is taken. -/
theorem last (hr : Consumes r ts rest P) (hf : ∀ a, P a → Consumes (f a) [] rest R) :
    Consumes (r >>= f) ts rest R := by
  rw [← List.append_nil ts]
  exact hr.bind hf

theorem mono (hr : Consumes r ts rest P) (hP : ∀ a, P a → P' a) : Consumes r ts rest P' := by
  intro c hc
  obtain ⟨a, c', hrun, hrest, herrors, ha⟩ := hr c hc
  exact ⟨a, c', hrun, hrest, herrors, hP a ha⟩

end Consumes

/-- The next token is none of these symbols. -/
def StopsAt (symbols : List Symbol) (rest : List Token) : Prop :=
  Stops symbols (rest.map Token.terminal)

/-- The next token is of a terminal that satisfies `p`. -/
def BeginsWith (p : Terminal → Bool) (ts : List Token) : Prop :=
  Begins p (ts.map Token.terminal)

theorem StopsAt.mono {symbols more : List Symbol} (h : StopsAt more rest)
    (hsub : ∀ s ∈ symbols, s ∈ more) : StopsAt symbols rest :=
  Stops.mono h hsub

theorem stopsAt_cons {symbols : List Symbol} (h : ∀ s ∈ symbols, t.terminal ≠ .symbol s) :
    StopsAt symbols (t :: ts) :=
  stops_cons h

theorem stopsAt_symbol {symbols : List Symbol} {s : Symbol} (ht : t.terminal = .symbol s)
    (h : s ∉ symbols) : StopsAt symbols (t :: ts) := by
  rw [StopsAt, List.map_cons, ht]
  exact stops_symbol h

theorem stopsAt_mark {symbols : List Symbol} {s : Symbol} (h : s ∉ symbols) :
    StopsAt symbols (.mark s :: ts) :=
  stopsAt_symbol rfl h

theorem BeginsWith.append {p : Terminal → Bool} (h : BeginsWith p us) (vs : List Token) :
    BeginsWith p (us ++ vs) := by
  rw [BeginsWith, List.map_append]
  exact Begins.append h _

theorem BeginsWith.mono {p q : Terminal → Bool} (h : BeginsWith p ts)
    (hpq : ∀ t, p t = true → q t = true) : BeginsWith q ts :=
  Begins.mono h hpq

theorem beginsWith_cons {p : Terminal → Bool} (h : p t.terminal = true) :
    BeginsWith p (t :: ts) :=
  ⟨_, _, rfl, h⟩

theorem BeginsWith.ne_nil {p : Terminal → Bool} (h : BeginsWith p ts) : ts ≠ [] := by
  rintro rfl
  exact Begins.ne_nil h rfl

theorem BeginsWith.stopsAt {p : Terminal → Bool} (h : BeginsWith p ts) {symbols : List Symbol}
    (hp : ∀ s ∈ symbols, p (.symbol s) = false) : StopsAt symbols ts := by
  obtain ⟨t, w, hw, ht⟩ := h
  rw [StopsAt, hw]
  refine stops_cons fun s hs heq => ?_
  rw [heq, hp s hs] at ht
  cases ht

theorem consumes_sees (s : Symbol) :
    Consumes (sees s) [] rest fun b =>
      b = true ↔ (rest.map Token.terminal).head? = some (.symbol s) := by
  intro c hc
  obtain ⟨b, c', hrun, -, -, hb⟩ := takes_sees s c
    (by rw [Cursor.input, hc]; rfl : c.input = [] ++ rest.map Token.terminal)
  cases hrun
  exact ⟨_, c, rfl, hc, rfl, hb⟩

theorem consumes_sees_self {s : Symbol} (ht : t.terminal = .symbol s) :
    Consumes (sees s) [] (t :: rest) (· = true) :=
  (consumes_sees s).mono fun _ hb => hb.mpr (congrArg some ht)

theorem consumes_sees_false {s : Symbol} (h : StopsAt [s] rest) :
    Consumes (sees s) [] rest (· = false) :=
  (consumes_sees s).mono fun b hb => by
    cases b with
    | false => rfl
    | true => exact absurd (hb.mp rfl) (h s List.mem_cons_self)

theorem consumes_atEnd : Consumes atEnd [] rest fun b => b = true ↔ rest = [] :=
  fun c hc => ⟨_, c, rfl, hc, rfl, by rw [hc]; exact List.isEmpty_iff⟩

theorem consumes_freshId : Consumes freshId [] rest fun _ => True :=
  fun _ hc => ⟨_, _, rfl, hc, rfl, trivial⟩

theorem consumes_takeIf {p : Terminal → Bool} (h : p t.terminal = true) :
    Consumes (takeIf p) [t] rest (· = some t) := by
  intro c hc
  refine ⟨some t, { c with rest := rest }, ?_, rfl, rfl, rfl⟩
  unfold takeIf
  rw [hc]
  simp only [List.cons_append, List.nil_append, h, if_true]

theorem consumes_takeIf_none {p : Terminal → Bool}
    (h : ∀ t, rest.head? = some t → p t.terminal = false) :
    Consumes (takeIf p) [] rest (· = none) := by
  intro c hc
  refine ⟨none, c, ?_, hc, rfl, rfl⟩
  unfold takeIf
  cases hrest : c.rest with
  | nil => rfl
  | cons tok tail =>
      have hp := h tok (by rw [← List.nil_append rest, ← hc, hrest]; rfl)
      simp [hp]

theorem consumes_accept {s : Symbol} (ht : t.terminal = .symbol s) :
    Consumes (accept s) [t] rest (· = some t) := by
  apply consumes_takeIf
  rw [ht]
  exact beq_self_eq_true _

theorem StopsAt.head_ne {symbols : List Symbol} (h : StopsAt symbols rest) {s : Symbol}
    (hs : s ∈ symbols) (ht : rest.head? = some t) : t.terminal ≠ .symbol s := by
  intro heq
  apply h s hs
  rw [List.head?_map, ht, Option.map_some, heq]

theorem consumes_accept_none {s : Symbol} (h : StopsAt [s] rest) :
    Consumes (accept s) [] rest (· = none) := by
  refine consumes_takeIf_none fun t ht => ?_
  rw [beq_eq_false_iff_ne]
  exact h.head_ne List.mem_cons_self ht

theorem consumes_acceptAny {symbols : List Symbol} {s : Symbol} (ht : t.terminal = .symbol s)
    (hs : s ∈ symbols) : Consumes (acceptAny symbols) [t] rest (· = some t) := by
  apply consumes_takeIf
  rw [ht]
  simpa using hs

theorem consumes_acceptAny_none {symbols : List Symbol} (h : StopsAt symbols rest) :
    Consumes (acceptAny symbols) [] rest (· = none) := by
  refine consumes_takeIf_none fun t ht => ?_
  cases hterminal : t.terminal with
  | symbol s =>
      have hs : s ∉ symbols := fun hs => h.head_ne hs ht hterminal
      simpa using hs
  | _ => rfl

theorem consumes_expectTerminal (part : Part) :
    Consumes (expectTerminal t.terminal part) [t] rest (· = t) := by
  unfold expectTerminal
  refine (consumes_takeIf (p := (· == t.terminal)) (beq_self_eq_true _)).cons fun t? ht => ?_
  subst ht
  exact .pure rfl

theorem consumes_expect {s : Symbol} (part : Part) (ht : t.terminal = .symbol s) :
    Consumes (expect s part) [t] rest (· = t) := by
  rw [expect, ← ht]
  exact consumes_expectTerminal part

theorem consumes_expectName (part : Part) (ht : t.terminal = .identifier) :
    Consumes (expectName part) [t] rest (· = t) := by
  rw [expectName, ← ht]
  exact consumes_expectTerminal part

theorem consumes_peek_bind {f : Token → Rule α} {P : α → Prop}
    (hf : Consumes (f t) (t :: ts) rest P) : Consumes (peek >>= f) (t :: ts) rest P := by
  intro c hc
  obtain ⟨a, c', hrun, h⟩ := hf c hc
  refine ⟨a, c', ?_, h⟩
  have hnext : c.next = t := by rw [Cursor.next, hc, List.cons_append, List.headD_cons]
  rw [bind_apply]
  simp only [peek, hnext]
  exact hrun

theorem consumes_take_bind {f : Token → Rule α} {P : α → Prop} (hf : Consumes (f t) ts rest P) :
    Consumes (take >>= f) (t :: ts) rest P := by
  intro c hc
  rw [List.cons_append] at hc
  obtain ⟨a, c', hrun, h⟩ := hf { c with rest := ts ++ rest } rfl
  refine ⟨a, c', ?_, h⟩
  rw [bind_apply]
  simp only [take, Cursor.next, hc, List.headD_cons, List.tail_cons]
  exact hrun

/-- A repetition takes the tokens of one item in each round, and ends where its step finds nothing
more. -/
theorem consumes_collectUpTo {step : Nat → Rule (Option α)} {spell : β → List Token}
    {Q : β → α → Prop} {xs : List β} :
    ∀ {rounds k : Nat}, xs.length ≤ rounds →
      (∀ i x, xs[i]? = some x → Consumes (step (k + i)) (spell x)
        ((xs.drop (i + 1)).flatMap spell ++ rest) fun a? => ∃ a, a? = some a ∧ Q x a) →
      Consumes (step (k + xs.length)) [] rest (· = none) →
      Consumes (collectUpTo step rounds k) (xs.flatMap spell) rest (List.Forall₂ Q xs) := by
  induction xs with
  | nil =>
      intro rounds k _ _ hend
      cases rounds with
      | zero => exact .pure .nil
      | succ rounds =>
          refine hend.look fun a? ha => ?_
          subst ha
          exact .pure .nil
  | cons x xs ih =>
      intro rounds k hlen hstep hend
      obtain ⟨rounds, rfl⟩ : ∃ n, rounds = n + 1 := by
        cases rounds with
        | zero => cases hlen
        | succ n => exact ⟨n, rfl⟩
      refine (hstep 0 x rfl).bind fun a? ha => ?_
      obtain ⟨a, rfl, ha⟩ := ha
      have hmore : Consumes (collectUpTo step rounds (k + 1)) (xs.flatMap spell) rest
          (List.Forall₂ Q xs) := by
        apply ih
        · simpa using hlen
        · intro i y hy
          have h := hstep (i + 1) y hy
          rwa [Nat.add_comm i 1, ← Nat.add_assoc, Nat.add_comm 1 i] at h
        · rwa [List.length_cons, ← Nat.add_assoc, Nat.add_right_comm] at hend
      exact hmore.last fun as has => .pure (.cons ha has)

theorem length_le_flatMap {spell : β → List Token} {xs : List β} (hne : ∀ x ∈ xs, spell x ≠ []) :
    xs.length ≤ (xs.flatMap spell).length := by
  rw [List.flatMap_def, ← List.length_map (f := spell)]
  refine length_le_flatten fun u hu => ?_
  obtain ⟨x, hx, rfl⟩ := List.mem_map.mp hu
  exact hne x hx

theorem consumes_collect {step : Nat → Rule (Option α)} {spell : β → List Token}
    {Q : β → α → Prop} {xs : List β} (hne : ∀ x ∈ xs, spell x ≠ [])
    (hstep : ∀ i x, xs[i]? = some x → Consumes (step i) (spell x)
      ((xs.drop (i + 1)).flatMap spell ++ rest) fun a? => ∃ a, a? = some a ∧ Q x a)
    (hend : Consumes (step xs.length) [] rest (· = none)) :
    Consumes (collect step) (xs.flatMap spell) rest (List.Forall₂ Q xs) := by
  intro c hc
  have hlen : xs.length ≤ c.rest.length := by
    rw [hc, List.length_append]
    exact (length_le_flatMap hne).trans (Nat.le_add_right _ _)
  refine consumes_collectUpTo hlen (fun i x hx => ?_) ?_ c hc
  · rw [Nat.zero_add]
    exact hstep i x hx
  · rw [Nat.zero_add]
    exact hend

theorem length_drop_flatMap (spell : β → List Token) {xs : List β} {i : Nat} {x : β}
    (hx : xs[i]? = some x) :
    (spell x ++ (xs.drop (i + 1)).flatMap spell).length ≤ (xs.flatMap spell).length := by
  have hspell : (xs.map spell)[i]? = some (spell x) := by
    rw [List.getElem?_map, hx, Option.map_some]
  rw [List.flatMap_def, List.flatMap_def, List.map_drop]
  exact length_drop_flatten hspell

theorem separated_cons (spell : β → List Token) (x : β) (xs : List β) :
    Token.separated ((x :: xs).map spell)
      = spell x ++ xs.flatMap fun y => Token.mark .comma :: spell y := by
  rw [List.map_cons, Token.separated, List.flatMap_map]

/-- After an item comes what follows all items, or a comma. -/
theorem separated_follows (spell : β → List Token) (xs : List β) :
    (xs.flatMap fun y => Token.mark .comma :: spell y) ++ rest = rest
      ∨ ∃ vs, (xs.flatMap fun y => Token.mark .comma :: spell y) ++ rest
        = .mark .comma :: vs := by
  cases xs with
  | nil => exact .inl rfl
  | cons x xs => exact .inr ⟨_, rfl⟩

theorem consumes_commaSeparated {item : Rule α} (tooMany : Fault) {spell : β → List Token}
    {Q : β → α → Prop} {xs : List β}
    (hitem : ∀ x rest', x ∈ xs → (rest' = rest ∨ ∃ vs, rest' = .mark .comma :: vs) →
      (spell x ++ rest').length ≤ (Token.separated (xs.map spell) ++ rest).length →
      Consumes item (spell x) rest' (Q x))
    (hrest : StopsAt [.comma] rest) (hne : xs ≠ []) (hlen : xs.length ≤ maxArity) :
    Consumes (commaSeparated tooMany item) (Token.separated (xs.map spell)) rest
      (List.Forall₂ Q xs) := by
  obtain ⟨x, xs, rfl⟩ := List.exists_cons_of_ne_nil hne
  rw [separated_cons] at hitem ⊢
  unfold commaSeparated nextItem?
  refine (hitem x _ List.mem_cons_self (separated_follows spell xs) (by simp)).bind
    fun first hfirst => ?_
  refine (consumes_collect (Q := Q) ?_ ?_ ?_).last fun more hmore => .pure (.cons hfirst hmore)
  · intro y hy
    exact List.cons_ne_nil _ _
  · intro i y hy
    have hi : ¬ maxArity ≤ i + 1 := by
      have hlt := (List.getElem?_eq_some_iff.mp hy).1
      rw [List.length_cons] at hlen
      omega
    refine (consumes_accept rfl).cons fun comma? hcomma => ?_
    subst hcomma
    dsimp only
    rw [if_neg hi]
    refine (hitem y _ (List.mem_cons_of_mem _ (List.mem_of_getElem? hy))
      (separated_follows spell _) ?_).last fun next hnext => .pure ⟨next, rfl, hnext⟩
    have hbound := length_drop_flatMap (fun y => Token.mark .comma :: spell y) hy
    simp only [List.length_append, List.length_cons] at hbound ⊢
    omega
  · refine (consumes_accept_none hrest).look fun comma? hcomma => ?_
    subst hcomma
    exact .pure rfl

end Lox.Grammar
