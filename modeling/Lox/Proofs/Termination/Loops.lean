import Lox.Proofs.Concatenation.Bounds
import Lox.Proofs.Concatenation.Programs
import Lox.Proofs.Order.Statements

/-!
# Loops end by themselves

A repetition in a rule is given as many rounds as there are tokens. It never needs the last of them:
each of its rounds that yields something takes a token, and a round at the end of the input yields
nothing. What stands in place of further rounds therefore makes no difference.
-/

namespace Lox.Grammar

variable {α β : Type} {n : Nat}

/-- The rule leaves the input as it was but for some tokens at its front. -/
def OnlyTakes (r : Rule α) : Prop :=
  ∀ c, leftOver (r c) <:+ c.rest

theorem Lays.onlyTakes {M : Manner} {r : Rule α} {P : List Token → α → Prop} (h : Lays M r P) :
    OnlyTakes r := by
  intro c
  have hc := h c
  cases hrun : r c with
  | ok a d =>
      rw [hrun] at hc
      obtain ⟨taken, es, hpass, -⟩ := hc
      exact ⟨taken, hpass.rest.symm⟩
  | error e d =>
      rw [hrun] at hc
      obtain ⟨taken, es, hpass, -⟩ := hc
      exact ⟨taken, hpass.rest.symm⟩

namespace OnlyTakes

variable {r : Rule α} {f : α → Rule β}

theorem pure {a : α} : OnlyTakes (pure a) :=
  fun c => List.suffix_refl c.rest

theorem bind (hr : OnlyTakes r) (hf : ∀ a, OnlyTakes (f a)) : OnlyTakes (r >>= f) := by
  intro c
  have hc := hr c
  rw [bind_apply]
  cases hrun : r c with
  | ok a d =>
      rw [hrun] at hc
      exact (hf a d).trans hc
  | error e d =>
      rw [hrun] at hc
      exact hc

end OnlyTakes

/-- Rounds of a step, and something else after so many of them. -/
def collectThen (step : Nat → Rule (Option α)) (after : Nat → Rule (List α)) :
    Nat → Nat → Rule (List α)
  | 0, count => after count
  | rounds + 1, count => do
      match ← step count with
      | none => pure []
      | some a => do
          let more ← collectThen step after rounds (count + 1)
          pure (a :: more)

/-- On inputs of at most `n` tokens, a round yields nothing at the end, and takes a token for
whatever it yields. -/
structure IsRound (n : Nat) (step : Nat → Rule (Option α)) : Prop where
  at_end : ∀ k c, c.rest = [] → step k c = .ok none c
  shorter : ∀ k c a d, c.rest.length ≤ n → step k c = .ok (some a) d →
    d.rest.length < c.rest.length

/-- With more rounds than tokens, it makes no difference what comes after them. -/
theorem IsRound.collectThen_eq {step : Nat → Rule (Option α)} (h : IsRound n step)
    (after : Nat → Rule (List α)) (rounds : Nat) :
    ∀ rounds' count c, c.rest.length ≤ n → c.rest.length < rounds → c.rest.length ≤ rounds' →
      collectThen step after rounds count c = collectUpTo step rounds' count c := by
  induction rounds with
  | zero => exact fun _ _ _ _ hlt => absurd hlt (Nat.not_lt_zero _)
  | succ rounds ih =>
      intro rounds' count c hn hrounds hrounds'
      cases rounds' with
      | zero =>
          have hnil : c.rest = [] := List.length_eq_zero_iff.mp (by omega)
          rw [collectThen, bind_apply, h.at_end count c hnil]
          rfl
      | succ rounds' =>
          rw [collectThen, collectUpTo, bind_apply, bind_apply]
          cases hrun : step count c with
          | error e d => rfl
          | ok a? d =>
              cases a? with
              | none => rfl
              | some a =>
                  have hlt := h.shorter count c a d hn hrun
                  have hmore := ih rounds' (count + 1) d (by omega) (by omega) (by omega)
                  dsimp only
                  rw [bind_apply, bind_apply, hmore]

/-- A repetition that succeeds ends with a round that yields nothing. -/
theorem IsRound.exists_last {step : Nat → Rule (Option α)} (h : IsRound n step) (rounds : Nat) :
    ∀ {count as c d}, c.rest.length ≤ n → c.rest.length ≤ rounds →
      collectUpTo step rounds count c = .ok as d → ∃ k e, step k e = .ok none d := by
  induction rounds with
  | zero =>
      intro count as c d _ hrounds hrun
      cases hrun
      exact ⟨count, c, h.at_end count c (List.length_eq_zero_iff.mp (by omega))⟩
  | succ rounds ih =>
      intro count as c d hn hrounds hrun
      obtain ⟨a?, e, hstep, hrest⟩ := bind_eq_ok hrun
      cases a? with
      | none =>
          cases hrest
          exact ⟨count, c, hstep⟩
      | some a =>
          obtain ⟨more, e', hmore, hpure⟩ := bind_eq_ok hrest
          cases hpure
          have hlt := h.shorter count c a e hn hstep
          exact ih (by omega) (by omega) hmore

/-- A round that begins with a certain token, if this stands next. -/
theorem isRound_takeIf {p : Terminal → Bool} {f : Nat → Option Token → Rule (Option α)}
    (hnone : ∀ k, f k none = pure none) (hsome : ∀ k t, OnlyTakes (f k (some t))) :
    IsRound n fun k => takeIf p >>= f k where
  at_end k c hc := by
    have htake : takeIf p c = .ok none c := by simp only [takeIf, hc]
    rw [bind_apply, htake]
    dsimp only
    rw [hnone]
    rfl
  shorter k c a d _ hrun := by
    obtain ⟨t?, e, htake, hrun⟩ := bind_eq_ok hrun
    unfold takeIf at htake
    split at htake
    · cases htake
      rw [hnone] at hrun
      cases hrun
    · next t rest hrest =>
      split at htake
      · cases htake
        have hle := (hsome k t { c with rest := rest }).length_le
        rw [hrun] at hle
        rw [hrest]
        exact Nat.lt_succ_of_le hle
      · cases htake
        rw [hnone] at hrun
        cases hrun

/-- The rounds of the loops in the rules for inputs of at most `n` tokens. -/
inductive Loop (n : Nat) : {α : Type} → (Nat → Rule (Option α)) → Prop
  | suffixes : Loop n fun _ => suffix? (expressionUpTo n .expression)
  | operands {weaker tighter : List Level} {level : Level}
      (h : levels = weaker ++ level :: tighter) :
      Loop n fun _ => rightOperand? level (binaryOver (unaryRule (expressionUpTo n)) tighter)
  | arguments : Loop n (nextItem? .tooManyArguments (expressionUpTo n .expression))
  | parameters : Loop n (nextItem? .tooManyParameters (expectName .parameterName))
  | declarations : Loop n fun _ => beforeBrace (declarationUpTo n)
  | methods : Loop n fun _ => beforeBrace (callable (declarationUpTo n) .method)
  | program : Loop n fun _ => programRound n

theorem isRound_suffix? {expression : Rule Expr} (he : Lays .inner expression Refers) :
    IsRound n fun _ => suffix? expression := by
  unfold suffix? acceptAny
  refine isRound_takeIf (fun _ => rfl) fun _ t => ?_
  dsimp only
  split
  · exact (lays_expectName (M := .any) .propertyName fun _ _ => trivial).onlyTakes.bind
      fun _ => .pure
  · exact (lays_argumentList he).onlyTakes.bind fun _ => .pure

theorem isRound_rightOperand? {level : Level} {operand : Rule Expr}
    (ho : Lays .inner operand Refers) : IsRound n fun _ => rightOperand? level operand := by
  unfold rightOperand? acceptAny
  exact isRound_takeIf (fun _ => rfl) fun _ t => ho.onlyTakes.bind fun _ => .pure

theorem isRound_nextItem? {tooMany : Fault} {item : Rule α} (hi : OnlyTakes item) :
    IsRound n (nextItem? tooMany item) := by
  unfold nextItem? accept
  refine isRound_takeIf (fun _ => rfl) fun count t => ?_
  have hnext : OnlyTakes (do let next ← item; pure (some next)) := hi.bind fun _ => .pure
  dsimp only
  split
  · exact (lays_recordNext (M := .any) trivial).onlyTakes.bind fun _ => hnext
  · exact hnext

theorem isRound_beforeBrace {r : Rule α} (hr : ∀ c a d, c.rest.length ≤ n → c.rest ≠ [] →
    r c = .ok a d → d.rest.length < c.rest.length) : IsRound n fun _ => beforeBrace r where
  at_end k c hc := by
    simp only [beforeBrace, bind_apply, sees, atEnd, hc, List.isEmpty_nil, Bool.or_true, if_true]
    rfl
  shorter k c a d hn hrun := by
    simp only [beforeBrace, bind_apply, sees, atEnd] at hrun
    split at hrun
    · cases hrun
    · next hgo =>
      obtain ⟨a', d', hrun, hpure⟩ := bind_eq_ok hrun
      cases hpure
      refine hr c a d hn ?_ hrun
      rintro hnil
      simp [hnil] at hgo

/-- A declaration takes a token, whether it succeeds or is recovered from. -/
theorem resumes_declarationUpTo (n : Nat) :
    Resumes ⟨[], 0⟩ n (declarationUpTo n) (declarationUpTo n) :=
  (closed_upTo (by simp [Tail.NoElse]) (le_refl n)).2

theorem isRound_program : IsRound n fun _ => programRound n where
  at_end _ _ hc := programRound_nil hc
  shorter k c a d hn hrun := by
    by_cases hne : c.rest = []
    · rw [programRound_nil hne] at hrun
      cases hrun
    · rw [programRound_ne_nil hne] at hrun
      obtain ⟨s?, d', hrun, hpure⟩ := bind_eq_ok hrun
      cases hpure
      exact (resumes_declarationUpTo n).shorter c a d hn hne hrun

theorem Loop.isRound {step : Nat → Rule (Option α)} (h : Loop n step) : IsRound n step := by
  cases h with
  | suffixes => exact isRound_suffix? (lays_expressionUpTo n .expression)
  | @operands weaker tighter level h =>
      refine isRound_rightOperand? (lays_binaryOver (lays_unaryRule (lays_expressionUpTo n)) _ ?_)
      intro l hl
      refine orders_of_mem_levels l ?_
      rw [h]
      exact List.mem_append_right _ (List.mem_cons_of_mem _ hl)
  | arguments => exact isRound_nextItem? (lays_expressionUpTo n .expression).onlyTakes
  | parameters =>
      exact isRound_nextItem?
        (lays_expectName (M := .any) .parameterName fun _ _ => trivial).onlyTakes
  | declarations => exact isRound_beforeBrace (resumes_declarationUpTo n).shorter
  | methods =>
      refine isRound_beforeBrace fun c f d hn _ hrun => ?_
      have hclosed := closed_callable (resumes_declarationUpTo n) .method c hn
      rw [hrun] at hclosed
      exact hclosed.2.1 trivial
  | program => exact isRound_program

end Lox.Grammar
