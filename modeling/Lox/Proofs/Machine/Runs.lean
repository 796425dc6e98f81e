import Lox.Machine.Step

/-!
# Steps and moments of runs

A step evaluates or executes a piece of syntax, hands an answer to the topmost task, or leaves that
task with a failure. What holds at the beginning of a run and is kept by every such step holds at
every moment of the run.
-/

namespace Lox.Machine

variable {inner final : Answer}

/-- What comes after the end of a run on top of pending tasks. -/
def Outcome.onto (o : Outcome inner) (base : Stack final inner) : Config final :=
  match o.result with
  | .ok x => .answer x base o.σ
  | .error failure => .fail failure base o.σ

namespace Config

/-- The steps with which a run goes on. -/
inductive Steps : Config final → Config final → Prop
  | eval (e : Expr) (stack : Stack final .value) (σ : State) :
      Steps (.eval e stack σ) (evalStep e stack σ)
  | exec (s : Stmt) (stack : Stack final .flow) (σ : State) :
      Steps (.exec s stack σ) (execStep s stack σ)
  | value {b : Answer} (v : Value) (task : Pending .value b) (below : Stack final b) (σ : State) :
      Steps (.answer (a := .value) v (.push task below) σ) (resumeValue v task below σ)
  | flow {b : Answer} (flow : Flow) (task : Pending .flow b) (below : Stack final b) (σ : State) :
      Steps (.answer (a := .flow) flow (.push task below) σ) (resumeFlow flow task below σ)
  | leave {a b : Answer} (failure : Failure) (task : Pending a b) (below : Stack final b)
      (σ : State) :
      Steps (.fail failure (.push task below) σ) (.fail failure below (task.leave σ))

theorem steps_of_step {c c' : Config final} (h : c.step = .inl c') : c.Steps c' := by
  cases c with
  | eval e stack σ =>
      cases h
      exact .eval e stack σ
  | exec s stack σ =>
      cases h
      exact .exec s stack σ
  | @answer a x stack σ =>
      cases stack with
      | done => cases h
      | push task below =>
          cases h
          cases a with
          | value => exact .value x task below σ
          | flow => exact .flow x task below σ
  | fail failure stack σ =>
      cases stack with
      | done => cases h
      | push task below =>
          cases h
          exact .leave failure task below σ

/-- A call fails, or it comes down to a call of what is called with as many arguments as it takes. -/
theorem call_cases (callee : Value) (paren : Token) (arguments : List Value)
    (stack : Stack final .value) (σ : State) :
    (∃ fault, (fault = .notCallable ∨ ∃ expected, fault = .wrongArity expected arguments.length)
        ∧ call callee paren arguments stack σ = .faultAt fault paren stack σ)
      ∨ (∃ f, callee = .native f
        ∧ call callee paren arguments stack σ = .callNative f stack σ)
      ∨ (∃ f, callee = .function f ∧ f.decl.arity = arguments.length
        ∧ call callee paren arguments stack σ = .callFunction f paren arguments stack σ)
      ∨ ∃ c, callee = .cls c ∧ c.arity = arguments.length
        ∧ call callee paren arguments stack σ = .callClass c paren arguments stack σ := by
  unfold call
  split
  · exact .inl ⟨_, .inl rfl, rfl⟩
  · next expected hexpected =>
    split
    · exact .inl ⟨_, .inr ⟨expected, rfl⟩, rfl⟩
    · next harity =>
      rw [ne_eq, Decidable.not_not] at harity
      subst harity
      cases callee with
      | native f => exact .inr (.inl ⟨f, rfl, rfl⟩)
      | function f => exact .inr (.inr (.inl ⟨f, rfl, Option.some.inj hexpected, rfl⟩))
      | cls c => exact .inr (.inr (.inr ⟨c, rfl, Option.some.inj hexpected, rfl⟩))
      | _ => cases hexpected

/-- A run ends with an answer or a failure that no task waits for. -/
theorem step_eq_inr_iff {c : Config final} {o : Outcome final} :
    c.step = .inr o ↔ c = o.onto .done := by
  constructor
  · intro h
    cases c with
    | eval e stack σ => cases h
    | exec s stack σ => cases h
    | answer x stack σ =>
        cases stack with
        | done =>
            cases h
            rfl
        | push task below => cases h
    | fail failure stack σ =>
        cases stack with
        | done =>
            cases h
            rfl
        | push task below => cases h
  · obtain ⟨result, σ⟩ := o
    rintro rfl
    cases result <;> rfl

theorem state_outcome_onto (o : Outcome inner) (base : Stack final inner) :
    (o.onto base).state = o.σ := by
  obtain ⟨result, σ⟩ := o
  cases result <;> rfl

theorem state_of_end {c : Config final} {o : Outcome final} (h : c.step = .inr o) :
    o.σ = c.state := by
  rw [step_eq_inr_iff.mp h, state_outcome_onto]

/-- A run of some steps and then some more. -/
theorem advance_add_eq (c : Config final) (d n : Nat) :
    c.advance (d + n) = (c.advance d).elim (·.advance n) .inr := by
  induction d generalizing c with
  | zero =>
      rw [Nat.zero_add]
      rfl
  | succ d ih =>
      rw [Nat.add_right_comm, advance, advance]
      cases c.step with
      | inl c₁ => exact ih c₁
      | inr o => rfl

theorem advance_add {c c' : Config final} {d : Nat} (h : c.advance d = .inl c') (n : Nat) :
    c.advance (d + n) = c'.advance n := by
  rw [advance_add_eq, h, Sum.elim_inl]

/-- A run that has ended stays at its end. -/
theorem advance_of_end {c : Config final} {o : Outcome final} {d : Nat} (h : c.advance d = .inr o)
    (n : Nat) : c.advance (d + n) = .inr o := by
  rw [advance_add_eq, h, Sum.elim_inr]

/-- A run that has not ended had not ended before. -/
theorem exists_of_le {c c' : Config final} {j d : Nat} (h : c.advance d = .inl c') (hj : j ≤ d) :
    ∃ c₁, c.advance j = .inl c₁ := by
  cases hrun : c.advance j with
  | inl c₁ => exact ⟨c₁, rfl⟩
  | inr o =>
      obtain ⟨i, rfl⟩ := Nat.exists_eq_add_of_le hj
      rw [advance_of_end hrun] at h
      cases h

/-- The last step of a run that goes on. -/
theorem exists_of_advance_succ {c c' : Config final} {n : Nat} (h : c.advance (n + 1) = .inl c') :
    ∃ d, c.advance n = .inl d ∧ d.step = .inl c' := by
  obtain ⟨d, hd⟩ := exists_of_le h (Nat.le_succ n)
  rw [advance_add hd, advance] at h
  cases hstep : d.step with
  | inl c₁ =>
      rw [hstep] at h
      cases h
      exact ⟨d, hd, hstep⟩
  | inr o =>
      rw [hstep] at h
      cases h

theorem advance_succ_of_step {c c' d : Config final} {n : Nat} (h : c.advance n = .inl d)
    (hstep : d.step = .inl c') : c.advance (n + 1) = .inl c' := by
  rw [advance_add h, advance, hstep]
  rfl

theorem advance_succ_of_end {c d : Config final} {o : Outcome final} {n : Nat}
    (h : c.advance n = .inl d) (hend : d.step = .inr o) : c.advance (n + 1) = .inr o := by
  rw [advance_add h, advance, hend]

/-- A run that is at its end has no other moments. -/
theorem eq_of_end {c d : Config final} {o : Outcome final} {n : Nat} (hend : c.step = .inr o)
    (h : c.advance n = .inl d) : d = c := by
  cases n with
  | zero => exact (Sum.inl.inj h).symm
  | succ n =>
      rw [advance, hend] at h
      cases h

theorem outcome_eq_of_end {c : Config final} {o o' : Outcome final} {n : Nat}
    (hend : c.step = .inr o) (h : c.advance n = .inr o') : o' = o := by
  cases n with
  | zero => cases h
  | succ n =>
      rw [advance, hend] at h
      exact (Sum.inr.inj h).symm

/-- A failure is not recovered from. -/
theorem result_of_fail {a : Answer} {failure : Failure} {stack : Stack final a} {σ : State}
    {n : Nat} {o : Outcome final} (h : (fail failure stack σ).advance n = .inr o) :
    o.result = .error failure := by
  induction stack generalizing σ n with
  | done => rw [outcome_eq_of_end rfl h]
  | push task below ih =>
      cases n with
      | zero => cases h
      | succ n => exact ih h

/-- A run either goes on for some steps, or has ended at some moment before. -/
theorem exists_end {c : Config final} {n : Nat} {o : Outcome final} (h : c.advance n = .inr o) :
    ∃ d c', d < n ∧ c.advance d = .inl c' ∧ c'.step = .inr o := by
  induction n generalizing c with
  | zero => cases h
  | succ n ih =>
      rw [advance] at h
      cases hstep : c.step with
      | inr o' =>
          rw [hstep] at h
          cases h
          exact ⟨0, c, Nat.succ_pos n, rfl, hstep⟩
      | inl c₁ =>
          rw [hstep] at h
          obtain ⟨d, c', hd, hadvance, hend⟩ := ih h
          refine ⟨d + 1, c', Nat.succ_lt_succ hd, ?_, hend⟩
          rw [advance, hstep]
          exact hadvance

/-- What holds at first, and is kept by the steps of a run, holds at each of its moments. -/
theorem holds_of_advance {P : Nat → Config final → Prop} {c c' : Config final} {n : Nat}
    (hstart : P 0 c)
    (hstep : ∀ {k d d'}, c.advance k = .inl d → P k d → d.step = .inl d' → P (k + 1) d')
    (h : c.advance n = .inl c') : P n c' := by
  induction n generalizing c' with
  | zero =>
      cases h
      exact hstart
  | succ n ih =>
      obtain ⟨d, hd, hlast⟩ := exists_of_advance_succ h
      exact hstep hd (ih hd) hlast

/-- What every step keeps holds at every moment of a run, and its end has what the last step makes of
it. -/
theorem holds_advance {P : Config final → Prop} {Q : Outcome final → Prop}
    (hstep : ∀ {d}, P d → match d.step with
      | .inl d' => P d'
      | .inr o => Q o)
    {c : Config final} (hc : P c) (n : Nat) :
    match c.advance n with
    | .inl c' => P c'
    | .inr o => Q o := by
  induction n generalizing c with
  | zero => exact hc
  | succ n ih =>
      have hnext := hstep hc
      rw [advance]
      cases h : c.step with
      | inl c' =>
          rw [h] at hnext
          exact ih hnext
      | inr o =>
          rw [h] at hnext
          exact hnext

end Config

end Lox.Machine
