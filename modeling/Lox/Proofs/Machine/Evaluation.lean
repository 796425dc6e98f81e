import Lox.Proofs.Frames.Extension
import Lox.Proofs.Machine.Contexts

/-!
# Expressions on their own

As long as there is no function, class or object of a program, all that can be called is a function
of the interpreter. An evaluation then goes through its expression once and ends, and it prints
nothing on the way.
-/

namespace Lox

/-- The value is no function, class or object of a program. -/
def Value.IsPlain : Value → Prop
  | .function _ => False
  | .cls _ => False
  | .object _ => False
  | _ => True

theorem isPlain_literal (v : Literal) : v.value.IsPlain := by
  cases v <;> trivial

namespace Machine

variable {final : Answer} {sink : Sink} {σ : State} {v w : Value} {x : String} {id : NodeId}
  {f : FrameId}

/-- The state has this sink, no distances are recorded, and all variables have plain values. -/
structure State.Plain (sink : Sink) (σ : State) : Prop where
  sink : σ.sink = sink
  distances : ∀ id : NodeId, σ.distances[id]? = none
  values : ∀ {f : FrameId} {x : String} {v : Value}, σ.frames.get? f x = some v → v.IsPlain

theorem plain_initial (sink : Sink) (time : Nat → Float) :
    (State.initial sink time).Plain sink where
  sink := rfl
  distances id := by simp [State.initial]
  values hv := by
    rcases Frames.get?_push_eq_some hv with hv | ⟨-, hv⟩
    · simp [Frames.empty, Frames.get?, Frames.bindings] at hv
    · rw [Bindings.eq_of_get?_singleton hv]
      trivial

namespace State.Plain

theorem isPlain_of_lookup? (h : σ.Plain sink) (hv : σ.lookup? id x = some v) : v.IsPlain := by
  rw [State.lookup?, h.distances] at hv
  obtain ⟨f, -, hf⟩ := Frames.get?_of_lookup hv
  exact h.values hf

theorem defineIn (h : σ.Plain sink) (hv : v.IsPlain) : (σ.defineIn f x v).Plain sink where
  sink := h.sink
  distances := h.distances
  values hw := by
    rcases Frames.get?_define_eq_some hw with hw | ⟨-, -, rfl⟩
    · exact h.values hw
    · exact hv

theorem callNative (h : σ.Plain sink) (native : Native) :
    (σ.callNative native).1.IsPlain ∧ (σ.callNative native).2.Plain sink := by
  cases native
  exact ⟨trivial, h.sink, h.distances, h.values⟩

end State.Plain

theorem isPlain_applyUnary {operator : Token} (h : applyUnary operator v = .ok w) : w.IsPlain := by
  unfold applyUnary at h
  split at h
  · split at h
    · cases h
      trivial
    · cases h
  · cases h
    trivial
  · cases h

theorem isPlain_applyPlus {operator : Token} {u : Value} (h : applyPlus operator u v = .ok w) :
    w.IsPlain := by
  unfold applyPlus at h
  split at h
  · cases h
    trivial
  · cases h
    trivial
  · cases h

theorem isPlain_applyNumeric {operator : Token} {a b : Float}
    (h : applyNumeric operator a b = .ok w) : w.IsPlain := by
  unfold applyNumeric at h
  split at h <;> cases h <;> trivial

theorem isPlain_applyBinary {operator : Token} {u : Value}
    (h : applyBinary u operator v = .ok w) : w.IsPlain := by
  unfold applyBinary at h
  split at h
  · cases h
    trivial
  · cases h
    trivial
  · exact isPlain_applyPlus h
  · split at h
    · exact isPlain_applyNumeric h
    · cases h

/-- From this moment on a run comes to a plain value for the stack, or to a failure above it, in a
state that is still plain. -/
def Settles (sink : Sink) (c : Config final) (stack : Stack final .value) : Prop :=
  ∃ d result σ, c.advance d = .inl (.ofExcept (a := .value) stack σ result)
    ∧ State.Plain sink σ ∧ ∀ v, result = .ok v → v.IsPlain

section Settles

variable {stack : Stack final .value} {c c' : Config final}

theorem settles_ofExcept (hσ : σ.Plain sink) {result : Except Failure Value}
    (h : ∀ v, result = .ok v → v.IsPlain) :
    Settles sink (.ofExcept (a := .value) stack σ result) stack :=
  ⟨0, result, σ, rfl, hσ, h⟩

theorem settles_answer (hσ : σ.Plain sink) (hv : v.IsPlain) :
    Settles sink (.answer (a := .value) v stack σ) stack := by
  have h : ∀ w, Except.ok v = (.ok w : Except Failure Value) → w.IsPlain := by
    rintro _ ⟨⟩
    exact hv
  exact settles_ofExcept hσ h

theorem settles_fail (hσ : σ.Plain sink) (failure : Failure) :
    Settles sink (.fail (a := .value) failure stack σ) stack :=
  have h : ∀ v, Except.error failure = (.ok v : Except Failure Value) → v.IsPlain := nofun
  settles_ofExcept hσ h

theorem Settles.before {n : Nat} (h : Settles sink c' stack) (hc : c.advance n = .inl c') :
    Settles sink c stack := by
  obtain ⟨d, result, σ, hrun, hresult⟩ := h
  refine ⟨n + d, result, σ, ?_, hresult⟩
  rw [Config.advance_add hc]
  exact hrun

/-- A task that waits for a value gets it, unless there is a failure, which leaves the task without
a change. -/
theorem Settles.resume {task : Pending .value .value} (h : Settles sink c (.push task stack))
    (htask : ∀ v σ, v.IsPlain → State.Plain sink σ →
      Settles sink (.resumeValue v task stack σ) stack) : Settles sink c stack := by
  obtain ⟨d, result, σ, hrun, hσ, hresult⟩ := h
  cases result with
  | ok v => exact Settles.before (n := 1) (htask v σ (hresult v rfl) hσ) rfl |>.before hrun
  | error failure =>
      have hleave : task.leave σ = σ := by
        cases task <;> rfl
      have hfail : Settles sink (.fail (a := .value) failure stack (task.leave σ)) stack := by
        rw [hleave]
        exact settles_fail hσ failure
      exact Settles.before (n := 1) hfail rfl |>.before hrun

theorem settles_readVariable (hσ : σ.Plain sink) (id : NodeId) (name : Token) :
    Settles sink (.readVariable id name stack σ) stack := by
  unfold Config.readVariable
  split
  · next v hv => exact settles_answer hσ (hσ.isPlain_of_lookup? hv)
  · exact settles_fail hσ _

theorem settles_assignVariable (hσ : σ.Plain sink) (hv : v.IsPlain) (id : NodeId) (name : Token) :
    Settles sink (.assignVariable id name v stack σ) stack := by
  unfold Config.assignVariable
  split
  · exact settles_answer (hσ.defineIn hv) hv
  · exact settles_fail hσ _

theorem settles_readSuper (hσ : σ.Plain sink) (id : NodeId) (keyword method : Token) :
    Settles sink (.readSuper id keyword method stack σ) stack := by
  unfold Config.readSuper
  rw [State.superMethod, hσ.distances]
  exact settles_fail hσ _

theorem settles_call (hσ : σ.Plain sink) (hv : v.IsPlain) (paren : Token)
    (arguments : List Value) : Settles sink (.call v paren arguments stack σ) stack := by
  rcases Config.call_cases v paren arguments stack σ with
    ⟨fault, -, heq⟩ | ⟨native, rfl, heq⟩ | ⟨f, rfl, -, -⟩ | ⟨c, rfl, -, -⟩
  · rw [heq]
    exact settles_fail hσ _
  · rw [heq]
    obtain ⟨hvalue, hstate⟩ := hσ.callNative native
    exact settles_answer hstate hvalue
  · cases hv
  · cases hv

end Settles

mutual

/-- The evaluation of an expression ends. -/
theorem settles_eval : ∀ (e : Expr) {σ : State}, σ.Plain sink → ∀ stack : Stack final .value,
    Settles sink (.eval e stack σ) stack
  | .literal v, _, hσ, stack => (settles_answer hσ (isPlain_literal v)).before (n := 1) rfl
  | .group inner, _, hσ, stack => (settles_eval inner hσ stack).before (n := 1) rfl
  | .unary operator operand, _, hσ, stack => by
      apply Settles.before (n := 1) ?_ rfl
      apply (settles_eval operand hσ (.push (.unary operator) stack)).resume
      intro v σ _ hσ
      exact settles_ofExcept hσ fun w hw => isPlain_applyUnary hw
  | .binary left operator right, _, hσ, stack => by
      apply Settles.before (n := 1) ?_ rfl
      apply (settles_eval left hσ (.push (.binaryLeft operator right) stack)).resume
      intro v σ _ hσ
      apply (settles_eval right hσ (.push (.binaryRight v operator) stack)).resume
      intro w σ _ hσ
      exact settles_ofExcept hσ fun u hu => isPlain_applyBinary hu
  | .logical left operator right, _, hσ, stack => by
      apply Settles.before (n := 1) ?_ rfl
      apply (settles_eval left hσ (.push (.logical operator right) stack)).resume
      intro v σ hv hσ
      rw [Config.resumeValue]
      split
      · exact settles_answer hσ hv
      · exact settles_eval right hσ stack
  | .conditional c t e, _, hσ, stack => by
      apply Settles.before (n := 1) ?_ rfl
      apply (settles_eval c hσ (.push (.conditional t e) stack)).resume
      intro v σ _ hσ
      rw [Config.resumeValue]
      split
      · exact settles_eval t hσ stack
      · exact settles_eval e hσ stack
  | .var id name, _, hσ, stack => (settles_readVariable hσ id name).before (n := 1) rfl
  | .assign id name value, _, hσ, stack => by
      apply Settles.before (n := 1) ?_ rfl
      apply (settles_eval value hσ (.push (.assign id name) stack)).resume
      intro v σ hv hσ
      exact settles_assignVariable hσ hv id name
  | .call callee paren arguments, _, hσ, stack => by
      apply Settles.before (n := 1) ?_ rfl
      apply (settles_eval callee hσ (.push (.callee paren arguments) stack)).resume
      intro v σ hv hσ
      exact settles_callWith arguments hσ hv paren [] stack
  | .get object name, _, hσ, stack => by
      apply Settles.before (n := 1) ?_ rfl
      apply (settles_eval object hσ (.push (.get name) stack)).resume
      intro v σ hv hσ
      cases v with
      | object o => cases hv
      | _ => exact settles_fail hσ _
  | .set object name value, _, hσ, stack => by
      apply Settles.before (n := 1) ?_ rfl
      apply (settles_eval object hσ (.push (.setObject name value) stack)).resume
      intro v σ hv hσ
      cases v with
      | object o => cases hv
      | _ => exact settles_fail hσ _
  | .this id keyword, _, hσ, stack => (settles_readVariable hσ id keyword).before (n := 1) rfl
  | .super id keyword method, _, hσ, stack =>
      (settles_readSuper hσ id keyword method).before (n := 1) rfl

/-- The evaluation of arguments and the call behind it end. -/
theorem settles_callWith : ∀ (es : List Expr) {σ : State}, σ.Plain sink → ∀ {v : Value},
    v.IsPlain → ∀ (paren : Token) (done : List Value) (stack : Stack final .value),
    Settles sink (.callWith v paren done es stack σ) stack
  | [], _, hσ, _, hv, paren, done, stack => settles_call hσ hv paren done.reverse
  | e :: es, _, hσ, v, hv, paren, done, stack => by
      rw [Config.callWith]
      apply (settles_eval e hσ (.push (.argument v paren done es) stack)).resume
      intro w σ _ hσ
      exact settles_callWith es hσ hv paren (w :: done) stack

end

end Machine

end Lox
