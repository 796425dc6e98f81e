import Lox.Proofs.Machine.Declarations
import Lox.Proofs.Session.History

/-!
# Faults that never occur

An evaluation checks some things that cannot go wrong: that an operator is one it knows, that `super`
stands in a method of a class that extends another one, that a class is still declared once it is
made, and that an initializer belongs to an object. In a session with any history, no run of an
accepted source ever fails one of these checks.
-/

namespace Lox

open Machine (Answer State Config Stack Fault Failure Flow)

namespace Machine

theorem append_notMem {start rest : String} {ss : List String}
    (h : ∀ s ∈ ss, ¬ start.toList <+: s.toList) : start ++ rest ∉ ss :=
  fun hmem => h _ hmem (by simp)

/-- No other fault has the wording of one that the checks exclude. -/
theorem Fault.message_notMem {f : Fault} (h : ¬ f.Excluded) :
    f.message ∉ ["Invalid unary operator.", "Invalid binary operator.",
      "Can't use 'super' here."] := by
  cases f with
  | superUnavailable | invalidUnary | invalidBinary => exact absurd trivial h
  | undefinedVariable name =>
      change "Undefined variable '" ++ name ++ "'." ∉ _
      rw [String.append_assoc]
      exact append_notMem (by decide +kernel)
  | undefinedProperty name =>
      change "Undefined property '" ++ name ++ "'." ∉ _
      rw [String.append_assoc]
      exact append_notMem (by decide +kernel)
  | wrongArity expected got =>
      change "Expected " ++ Nat.repr expected ++ " arguments but got " ++ Nat.repr got ++ "." ∉ _
      simp only [String.append_assoc]
      exact append_notMem (by decide +kernel)
  | _ => decide

/-- A step that declares a class completes a declaration. -/
theorem Config.step_of_declares? {final : Answer} {c : Config final} {d : Class}
    {parent : Option Class} (h : c.declares? = some (d, parent)) :
    ∃ name stack c', c.declaring? = some (name, stack) ∧ c.step = .inl c' := by
  unfold Config.declares? at h
  split at h
  · exact ⟨_, _, _, rfl, rfl⟩
  · split at h
    · exact ⟨_, _, _, rfl, rfl⟩
    · cases h
  · cases h

/-- The body of an initializer has just ended. -/
def Config.endsInitializer {final : Answer} : Config final → Bool
  | .answer (a := .flow) _ (.push (.body f _) _) _ => f.isInitializer
  | _ => false

end Machine

namespace Session

variable {s s' : Session} {source : String} {program : List Stmt} {n : Nat}

/-- At every moment of the run of an accepted source, in a session with any history: a fault that has
occurred is none of those for unknown operators and a missing `super`; to read `super` can only fail
with an undefined property; the declaration of a class that has been made completes; and behind the
body of an initializer, its object is found. -/
theorem defensive_checks_never_fail (hs : s.Reachable) (hcheck : s.check source = (some program, s'))
    {c : Config .flow} (hc : (Config.ofProgram program s'.σ).advance n = .inl c) :
    (∀ (a : Answer) (fault : Fault) (line : Nat) (stack : Stack .flow a) (σ : State),
        c = .fail (.fault fault line) stack σ →
        fault.message ∉ ["Invalid unary operator.", "Invalid binary operator.",
          "Can't use 'super' here."])
      ∧ (∀ (id : NodeId) (keyword method : Token) (stack : Stack .flow .value) (σ : State)
          (failure : Failure), c = .eval (.super id keyword method) stack σ →
          σ.superMethod id keyword method = .error failure →
          failure = .fault (.undefinedProperty method.lexeme) method.line)
      ∧ (∀ (d : Class) (parent : Option Class), c.declares? = some (d, parent) →
          ∃ stack σ, c.step = .inl (.answer (a := .flow) .normal stack σ))
      ∧ ∀ (flow : Flow) (f : Closure) (paren : Token) (stack : Stack .flow .value) (σ : State),
          c = .answer (a := .flow) flow (.push (.body f paren) stack) σ →
          f.isInitializer = true →
          ∃ object, σ.frames.getAt f.chain 0 "this" = some (.object object) := by
  obtain ⟨moments, hmoments⟩ := hs.exists_moments
  have hhoused := hmoments.housed_advance hcheck hc
  have hscoped := hs.scoped_advance hcheck hc
  refine ⟨?_, ?_, fun d parent hdeclares => ?_, ?_⟩
  · rintro a fault line stack σ rfl
    cases hhoused with
    | fail hσ hfailure => exact Fault.message_notMem hfailure
  · rintro id keyword method stack σ failure rfl hfailure
    cases hhoused with
    | eval hσ he hstack =>
      obtain ⟨hkeyword, hhomes⟩ := he
      -- The use has a home, so that both frames are there and only the method may be missing.
      obtain ⟨home, m, k, f, object, hhome⟩ := hhomes (id, 0) (by simp)
      obtain ⟨superclass, hsuperclass, -⟩ := hhome.exists_superclass
      rw [hhome.superMethod_eq (by simpa using hkeyword) hsuperclass
        fun id r hid => hscoped.knows hid] at hfailure
      split at hfailure <;> cases hfailure
      rfl
  · obtain ⟨name, stack, c', hdeclaring, hstep⟩ := Config.step_of_declares? hdeclares
    have heffect := hscoped.effect_step hstep
    rw [hdeclaring] at heffect
    obtain ⟨σ, rfl, -⟩ := heffect.answers
    exact ⟨stack, σ, hstep⟩
  · rintro flow f paren stack σ rfl hinitializer
    cases hhoused with
    | answer hσ hx hstack =>
      cases hstack with
      | push htask hbelow =>
        obtain ⟨g, outer, object, hchain, hg⟩ := htask.receiver hinitializer
        exact ⟨object, by simp [Frames.getAt, hchain, hg]⟩

/-- Behind the body of the initializer of a class from an aborted run, its object is found. -/
theorem initializer_after_aborted_run :
    ∃ (s s' : Session) (program : List Stmt) (flow : Flow) (f : Closure) (paren : Token)
      (stack : Stack .flow .value) (σ : State) (object : ObjectId),
      s.Reachable ∧ s.check "B();" = (some program, s')
        ∧ (Config.ofProgram program s'.σ).advance 11
          = .inl (.answer (a := .flow) flow (.push (.body f paren) stack) σ)
        ∧ f.isInitializer = true ∧ σ.frames.getAt f.chain 0 "this" = some (.object object) := by
  have h : (((initial .unlimited fun _ => 0).run 80
      "class A { m() {} } class B < A { init() { super.m(); } } nil.x;").bind fun r =>
        (r.2.check "B();").1.bind fun program =>
          ((Config.ofProgram program (r.2.check "B();").2.σ).advance 11).getLeft?.map
            Config.endsInitializer)
      = some true := by
    decide +kernel
  simp only [Option.bind_eq_some_iff, Option.map_eq_some_iff] at h
  obtain ⟨⟨status, s⟩, hrun, program, hprogram, c, hget, hinitializer⟩ := h
  have hc := Sum.getLeft?_eq_some_iff.mp hget
  have hs := Reachable.run (.initial .unlimited fun _ => 0) hrun
  have hcheck : s.check "B();" = (some program, (s.check "B();").2) := by rw [← hprogram]
  obtain ⟨-, -, -, hthis⟩ := defensive_checks_never_fail hs hcheck hc
  unfold Config.endsInitializer at hinitializer
  split at hinitializer
  · next flow f paren stack σ =>
    obtain ⟨object, hobject⟩ := hthis flow f paren stack σ rfl hinitializer
    exact ⟨s, _, program, flow, f, paren, stack, σ, object, hs, hcheck, hc, hinitializer, hobject⟩
  · cases hinitializer

end Session

end Lox
