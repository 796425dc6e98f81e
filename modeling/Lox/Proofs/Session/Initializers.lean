import Mathlib
import Lox.Proofs.Calls.Initializers
import Lox.Proofs.Methods.Bound
import Lox.Proofs.Session.History

/-!
# Initializers in a session

In every state that a session comes to, a call of a class gives a new object of this class, and a call
of an initializer gives the object that the initializer was bound to when it was obtained, no matter in
which run that was and where the initializer was kept since.
-/

namespace Lox

namespace Machine.Config

variable {inner final : Answer}

theorem written?_onto {c : Config inner} {x : String} (h : c.written? = some x)
    (base : Stack final inner) : (c.onto base).written? = some x := by
  unfold written? at h
  split at h <;> cases h <;> rfl

end Machine.Config

namespace Session

open Machine (State Config Outcome BoundMethod)

variable {s s' : Session} {source : String} {program : List Stmt} {moments : Config .flow → Prop}
  {n : Nat} {c : Config .flow}

theorem bindsMethods_initial (sink : Sink) (time : Nat → Float) :
    (Session.initial sink time).σ.BindsMethods (fun _ : Config .flow => False)
      (Session.initial sink time).σ.Holds := by
  refine ⟨fun v hv => ?_, ?_⟩
  · obtain rfl := State.eq_native_of_holds_initial hv
    trivial
  · rintro b ⟨m, hm, -⟩
    exact hm.elim

theorem state_ofProgram (program : List Stmt) (σ : State) :
    (Config.ofProgram program σ).state = σ := by
  unfold Config.ofProgram Config.inProgram
  split
  · rfl
  · split <;> rfl

/-- Every moment of the run keeps what has been bound, and what is obtained joins it. -/
theorem ReachedThrough.bindsMethods_moment (hs : s.ReachedThrough moments)
    (h : s.σ.BindsMethods moments s.σ.Holds) (hcheck : s.check source = (some program, s'))
    (hc : (Config.ofProgram program s'.σ).advance n = .inl c) :
    c.state.BindsMethods (Earlier moments (Config.ofProgram program s'.σ) n) c.Holds := by
  refine Config.holds_of_advance (P := fun k d => d.state.BindsMethods
    (Earlier moments (Config.ofProgram program s'.σ) k) d.Holds) ?_ ?_ hc
  · obtain ⟨hframes, hobjects⟩ := frames_check hcheck
    rw [earlier_zero, state_ofProgram]
    refine h.congr hframes hobjects fun v hv => ?_
    have hheld : s'.σ.Holds v :=
      Config.HoldsOnly.inProgram (P := s'.σ.Holds) (fun _ => id) (fun _ => False.elim) program v hv
    exact hheld.congr hframes hobjects
  · intro k d d' hd hbinds hstep
    rw [earlier_succ hd]
    exact hbinds.step (hs.housed_advance hcheck hd) hstep

theorem ReachedThrough.bindsMethods (hs : s.ReachedThrough moments) :
    s.σ.BindsMethods moments s.σ.Holds := by
  induction hs with
  | initial sink time => exact bindsMethods_initial sink time
  | @run s s' moments steps source status hs hrun ih =>
      rcases run_cases hrun with ⟨hcheck, -⟩ | ⟨program, t, hcheck, hrun⟩
      · obtain ⟨hframes, hobjects⟩ := frames_check hcheck
        simp only [not_passesThrough hcheck, or_false]
        exact ih.congr hframes hobjects fun v hv => hv.congr hframes hobjects
      · obtain ⟨outcome, hend, -, hσ, -⟩ := exists_outcome hrun
        obtain ⟨d, last, hd, hlast, hstep⟩ := Config.exists_end hend
        obtain ⟨hsettled, hstands⟩ := hs.bindsMethods_moment ih hcheck hlast
        rw [hσ, Config.state_of_end hstep]
        refine ⟨fun v hv => hsettled v (.of_state hv), ?_⟩
        rintro b ⟨m, hm, hb⟩
        have hearlier : Earlier moments (Config.ofProgram program t.σ) (d + 1) m :=
          hm.imp_right (passesThrough_iff hcheck (Config.advance_succ_of_end hlast hstep) m).mp
        rw [earlier_succ hlast] at hearlier
        rcases hearlier with hm | rfl
        · exact hstands b ⟨m, hm, hb⟩
        · obtain ⟨stack, σ, hgives, -⟩ := Config.step_of_obtains? hb
          rw [hgives] at hstep
          cases hstep

/-- At every moment of every run of a session, each initializer that is held is bound to an object.
A call of a class that does not fail gives an object that is new and of this very class. A call of a
method that was obtained as `init` from an instance or through `super`, in this run or in an earlier
one, gives the object that it was bound to if it does not fail. -/
theorem initializers_give_their_objects (hs : s.ReachedThrough moments)
    (hcheck : s.check source = (some program, s'))
    (hc : (Config.ofProgram program s'.σ).advance n = .inl c) :
    (∀ f, c.Holds (.function f) → f.isInitializer = true →
      ∃ object, f.BoundTo c.state.frames object ∧ ∃ o, c.state.objects[object]? = some o)
    ∧ (∀ d paren arguments m v τ,
        (Config.call (.cls d) paren arguments .done c.state : Config .value).advance m
          = .inr ⟨.ok v, τ⟩ →
        ∃ i o, v = .object i ∧ c.state.objects[i]? = none ∧ τ.objects[i]? = some o ∧ o.cls = d)
    ∧ ∀ k, c.calling? = some k → c.step = .inl ((k.start c.state).onto k.stack)
      ∧ ∀ b : BoundMethod, b.ObtainedDuring (Earlier moments (Config.ofProgram program s'.σ) n) →
        b.name = initializerName → k.callee = .function b.function →
        ∀ m v τ, (k.start c.state).advance m = .inr ⟨.ok v, τ⟩ → v = .object b.object := by
  obtain ⟨hsettled, hstands⟩ := hs.bindsMethods_moment hs.bindsMethods hcheck hc
  refine ⟨fun f => hsettled (.function f), fun d paren arguments m v τ => Config.object_of_class_call,
    fun k hk => ⟨Config.step_of_calling?_onto hk, fun b hb hname hcallee m v τ h => ?_⟩⟩
  obtain ⟨hiff, hbound⟩ := hstands b hb
  rw [Machine.Call.start, hcallee] at h
  refine Config.value_of_initializer (hiff.mpr hname) hbound (fun j d x hd hx => ?_) h
  -- The moments of the call are moments of the run, none of which writes to `this`.
  have hcalled : c.advance 1 = .inl ((k.start c.state).onto k.stack) := by
    rw [Config.advance, Config.step_of_calling?_onto hk]
    rfl
  have hmoment : (Config.ofProgram program s'.σ).advance (n + (1 + j)) = .inl (d.onto k.stack) := by
    rw [Config.advance_add hc, Config.advance_add hcalled, Machine.Call.start, hcallee]
    exact Config.advance_onto hd
  have hhoused := hs.housed_advance hcheck hmoment
  exact fun heq => hhoused.not_implicit_of_written? (Config.written?_onto hx k.stack) (.inl heq)

/-- The moment of the run of a source after this many steps, if it comes so far. -/
def moment? (s : Session) (source : String) (n : Nat) : Option (Config .flow) :=
  (s.check source).1.bind fun program =>
    ((Config.ofProgram program (s.check source).2.σ).advance n).getLeft?

theorem exists_of_moment? (h : s.moment? source n = some c) :
    ∃ program s', s.check source = (some program, s')
      ∧ (Config.ofProgram program s'.σ).advance n = .inl c := by
  obtain ⟨program, hprogram, h⟩ := Option.bind_eq_some_iff.mp h
  exact ⟨program, (s.check source).2, Prod.ext hprogram rfl, Sum.getLeft?_eq_some_iff.mp h⟩

/-- An inherited initializer that is kept in a variable. -/
def keepsInitializer : String :=
  "class A { init() { return; } } class B < A {} var b = B(); var f = b.init;"

/-- The initializer that is obtained from the instance. -/
def obtainedInitializer : Option BoundMethod :=
  ((initial .unlimited fun _ => 0).moment? keepsInitializer 19).bind Config.obtains?

/-- What is called in a later run, in a call that has a value. -/
def calledLater : Option Value :=
  ((initial .unlimited fun _ => 0).run 60 keepsInitializer).bind fun r =>
    (r.2.moment? "f();" 3).bind fun c => c.calling?.bind fun k =>
      ((k.start c.state).run 20).bind fun o => o.result.toOption.map fun _ => k.callee

/-- The initializer gives the instance that it was obtained from, in a later run. -/
theorem kept_initializer_gives_its_object :
    ∃ (s s' : Session) (moments : Config .flow → Prop) (program : List Stmt) (c : Config .flow)
      (k : Machine.Call .flow) (b : BoundMethod) (v : Value) (τ : State),
      s.ReachedThrough moments ∧ s.check "f();" = (some program, s')
        ∧ (Config.ofProgram program s'.σ).advance 3 = .inl c ∧ c.calling? = some k
        ∧ b.ObtainedDuring moments ∧ b.name = initializerName ∧ k.callee = .function b.function
        ∧ (k.start c.state).advance 20 = .inr ⟨.ok v, τ⟩ ∧ v = .object b.object := by
  have hname : obtainedInitializer.map BoundMethod.name = some initializerName := by
    decide +kernel
  have hsame : calledLater = obtainedInitializer.map fun b => .function b.function := by
    simp only [calledLater, obtainedInitializer, moment?, run, check, parse, Lexer.tokens,
      Lexer.errors, Lexer.items_eq_itemsFrom]
    cbv
  obtain ⟨b, hobtained, hname⟩ := Option.map_eq_some_iff.mp hname
  rw [hobtained, Option.map_some] at hsame
  obtain ⟨m, hm, hb⟩ := Option.bind_eq_some_iff.mp hobtained
  obtain ⟨first, t, hfirst, hm⟩ := exists_of_moment? hm
  have hpasses : (initial .unlimited fun _ => 0).PassesThrough keepsInitializer m :=
    ⟨first, t, 19, hfirst, hm⟩
  obtain ⟨⟨status, s⟩, hrun, hsame⟩ := Option.bind_eq_some_iff.mp hsame
  have hs := (ReachedThrough.initial .unlimited fun _ => 0).run hrun
  obtain ⟨c, hc, hsame⟩ := Option.bind_eq_some_iff.mp hsame
  obtain ⟨program, s', hcheck, hc⟩ := exists_of_moment? hc
  obtain ⟨k, hk, hsame⟩ := Option.bind_eq_some_iff.mp hsame
  obtain ⟨⟨result, τ⟩, hend, hsame⟩ := Option.bind_eq_some_iff.mp hsame
  obtain ⟨v, hv, hcallee⟩ := Option.map_eq_some_iff.mp hsame
  obtain rfl : result = .ok v := by
    cases result <;> cases hv
    rfl
  have hend := Sum.getRight?_eq_some_iff.mp hend
  refine ⟨s, s', _, program, c, k, b, v, τ, hs, hcheck, hc, hk, ⟨m, .inr hpasses, hb⟩, hname,
    hcallee, hend, ?_⟩
  exact ((initializers_give_their_objects hs hcheck hc).2.2 k hk).2 b
    ⟨m, .inl (.inr hpasses), hb⟩ hname hcallee 20 v τ hend

end Session

end Lox
