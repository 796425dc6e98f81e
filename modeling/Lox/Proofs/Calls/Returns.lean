import Lox.Proofs.Calls.Activations
import Lox.Proofs.Scope.Rules
import Lox.Proofs.Session.Invariant

/-!
# Returns

A return ends the call in which it is executed, and nothing else. At the top level there is none, since
the checks refuse it. In a call, the first return statement that the activation executes itself is the
last statement that it executes, and gives the value of the call.
-/

namespace Lox

namespace Machine

variable {inner final : Answer} {σ σ₀ τ : State} {v : Value}

namespace Config

/-- A run on top of pending tasks that does not fail hands them the answer of the run by itself. -/
theorem exists_answer {c : Config inner} {base : Stack final inner} {n : Nat} {y : final.Carrier}
    (h : (c.onto base).advance n = .inr ⟨.ok y, τ⟩) :
    ∃ d m c' x σ', n = d + m ∧ c.advance d = .inl c' ∧ c'.step = .inr ⟨.ok x, σ'⟩
      ∧ c'.onto base = .answer x base σ' ∧ (answer x base σ').advance m = .inr ⟨.ok y, τ⟩ := by
  cases hrun : c.advance n with
  | inl c' =>
      rw [advance_onto hrun] at h
      cases h
  | inr o =>
      obtain ⟨d, c', hd, hc', hend⟩ := exists_end hrun
      obtain ⟨m, rfl⟩ := Nat.exists_eq_add_of_le (Nat.le_of_lt hd)
      have honto := onto_of_end hend base
      rw [advance_add (advance_onto hc'), honto] at h
      obtain ⟨result, σ'⟩ := o
      cases result with
      | error failure => exact absurd (result_of_fail h) nofun
      | ok x => exact ⟨d, m, c', x, σ', rfl, hc', hend, honto, h⟩

end Config

/-- The value of a call whose body is left in this way. -/
def Flow.value : Flow → Value
  | .normal => .nil
  | .returned v => v

namespace Config

/-- The value is on its way through the tasks of the activation itself. -/
inductive Returning (v : Value) : Config .flow → Prop
  | intro {stack : Stack .flow .flow} (σ : State) (h : stack.bodies = 0) :
      Returning v (.answer (a := .flow) (.returned v) stack σ)

/-- Blocks and loops hand a return on. -/
theorem Returning.step {c c' : Config .flow} (hc : c.Returning v) (hrestores : c.Restores σ₀)
    (h : c.step = .inl c') : c'.Returning v := by
  cases hc with
  | @intro stack σ hbodies =>
      cases stack with
      | done => cases h
      | push task below =>
          cases h
          cases task with
          | loopBody c body => exact .intro σ hbodies
          | block rest outer => exact .intro (σ.within outer) hbodies
          | body f paren => cases hbodies
          | program rest =>
              cases hrestores.stack with
              | push htask hbelow => exact htask.elim

theorem Returning.result {c : Config .flow} {o : Outcome .flow} (hc : c.Returning v)
    (h : c.step = .inr o) : o.result = .ok (.returned v) := by
  obtain ⟨result, σ⟩ := o
  obtain rfl := step_eq_inr_iff.mp h
  cases result with
  | ok flow =>
      cases hc
      rfl
  | error failure => cases hc

/-- The value arrives where the activation is left, and nothing is executed on the way. -/
theorem Returning.ends {c : Config .flow} {n : Nat} {flow : Flow} (hc : c.Returning v)
    (hrestores : c.Restores σ₀) (hend : c.advance n = .inr ⟨.ok flow, τ⟩) :
    flow = .returned v ∧ ∀ j d, c.advance j = .inl d → d.executing? = none := by
  have hmoment {j : Nat} {d : Config .flow} (hd : c.advance j = .inl d) : d.Returning v :=
    holds_of_advance (P := fun _ d => d.Returning v) hc
      (fun hd hreturning hstep => hreturning.step (hrestores.advance hd) hstep) hd
  constructor
  · obtain ⟨d, c', -, hd, hlast⟩ := exists_end hend
    exact Except.ok.inj ((hmoment hd).result hlast)
  · intro j d hd
    cases hmoment hd
    rfl

end Config

/-- The value of a return statement that is executed in the state. -/
def ReturnsValue (σ : State) (v : Value) : Option Expr → Prop
  | none => v = .nil
  | some e => ∃ n τ, (Config.eval e .done σ : Config .value).advance n = .inr ⟨.ok v, τ⟩

namespace Config

/-- No statement of the activation itself is executed while an expression is evaluated. -/
theorem executing?_onto_ne {c : Config .value} {base : Stack final .value} (s : Stmt) :
    (c.onto base).executing? ≠ some (s, base.bodies) := by
  cases c with
  | exec t stack σ =>
      intro h
      obtain ⟨-, heq⟩ : t = s ∧ (stack.onto base).bodies = base.bodies := by
        simpa [onto, Config.executing?] using h
      have hpos := stack.bodies_pos rfl
      rw [stack.bodies_onto] at heq
      omega
  | _ => exact nofun

/-- A return statement that the activation itself executes is the last one, and gives the value that
the activation is left with. -/
theorem exists_returned {keyword : Token} {value : Option Expr} {stack : Stack .flow .flow} {n : Nat}
    {flow : Flow} (hbodies : stack.bodies = 0)
    (hrestores : (exec (.ret keyword value) stack σ).Restores σ₀)
    (hend : (exec (.ret keyword value) stack σ).advance n = .inr ⟨.ok flow, τ⟩) :
    ∃ v, flow = .returned v ∧ ReturnsValue σ v value
      ∧ ∀ j d s, 0 < j → (exec (.ret keyword value) stack σ).advance j = .inl d →
        d.executing? ≠ some (s, 0) := by
  cases n with
  | zero => cases hend
  | succ n =>
    cases value with
    | none =>
        have hnow : Returning .nil (.answer (a := .flow) (.returned .nil) stack σ) :=
          .intro σ hbodies
        obtain ⟨hflow, hmoments⟩ := hnow.ends (hrestores.step rfl) hend
        refine ⟨.nil, hflow, rfl, fun j d s hj hd => ?_⟩
        obtain ⟨j, rfl⟩ := Nat.exists_eq_succ_of_ne_zero (Nat.ne_of_gt hj)
        rw [hmoments j d hd]
        nofun
    | some e =>
        let start : Config .value := .eval e .done σ
        let base : Stack .flow .value := .push .ret stack
        have hbase : base.bodies = 0 := hbodies
        have hbegun : (start.onto base).Restores σ₀ := hrestores.step rfl
        have hevaluated : (start.onto base).advance n = .inr ⟨.ok flow, τ⟩ := hend
        obtain ⟨d, m, c, w, σ', rfl, hc, hvalue, hgiven, hrest⟩ := exists_answer hevaluated
        have hanswer := hbegun.advance (advance_onto hc)
        rw [hgiven] at hanswer
        cases m with
        | zero => cases hrest
        | succ m =>
          have hnow : Returning w (.answer (a := .flow) (.returned w) stack σ') :=
            .intro σ' hbodies
          obtain ⟨hflow, hmoments⟩ := hnow.ends (hanswer.step rfl) hrest
          refine ⟨w, hflow, ⟨d + 1, σ', ?_⟩, fun j d' s hj hd' => ?_⟩
          · exact advance_succ_of_end hc hvalue
          · obtain ⟨j, rfl⟩ := Nat.exists_eq_succ_of_ne_zero (Nat.ne_of_gt hj)
            have hmoment : (start.onto base).advance j = .inl d' := hd'
            rcases Nat.lt_or_ge d j with hlt | hle
            · obtain ⟨i, rfl⟩ := Nat.exists_eq_add_of_lt hlt
              rw [Nat.add_assoc, advance_add (advance_onto hc), hgiven] at hmoment
              rw [hmoments i d' hmoment]
              nofun
            · obtain ⟨c₁, hc₁⟩ := exists_of_le hc hle
              rw [advance_onto hc₁] at hmoment
              cases hmoment
              rw [← hbase]
              exact executing?_onto_ne s

/-! ## Calls -/

/-- A call of a function that does not fail runs its body, from which the environment of the caller is
restored, and then gives what the body is left with. -/
theorem exists_body {f : Closure} {paren : Token} {arguments : List Value} {n : Nat}
    (h : (call (.function f) paren arguments .done σ : Config .value).advance n = .inr ⟨.ok v, τ⟩) :
    ∃ body : Config .flow, ∃ σ₀, body.Restores σ₀ ∧ body.Guarded (fun _ => True)
      ∧ call (.function f) paren arguments .done σ = body.onto (.push (.body f paren) .done) := by
  have herror {fault : Fault}
      (hfails : (faultAt fault paren .done σ : Config .value).advance n = .inr ⟨.ok v, τ⟩) : False :=
    absurd (result_of_fail hfails) nofun
  rw [call, arity?] at h ⊢
  dsimp only at h ⊢
  split at h
  · exact (herror h).elim
  · rw [callFunction] at h
    split at h
    · exact (herror h).elim
    · next harity hdepth =>
      rw [if_neg harity, callFunction, if_neg hdepth]
      let entered : State := σ.enter (.ofPairs ((f.decl.params.map Token.lexeme).zip arguments)) f.chain
      let σ₁ : State := { entered with depth := σ.depth + 1 }
      refine ⟨inBlock f.decl.body σ.chain .done σ₁, σ₁.within σ.chain, ?_, ?_, ?_⟩
      · have hlt : (σ₁.within σ.chain).depth ≤ maxDepth := Nat.lt_of_not_le hdepth
        exact restores_inBlock (σ := σ₁) σ.chain ⟨hlt, .done rfl rfl⟩ f.decl.body
      · have hdone : Stack.Guarded (fun _ => True) (.done : Stack .flow .flow) := trivial
        exact guarded_inBlock (fun _ _ _ => trivial) hdone σ.chain
      · exact (onto_inBlock f.decl.body σ.chain .done).symm

/-- Behind the body of a function, no statement is executed before the call has its value. -/
theorem executing?_behind_body {f : Closure} {paren : Token} {flow : Flow} {n : Nat}
    {d : Config .value}
    (h : (answer (a := .flow) flow (.push (.body f paren) .done) σ).advance n = .inl d) :
    d.executing? = none := by
  cases n with
  | zero =>
      cases h
      rfl
  | succ n =>
      obtain ⟨o, hend⟩ : ∃ o, (endCall f paren flow .done σ : Config .value).step = .inr o := by
        unfold endCall
        dsimp only
        split
        · split <;> exact ⟨_, rfl⟩
        · cases flow <;> exact ⟨_, rfl⟩
      rw [eq_of_end hend h, step_eq_inr_iff.mp hend]
      obtain ⟨result, τ⟩ := o
      cases result <;> rfl

theorem eq_of_endCall {f : Closure} {paren : Token} {flow : Flow} {n : Nat}
    (hf : f.isInitializer = false)
    (h : (answer (a := .flow) flow (.push (.body f paren) .done) σ).advance n = .inr ⟨.ok v, τ⟩) :
    v = flow.value := by
  cases n with
  | zero => cases h
  | succ n =>
      have hend : (endCall f paren flow .done σ : Config .value).advance n = .inr ⟨.ok v, τ⟩ := h
      unfold endCall at hend
      rw [hf] at hend
      cases flow with
      | normal =>
          cases outcome_eq_of_end rfl hend
          rfl
      | returned w =>
          cases outcome_eq_of_end rfl hend
          rfl

theorem executing?_onto_eq_iff {c : Config inner} {base : Stack final inner} {s : Stmt} :
    (c.onto base).executing? = some (s, base.bodies) ↔ c.executing? = some (s, 0) := by
  simp [executing?_onto, Option.map_eq_some_iff, Prod.ext_iff]

theorem returns_onto_iff {c : Config inner} {base : Stack final inner} :
    (c.onto base).Returns base.bodies ↔ c.Returns 0 := by
  simp only [Returns, executing?_onto_eq_iff]

/-- A moment of the call belongs to the body, or comes behind it, where no statement is executed. -/
theorem moment_of_body {f : Closure} {paren : Token} {body last : Config .flow} {flow : Flow}
    {d j : Nat} {c : Config .value} (hlast : body.advance d = .inl last)
    (hgiven : last.onto (.push (.body f paren) .done)
      = .answer (a := .flow) flow (.push (.body f paren) .done) σ)
    (hc : (body.onto (.push (.body f paren) (.done : Stack .value .value))).advance j = .inl c) :
    (∃ c₁, body.advance j = .inl c₁ ∧ c = c₁.onto (.push (.body f paren) .done))
      ∨ ∀ s k, c.executing? ≠ some (s, k) := by
  rcases Nat.lt_or_ge d j with hlt | hle
  · obtain ⟨i, rfl⟩ := Nat.exists_eq_add_of_le (Nat.le_of_lt hlt)
    rw [advance_add (advance_onto hlast), hgiven] at hc
    refine .inr fun s k hs => ?_
    rw [executing?_behind_body hc] at hs
    cases hs
  · obtain ⟨c₁, hc₁⟩ := exists_of_le hlast hle
    rw [advance_onto hc₁] at hc
    exact .inl ⟨c₁, hc₁, (Sum.inl.inj hc).symm⟩

/-- The value of a call that does not fail is that of the first return statement that the activation
itself executes, behind which it executes no other statement, or `nil` if it executes none. -/
theorem value_of_call {f : Closure} {paren : Token} {arguments : List Value} {n : Nat}
    (hf : f.isInitializer = false)
    (h : (call (.function f) paren arguments .done σ : Config .value).advance n = .inr ⟨.ok v, τ⟩) :
    (v = .nil ∧ ∀ j d, (call (.function f) paren arguments .done σ : Config .value).advance j
        = .inl d → ¬ d.Returns 1)
      ∨ ∃ i keyword value stack σ',
        (call (.function f) paren arguments .done σ : Config .value).advance i
            = .inl (.exec (.ret keyword value) stack σ')
          ∧ stack.bodies = 1 ∧ ReturnsValue σ' v value
          ∧ ∀ j d, (call (.function f) paren arguments .done σ : Config .value).advance j = .inl d →
            (j < i → ¬ d.Returns 1) ∧ (i < j → ∀ s, d.executing? ≠ some (s, 1)) := by
  obtain ⟨body, σ₀, hrestores, hguarded, hcall⟩ := exists_body h
  let base : Stack .value .flow := .push (.body f paren) .done
  rw [hcall] at h ⊢
  obtain ⟨d, m, last, flow, σ', rfl, hlast, hleft, hgiven, hrest⟩ := exists_answer h
  obtain rfl : v = flow.value := eq_of_endCall hf hrest
  by_cases hreturns : ∃ i c, body.advance i = .inl c ∧ c.Returns 0
  · classical
    obtain ⟨c, hc, keyword, value, hexec⟩ := Nat.find_spec hreturns
    have hfirst {j : Nat} (hj : j < Nat.find hreturns) {c : Config .flow}
        (hc : body.advance j = .inl c) : ¬ c.Returns 0 := fun hret =>
      Nat.find_min hreturns hj ⟨c, hc, hret⟩
    generalize Nat.find hreturns = i at hc hfirst
    cases c with
    | exec s stack σ₁ =>
        obtain ⟨rfl, hbodies⟩ : s = .ret keyword value ∧ stack.bodies = 0 := by
          simpa [executing?] using hexec
        have hend : body.advance (i + (d + 1)) = .inr ⟨.ok flow, σ'⟩ := by
          rw [Nat.add_comm]
          exact advance_of_end (advance_succ_of_end hlast hleft) i
        rw [advance_add hc] at hend
        obtain ⟨w, rfl, hvalue, hbehind⟩ :=
          exists_returned hbodies (hrestores.advance hc) hend
        refine .inr ⟨i, keyword, value, stack.onto base, σ₁, advance_onto hc, ?_, hvalue, ?_⟩
        · rw [stack.bodies_onto, hbodies]
          rfl
        · intro j c' hc'
          rcases moment_of_body hlast hgiven hc' with ⟨c₁, hc₁, rfl⟩ | hnone
          · refine ⟨fun hj hret => hfirst hj hc₁ (returns_onto_iff.mp hret), fun hj s hs => ?_⟩
            obtain ⟨r, rfl⟩ := Nat.exists_eq_add_of_lt hj
            rw [Nat.add_assoc, advance_add hc] at hc₁
            exact hbehind (r + 1) c₁ s (Nat.succ_pos r) hc₁ (executing?_onto_eq_iff.mp hs)
          · refine ⟨fun _ hret => ?_, fun _ s => hnone s 1⟩
            obtain ⟨keyword, value, hs⟩ := hret
            exact hnone _ 1 hs
    | _ => cases hexec
  · have hnormal : flow = .normal := by
      refine (hguarded.advance (fun _ _ _ _ => trivial) ?_ hlast).normal_of_end hleft
      exact fun i c _ hc _ hret => hreturns ⟨i, c, hc, hret⟩
    subst hnormal
    refine .inl ⟨rfl, fun j c hc hret => ?_⟩
    rcases moment_of_body hlast hgiven hc with ⟨c₁, hc₁, rfl⟩ | hnone
    · exact hreturns ⟨j, c₁, hc₁, returns_onto_iff.mp hret⟩
    · obtain ⟨keyword, value, hs⟩ := hret
      exact hnone _ 1 hs

end Config

end Machine

/-! ## Top-level code -/

/-- The statement stands in the program outside of all functions and methods. -/
def StandsOutside (program : List Stmt) (s : Stmt) : Prop :=
  ∃ around, Stands program around s ∧ nearestCallable around = none

variable {program : List Stmt}

/-- What a statement runs itself stands in no other function than the statement. -/
theorem StandsOutside.runs {s t : Stmt} (h : StandsOutside program s) (ht : t ∈ s.runs) :
    StandsOutside program t := by
  obtain ⟨around, hs, hnone⟩ := h
  cases s with
  | block body => exact ⟨.block :: around, hs.inBlock ht, hnone⟩
  | _ => exact ⟨around, hs.branch ht, hnone⟩

namespace Session

open Machine (Answer State Config Call Flow ReturnsValue)

variable {s s' : Session} {source : String}

/-- No return statement of an accepted source stands outside of all functions. -/
theorem not_returns_of_check (hcheck : s.check source = (some program, s')) {final : Answer}
    {c : Config final} (hc : c.Guarded (StandsOutside program)) : ¬ c.Returns 0 := by
  rintro ⟨keyword, value, hexec⟩
  cases c with
  | exec t stack σ =>
      obtain ⟨rfl, hbodies⟩ : t = .ret keyword value ∧ stack.bodies = 0 := by
        simpa [Config.executing?] using hexec
      obtain ⟨around, hs, hnone⟩ := hc.1 hbodies
      obtain ⟨-, -, hclean, -⟩ := check_eq_some (Q := fun _ => True) (fun _ _ => trivial) hcheck
      exact Resolution.not_breaksRule hclean (.topLevelReturn hs hnone)
  | _ => cases hexec

/-- In a session in any state: no top-level statement of an accepted source ends with a return,
whatever state it is executed in, and in the run of the source none does. And whatever function is
called that is no initializer: if the call does not fail, then its value is that of the first return
statement that the activation itself executes, behind which it executes no other statement, or `nil`
if it executes none. -/
theorem return_ends_its_call (hcheck : s.check source = (some program, s')) :
    (∀ st ∈ program, ∀ (τ τ' : State) (n : Nat) (flow : Flow),
        (Config.exec st .done τ : Config .flow).advance n = .inr ⟨.ok flow, τ'⟩ → flow = .normal)
      ∧ (∀ (n : Nat) (flow : Flow) (rest : List Stmt) (σ : State),
        (Config.ofProgram program s'.σ).advance n
          = .inl (.answer (a := .flow) flow (.push (.program rest) .done) σ) → flow = .normal)
      ∧ ∀ {final : Answer} (c : Config final) (k : Call final) (f : Closure),
        c.calling? = some k → k.callee = .function f → f.isInitializer = false →
        c.step = .inl ((k.start c.state).onto k.stack)
          ∧ ∀ (n : Nat) (v : Value) (τ : State), (k.start c.state).advance n = .inr ⟨.ok v, τ⟩ →
            (v = .nil ∧ ∀ j d, (k.start c.state).advance j = .inl d → ¬ d.Returns 1)
              ∨ ∃ i keyword value stack σ,
                (k.start c.state).advance i = .inl (.exec (.ret keyword value) stack σ)
                  ∧ stack.bodies = 1 ∧ ReturnsValue σ v value
                  ∧ ∀ j d, (k.start c.state).advance j = .inl d →
                    (j < i → ¬ d.Returns 1) ∧ (i < j → ∀ t, d.executing? ≠ some (t, 1)) := by
  have hruns : ∀ t, StandsOutside program t → ∀ u ∈ t.runs, StandsOutside program u :=
    fun t ht u hu => ht.runs hu
  have htop : ∀ t ∈ program, StandsOutside program t := fun t ht => ⟨[], .top ht, rfl⟩
  refine ⟨fun st hst τ τ' n flow hend => ?_, fun n flow rest σ hc => ?_,
    fun c k f hk hf hinit => ⟨Config.step_of_calling?_onto hk, fun n v τ hend => ?_⟩⟩
  · obtain ⟨d, c, -, hc, hlast⟩ := Config.exists_end hend
    have hstart : (Config.exec st .done τ : Config .flow).Guarded (StandsOutside program) :=
      ⟨fun _ => htop st hst, trivial⟩
    refine (hstart.advance hruns (fun _ _ _ _ hd => ?_) hc).normal_of_end hlast
    exact not_returns_of_check hcheck hd
  · have hdone : Machine.Stack.Guarded (StandsOutside program) (.done : Machine.Stack .flow .flow) :=
      trivial
    have hstart : (Config.ofProgram program s'.σ).Guarded (StandsOutside program) :=
      Config.guarded_inProgram (fun _ => htop) hdone
    exact (hstart.advance hruns (fun _ _ _ _ hd => not_returns_of_check hcheck hd) hc).1 rfl
  · rw [Call.start, hf] at hend ⊢
    exact Config.value_of_call hinit hend

/-- The text of what a call of a function gives that is no initializer. -/
def textOfCall (c : Config .flow) : Option String :=
  c.calling?.bind fun k =>
    match k.callee with
    | .function ⟨_, _, _, false⟩ =>
        ((k.start c.state).run 60).bind fun o =>
          match o.result with
          | .ok v => some (o.σ.display v)
          | .error _ => none
    | _ => none

/-- The return of the inner call is not that of the outer one, which goes on. -/
theorem outer_call_gives_own_return :
    ∃ (program : List Stmt) (s' : Session) (c : Config .flow) (k : Call .flow) (v : Value)
      (τ : State), (initial .unlimited fun _ => 0).check
          "fun g() { return false; } fun f() { g(); while (true) { return true; } } print f();"
        = (some program, s')
        ∧ (Config.ofProgram program s'.σ).advance 7 = .inl c ∧ c.calling? = some k
        ∧ (k.start c.state).advance 60 = .inr ⟨.ok v, τ⟩ ∧ τ.display v = "true"
        ∧ ∃ i keyword value stack σ,
          (k.start c.state).advance i = .inl (.exec (.ret keyword value) stack σ)
            ∧ stack.bodies = 1 ∧ ReturnsValue σ v value := by
  have h : (((initial .unlimited fun _ => 0).check
      "fun g() { return false; } fun f() { g(); while (true) { return true; } } print f();").1.bind
        fun program => ((Config.ofProgram program ((initial .unlimited fun _ => 0).check
          "fun g() { return false; } fun f() { g(); while (true) { return true; } } print f();"
            ).2.σ).advance 7).getLeft?.bind textOfCall) = some "true" := by
    decide +kernel
  generalize hcheck : (initial .unlimited fun _ => 0).check _ = checked at h
  obtain ⟨checked, s'⟩ := checked
  obtain ⟨program, rfl, h⟩ := Option.bind_eq_some_iff.mp h
  obtain ⟨c, hc, h⟩ := Option.bind_eq_some_iff.mp h
  obtain ⟨k, hk, h⟩ := Option.bind_eq_some_iff.mp h
  split at h
  · next id decl chain hf =>
    obtain ⟨o, ho, h⟩ := Option.bind_eq_some_iff.mp h
    obtain ⟨result, τ⟩ := o
    cases result with
    | error failure => cases h
    | ok v =>
        have hend := Sum.getRight?_eq_some_iff.mp ho
        have hdisplay : τ.display v = "true" := Option.some.inj h
        refine ⟨program, s', c, k, v, τ, rfl, Sum.getLeft?_eq_some_iff.mp hc, hk, hend, hdisplay, ?_⟩
        rcases ((return_ends_its_call hcheck).2.2 c k _ hk hf rfl).2 60 v τ hend with
          ⟨rfl, -⟩ | ⟨i, keyword, value, stack, σ, hi, hbodies, hvalue, -⟩
        · exact absurd hdisplay (by decide : "nil" ≠ "true")
        · exact ⟨i, keyword, value, stack, σ, hi, hbodies, hvalue⟩
  · cases h

end Session

end Lox
