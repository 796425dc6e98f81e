import Lox.Proofs.Methods.Ancestry
import Lox.Proofs.Session.Globals
import Lox.Proofs.Session.History

/-!
# Ancestry over all runs

Whatever statements an interpreter has executed, and however they ended, the classes that exist extend
older ones, and a method comes from the nearest class that declares one of its name. The names of
classes play no part in this, and can be bound to anything.
-/

namespace Lox

open Machine (State Config Outcome Completes CompleteInOrder Ends globalFrame)
open Session (Earlier earlier_zero earlier_succ)

namespace Machine

variable {σ : State} {moments : Config .flow → Prop} {start c : Config .flow} {n : Nat}

/-- The state is reached from that of a new interpreter by executing any statements, which come to
these moments and may end in any way. In between, distances may be recorded and the state may be reset
to the top level. -/
inductive State.ReachedThrough : State → (Config .flow → Prop) → Prop
  | initial (sink : Sink) (time : Nat → Float) : ReachedThrough (.initial sink time) fun _ => False
  | execute {σ : State} {moments : Config .flow → Prop} {s : Stmt} {n : Nat} {o : Outcome .flow}
      (h : ReachedThrough σ moments) (hend : (Config.exec s .done σ).advance n = .inr o) :
      ReachedThrough o.σ (Earlier moments (Config.exec s .done σ) n)
  | record {σ : State} {moments : Config .flow → Prop} (h : ReachedThrough σ moments)
      (distances : Distances) : ReachedThrough { σ with distances := distances } moments
  | reset {σ : State} {moments : Config .flow → Prop} (h : ReachedThrough σ moments) :
      ReachedThrough σ.reset moments

theorem State.MakesClasses.advance (h : start.state.MakesClasses moments start.Holds)
    (hc : start.advance n = .inl c) : c.state.MakesClasses (Earlier moments start n) c.Holds := by
  refine Config.holds_of_advance
    (P := fun k d => d.state.MakesClasses (Earlier moments start k) d.Holds) ?_ ?_ hc
  · rwa [earlier_zero]
  · intro k d d' hd hmakes hstep
    rw [earlier_succ hd]
    exact hmakes.step hstep

theorem State.makesClasses_exec (h : σ.MakesClasses moments σ.Holds) (s : Stmt) :
    (Config.exec s .done σ : Config .flow).state.MakesClasses moments
      (Config.exec s .done σ : Config .flow).Holds :=
  fun d hd => h d (hd.resolve_right id)

theorem State.ReachedThrough.makesClasses (h : σ.ReachedThrough moments) :
    σ.MakesClasses moments σ.Holds := by
  induction h with
  | initial sink time =>
      intro d hd
      cases State.eq_native_of_holds_initial hd
  | @execute σ moments s n o h hend ih =>
      obtain ⟨k, last, hk, hlast, hstep⟩ := Config.exists_end hend
      have hmoment := (State.makesClasses_exec ih s).advance hlast
      rw [Config.state_of_end hstep]
      intro d hd
      obtain ⟨hid, hlineage⟩ := hmoment d (.of_state hd)
      refine ⟨hid, hlineage.mono fun m hm => hm.imp_right ?_⟩
      rintro ⟨j, hj, hm⟩
      exact ⟨j, Nat.lt_trans hj hk, hm⟩
  | record h distances ih => exact fun d hd => ih d hd
  | reset h ih => exact fun d hd => ih d hd

theorem CompleteInOrder.reachedThrough {statements : List Stmt} {τ : State}
    (h : CompleteInOrder statements σ τ) (hσ : ∃ moments, σ.ReachedThrough moments) :
    ∃ moments, τ.ReachedThrough moments := by
  induction h with
  | nil σ => exact hσ
  | cons hs _ ih =>
      obtain ⟨n, flow, hend⟩ := hs
      obtain ⟨moments, hσ⟩ := hσ
      exact ih ⟨_, hσ.execute hend⟩

theorem Ends.reachedThrough {rest : List Stmt} {o : Outcome .flow} (h : Ends rest σ o)
    (hσ : ∃ moments, σ.ReachedThrough moments) : ∃ moments, o.σ.ReachedThrough moments := by
  cases h with
  | flushed h => exact hσ
  | notFlushed h => exact hσ
  | failed h =>
      obtain ⟨moments, hσ⟩ := hσ
      exact ⟨_, (hσ.execute h).reset⟩

end Machine

/-- The runs of a session execute statements. -/
theorem Session.Reachable.reachedThrough {s : Session} (h : s.Reachable) :
    ∃ moments, s.σ.ReachedThrough moments := by
  induction h with
  | initial sink time => exact ⟨_, .initial sink time⟩
  | @run s s' steps source status _ hrun ih =>
      rcases run_cases hrun with ⟨hcheck, -⟩ | ⟨program, t, hcheck, hrun⟩
      · rw [(check_eq_none hcheck).2]
        exact ih
      · obtain ⟨outcome, hend, -, hσ, -⟩ := exists_outcome hrun
        obtain ⟨-, -, -, ht⟩ := check_eq_some (fun _ _ => trivial) hcheck
        have hstart : ∃ moments, t.σ.ReachedThrough moments := by
          obtain ⟨moments, hmoments⟩ := ih
          rw [ht]
          exact ⟨moments, hmoments.record _⟩
        obtain ⟨done, rest, τ, -, hdone, hends⟩ := Config.exists_completed hend
        rw [hσ]
        exact hends.reachedThrough (hdone.reachedThrough hstart)

/-- At every moment of every statement that is executed, in any state that is reached by executing
statements, the links to superclasses come to an end from any class. They lead to older and older
classes, each of which was declared when what it extends existed and it did not. What is found under a
name is the last method of the name in the nearest of these classes that declares one, and nothing is
found exactly if none of them does. A class takes as many arguments as the initializer that it
finds. -/
theorem method_of_nearest_declaration {σ : State} {moments : Config .flow → Prop}
    (hσ : σ.ReachedThrough moments) {s : Stmt} {n : Nat} {c : Config .flow}
    (hc : (Config.exec s .done σ).advance n = .inl c) {d : Class} (hd : c.Holds (.cls d)) :
    let past := Earlier moments (Config.exec s .done σ) n
    d.ancestor? (d.id + 1) = none
      ∧ (∀ j k a b, j < k → d.ancestor? j = some a → d.ancestor? k = some b → b.id < a.id)
      ∧ (∀ k a, d.ancestor? k = some a → ∃ body made, a.Made past body made)
      ∧ (∀ x m, d.findMethod? x = some m → ∃ k a, d.ancestor? k = some a ∧ a.DeclaresLast past x m
          ∧ ∀ j < k, ∀ b, d.ancestor? j = some b → b.DeclaresNone past x)
      ∧ (∀ x, d.findMethod? x = none
          ↔ ∀ k a, d.ancestor? k = some a → a.DeclaresNone past x)
      ∧ d.arity = ((d.findMethod? initializerName).map fun m => m.decl.params.length).getD 0 := by
  obtain ⟨-, hlineage⟩ := (State.makesClasses_exec hσ.makesClasses s).advance hc d hd
  refine ⟨hlineage.ancestor?_eq_none, fun j k a b hjk => hlineage.id_lt hjk, hlineage,
    fun x m => hlineage.nearest, fun x => hlineage.findMethod?_eq_none_iff, ?_⟩
  rw [Class.arity]
  cases d.findMethod? initializerName <;> rfl

/-- The names of a class and of the two above it. -/
def namesUpwards (d : Class) : Option (List String) :=
  (d.ancestor? 1).bind fun b => (d.ancestor? 2).map fun a => [d.name, b.name, a.name]

/-- A session in which a class is declared anew, to extend its own subclass. -/
def redeclaring : Option Session :=
  ((Session.initial .unlimited fun _ => 0).run 60 "class A { m() {} } class B < A {}").bind fun r =>
    (r.2.run 60 "class A < B { m() {} m() {} }").map Prod.snd

/-- The class in a global variable. -/
def classNamed (s : Session) (x : String) : Option Class :=
  match s.σ.frames.get? globalFrame x with
  | some (.cls d) => some d
  | _ => none

/-- A class that extends its own subclass extends the old class of its name. -/
theorem redeclared_superclass_extends_old_one :
    ∃ (σ : State) (moments : Config .flow → Prop) (d b a : Class), σ.ReachedThrough moments
      ∧ (Config.exec (.block []) .done σ : Config .flow).Holds (.cls d)
      ∧ d.ancestor? 1 = some b ∧ d.ancestor? 2 = some a
      ∧ [d.name, b.name, a.name] = ["A", "B", "A"] ∧ a.id < b.id ∧ b.id < d.id := by
  have h : (redeclaring.bind fun s => (classNamed s "A").bind namesUpwards)
      = some ["A", "B", "A"] := by
    decide +kernel
  obtain ⟨s, hs, h⟩ := Option.bind_eq_some_iff.mp h
  obtain ⟨d, hd, h⟩ := Option.bind_eq_some_iff.mp h
  obtain ⟨b, hb, h⟩ := Option.bind_eq_some_iff.mp h
  obtain ⟨a, ha, hnames⟩ := Option.map_eq_some_iff.mp h
  obtain ⟨⟨status, s₁⟩, hfirst, hs⟩ := Option.bind_eq_some_iff.mp hs
  obtain ⟨⟨status', s₂⟩, hsecond, rfl⟩ := Option.map_eq_some_iff.mp hs
  have hreachable : s₂.Reachable := .run (.run (.initial _ _) hfirst) hsecond
  obtain ⟨moments, hσ⟩ := hreachable.reachedThrough
  have hheld : (Config.exec (.block []) .done s₂.σ : Config .flow).Holds (.cls d) := by
    unfold classNamed at hd
    split at hd
    · next e he =>
      cases hd
      exact .inl (.inl ⟨globalFrame, "A", he⟩)
    · cases hd
  have holder := (method_of_nearest_declaration hσ (n := 0) rfl hheld).2.1
  exact ⟨s₂.σ, moments, d, b, a, hσ, hheld, hb, ha, hnames, holder 1 2 b a Nat.one_lt_two hb ha,
    holder 0 1 d b Nat.zero_lt_one rfl hb⟩

end Lox
