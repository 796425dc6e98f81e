import Lox.Proofs.Reach.Calls

/-!
# What a call cannot reach

Reached are the global frame, the callee and the arguments, and from there on what a frame binds,
the environment of a closure, the methods and the superclass of a class, and the class and the
fields of an object. A call leaves all other frames and objects as they are.
-/

namespace Lox.Machine

/-- A frame, or a value, which may be a closure, a class or an object. -/
inductive Item
  | frame (f : FrameId)
  | value (v : Value)

/-- What is reached in a state from the global frame and the values `roots`. The environment of a
closure holds the frame that it was declared in with all that enclose it. -/
inductive State.Reaches (σ : State) (roots : List Value) : Item → Prop
  | global : Reaches σ roots (.frame globalFrame)
  | root {v : Value} (hv : v ∈ roots) : Reaches σ roots (.value v)
  | binding {f : FrameId} {x : String} {v : Value} (hf : Reaches σ roots (.frame f))
      (hv : σ.frames.get? f x = some v) : Reaches σ roots (.value v)
  | environment {f : Closure} {g : FrameId} (hf : Reaches σ roots (.value (.function f)))
      (hg : g ∈ f.chain) : Reaches σ roots (.frame g)
  | method {c : Class} {x : String} {m : Closure} (hc : Reaches σ roots (.value (.cls c)))
      (hm : c.methods.get? x = some m) : Reaches σ roots (.value (.function m))
  | superclass {c c' : Class} (hc : Reaches σ roots (.value (.cls c)))
      (hc' : c.superclass? = some c') : Reaches σ roots (.value (.cls c'))
  | cls {i : ObjectId} {o : Object} (hi : Reaches σ roots (.value (.object i)))
      (ho : σ.objects[i]? = some o) : Reaches σ roots (.value (.cls o.cls))
  | field {i : ObjectId} {o : Object} {x : String} {v : Value}
      (hi : Reaches σ roots (.value (.object i))) (ho : σ.objects[i]? = some o)
      (hv : o.fields.get? x = some v) : Reaches σ roots (.value v)

/-- The places that are reached, and those that do not exist yet. -/
def State.reach (σ : State) (roots : List Value) : Region σ where
  frames f := σ.frames.size ≤ f ∨ σ.Reaches roots (.frame f)
  objects i := σ.objects.size ≤ i ∨ σ.Reaches roots (.value (.object i))
  frames_global := .inr .global
  frames_new := .inl
  objects_new := .inl

variable {σ : State} {roots : List Value} {v : Value}

theorem State.Reaches.holds {f : Closure} (h : σ.Reaches roots (.value (.function f))) :
    (σ.reach roots).Holds f.chain :=
  fun _ hg => .inr (.environment h hg)

theorem State.Reaches.class_within {c : Class} (h : σ.Reaches roots (.value (.cls c))) :
    c.Within (σ.reach roots) := by
  induction c with
  | root id name methods =>
      intro x m hm
      exact (h.method (c := .root id name methods) hm).holds
  | extending id name methods superclass ih =>
      constructor
      · intro x m hm
        exact (h.method (c := .extending id name methods superclass) hm).holds
      · exact ih (h.superclass rfl)

/-- A value that is reached leads to what is reached. -/
theorem State.Reaches.within (h : σ.Reaches roots (.value v)) : v.Within (σ.reach roots) := by
  cases v with
  | function f => exact h.holds
  | cls c => exact h.class_within
  | object i => exact .inr h
  | _ => trivial

theorem State.confines_reach (σ : State) (roots : List Value) :
    (σ.reach roots).Confines σ where
  frames_le := Nat.le_refl _
  objects_le := Nat.le_refl _
  bindings {f x v} hf hv := by
    rcases hf with hf | hf
    · simp [Frames.get?, Frames.bindings_eq_nil hf] at hv
    · exact (hf.binding hv).within
  classes {i o} hi ho := by
    rcases hi with hi | hi
    · simp [Array.getElem?_eq_none hi] at ho
    · exact (hi.cls ho).class_within
  fields {i o x v} hi ho hv := by
    rcases hi with hi | hi
    · simp [Array.getElem?_eq_none hi] at ho
    · exact (hi.field ho hv).within
  bindings_eq _ := rfl
  objects_eq _ := rfl

/-- A call keeps the bindings of every frame and the fields of every object that existed before and
that it cannot reach, whether it gives a value or fails. A frame of the environment that it is made
in keeps its bindings unless a closure that is reached was declared inside it. -/
theorem unreached_unchanged_by_call {callee : Value} {paren : Token} {arguments : List Value}
    {steps : Nat} {outcome : Outcome .value}
    (hrun : (Config.call callee paren arguments .done σ).run steps = some outcome) :
    (∀ f < σ.frames.size, ¬ σ.Reaches (callee :: arguments) (.frame f) →
        outcome.σ.frames.bindings f = σ.frames.bindings f)
      ∧ (∀ i < σ.objects.size, ¬ σ.Reaches (callee :: arguments) (.value (.object i)) →
        outcome.σ.objects[i]? = σ.objects[i]?)
      ∧ ∀ f ∈ σ.chain, f < σ.frames.size → f ≠ globalFrame →
        (∀ g, σ.Reaches (callee :: arguments) (.value (.function g)) → f ∉ g.chain) →
        outcome.σ.frames.bindings f = σ.frames.bindings f := by
  have hstart : (Config.call callee paren arguments .done σ).Confined
      (σ.reach (callee :: arguments)) := by
    apply Config.Confined.call paren (σ.confines_reach _) _ _ (.done _)
    · exact (State.Reaches.root List.mem_cons_self).within
    · intro v hv
      exact (State.Reaches.root (List.mem_cons_of_mem callee hv)).within
  have hend := hstart.run hrun
  have hframes : ∀ f < σ.frames.size, ¬ σ.Reaches (callee :: arguments) (.frame f) →
      outcome.σ.frames.bindings f = σ.frames.bindings f := by
    intro f hf hreach
    apply hend.bindings_eq
    rintro (hnew | hreached)
    · exact Nat.not_le_of_lt hf hnew
    · exact hreach hreached
  refine ⟨hframes, fun i hi hreach => ?_, fun f _ hf hglobal hcaptured => hframes f hf ?_⟩
  · apply hend.objects_eq
    rintro (hnew | hreached)
    · exact Nat.not_le_of_lt hi hnew
    · exact hreach hreached
  · intro hreached
    cases hreached with
    | global => exact hglobal rfl
    | environment hg hmem => exact hcaptured _ hg hmem

/-- A function over a frame in which it sets `x`. -/
def setter : Value :=
  .function ⟨0, ⟨.ofName "set" 1, [], [.expression (.assign 0 (.ofName "x" 1)
    (.literal (.boolean true)))]⟩, [1, 0], false⟩

/-- A state in which a block with a variable `x` is about to call the function. -/
def aboutToSet : State :=
  { ((State.initial .unlimited fun _ => 0).enter [("x", .nil)] globalChain).enter
      [("x", .nil)] globalChain with distances := Distances.add ∅ [(0, 1)] }

theorem not_reaches_caller : ¬ aboutToSet.Reaches [setter] (.frame 2) := by
  -- Besides the function, the only values that are reached are scalars and the clock.
  suffices h : ∀ item, aboutToSet.Reaches [setter] item → match item with
      | .frame f => f ≠ 2
      | .value v => v = setter ∨ v.IsScalar ∨ v = .native .clock from fun hr => h _ hr rfl
  intro item hr
  induction hr with
  | global => decide
  | root hv => exact .inl (List.mem_singleton.mp hv)
  | @binding f x v _ hv hf =>
      rcases Frames.get?_push_eq_some hv with hv | ⟨hlast, -⟩
      · rcases Frames.get?_push_eq_some hv with hv | ⟨-, hv⟩
        · rcases Frames.get?_push_eq_some hv with hv | ⟨-, hv⟩
          · simp [Frames.get?, Frames.bindings, Frames.empty] at hv
          · exact .inr (.inr (Bindings.eq_of_get?_singleton hv))
        · obtain rfl := Bindings.eq_of_get?_singleton hv
          exact .inr (.inl trivial)
      · exact absurd hlast hf
  | environment _ hg hf =>
      rcases hf with hf | hf | hf
      · cases hf
        rcases List.mem_cons.mp hg with rfl | hg
        · decide
        · obtain rfl := List.mem_singleton.mp hg
          decide
      · exact hf.elim
      · cases hf
  | method _ _ hc => rcases hc with hc | hc | hc <;> cases hc
  | superclass _ _ hc => rcases hc with hc | hc | hc <;> cases hc
  | cls _ _ hi => rcases hi with hi | hi | hi <;> cases hi
  | field _ _ _ hi => rcases hi with hi | hi | hi <;> cases hi

/-- The function sets the variable of the frame that it was declared in. The variable of the same
name in the block that calls it keeps its value. -/
theorem variable_of_caller_unchanged :
    ∃ outcome, (Config.call setter (.ofName ")" 1) [] .done aboutToSet).run 10 = some outcome
      ∧ (outcome.σ.frames.get? 1 "x").map Value.truthy = some true
      ∧ outcome.σ.frames.bindings 2 = aboutToSet.frames.bindings 2 := by
  have hends : (((Config.call setter (.ofName ")" 1) [] .done aboutToSet).run 10).bind
      fun o => (o.σ.frames.get? 1 "x").map Value.truthy) = some true := by
    decide +kernel
  obtain ⟨outcome, hrun, hset⟩ := Option.bind_eq_some_iff.mp hends
  exact ⟨outcome, hrun, hset,
    (unreached_unchanged_by_call hrun).1 2 (by decide +kernel) not_reaches_caller⟩

end Lox.Machine
