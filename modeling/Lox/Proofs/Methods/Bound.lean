import Lox.Proofs.Methods.Held
import Lox.Proofs.Methods.Tables

/-!
# Bound methods

A method is bound to an object when it is obtained from an instance or through `super`. What binds it
is the frame of `this`, which nothing writes to later, so that it stays bound to this object for good.
Initializers that are held as values are methods that have been obtained, and so they are all bound.
-/

namespace Lox

variable {σ σ' : Machine.State} {W : String → Prop} {v : Value} {f : Closure} {object : ObjectId}

theorem Closure.BoundTo.grows (h : f.BoundTo σ.frames object) (hgrows : σ.Grows W σ')
    (hthis : ¬ W "this") : f.BoundTo σ'.frames object := by
  obtain ⟨g, outer, hchain, hg⟩ := h
  exact ⟨g, outer, hchain, hgrows.get? hthis hg⟩

/-- An object is in the store, and an initializer is bound to an object that is in the store. -/
def Value.Settled (σ : Machine.State) : Value → Prop
  | .function f => f.isInitializer = true →
      ∃ object, f.BoundTo σ.frames object ∧ ∃ o, σ.objects[object]? = some o
  | .object i => ∃ o, σ.objects[i]? = some o
  | _ => True

theorem Value.Settled.grows (h : v.Settled σ) (hgrows : σ.Grows W σ') (hthis : ¬ W "this") :
    v.Settled σ' := by
  have hstored {i : ObjectId} (hi : ∃ o, σ.objects[i]? = some o) : ∃ o, σ'.objects[i]? = some o := by
    obtain ⟨o, ho⟩ := hi
    exact (hgrows.cls ho).imp fun _ h => h.1
  cases v with
  | function f =>
      intro hf
      obtain ⟨object, hbound, ho⟩ := h hf
      exact ⟨object, hbound.grows hgrows hthis, hstored ho⟩
  | object i => exact hstored h
  | _ => trivial

theorem Value.Settled.congr (h : v.Settled σ) (hf : σ'.frames = σ.frames)
    (ho : σ'.objects = σ.objects) : v.Settled σ' := by
  cases v with
  | function f => simpa only [Value.Settled, hf, ho] using h
  | object i => simpa only [Value.Settled, ho] using h
  | _ => trivial

namespace Machine

variable {final : Answer} {known : NodeId → Option Nat → Prop} {c c' : Config final}

namespace Config

/-- All values that the moment holds are settled. -/
def Settled (c : Config final) : Prop :=
  ∀ v, c.Holds v → v.Settled c.state

theorem Settled.step (h : c.Settled) (hwritten : ∀ x, c.written? = some x → x ≠ "this")
    (hstep : c.step = .inl c') : c'.Settled := by
  have hgrows := grows_of_step hstep hwritten
  have hobjects (i : ObjectId) (hi : c'.Holds (.object i)) : ∃ o, c'.state.objects[i]? = some o := by
    rcases hi.of_step hstep with hi | hi | ⟨d, parent, hd, -⟩
    · exact (h _ hi).grows hgrows (by simp)
    · exact hi
    · cases hd
  intro v hv
  cases v with
  | function f =>
      intro hf
      rcases hv.of_step hstep with hv | (hno | ⟨object, hbound⟩) | ⟨d, parent, hd, -⟩
      · exact (h _ hv).grows hgrows (by simp) hf
      · rw [hf] at hno
        cases hno
      · refine ⟨object, hbound, hobjects object (.of_state (.inl ?_))⟩
        obtain ⟨g, outer, -, hg⟩ := hbound
        exact ⟨g, "this", hg⟩
      · cases hd
  | object i => exact hobjects i hv
  | _ => trivial

end Config

/-- A method that is obtained under a name, as a function that is bound to an object. -/
structure BoundMethod where
  name : String
  object : ObjectId
  function : Closure

variable {b : BoundMethod}

/-- It is an initializer if it is named for it, and it is bound to the object in these frames. -/
structure BoundMethod.Stands (b : BoundMethod) (fs : Frames Value) : Prop where
  isInitializer_iff : b.function.isInitializer = true ↔ b.name = initializerName
  bound : b.function.BoundTo fs b.object

namespace Config

/-- The method that the next step obtains from an instance or through `super`. -/
def obtains? : Config final → Option BoundMethod
  | .answer (a := .value) (.object object) (.push (.get name) _) σ =>
      match σ.property? object name.lexeme with
      | some (.method method) => some ⟨name.lexeme, object, (σ.bind method object).1⟩
      | _ => none
  | .eval (.super id keyword method) _ σ =>
      match σ.superMethod id keyword method with
      | .ok (found, object) => some ⟨method.lexeme, object, (σ.bind found object).1⟩
      | .error _ => none
  | _ => none

/-- It is the value of the expression, and it is bound to the object. -/
theorem step_of_obtains? (h : c.obtains? = some b) :
    ∃ (stack : Stack final .value) (σ : State),
      c.step = .inl (.answer (a := .value) (.function b.function) stack σ)
        ∧ b.function.BoundTo σ.frames b.object := by
  unfold obtains? at h
  split at h
  · next object name stack σ =>
    split at h
    · next method hmethod =>
      cases h
      refine ⟨stack, (σ.bind method object).2, ?_, σ.boundTo_bind method object⟩
      simp only [step, resume, resumeValue, readProperty, hmethod]
      rfl
    · cases h
  · next id keyword method stack σ =>
    split at h
    · next found object hfound =>
      cases h
      refine ⟨stack, (σ.bind found object).2, ?_, σ.boundTo_bind found object⟩
      simp only [step, evalStep, readSuper, hfound]
      rfl
    · cases h
  · cases h

end Config

theorem State.exists_of_property? {x : String} {method : Closure}
    (h : σ.property? object x = some (.method method)) :
    ∃ o, σ.objects[object]? = some o ∧ o.cls.findMethod? x = some method := by
  unfold State.property? at h
  split at h
  · cases h
  · next o ho =>
    split at h
    · cases h
    · obtain ⟨m, hm, heq⟩ := Option.map_eq_some_iff.mp h
      cases heq
      exact ⟨o, ho, hm⟩

theorem State.exists_of_superMethod {id : NodeId} {keyword method : Token} {found : Closure}
    (h : σ.superMethod id keyword method = .ok (found, object)) :
    ∃ chain d x parent, σ.frames.getAt chain d x = some (.cls parent)
      ∧ parent.findMethod? method.lexeme = some found := by
  unfold State.superMethod at h
  repeat' split at h
  all_goals cases h
  exact ⟨_, _, _, _, by assumption, by assumption⟩

end Machine

open Machine (Answer Config State BoundMethod)

variable {final : Answer} {known : NodeId → Option Nat → Prop} {moments : Config final → Prop}

/-- A method that is found in a class is an initializer if it is found under the name of one. -/
theorem Class.Housed.isInitializer_iff {d : Class} {fs : Frames Value} {x : String} {m : Closure}
    (h : d.Housed (.of known moments) fs) (hm : d.findMethod? x = some m) :
    m.isInitializer = true ↔ x = initializerName := by
  obtain ⟨e, he, hown⟩ := h.findMethod? hm
  obtain ⟨parent, moment, -, hdeclares⟩ := he.own.declared
  obtain ⟨body, made, hwith⟩ := Machine.Config.exists_declaresWith hdeclares
  exact hwith.isInitializer_iff hown

namespace Machine.Config

variable {c c' : Config final} {b : BoundMethod}

theorem Housed.isInitializer_iff_of_obtains? (hc : c.Housed (.of known moments))
    (h : c.obtains? = some b) : b.function.isInitializer = true ↔ b.name = initializerName := by
  cases hc with
  | eval hσ _ _ =>
      unfold obtains? at h
      split at h
      · next heq => cases heq
      · next heq =>
        cases heq
        split at h
        · next hfound =>
          cases h
          obtain ⟨chain, d, x, parent, hparent, hfind⟩ := State.exists_of_superMethod hfound
          have hhoused : parent.Housed _ _ := hσ.getAt hparent
          have hiff := hhoused.isInitializer_iff hfind
          exact hiff
        · cases h
      · cases h
  | exec hσ _ _ => cases h
  | answer hσ _ _ =>
      unfold obtains? at h
      split at h
      · next heq =>
        cases heq
        split at h
        · next hmethod =>
          cases h
          obtain ⟨o, ho, hfind⟩ := State.exists_of_property? hmethod
          have hiff := (hσ.classes ho).isInitializer_iff hfind
          exact hiff
        · cases h
      · next heq => cases heq
      · cases h
  | fail hσ _ => cases h

theorem Housed.stands_of_obtains? (hc : c.Housed (.of known moments)) (h : c.obtains? = some b)
    (hstep : c.step = .inl c') : b.Stands c'.state.frames := by
  obtain ⟨stack, σ, hgives, hbound⟩ := step_of_obtains? h
  obtain rfl := Sum.inl.inj (hstep.symm.trans hgives)
  exact ⟨hc.isInitializer_iff_of_obtains? h, hbound⟩

theorem Housed.proper_of_exec {past : Past} {s : Stmt} {stack : Stack final .flow} {σ : State}
    (hc : (Config.exec s stack σ).Housed past) : s.Proper past.known := by
  cases hc with
  | exec _ hs _ => exact hs.proper

theorem Housed.task {past : Past} {a b : Answer} {x : a.Carrier} {task : Pending a b}
    {stack : Stack final b} {σ : State} (hc : (Config.answer x (.push task stack) σ).Housed past) :
    task.Housed past σ.frames σ.chain := by
  cases hc with
  | answer _ _ hstack =>
      cases hstack with
      | push htask _ => exact htask

/-- No implicit name is written to. -/
theorem Housed.not_implicit_of_written? {past : Past} {x : String} (hc : c.Housed past)
    (h : c.written? = some x) : ¬ Implicit x := by
  unfold written? at h
  split at h <;> cases h
  case h_4 => exact hc.task
  case h_5 => exact hc.task.1
  case h_6 => exact hc.task
  all_goals
    have hproper := hc.proper_of_exec
    simp only [Stmt.Proper] at hproper
    exact hproper.1

end Machine.Config

/-- The method was obtained at one of these moments. -/
def Machine.BoundMethod.ObtainedDuring (moments : Config final → Prop) (b : BoundMethod) : Prop :=
  ∃ moment, moments moment ∧ moment.obtains? = some b

/-- The values that are held in the state are settled, and the methods that were obtained at these
moments stand as they were obtained. -/
structure Machine.State.BindsMethods (moments : Config final → Prop) (holds : Value → Prop)
    (σ : State) : Prop where
  settled : ∀ v, holds v → v.Settled σ
  stands : ∀ b : BoundMethod, b.ObtainedDuring moments → b.Stands σ.frames

/-- Only the frames, the objects and what is held count. -/
theorem Machine.State.BindsMethods.congr {holds holds' : Value → Prop}
    (h : σ.BindsMethods moments holds) (hf : σ'.frames = σ.frames) (ho : σ'.objects = σ.objects)
    (hholds : ∀ v, holds' v → holds v) : σ'.BindsMethods moments holds' := by
  refine ⟨fun v hv => (h.settled v (hholds v hv)).congr hf ho, fun b hb => ?_⟩
  rw [hf]
  exact h.stands b hb

theorem Machine.State.BindsMethods.step {c c' : Config final}
    (h : c.state.BindsMethods moments c.Holds) (hc : c.Housed (.of known moments))
    (hstep : c.step = .inl c') :
    c'.state.BindsMethods (fun m => moments m ∨ m = c) c'.Holds := by
  have hwritten (x : String) (hx : c.written? = some x) : x ≠ "this" :=
    fun heq => hc.not_implicit_of_written? hx (.inl heq)
  refine ⟨Config.Settled.step h.settled hwritten hstep, ?_⟩
  rintro b ⟨m, hm | rfl, hb⟩
  · obtain ⟨hiff, hbound⟩ := h.stands b ⟨m, hm, hb⟩
    exact ⟨hiff, hbound.grows (Config.grows_of_step hstep hwritten) (by simp)⟩
  · exact hc.stands_of_obtains? hb hstep

end Lox
