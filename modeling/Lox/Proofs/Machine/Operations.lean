import Lox.Machine.Operator
import Lox.Proofs.Machine.Soundness

/-!
# Operations on scoped states

Each operation that a step is made of keeps a state scoped, as long as it brings in scoped values
only. The operations that add or change frames extend the store above the innermost frame of the
environment, or bind names that are bound already, so that the place of the state is kept as well.
-/

namespace Lox

variable {known : NodeId → Option Nat → Prop} {fs : Frames Value}

theorem Class.Scoped.findMethod? {c : Class} {x : String} {m : Closure} (hc : c.Scoped known fs)
    (hm : c.findMethod? x = some m) : m.MethodScoped known fs := by
  induction c with
  | root id name methods => exact hc x m hm
  | extending id name methods superclass ih =>
      rw [Class.findMethod?] at hm
      split at hm
      · exact hc.1 x m (by simp_all)
      · exact ih hc.2 hm

theorem Class.Scoped.make (id : Identity) (name : String) (superclass : Option Class)
    {methods : Bindings Closure} (hm : ∀ x m, methods.get? x = some m → m.MethodScoped known fs)
    (hs : ∀ c, superclass = some c → c.Scoped known fs) :
    (Class.make id name methods superclass).Scoped known fs := by
  cases superclass with
  | none => exact hm
  | some c => exact ⟨hm, hs c rfl⟩

/-- The value is `nil`, a truth value, a number or a string. -/
def Value.IsScalar : Value → Prop
  | .nil | .boolean _ | .number _ | .string _ => True
  | _ => False

theorem Value.IsScalar.scoped {v : Value} (hv : v.IsScalar) : v.Scoped known fs := by
  cases v <;> trivial

namespace Machine

theorem isScalar_of_applyUnary {operator : Token} {v w : Value}
    (h : applyUnary operator v = .ok w) : w.IsScalar := by
  unfold applyUnary at h
  split at h
  · split at h <;> cases h
    trivial
  · cases h
    trivial
  · cases h

theorem isScalar_of_applyPlus {operator : Token} {u v w : Value}
    (h : applyPlus operator u v = .ok w) : w.IsScalar := by
  unfold applyPlus at h
  split at h <;> cases h <;> trivial

theorem isScalar_of_applyNumeric {operator : Token} {x y : Float} {w : Value}
    (h : applyNumeric operator x y = .ok w) : w.IsScalar := by
  unfold applyNumeric at h
  split at h <;> cases h <;> trivial

theorem isScalar_of_applyBinary {operator : Token} {u v w : Value}
    (h : applyBinary u operator v = .ok w) : w.IsScalar := by
  unfold applyBinary at h
  split at h
  · cases h
    trivial
  · cases h
    trivial
  · exact isScalar_of_applyPlus h
  · split at h
    · exact isScalar_of_applyNumeric h
    · cases h

namespace State

variable {σ σ' : State} {p : Place} {v : Value} {f : FrameId} {x : String}

theorem Scoped.of_lookup? {id : NodeId} (hσ : σ.Scoped known) (hv : σ.lookup? id x = some v) :
    v.Scoped known σ.frames := by
  unfold lookup? at hv
  split at hv
  · obtain ⟨f, -, hf⟩ := Frames.get?_of_getAt hv
    exact hσ.frames hf
  · obtain ⟨f, -, hf⟩ := Frames.get?_of_lookup hv
    exact hσ.frames hf

theorem Scoped.of_property? {object : ObjectId} {property : Property} (hσ : σ.Scoped known)
    (h : σ.property? object x = some property) :
    match property with
    | .field v => v.Scoped known σ.frames
    | .method m => m.MethodScoped known σ.frames := by
  unfold property? at h
  split at h
  · simp at h
  · next o ho =>
    split at h
    · next v hv =>
      obtain rfl : Property.field v = property := by simpa using h
      exact hσ.fields ho hv
    · rw [Option.map_eq_some_iff] at h
      obtain ⟨m, hm, rfl⟩ := h
      exact (hσ.classes ho).findMethod? hm

theorem Scoped.of_superMethod {id : NodeId} {keyword method : Token} {m : Closure}
    {object : ObjectId} (hσ : σ.Scoped known)
    (h : σ.superMethod id keyword method = .ok (m, object)) : m.MethodScoped known σ.frames := by
  unfold superMethod at h
  split at h
  · simp at h
  · split at h
    · simp at h
    · next c hc =>
      obtain ⟨f, -, hf⟩ := Frames.get?_of_getAt hc
      have hscoped : c.Scoped known σ.frames := hσ.frames hf
      split at h
      · simp at h
      · split at h
        · next found hfound =>
          obtain ⟨rfl, -⟩ : found = m ∧ _ := by simpa using h
          exact hscoped.findMethod? hfound
        · simp at h
      · simp at h
    · simp at h

/-- Only the frames, the objects and the distances count. -/
theorem Scoped.congr (hσ : σ.Scoped known) (hf : σ'.frames = σ.frames)
    (ho : σ'.objects = σ.objects) (hd : σ'.distances = σ.distances) : σ'.Scoped known := by
  obtain ⟨hpos, hframes, hclasses, hfields, hknows⟩ := hσ
  constructor
  · rwa [hf]
  · rwa [hf]
  · rwa [hf, ho]
  · rwa [hf, ho]
  · rwa [hd]

theorem Scoped.push (hσ : σ.Scoped known) {b : Bindings Value}
    (hb : ∀ x v, b.get? x = some v → v.Scoped known σ.frames) :
    State.Scoped known { σ with frames := σ.frames.push b } := by
  have he := σ.frames.extends_push b
  refine ⟨by simp, fun hv => ?_, fun ho => (hσ.classes ho).mono he,
    fun ho hv => (hσ.fields ho hv).mono he, hσ.knows⟩
  rcases Frames.get?_push_eq_some hv with hv | ⟨-, hv⟩
  · exact (hσ.frames hv).mono he
  · exact (hb _ _ hv).mono he

/-- The value that is bound may refer to the binding itself. -/
theorem Scoped.defineIn (hσ : σ.Scoped known) (f : FrameId) (x : String)
    (hv : v.Scoped known (σ.frames.define f x v)) : (σ.defineIn f x v).Scoped known := by
  have he := σ.frames.extends_define f x v
  refine ⟨by simpa [State.defineIn] using hσ.size_pos, fun hw => ?_,
    fun ho => (hσ.classes ho).mono he, fun ho hw => (hσ.fields ho hw).mono he, hσ.knows⟩
  rcases Frames.get?_define_eq_some hw with hw | ⟨-, -, rfl⟩
  · exact (hσ.frames hw).mono he
  · exact hv

/-- An object of a state with a new one is the new one or was there before. -/
theorem getElem?_allocate_eq_some {c : Class} {i : ObjectId} {o : Object}
    (ho : (σ.allocate c).objects[i]? = some o) : σ.objects[i]? = some o ∨ o = ⟨c, []⟩ := by
  simp only [State.allocate, Array.getElem?_push] at ho
  split at ho
  · exact .inr (Option.some.inj ho).symm
  · exact .inl ho

/-- An object of a state with a field that is set is as before or differs in that field. -/
theorem getElem?_setField_eq_some {object i : ObjectId} {x : String} {o : Object}
    (ho : (σ.setField object x v).objects[i]? = some o) :
    σ.objects[i]? = some o
      ∨ ∃ o', σ.objects[i]? = some o' ∧ o = { o' with fields := o'.fields.set x v } := by
  simp only [State.setField, Array.getElem?_modify] at ho
  split at ho
  · obtain ⟨o', ho', rfl⟩ := Option.map_eq_some_iff.mp ho
    exact .inr ⟨o', ho', rfl⟩
  · exact .inl ho

theorem Scoped.allocate (hσ : σ.Scoped known) {c : Class} (hc : c.Scoped known σ.frames) :
    (σ.allocate c).Scoped known := by
  refine ⟨hσ.size_pos, hσ.frames, fun {i o} ho => ?_, fun {i o x v} ho hv => ?_, hσ.knows⟩
  · rcases getElem?_allocate_eq_some ho with ho | rfl
    · exact hσ.classes ho
    · exact hc
  · rcases getElem?_allocate_eq_some ho with ho | rfl
    · exact hσ.fields ho hv
    · simp at hv

theorem Scoped.setField (hσ : σ.Scoped known) (object : ObjectId) (name : String)
    (hv : v.Scoped known σ.frames) : (σ.setField object name v).Scoped known := by
  refine ⟨hσ.size_pos, hσ.frames, fun {i o} ho => ?_, fun {i o x w} ho hw => ?_, hσ.knows⟩
  · rcases getElem?_setField_eq_some ho with ho | ⟨o', ho', rfl⟩
    · exact hσ.classes ho
    · exact hσ.classes (o := o') ho'
  · rcases getElem?_setField_eq_some ho with ho | ⟨o', ho', rfl⟩
    · exact hσ.fields ho hw
    · rcases Bindings.get?_set_eq_some hw with hw | rfl
      · exact hσ.fields ho' hw
      · exact hv

theorem At.congr (hσ : σ.At known p) (hf : σ'.frames = σ.frames) (ho : σ'.objects = σ.objects)
    (hd : σ'.distances = σ.distances) (hc : σ'.chain = σ.chain) : σ'.At known p := by
  refine ⟨hσ.sound.congr hf ho hd, ?_⟩
  rw [hf, hc]
  exact hσ.stands

theorem At.headD_lt (hσ : σ.At known p) : σ.chain.headD globalFrame < σ.frames.size :=
  hσ.stands.headD_lt hσ.sound.size_pos

theorem At.allocate (hσ : σ.At known p) {c : Class} (hc : c.Scoped known σ.frames) :
    (σ.allocate c).At known p :=
  ⟨hσ.sound.allocate hc, hσ.stands⟩

theorem At.setField (hσ : σ.At known p) (object : ObjectId) (name : String)
    (hv : v.Scoped known σ.frames) : (σ.setField object name v).At known p :=
  ⟨hσ.sound.setField object name hv, hσ.stands⟩

theorem At.assign (hσ : σ.At known p) (hb : σ.frames.binds f x = true)
    (hv : v.Scoped known σ.frames) : (σ.defineIn f x v).At known p :=
  ⟨hσ.sound.defineIn f x (hv.mono (σ.frames.extends_define f x v)),
    hσ.stands.mono (Frames.extends_define_of_binds _ hb) (Nat.lt_succ_self _)⟩

theorem At.define {scopes : Scopes} {pending : Option String} (hσ : σ.At known ⟨scopes, pending⟩)
    (x : String) (hv : v.Scoped known (σ.frames.define (σ.chain.headD globalFrame) x v)) :
    (σ.define x v).At known (.settled (scopes.define x))
      ∧ (σ.define x v).frames = σ.frames.define (σ.chain.headD globalFrame) x v
      ∧ (σ.define x v).chain = σ.chain := by
  obtain ⟨f, outer, hchain, -⟩ := hσ.stands.realizes.exists_head hσ.sound.size_pos
  have hdefine : σ.define x v = σ.defineIn f x v := by simp [State.define, hchain]
  have hstands := hσ.stands
  rw [hchain] at hstands hv
  rw [hdefine]
  refine ⟨⟨hσ.sound.defineIn f x hv, ?_⟩, by simp [State.defineIn, hchain], rfl⟩
  simpa [State.defineIn, hchain] using hstands.define

theorem At.bind {m : Closure} (hσ : σ.At known p) (hm : m.MethodScoped known σ.frames)
    (object : ObjectId) :
    (σ.bind m object).2.At known p ∧ (σ.bind m object).1.Scoped known (σ.bind m object).2.frames := by
  have he := σ.frames.extends_push [("this", .object object)]
  have hthis : ∀ x v, Bindings.get? x [("this", Value.object object)] = some v →
      v.Scoped known σ.frames := by
    intro x v hv
    obtain rfl := Bindings.eq_of_get?_singleton hv
    trivial
  refine ⟨⟨(hσ.sound.push hthis).congr rfl rfl rfl, hσ.stands.mono he hσ.headD_lt⟩, ?_⟩
  obtain ⟨scopes, hr, hd⟩ := hm
  refine ⟨scopes.enterWith "this", hr.enter hσ.sound.size_pos fun x hx => ?_, hd⟩
  obtain rfl : x = "this" := by simpa using hx
  rfl

theorem Scoped.enter (hσ : σ.Scoped known) {b : Bindings Value} {outer : Chain} {scopes : Scopes}
    {s : Scope} (hr : Realizes σ.frames scopes outer)
    (hb : ∀ x v, b.get? x = some v → v.Scoped known σ.frames)
    (hs : ∀ x, s.holds x = (b.get? x).isSome) :
    (σ.enter b outer).At known (.settled (s :: scopes)) :=
  ⟨(hσ.push hb).congr rfl rfl rfl, Place.Stands.enter hr hσ.size_pos hs⟩

/-- A frame for one name, around the current environment. -/
theorem At.enterWith {scopes : Scopes} (hσ : σ.At known (.settled scopes)) (x : String)
    (hv : v.Scoped known σ.frames) :
    (σ.enter [(x, v)] σ.chain).At known (.settled (scopes.enterWith x)) := by
  refine hσ.sound.enter hσ.stands.realizes (fun y w hw => ?_) fun y => ?_
  · obtain rfl := Bindings.eq_of_get?_singleton hw
    exact hv
  · by_cases hy : y = x
    · simp [hy, Bindings.get?]
    · simp [hy, Bindings.get?, Ne.symm hy]

end State

/-- What is pending is not disturbed by a new frame. -/
theorem Stack.Scoped.push_frame {final a : Answer} {stack : Stack final a} {p : Place} {σ : State}
    (hstack : stack.Scoped known σ.frames p σ.chain) (hσ : σ.At known p) (b : Bindings Value) :
    stack.Scoped known (σ.frames.push b) p σ.chain :=
  hstack.mono (σ.frames.extends_push b) (Nat.le_of_lt hσ.headD_lt)

theorem Stack.Scoped.assign {final a : Answer} {stack : Stack final a} {p : Place} {chain : Chain}
    (hstack : stack.Scoped known fs p chain) {f : FrameId} {x : String} {v : Value}
    (hb : fs.binds f x = true) : stack.Scoped known (fs.define f x v) p chain :=
  hstack.mono (Frames.extends_define_of_binds _ hb) (Nat.le_refl _)

theorem Stack.Scoped.define {final a : Answer} {stack : Stack final a} {p : Place} {chain : Chain}
    (hstack : stack.Scoped known fs p chain) (x : String) (v : Value) :
    stack.Scoped known (fs.define (chain.headD globalFrame) x v) p chain :=
  hstack.mono (fs.extends_define _ x v) (Nat.le_refl _)

end Machine

end Lox
