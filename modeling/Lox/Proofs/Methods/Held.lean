import Lox.Proofs.Machine.Declarations
import Lox.Proofs.Machine.Growth
import Lox.Proofs.Methods.Preservation

/-!
# Held values

The values that a moment of a run holds: in frames, in objects, in the answer that is given, and in
pending tasks. A step takes what it holds from the moment before. What it makes itself are values that
are neither functions nor classes, functions that are no initializers, functions that are bound to an
object, and the class that it declares.
-/

namespace Lox

/-- The innermost frame of the function binds `this` to the object. -/
def Closure.BoundTo (f : Closure) (fs : Frames Value) (object : ObjectId) : Prop :=
  ∃ g outer, f.chain = g :: outer ∧ fs.get? g "this" = some (.object object)

theorem Closure.BoundTo.push {f : Closure} {fs : Frames Value} {object : ObjectId}
    (h : f.BoundTo fs object) (b : Bindings Value) : f.BoundTo (fs.push b) object := by
  obtain ⟨g, outer, hchain, hg⟩ := h
  refine ⟨g, outer, hchain, ?_⟩
  rwa [Frames.get?_push_of_lt b (Frames.lt_size_of_binds (Frames.binds_of_get? hg))]

/-- What a step can make anew, other than classes. -/
def Value.Fresh (σ : Machine.State) : Value → Prop
  | .function f => f.isInitializer = false ∨ ∃ object, f.BoundTo σ.frames object
  | .cls _ => False
  | .object i => ∃ o, σ.objects[i]? = some o
  | _ => True

theorem Value.IsScalar.fresh {v : Value} {σ : Machine.State} (h : v.IsScalar) : v.Fresh σ := by
  cases v with
  | function f => exact h.elim
  | cls c => exact h.elim
  | object i => exact h.elim
  | _ => trivial

namespace Machine

variable {final : Answer} {σ : State} {v w : Value}

theorem State.boundTo_bind (σ : State) (method : Closure) (object : ObjectId) :
    (σ.bind method object).1.BoundTo (σ.bind method object).2.frames object :=
  ⟨σ.frames.size, method.chain, rfl, by simp [State.bind, Bindings.get?]⟩

/-- The value is in a frame or a field, or it is the class of an object. -/
def State.Holds (σ : State) (v : Value) : Prop :=
  (∃ f x, σ.frames.get? f x = some v) ∨ ∃ (i : ObjectId) (o : Object), σ.objects[i]? = some o
    ∧ (v = .cls o.cls ∨ ∃ x, o.fields.get? x = some v)

/-- The value waits in the task. -/
def Pending.Holds (v : Value) : {a b : Answer} → Pending a b → Prop
  | _, _, .binaryRight left _ => v = left
  | _, _, .argument f _ done _ => v = f ∨ v ∈ done
  | _, _, .setField object _ => v = .object object
  | _, _, .construct object => v = .object object
  | _, _, .body f _ => v = .function f
  | _, _, _ => False

def Stack.Holds (v : Value) : {a : Answer} → Stack final a → Prop
  | _, .done => False
  | _, .push task below => task.Holds v ∨ below.Holds v

def AnswerHolds (v : Value) : (a : Answer) → a.Carrier → Prop
  | .value, w => v = w
  | .flow, .normal => False
  | .flow, .returned w => v = w

/-- The value is held by the state, by a pending task, or by the answer. -/
def Config.Holds (v : Value) : Config final → Prop
  | .eval _ stack σ => σ.Holds v ∨ stack.Holds v
  | .exec _ stack σ => σ.Holds v ∨ stack.Holds v
  | .answer (a := a) x stack σ => σ.Holds v ∨ stack.Holds v ∨ AnswerHolds v a x
  | .fail _ stack σ => σ.Holds v ∨ stack.Holds v

theorem Config.Holds.of_state {c : Config final} (h : c.state.Holds v) : c.Holds v := by
  cases c <;> exact .inl h

/-- A new interpreter holds its own functions only. -/
theorem State.eq_native_of_holds_initial {sink : Sink} {time : Nat → Float}
    (h : (State.initial sink time).Holds v) : v = .native .clock := by
  rcases h with ⟨f, x, hv⟩ | ⟨i, o, ho, -⟩
  · rcases Frames.get?_push_eq_some hv with hv | ⟨-, hv⟩
    · simp [Frames.get?, Frames.bindings, Frames.empty] at hv
    · exact Bindings.eq_of_get?_singleton hv
  · simp [State.initial] at ho

theorem State.Holds.congr {σ' : State} (h : σ'.Holds v) (hf : σ'.frames = σ.frames)
    (ho : σ'.objects = σ.objects) : σ.Holds v := by
  unfold State.Holds at h ⊢
  rwa [hf, ho] at h

theorem State.holds_of_getAt {chain : Chain} {d : Nat} {x : String}
    (h : σ.frames.getAt chain d x = some v) : σ.Holds v := by
  obtain ⟨f, -, hf⟩ := Frames.get?_of_getAt h
  exact .inl ⟨f, x, hf⟩

theorem State.holds_of_lookup? {id : NodeId} {x : String} (h : σ.lookup? id x = some v) :
    σ.Holds v := by
  unfold State.lookup? at h
  split at h
  · exact holds_of_getAt h
  · rw [globalChain, Frames.lookup_singleton] at h
    exact .inl ⟨_, x, h⟩

theorem State.holds_of_property? {object : ObjectId} {x : String}
    (h : σ.property? object x = some (.field v)) : σ.Holds v := by
  unfold State.property? at h
  split at h
  · cases h
  · next o ho =>
    split at h
    · next w hw =>
      cases h
      exact .inr ⟨object, o, ho, .inr ⟨x, hw⟩⟩
    · cases hm : o.cls.findMethod? x with
      | none => simp [hm] at h
      | some m => simp [hm] at h

theorem State.holds_of_superMethod {id : NodeId} {keyword method : Token} {found : Closure}
    {object : ObjectId} (h : σ.superMethod id keyword method = .ok (found, object)) :
    σ.Holds (.object object) := by
  unfold State.superMethod at h
  repeat' split at h
  all_goals cases h
  exact holds_of_getAt (by assumption)

/-! ## Holding only values with a property -/

variable {P : Value → Prop}

def State.HoldsOnly (P : Value → Prop) (σ : State) : Prop :=
  ∀ v, σ.Holds v → P v

def Stack.HoldsOnly (P : Value → Prop) {a : Answer} (stack : Stack final a) : Prop :=
  ∀ v, stack.Holds v → P v

def Config.HoldsOnly (P : Value → Prop) (c : Config final) : Prop :=
  ∀ v, c.Holds v → P v

namespace State.HoldsOnly

variable {σ' : State}

theorem congr (h : σ.HoldsOnly P) (hf : σ'.frames = σ.frames) (ho : σ'.objects = σ.objects) :
    σ'.HoldsOnly P :=
  fun v hv => h v (hv.congr hf ho)

theorem push {b : Bindings Value} (h : σ.HoldsOnly P) (hb : ∀ x v, b.get? x = some v → P v) :
    State.HoldsOnly P { σ with frames := σ.frames.push b } := by
  rintro v (⟨f, x, hv⟩ | hobject)
  · rcases Frames.get?_push_eq_some hv with hv | ⟨-, hv⟩
    · exact h v (.inl ⟨f, x, hv⟩)
    · exact hb x v hv
  · exact h v (.inr hobject)

theorem enter {b : Bindings Value} (h : σ.HoldsOnly P) (hb : ∀ x v, b.get? x = some v → P v)
    (outer : Chain) : (σ.enter b outer).HoldsOnly P :=
  (h.push hb).congr rfl rfl

theorem defineIn {f : FrameId} {x : String} (h : σ.HoldsOnly P) (hw : P w) :
    (σ.defineIn f x w).HoldsOnly P := by
  rintro v (⟨g, y, hv⟩ | hobject)
  · rcases Frames.get?_define_eq_some hv with hv | ⟨-, -, rfl⟩
    · exact h v (.inl ⟨g, y, hv⟩)
    · exact hw
  · exact h v (.inr hobject)

theorem define {x : String} (h : σ.HoldsOnly P) (hw : P w) : (σ.define x w).HoldsOnly P := by
  unfold State.define
  split
  · exact h
  · exact h.defineIn hw

theorem bind {object : ObjectId} (h : σ.HoldsOnly P) (hobject : P (.object object))
    (method : Closure) : (σ.bind method object).2.HoldsOnly P := by
  refine (h.push (b := [("this", .object object)]) fun x v hx => ?_).congr rfl rfl
  rwa [Bindings.eq_of_get?_singleton hx]

theorem allocate {d : Class} (h : σ.HoldsOnly P) (hd : P (.cls d)) :
    (σ.allocate d).HoldsOnly P := by
  rintro v (hframe | ⟨i, o, ho, hv⟩)
  · exact h v (.inl hframe)
  · rcases State.getElem?_allocate_eq_some ho with ho | rfl
    · exact h v (.inr ⟨i, o, ho, hv⟩)
    · rcases hv with rfl | ⟨x, hx⟩
      · exact hd
      · cases hx

theorem setField (h : σ.HoldsOnly P) (hw : P w) (object : ObjectId) (x : String) :
    (σ.setField object x w).HoldsOnly P := by
  rintro v (hframe | ⟨i, o, ho, hv⟩)
  · exact h v (.inl hframe)
  · rcases State.getElem?_setField_eq_some ho with ho | ⟨o', ho', rfl⟩
    · exact h v (.inr ⟨i, o, ho, hv⟩)
    · rcases hv with hv | ⟨y, hy⟩
      · exact h v (.inr ⟨i, o', ho', .inl hv⟩)
      · rcases Bindings.get?_set_eq_some hy with hy | rfl
        · exact h v (.inr ⟨i, o', ho', .inr ⟨y, hy⟩⟩)
        · exact hw

theorem makeClass {superclass : Option Class} (h : σ.HoldsOnly P)
    (hparent : ∀ parent, superclass = some parent → P (.cls parent)) (name : String)
    (methods : List FunctionDecl) : (σ.makeClass name superclass methods).2.HoldsOnly P := by
  cases superclass with
  | none =>
      obtain ⟨n, hn⟩ := σ.makeMethods_eq methods
      simp only [State.makeClass, hn]
      exact h.congr rfl rfl
  | some parent =>
      obtain ⟨n, hn⟩ := (σ.enter [("super", .cls parent)] σ.chain).makeMethods_eq methods
      simp only [State.makeClass, hn]
      refine (h.push (b := [("super", .cls parent)]) fun x v hx => ?_).congr rfl rfl
      rw [Bindings.eq_of_get?_singleton hx]
      exact hparent parent rfl

end State.HoldsOnly

theorem Stack.HoldsOnly.push {a b : Answer} {task : Pending a b} {stack : Stack final b}
    (h : stack.HoldsOnly P) (htask : ∀ v, task.Holds v → P v) :
    (Stack.push task stack).HoldsOnly P :=
  fun v hv => hv.elim (htask v) (h v)

/-! ## Steps -/

namespace Config

theorem callClass_of_none {d : Class} (h : d.findMethod? initializerName = none) (paren : Token)
    (arguments : List Value) (stack : Stack final .value) : callClass d paren arguments stack σ
      = .answer (a := .value) (.object σ.objects.size) stack (σ.allocate d) := by
  simp only [callClass, h]

theorem callClass_of_some {d : Class} {init : Closure}
    (h : d.findMethod? initializerName = some init) (paren : Token) (arguments : List Value)
    (stack : Stack final .value) :
    callClass d paren arguments stack σ
      = callFunction ((σ.allocate d).bind init σ.objects.size).1 paren arguments
        (.push (.construct σ.objects.size) stack) ((σ.allocate d).bind init σ.objects.size).2 := by
  simp only [callClass, h]

theorem grows_allocate_callClass (d : Class) (paren : Token) (arguments : List Value)
    (stack : Stack final .value) :
    (σ.allocate d).Grows (fun _ => True) (callClass d paren arguments stack σ).state := by
  cases hinit : d.findMethod? initializerName with
  | none =>
      rw [callClass_of_none hinit]
      exact .refl _ _
  | some init =>
      rw [callClass_of_some hinit]
      exact grows_callFunction ((State.Grows.refl _ _).bind init σ.objects.size) _ _ _ _

/-- The object is in the store when the initializer is run. -/
theorem stored_callClass (d : Class) (paren : Token) (arguments : List Value)
    (stack : Stack final .value) :
    ∃ o, (callClass d paren arguments stack σ).state.objects[σ.objects.size]? = some o
      ∧ o.cls = d :=
  (grows_allocate_callClass d paren arguments stack).cls (o := ⟨d, []⟩) (by simp [State.allocate])

namespace HoldsOnly

section Moments

variable {a : Answer} {stack : Stack final a}

theorem eval {stack : Stack final .value} {e : Expr} (hσ : σ.HoldsOnly P)
    (hstack : stack.HoldsOnly P) : HoldsOnly P (.eval e stack σ) :=
  fun v hv => hv.elim (hσ v) (hstack v)

theorem exec {stack : Stack final .flow} {s : Stmt} (hσ : σ.HoldsOnly P)
    (hstack : stack.HoldsOnly P) : HoldsOnly P (.exec s stack σ) :=
  fun v hv => hv.elim (hσ v) (hstack v)

theorem fail {failure : Failure} (hσ : σ.HoldsOnly P) (hstack : stack.HoldsOnly P) :
    HoldsOnly P (.fail failure stack σ) :=
  fun v hv => hv.elim (hσ v) (hstack v)

theorem answer {x : a.Carrier} (hσ : σ.HoldsOnly P) (hstack : stack.HoldsOnly P)
    (hx : ∀ v, AnswerHolds v a x → P v) : HoldsOnly P (.answer x stack σ) :=
  fun v hv => hv.elim (hσ v) (·.elim (hstack v) (hx v))

theorem value {stack : Stack final .value} (hσ : σ.HoldsOnly P) (hstack : stack.HoldsOnly P)
    (hw : P w) : HoldsOnly P (.answer (a := .value) w stack σ) :=
  answer hσ hstack fun _ hv => hv ▸ hw

theorem returned {stack : Stack final .flow} (hσ : σ.HoldsOnly P) (hstack : stack.HoldsOnly P)
    (hw : P w) : HoldsOnly P (.answer (a := .flow) (.returned w) stack σ) :=
  answer hσ hstack fun _ hv => hv ▸ hw

theorem normal {stack : Stack final .flow} (hσ : σ.HoldsOnly P) (hstack : stack.HoldsOnly P) :
    HoldsOnly P (.answer (a := .flow) .normal stack σ) :=
  answer hσ hstack fun _ => False.elim

end Moments

theorem inBlock {stack : Stack final .flow} (hσ : σ.HoldsOnly P) (hstack : stack.HoldsOnly P)
    (body : List Stmt) (outer : Chain) : (Config.inBlock body outer stack σ).HoldsOnly P := by
  cases body with
  | nil => exact .normal (hσ.congr rfl rfl) hstack
  | cons s rest => exact .exec hσ (hstack.push fun _ => False.elim)

theorem inProgram {stack : Stack final .flow} (hσ : σ.HoldsOnly P) (hstack : stack.HoldsOnly P)
    (statements : List Stmt) : (Config.inProgram statements stack σ).HoldsOnly P := by
  cases statements with
  | nil =>
      rw [Config.inProgram_nil]
      split
      · exact .fail hσ hstack
      · exact .normal hσ hstack
  | cons s rest => exact .exec hσ (hstack.push fun _ => False.elim)

section Values

variable {stack : Stack final .value} (hσ : σ.HoldsOnly P) (hstack : stack.HoldsOnly P)

include hσ hstack

theorem ofExcept {result : Except Failure Value} (hresult : ∀ w, result = .ok w → P w) :
    (Config.ofExcept (a := .value) stack σ result).HoldsOnly P := by
  cases result with
  | error failure => exact .fail hσ hstack
  | ok w => exact .value hσ hstack (hresult w rfl)

/-- A call holds its arguments and the function that is run. -/
theorem callFunction {f : Closure} {arguments : List Value} (hf : P (.function f))
    (harguments : ∀ w ∈ arguments, P w) (paren : Token) :
    (Config.callFunction f paren arguments stack σ).HoldsOnly P := by
  unfold Config.callFunction
  split
  · exact .fail hσ hstack
  · have hbelow : (Stack.push (.body f paren) stack).HoldsOnly P :=
      hstack.push (by rintro v rfl; exact hf)
    refine .inBlock ?_ hbelow _ _
    refine (hσ.enter (fun x v hx => ?_) f.chain).congr rfl rfl
    obtain ⟨p, hp, rfl⟩ := List.mem_map.mp (Bindings.mem_of_get?_ofPairs hx)
    exact harguments _ (List.of_mem_zip hp).2

/-- The initializer is bound to the new object when it is run. -/
theorem callClass {d : Class} {arguments : List Value} {paren : Token} (hd : P (.cls d))
    (harguments : ∀ w ∈ arguments, P w)
    (hfresh : ∀ v, v.Fresh (Config.callClass d paren arguments stack σ).state → P v) :
    (Config.callClass d paren arguments stack σ).HoldsOnly P := by
  have hobject : P (.object σ.objects.size) :=
    hfresh _ ((stored_callClass d paren arguments stack).imp fun _ h => h.1)
  cases hinit : d.findMethod? initializerName with
  | none =>
      rw [callClass_of_none hinit]
      exact .value (hσ.allocate hd) hstack hobject
  | some init =>
      rw [callClass_of_some hinit] at hfresh ⊢
      refine .callFunction ((hσ.allocate hd).bind hobject init)
        (hstack.push (by rintro v rfl; exact hobject)) (hfresh _ (.inr ⟨σ.objects.size, ?_⟩)) harguments _
      have hbound := (σ.allocate d).boundTo_bind init σ.objects.size
      rw [Config.callFunction]
      split
      · exact hbound
      · rw [frames_inBlock]
        exact hbound.push _

theorem call {callee : Value} {arguments : List Value} {paren : Token} (hcallee : P callee)
    (harguments : ∀ w ∈ arguments, P w)
    (hfresh : ∀ v, v.Fresh (Config.call callee paren arguments stack σ).state → P v) :
    (Config.call callee paren arguments stack σ).HoldsOnly P := by
  rcases Config.call_cases callee paren arguments stack σ with
    ⟨fault, -, heq⟩ | ⟨f, rfl, heq⟩ | ⟨f, rfl, -, heq⟩ | ⟨d, rfl, -, heq⟩ <;> rw [heq] at hfresh ⊢
  · exact .fail hσ hstack
  · cases f
    exact .value (hσ.congr rfl rfl) hstack (hfresh _ trivial)
  · exact .callFunction hσ hstack hcallee harguments paren
  · exact .callClass hσ hstack hcallee harguments hfresh

theorem callWith {callee : Value} {paren : Token} {done : List Value} {rest : List Expr}
    (hcallee : P callee) (hdone : ∀ w ∈ done, P w)
    (hfresh : ∀ v, v.Fresh (Config.callWith callee paren done rest stack σ).state → P v) :
    (Config.callWith callee paren done rest stack σ).HoldsOnly P := by
  cases rest with
  | nil => exact .call hσ hstack hcallee (fun w hw => hdone w (List.mem_reverse.mp hw)) hfresh
  | cons e rest => exact .eval hσ (hstack.push fun v hv => hv.elim (· ▸ hcallee) (hdone v))

theorem endCall {f : Closure} {flow : Flow} (hnil : P .nil)
    (hflow : ∀ v, AnswerHolds v .flow flow → P v) (paren : Token) :
    (Config.endCall f paren flow stack σ).HoldsOnly P := by
  have hended : State.HoldsOnly P { σ with depth := σ.depth - 1 } := hσ.congr rfl rfl
  unfold Config.endCall
  dsimp only
  split
  · split
    · next w hw => exact .value hended hstack (hσ w (State.holds_of_getAt hw))
    · exact .fail hended hstack
  · cases flow with
    | normal => exact .value hended hstack hnil
    | returned w => exact .value hended hstack (hflow w rfl)

theorem readVariable (id : NodeId) (name : Token) :
    (Config.readVariable id name stack σ).HoldsOnly P := by
  unfold Config.readVariable
  split
  · next w hw => exact .value hσ hstack (hσ w (State.holds_of_lookup? hw))
  · exact .fail hσ hstack

theorem assignVariable (hw : P w) (id : NodeId) (name : Token) :
    (Config.assignVariable id name w stack σ).HoldsOnly P := by
  unfold Config.assignVariable
  split
  · exact .value (hσ.defineIn hw) hstack hw
  · exact .fail hσ hstack

theorem bindMethod {method : Closure} {object : ObjectId} (hobject : P (.object object))
    (hfresh : ∀ v, v.Fresh (Config.bindMethod method object stack σ).state → P v) :
    (Config.bindMethod method object stack σ).HoldsOnly P :=
  .value (hσ.bind hobject method) hstack
    (hfresh _ (.inr ⟨object, σ.boundTo_bind method object⟩))

theorem readProperty {object : ObjectId} {name : Token} (hobject : P (.object object))
    (hfresh : ∀ v, v.Fresh (Config.readProperty object name stack σ).state → P v) :
    (Config.readProperty object name stack σ).HoldsOnly P := by
  unfold Config.readProperty at hfresh ⊢
  cases hproperty : σ.property? object name.lexeme with
  | none => exact .fail hσ hstack
  | some property =>
      rw [hproperty] at hfresh
      cases property with
      | field w => exact .value hσ hstack (hσ w (State.holds_of_property? hproperty))
      | method method => exact .bindMethod hσ hstack hobject hfresh

theorem readSuper {id : NodeId} {keyword method : Token}
    (hfresh : ∀ v, v.Fresh (Config.readSuper id keyword method stack σ).state → P v) :
    (Config.readSuper id keyword method stack σ).HoldsOnly P := by
  unfold Config.readSuper at hfresh ⊢
  cases hfound : σ.superMethod id keyword method with
  | error failure => exact .fail hσ hstack
  | ok found =>
      rw [hfound] at hfresh
      exact .bindMethod hσ hstack (hσ _ (State.holds_of_superMethod hfound)) hfresh

theorem evalStep {e : Expr} (hfresh : ∀ v, v.Fresh (Config.evalStep e stack σ).state → P v) :
    (Config.evalStep e stack σ).HoldsOnly P := by
  cases e with
  | literal literal => exact .value hσ hstack (hfresh _ (by cases literal <;> trivial))
  | group e => exact .eval hσ hstack
  | var id name => exact .readVariable hσ hstack id name
  | this id keyword => exact .readVariable hσ hstack id keyword
  | super id keyword method => exact .readSuper hσ hstack hfresh
  | _ => exact .eval hσ (hstack.push fun _ => False.elim)

end Values

theorem declareClass {name : Token} {superclass : Option Class} {methods : List FunctionDecl}
    {stack : Stack final .flow} (hσ : σ.HoldsOnly P) (hstack : stack.HoldsOnly P) (hnil : P .nil)
    (hparent : ∀ parent, superclass = some parent → P (.cls parent))
    (hdeclared : P (.cls
      ((σ.define name.lexeme .nil).makeClass name.lexeme superclass methods).1)) :
    (Config.declareClass name superclass methods stack σ).HoldsOnly P := by
  have hmade := (hσ.define (x := name.lexeme) hnil).makeClass hparent name.lexeme methods
  unfold Config.declareClass
  dsimp only
  split
  · exact .normal (hmade.defineIn hdeclared) hstack
  · exact .fail hmade hstack

theorem execStep {s : Stmt} {stack : Stack final .flow} (hσ : σ.HoldsOnly P)
    (hstack : stack.HoldsOnly P)
    (hfresh : ∀ v, v.Fresh (Config.execStep s stack σ).state → P v)
    (hdeclared : ∀ d parent, (Config.exec s stack σ).declares? = some (d, parent) → P (.cls d)) :
    (Config.execStep s stack σ).HoldsOnly P := by
  -- What is held afterwards was held before, or the step has made or declared it.
  cases s with
  | var name initializer =>
      cases initializer with
      | none => exact .normal (hσ.define (hfresh .nil trivial)) hstack
      | some e => exact .eval hσ (hstack.push fun _ => False.elim)
  | block body =>
      exact .inBlock (hσ.enter (b := []) (fun x v hx => by cases hx) σ.chain) hstack body σ.chain
  | function decl =>
      have hused : σ.useIdentity.HoldsOnly P := hσ.congr rfl rfl
      exact .normal (hused.define (hfresh _ (.inl rfl))) hstack
  | ret keyword value =>
      cases value with
      | none => exact .returned hσ hstack (hfresh .nil trivial)
      | some e => exact .eval hσ (hstack.push fun _ => False.elim)
  | classDecl name superclass methods =>
      cases superclass with
      | none =>
          change (Config.declareClass name none methods stack σ).HoldsOnly P
          exact .declareClass hσ hstack (hfresh .nil trivial) nofun (hdeclared _ none rfl)
      | some e => exact .eval hσ (hstack.push fun _ => False.elim)
  | _ => exact .eval hσ (hstack.push fun _ => False.elim)

theorem resumeValue {b : Answer} {task : Pending .value b} {stack : Stack final b}
    (hσ : σ.HoldsOnly P) (hw : P w) (htask : ∀ v, task.Holds v → P v)
    (hstack : stack.HoldsOnly P)
    (hfresh : ∀ v, v.Fresh (Config.resumeValue w task stack σ).state → P v)
    (hdeclared : ∀ d parent, (Config.answer (a := .value) w (.push task stack) σ).declares?
      = some (d, parent) → P (.cls d)) :
    (Config.resumeValue w task stack σ).HoldsOnly P := by
  cases task with
  | discard => exact .normal hσ hstack
  | print =>
      have hprinted : (σ.print (σ.display w)).HoldsOnly P := hσ.congr rfl rfl
      rw [Config.resumeValue_print]
      split
      · exact .normal hprinted hstack
      · exact .fail hprinted hstack
  | define name => exact .normal (hσ.define hw) hstack
  | branch t e =>
      rw [Config.resumeValue_branch]
      split
      · exact .exec hσ hstack
      · cases e with
        | none => exact .normal hσ hstack
        | some e => exact .exec hσ hstack
  | loopTest c body =>
      rw [Config.resumeValue_loopTest]
      split
      · exact .exec hσ (hstack.push fun _ => False.elim)
      · exact .normal hσ hstack
  | ret => exact .returned hσ hstack hw
  | superclass name blame methods =>
      cases w with
      | cls parent =>
          change (Config.declareClass name (some parent) methods stack σ).HoldsOnly P
          refine .declareClass hσ hstack (hfresh .nil trivial) ?_ (hdeclared _ (some parent) rfl)
          rintro _ ⟨⟩
          exact hw
      | _ => exact .fail hσ hstack
  | unary operator =>
      exact .ofExcept hσ hstack fun w hw => hfresh w (isScalar_of_applyUnary hw).fresh
  | binaryLeft operator right => exact .eval hσ (hstack.push fun v hv => hv ▸ hw)
  | binaryRight left operator =>
      exact .ofExcept hσ hstack fun w hw => hfresh w (isScalar_of_applyBinary hw).fresh
  | logical operator right =>
      rw [Config.resumeValue_logical]
      split
      · exact .value hσ hstack hw
      · exact .eval hσ hstack
  | conditional t e =>
      rw [Config.resumeValue_conditional]
      split <;> exact .eval hσ hstack
  | assign id name => exact .assignVariable hσ hstack hw id name
  | callee paren arguments => exact .callWith hσ hstack hw nofun hfresh
  | argument callee paren done rest =>
      exact .callWith hσ hstack (htask callee (.inl rfl))
        (List.forall_mem_cons.mpr ⟨hw, fun v hv => htask v (.inr hv)⟩) hfresh
  | get name =>
      cases w with
      | object object => exact .readProperty hσ hstack hw hfresh
      | _ => exact .fail hσ hstack
  | setObject name value =>
      cases w with
      | object object => exact .eval hσ (hstack.push fun v hv => hv ▸ hw)
      | _ => exact .fail hσ hstack
  | setField object name => exact .value (hσ.setField hw object name.lexeme) hstack hw
  | construct object => exact .value hσ hstack (htask _ rfl)

theorem resumeFlow {b : Answer} {flow : Flow} {task : Pending .flow b} {stack : Stack final b}
    (hσ : σ.HoldsOnly P) (hflow : ∀ v, AnswerHolds v .flow flow → P v)
    (hstack : stack.HoldsOnly P) (hnil : P .nil) :
    (Config.resumeFlow flow task stack σ).HoldsOnly P := by
  cases task with
  | loopBody c body =>
      cases flow with
      | normal => exact .eval hσ (hstack.push fun _ => False.elim)
      | returned w => exact .returned hσ hstack (hflow w rfl)
  | block rest outer =>
      cases flow with
      | normal => exact .inBlock hσ hstack rest outer
      | returned w => exact .returned (hσ.congr rfl rfl) hstack (hflow w rfl)
  | body f paren => exact .endCall hσ hstack hnil hflow paren
  | program rest => exact .inProgram hσ hstack rest

/-- A step makes nothing but fresh values and the class that it declares. -/
theorem step {c c' : Config final} (h : c.HoldsOnly P) (hstep : c.step = .inl c')
    (hfresh : ∀ v, v.Fresh c'.state → P v)
    (hdeclared : ∀ d parent, c.declares? = some (d, parent) → P (.cls d)) : c'.HoldsOnly P := by
  have hσ : c.state.HoldsOnly P := fun v hv => h v (.of_state hv)
  cases steps_of_step hstep with
  | eval e stack σ => exact .evalStep hσ (fun v hv => h v (.inr hv)) hfresh
  | exec s stack σ => exact .execStep hσ (fun v hv => h v (.inr hv)) hfresh hdeclared
  | value w task below σ =>
      exact .resumeValue hσ (h w (.inr (.inr rfl))) (fun v hv => h v (.inr (.inl (.inl hv))))
        (fun v hv => h v (.inr (.inl (.inr hv)))) hfresh hdeclared
  | flow flow task below σ =>
      exact .resumeFlow hσ (fun v hv => h v (.inr (.inr hv)))
        (fun v hv => h v (.inr (.inl (.inr hv)))) (hfresh .nil trivial)
  | leave failure task below σ =>
      have hobjects : (task.leave σ).objects = σ.objects := by cases task <;> rfl
      exact .fail (hσ.congr (frames_leave task) hobjects) fun v hv => h v (.inr (.inr hv))

end HoldsOnly

/-- What a moment holds was held before the step, or the step has made it. -/
theorem Holds.of_step {c c' : Config final} (hstep : c.step = .inl c') (h : c'.Holds v) :
    c.Holds v ∨ v.Fresh c'.state
      ∨ ∃ d parent, v = .cls d ∧ c.declares? = some (d, parent) := by
  let P (v : Value) : Prop := c.Holds v ∨ v.Fresh c'.state
    ∨ ∃ d parent, v = .cls d ∧ c.declares? = some (d, parent)
  have hbefore : c.HoldsOnly P := fun v => .inl
  exact hbefore.step hstep (fun v hv => .inr (.inl hv))
    (fun d parent hd => .inr (.inr ⟨d, parent, rfl, hd⟩)) v h

end Config

end Machine

end Lox
