import Lox.Proofs.Machine.Contexts
import Lox.Proofs.Machine.Soundness

/-!
# The store only grows

Whatever a program does, frames and objects that exist stay: no name is unbound, no object changes
its class, and identities are handed out in increasing order. The names whose bindings in existing
frames may change are those that are declared or assigned.
-/

namespace Lox.Machine

variable {final : Answer} {W : String → Prop} {σ₀ σ σ' σ'' : State}

/-- The second state has the frames, objects and identities of the first. Existing frames differ at
most in what they bind to names of `W`. -/
structure State.Grows (W : String → Prop) (σ σ' : State) : Prop where
  nextIdentity_le : σ.nextIdentity ≤ σ'.nextIdentity
  size_le : σ.frames.size ≤ σ'.frames.size
  binds : ∀ {f x}, σ.frames.binds f x = true → σ'.frames.binds f x = true
  get?_eq : ∀ {f x}, f < σ.frames.size → ¬ W x → σ'.frames.get? f x = σ.frames.get? f x
  cls : ∀ {i : ObjectId} {o : Object}, σ.objects[i]? = some o →
    ∃ o', σ'.objects[i]? = some o' ∧ o'.cls = o.cls

namespace State.Grows

variable {f : FrameId} {x : String} {v : Value}

theorem refl (W : String → Prop) (σ : State) : σ.Grows W σ :=
  ⟨Nat.le_refl _, Nat.le_refl _, id, fun _ _ => rfl, fun ho => ⟨_, ho, rfl⟩⟩

theorem trans (h : σ.Grows W σ') (h' : σ'.Grows W σ'') : σ.Grows W σ'' where
  nextIdentity_le := h.nextIdentity_le.trans h'.nextIdentity_le
  size_le := h.size_le.trans h'.size_le
  binds hb := h'.binds (h.binds hb)
  get?_eq hf hx := (h'.get?_eq (Nat.lt_of_lt_of_le hf h.size_le) hx).trans (h.get?_eq hf hx)
  cls ho := by
    obtain ⟨o', ho', heq⟩ := h.cls ho
    obtain ⟨o'', ho'', heq'⟩ := h'.cls ho'
    exact ⟨o'', ho'', heq'.trans heq⟩

/-- Only the frames, the objects and the next identity count. -/
theorem congr (h : σ₀.Grows W σ) (hf : σ'.frames = σ.frames) (ho : σ'.objects = σ.objects)
    (hid : σ.nextIdentity ≤ σ'.nextIdentity) : σ₀.Grows W σ' :=
  h.trans ⟨hid, by rw [hf], by rw [hf]; exact id, fun _ _ => by rw [hf],
    fun hi => ⟨_, by rwa [ho], rfl⟩⟩

/-- A value that a name outside of `W` is bound to is kept. -/
theorem get? (h : σ.Grows W σ') (hx : ¬ W x) (hv : σ.frames.get? f x = some v) :
    σ'.frames.get? f x = some v :=
  (h.get?_eq (Frames.lt_size_of_binds (Frames.binds_of_get? hv)) hx).trans hv

theorem push (h : σ₀.Grows W σ) (b : Bindings Value) :
    σ₀.Grows W { σ with frames := σ.frames.push b } :=
  h.trans ⟨Nat.le_refl _, by simp, (σ.frames.extends_push b).binds,
    fun hf _ => Frames.get?_push_of_lt b hf, fun ho => ⟨_, ho, rfl⟩⟩

theorem enter (h : σ₀.Grows W σ) (b : Bindings Value) (outer : Chain) :
    σ₀.Grows W (σ.enter b outer) :=
  (h.push b).congr rfl rfl (Nat.le_refl _)

theorem defineIn (h : σ₀.Grows W σ) (hx : W x) : σ₀.Grows W (σ.defineIn f x v) :=
  h.trans ⟨Nat.le_refl _, by simp [State.defineIn], (σ.frames.extends_define f x v).binds,
    fun _ hy => Frames.get?_define_of_ne (.inr (by rintro rfl; exact hy hx)),
    fun ho => ⟨_, ho, rfl⟩⟩

theorem define (h : σ₀.Grows W σ) (hx : W x) : σ₀.Grows W (σ.define x v) := by
  unfold State.define
  split
  · exact h
  · exact h.defineIn hx

theorem bind (h : σ₀.Grows W σ) (method : Closure) (object : ObjectId) :
    σ₀.Grows W (σ.bind method object).2 :=
  (h.push [("this", .object object)]).congr rfl rfl (Nat.le_succ _)

theorem allocate (h : σ₀.Grows W σ) (c : Class) : σ₀.Grows W (σ.allocate c) := by
  refine h.trans ⟨Nat.le_refl _, Nat.le_refl _, id, fun _ _ => rfl, fun {i o} ho => ⟨o, ?_, rfl⟩⟩
  have hi : i < σ.objects.size := (Array.getElem?_eq_some_iff.mp ho).1
  rw [State.allocate, Array.getElem?_push_lt hi, ← Array.getElem?_eq_getElem hi]
  exact ho

theorem setField (h : σ₀.Grows W σ) (object : ObjectId) (x : String) (v : Value) :
    σ₀.Grows W (σ.setField object x v) := by
  refine h.trans ⟨Nat.le_refl _, Nat.le_refl _, id, fun _ _ => rfl, fun {i o} ho => ?_⟩
  simp only [State.setField, Array.getElem?_modify, ho]
  split
  · exact ⟨_, rfl, rfl⟩
  · exact ⟨o, rfl, rfl⟩

theorem makeMethods (h : σ₀.Grows W σ) (methods : List FunctionDecl) :
    σ₀.Grows W (σ.makeMethods methods).2 := by
  induction methods generalizing σ with
  | nil => exact h
  | cons m ms ih => exact ih (h.congr rfl rfl (Nat.le_succ _))

theorem makeClass (h : σ₀.Grows W σ) (name : String) (superclass : Option Class)
    (methods : List FunctionDecl) : σ₀.Grows W (σ.makeClass name superclass methods).2 := by
  unfold State.makeClass
  cases superclass with
  | none => exact (h.makeMethods methods).congr rfl rfl (Nat.le_succ _)
  | some c =>
      exact ((h.enter [("super", .cls c)] σ.chain).makeMethods methods).congr rfl rfl
        (Nat.le_succ _)

end State.Grows

namespace Config

/-- The name that the next step binds or assigns, if there is one. -/
def written? : Config final → Option String
  | .exec (.var name none) _ _ => some name.lexeme
  | .exec (.function decl) _ _ => some decl.name.lexeme
  | .exec (.classDecl name none _) _ _ => some name.lexeme
  | .answer (a := .value) _ (.push (.define name) _) _ => some name.lexeme
  | .answer (a := .value) _ (.push (.superclass name _ _) _) _ => some name.lexeme
  | .answer (a := .value) _ (.push (.assign _ name) _) _ => some name.lexeme
  | _ => none

theorem grows_ofExcept (h : σ₀.Grows W σ) {a : Answer} (stack : Stack final a)
    (result : Except Failure a.Carrier) : σ₀.Grows W (ofExcept stack σ result).state := by
  cases result <;> exact h

theorem grows_inBlock (h : σ₀.Grows W σ) (body : List Stmt) (outer : Chain)
    (stack : Stack final .flow) : σ₀.Grows W (inBlock body outer stack σ).state := by
  cases body with
  | nil => exact h.congr rfl rfl (Nat.le_refl _)
  | cons s rest => exact h

theorem grows_inProgram (h : σ₀.Grows W σ) (statements : List Stmt) (stack : Stack final .flow) :
    σ₀.Grows W (inProgram statements stack σ).state := by
  cases statements with
  | nil =>
      rw [inProgram_nil]
      split <;> exact h
  | cons s rest => exact h

theorem grows_callFunction (h : σ₀.Grows W σ) (f : Closure) (paren : Token)
    (arguments : List Value) (stack : Stack final .value) :
    σ₀.Grows W (callFunction f paren arguments stack σ).state := by
  unfold callFunction
  split
  · exact h
  · refine grows_inBlock ?_ f.decl.body σ.chain (.push (.body f paren) stack)
    exact (h.enter _ f.chain).congr rfl rfl (Nat.le_refl _)

theorem grows_callClass (h : σ₀.Grows W σ) (c : Class) (paren : Token) (arguments : List Value)
    (stack : Stack final .value) :
    σ₀.Grows W (callClass c paren arguments stack σ).state := by
  unfold callClass
  dsimp only
  split
  · exact h.allocate c
  · exact grows_callFunction ((h.allocate c).bind _ _) _ _ _ _

theorem grows_call (h : σ₀.Grows W σ) (callee : Value) (paren : Token) (arguments : List Value)
    (stack : Stack final .value) :
    σ₀.Grows W (call callee paren arguments stack σ).state := by
  rcases call_cases callee paren arguments stack σ with
    ⟨fault, -, heq⟩ | ⟨f, -, heq⟩ | ⟨f, -, -, heq⟩ | ⟨c, -, -, heq⟩ <;> rw [heq]
  · exact h
  · cases f
    exact h.congr rfl rfl (Nat.le_refl _)
  · exact grows_callFunction h f paren arguments stack
  · exact grows_callClass h c paren arguments stack

theorem grows_callWith (h : σ₀.Grows W σ) (callee : Value) (paren : Token) (done : List Value)
    (rest : List Expr) (stack : Stack final .value) :
    σ₀.Grows W (callWith callee paren done rest stack σ).state := by
  cases rest with
  | nil => exact grows_call h callee paren done.reverse stack
  | cons e rest => exact h

theorem grows_endCall (h : σ₀.Grows W σ) (f : Closure) (paren : Token) (flow : Flow)
    (stack : Stack final .value) : σ₀.Grows W (endCall f paren flow stack σ).state := by
  have hended : σ₀.Grows W { σ with depth := σ.depth - 1 } := h.congr rfl rfl (Nat.le_refl _)
  unfold endCall
  dsimp only
  split
  · split <;> exact hended
  · cases flow <;> exact hended

theorem grows_declareClass (h : σ₀.Grows W σ) (name : Token) (hname : W name.lexeme)
    (superclass : Option Class) (methods : List FunctionDecl) (stack : Stack final .flow) :
    σ₀.Grows W (declareClass name superclass methods stack σ).state := by
  have hmade := (h.define (v := .nil) hname).makeClass name.lexeme superclass methods
  unfold declareClass
  dsimp only
  split
  · exact hmade.defineIn hname
  · exact hmade

theorem grows_readVariable (h : σ₀.Grows W σ) (id : NodeId) (name : Token)
    (stack : Stack final .value) : σ₀.Grows W (readVariable id name stack σ).state := by
  unfold readVariable
  split <;> exact h

theorem grows_assignVariable (h : σ₀.Grows W σ) (id : NodeId) (name : Token)
    (hname : W name.lexeme) (v : Value) (stack : Stack final .value) :
    σ₀.Grows W (assignVariable id name v stack σ).state := by
  unfold assignVariable
  split
  · exact h.defineIn hname
  · exact h

theorem grows_readProperty (h : σ₀.Grows W σ) (object : ObjectId) (name : Token)
    (stack : Stack final .value) : σ₀.Grows W (readProperty object name stack σ).state := by
  unfold readProperty
  split
  · exact h
  · next method _ => exact h.bind method object
  · exact h

theorem grows_readSuper (h : σ₀.Grows W σ) (id : NodeId) (keyword method : Token)
    (stack : Stack final .value) : σ₀.Grows W (readSuper id keyword method stack σ).state := by
  unfold readSuper
  split
  · next found object _ => exact h.bind found object
  · exact h

theorem grows_evalStep (h : σ₀.Grows W σ) (e : Expr) (stack : Stack final .value) :
    σ₀.Grows W (evalStep e stack σ).state := by
  cases e with
  | var id name => exact grows_readVariable h id name stack
  | this id keyword => exact grows_readVariable h id keyword stack
  | super id keyword method => exact grows_readSuper h id keyword method stack
  | _ => exact h

theorem grows_execStep (h : σ₀.Grows W σ) (s : Stmt) (stack : Stack final .flow)
    (hW : ∀ x, (exec s stack σ).written? = some x → W x) :
    σ₀.Grows W (execStep s stack σ).state := by
  cases s with
  | var name initializer =>
      cases initializer with
      | none => exact h.define (hW _ rfl)
      | some e => exact h
  | block body => exact grows_inBlock (h.enter [] σ.chain) body σ.chain stack
  | function decl =>
      have hused : σ₀.Grows W σ.useIdentity := h.congr rfl rfl (Nat.le_succ _)
      exact hused.define (hW _ rfl)
  | ret keyword value => cases value <;> exact h
  | classDecl name superclass methods =>
      cases superclass with
      | none => exact grows_declareClass h name (hW _ rfl) none methods stack
      | some e => exact h
  | _ => exact h

theorem grows_resumeValue (h : σ₀.Grows W σ) {b : Answer} (v : Value) (task : Pending .value b)
    (stack : Stack final b)
    (hW : ∀ x, (answer (a := .value) v (.push task stack) σ).written? = some x → W x) :
    σ₀.Grows W (resumeValue v task stack σ).state := by
  cases task with
  | print =>
      have hprinted : σ₀.Grows W (σ.print (σ.display v)) := h.congr rfl rfl (Nat.le_refl _)
      rw [resumeValue_print]
      split <;> exact hprinted
  | define name => exact h.define (hW _ rfl)
  | branch t e =>
      rw [resumeValue_branch]
      split
      · exact h
      · cases e <;> exact h
  | loopTest c body =>
      rw [resumeValue_loopTest]
      split <;> exact h
  | superclass name blame methods =>
      cases v with
      | cls c => exact grows_declareClass h name (hW _ rfl) (some c) methods stack
      | _ => exact h
  | unary operator => exact grows_ofExcept h (a := .value) stack _
  | binaryRight left operator => exact grows_ofExcept h (a := .value) stack _
  | logical operator right =>
      rw [resumeValue_logical]
      split <;> exact h
  | conditional t e =>
      rw [resumeValue_conditional]
      split <;> exact h
  | assign id name => exact grows_assignVariable h id name (hW _ rfl) v stack
  | callee paren arguments => exact grows_callWith h v paren [] arguments stack
  | argument callee paren done rest => exact grows_callWith h callee paren (v :: done) rest stack
  | get name =>
      cases v with
      | object object => exact grows_readProperty h object name stack
      | _ => exact h
  | setObject name value => cases v <;> exact h
  | setField object name => exact h.setField object name.lexeme v
  | _ => exact h

theorem grows_resumeFlow (h : σ₀.Grows W σ) {b : Answer} (flow : Flow) (task : Pending .flow b)
    (stack : Stack final b) : σ₀.Grows W (resumeFlow flow task stack σ).state := by
  cases task with
  | loopBody c body => cases flow <;> exact h
  | block rest outer =>
      cases flow with
      | normal => exact grows_inBlock h rest outer stack
      | returned v => exact h.congr rfl rfl (Nat.le_refl _)
  | body f paren => exact grows_endCall h f paren flow stack
  | program rest => exact grows_inProgram h rest stack

theorem grows_leave (h : σ₀.Grows W σ) {a b : Answer} (task : Pending a b) :
    σ₀.Grows W (task.leave σ) := by
  cases task <;> exact h.congr rfl rfl (Nat.le_refl _)

/-- A step changes no binding of an existing frame but that of the name that it writes. -/
theorem grows_of_step {c c' : Config final} (h : c.step = .inl c')
    (hW : ∀ x, c.written? = some x → W x) : c.state.Grows W c'.state := by
  cases steps_of_step h with
  | eval e stack σ => exact grows_evalStep (.refl W σ) e stack
  | exec s stack σ => exact grows_execStep (.refl W σ) s stack hW
  | value v task below σ => exact grows_resumeValue (.refl W σ) v task below hW
  | flow flow task below σ => exact grows_resumeFlow (.refl W σ) flow task below
  | leave failure task below σ => exact grows_leave (.refl W σ) task

/-- Along a run whose moments write only names of `W`, existing frames keep what they bind to all
other names. -/
theorem grows_of_advance {c c' : Config final} {n : Nat} (h : c.advance n = .inl c')
    (hW : ∀ k d x, c.advance k = .inl d → d.written? = some x → W x) :
    c.state.Grows W c'.state := by
  refine holds_of_advance (P := fun _ d => c.state.Grows W d.state) (.refl W _) ?_ h
  exact fun hd hgrows hstep => hgrows.trans (grows_of_step hstep (hW _ _ · hd))

theorem grows_of_end {c : Config final} {n : Nat} {o : Outcome final} (h : c.advance n = .inr o)
    (hW : ∀ k d x, c.advance k = .inl d → d.written? = some x → W x) :
    c.state.Grows W o.σ := by
  obtain ⟨d, c', -, hd, hend⟩ := exists_end h
  rw [state_of_end hend]
  exact grows_of_advance hd hW

end Config

end Lox.Machine
