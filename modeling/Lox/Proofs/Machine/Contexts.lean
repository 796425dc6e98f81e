import Lox.Proofs.Machine.Runs

/-!
# Runs on top of pending tasks

A run does the same whatever tasks are pending below it. Until it ends, it goes through the same
moments, and then its answer or failure is handed to the tasks below.
-/

namespace Lox.Machine

variable {inner final : Answer}

/-- The stack on top of pending tasks. -/
def Stack.onto : {a : Answer} → Stack inner a → Stack final inner → Stack final a
  | _, .done, base => base
  | _, .push task below, base => .push task (below.onto base)

namespace Config

/-- The moment of a run on top of pending tasks. -/
def onto (c : Config inner) (base : Stack final inner) : Config final :=
  match c with
  | .eval e stack σ => .eval e (stack.onto base) σ
  | .exec s stack σ => .exec s (stack.onto base) σ
  | .answer x stack σ => .answer x (stack.onto base) σ
  | .fail failure stack σ => .fail failure (stack.onto base) σ

variable {base : Stack final inner} {σ : State}

theorem onto_ofExcept {a : Answer} (stack : Stack inner a) (result : Except Failure a.Carrier) :
    (ofExcept stack σ result).onto base = ofExcept (stack.onto base) σ result := by
  cases result <;> rfl

theorem onto_inBlock (body : List Stmt) (outer : Chain) (stack : Stack inner .flow) :
    (inBlock body outer stack σ).onto base = inBlock body outer (stack.onto base) σ := by
  cases body <;> rfl

theorem onto_inProgram (statements : List Stmt) (stack : Stack inner .flow) :
    (inProgram statements stack σ).onto base = inProgram statements (stack.onto base) σ := by
  cases statements with
  | nil =>
      simp only [inProgram_nil]
      split <;> rfl
  | cons s rest => rfl

theorem onto_callFunction (f : Closure) (paren : Token) (arguments : List Value)
    (stack : Stack inner .value) :
    (callFunction f paren arguments stack σ).onto base
      = callFunction f paren arguments (stack.onto base) σ := by
  unfold callFunction
  split
  · rfl
  · exact onto_inBlock _ _ (.push (.body f paren) stack)

theorem onto_callClass (c : Class) (paren : Token) (arguments : List Value)
    (stack : Stack inner .value) :
    (callClass c paren arguments stack σ).onto base
      = callClass c paren arguments (stack.onto base) σ := by
  unfold callClass
  dsimp only
  split
  · rfl
  · exact onto_callFunction _ _ _ (.push (.construct σ.objects.size) stack)

theorem onto_call (callee : Value) (paren : Token) (arguments : List Value)
    (stack : Stack inner .value) :
    (call callee paren arguments stack σ).onto base
      = call callee paren arguments (stack.onto base) σ := by
  unfold call
  split
  · rfl
  · split
    · rfl
    · cases callee with
      | function f => exact onto_callFunction f paren arguments stack
      | cls c => exact onto_callClass c paren arguments stack
      | _ => rfl

theorem onto_callWith (callee : Value) (paren : Token) (done : List Value) (rest : List Expr)
    (stack : Stack inner .value) :
    (callWith callee paren done rest stack σ).onto base
      = callWith callee paren done rest (stack.onto base) σ := by
  cases rest with
  | nil => exact onto_call callee paren done.reverse stack
  | cons e rest => rfl

theorem onto_endCall (f : Closure) (paren : Token) (flow : Flow) (stack : Stack inner .value) :
    (endCall f paren flow stack σ).onto base = endCall f paren flow (stack.onto base) σ := by
  unfold endCall
  dsimp only
  split
  · split <;> rfl
  · cases flow <;> rfl

theorem onto_declareClass (name : Token) (superclass : Option Class) (ms : List FunctionDecl)
    (stack : Stack inner .flow) :
    (declareClass name superclass ms stack σ).onto base
      = declareClass name superclass ms (stack.onto base) σ := by
  unfold declareClass
  dsimp only
  split <;> rfl

theorem onto_readVariable (id : NodeId) (name : Token) (stack : Stack inner .value) :
    (readVariable id name stack σ).onto base = readVariable id name (stack.onto base) σ := by
  unfold readVariable
  split <;> rfl

theorem onto_assignVariable (id : NodeId) (name : Token) (v : Value) (stack : Stack inner .value) :
    (assignVariable id name v stack σ).onto base
      = assignVariable id name v (stack.onto base) σ := by
  unfold assignVariable
  split <;> rfl

theorem onto_readProperty (object : ObjectId) (name : Token) (stack : Stack inner .value) :
    (readProperty object name stack σ).onto base
      = readProperty object name (stack.onto base) σ := by
  unfold readProperty
  split <;> rfl

theorem onto_readSuper (id : NodeId) (keyword method : Token) (stack : Stack inner .value) :
    (readSuper id keyword method stack σ).onto base
      = readSuper id keyword method (stack.onto base) σ := by
  unfold readSuper
  split <;> rfl

theorem onto_evalStep (e : Expr) (stack : Stack inner .value) :
    (evalStep e stack σ).onto base = evalStep e (stack.onto base) σ := by
  cases e with
  | var id name => exact onto_readVariable id name stack
  | this id keyword => exact onto_readVariable id keyword stack
  | super id keyword method => exact onto_readSuper id keyword method stack
  | _ => rfl

theorem onto_execStep (s : Stmt) (stack : Stack inner .flow) :
    (execStep s stack σ).onto base = execStep s (stack.onto base) σ := by
  cases s with
  | var name initializer => cases initializer <;> rfl
  | block body => exact onto_inBlock body σ.chain stack
  | ret keyword value => cases value <;> rfl
  | classDecl name superclass ms =>
      cases superclass with
      | none => exact onto_declareClass name none ms stack
      | some e => rfl
  | _ => rfl

theorem onto_resumeValue {b : Answer} (v : Value) (task : Pending .value b)
    (stack : Stack inner b) :
    (resumeValue v task stack σ).onto base = resumeValue v task (stack.onto base) σ := by
  cases task with
  | print =>
      simp only [resumeValue_print]
      split <;> rfl
  | branch t e =>
      simp only [resumeValue_branch]
      split
      · rfl
      · cases e <;> rfl
  | loopTest c body =>
      simp only [resumeValue_loopTest]
      split <;> rfl
  | superclass name blame ms =>
      cases v with
      | cls c => exact onto_declareClass name (some c) ms stack
      | _ => rfl
  | unary operator => exact onto_ofExcept (a := .value) stack _
  | binaryRight left operator => exact onto_ofExcept (a := .value) stack _
  | logical operator right =>
      simp only [resumeValue_logical]
      split <;> rfl
  | conditional t e =>
      simp only [resumeValue_conditional]
      split <;> rfl
  | assign id name => exact onto_assignVariable id name v stack
  | callee paren arguments => exact onto_callWith v paren [] arguments stack
  | argument callee paren done rest => exact onto_callWith callee paren (v :: done) rest stack
  | get name =>
      cases v with
      | object o => exact onto_readProperty o name stack
      | _ => rfl
  | setObject name value => cases v <;> rfl
  | _ => rfl

theorem onto_resumeFlow {b : Answer} (flow : Flow) (task : Pending .flow b)
    (stack : Stack inner b) :
    (resumeFlow flow task stack σ).onto base = resumeFlow flow task (stack.onto base) σ := by
  cases task with
  | loopBody c body => cases flow <;> rfl
  | block rest outer =>
      cases flow with
      | normal => exact onto_inBlock rest outer stack
      | returned v => rfl
  | body f paren => exact onto_endCall f paren flow stack
  | program rest => exact onto_inProgram rest stack

/-- A run that has not ended takes the same step on top of pending tasks. -/
theorem step_onto {c c' : Config inner} (h : c.step = .inl c') :
    (c.onto base).step = .inl (c'.onto base) := by
  cases steps_of_step h with
  | eval e stack σ => exact congrArg Sum.inl (onto_evalStep e stack).symm
  | exec s stack σ => exact congrArg Sum.inl (onto_execStep s stack).symm
  | value v task below σ => exact congrArg Sum.inl (onto_resumeValue v task below).symm
  | flow flow task below σ => exact congrArg Sum.inl (onto_resumeFlow flow task below).symm
  | leave failure task below σ => rfl

/-- A run that ends hands its answer or its failure to the tasks below. -/
theorem onto_of_end {c : Config inner} {o : Outcome inner} (h : c.step = .inr o)
    (base : Stack final inner) : c.onto base = o.onto base := by
  obtain ⟨result, σ⟩ := o
  rw [step_eq_inr_iff.mp h]
  cases result <;> rfl

theorem advance_onto {c c' : Config inner} {d : Nat} (h : c.advance d = .inl c') :
    (c.onto base).advance d = .inl (c'.onto base) := by
  refine holds_of_advance (P := fun k d => (c.onto base).advance k = .inl (d.onto base)) rfl ?_ h
  exact fun _ ih hstep => advance_succ_of_step ih (step_onto hstep)

end Config

end Lox.Machine
