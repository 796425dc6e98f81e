import Lox.Proofs.Reach.Region

/-!
# What a call can change

A call begins in an environment that it does not use, and leaves it as it was. In between, whatever
is evaluated, bound or set lies in the region of what the call can reach, and of what it creates.
Frames and objects outside this region keep their bindings and fields, however the call ends.
-/

namespace Lox.Machine

variable {final : Answer} {σ₀ : State} {R : Region σ₀} {σ : State}

/-- The answer leads into the region. -/
def AnswerWithin (R : Region σ₀) : (a : Answer) → a.Carrier → Prop
  | .value, v => Value.Within R v
  | .flow, .normal => True
  | .flow, .returned v => v.Within R

namespace Pending

/-- What the task holds leads into the region. -/
def Within (R : Region σ₀) : {a b : Answer} → Pending a b → Prop
  | _, _, .binaryRight left _ => left.Within R
  | _, _, .argument f _ done _ => f.Within R ∧ ∀ v ∈ done, v.Within R
  | _, _, .setField object _ => R.objects object
  | _, _, .construct object => R.objects object
  | _, _, .body f _ => R.Holds f.chain
  | _, _, _ => True

/-- The task may evaluate something in the environment in which its answer arrives. The end of a
call does not. -/
def usesChain : {a b : Answer} → Pending a b → Bool
  | _, _, .construct _ => false
  | _, _, .body _ _ => false
  | _, _, _ => true

/-- The environment in which the answer of a task arrives below it. -/
def chainBelow (chain : Chain) : {a b : Answer} → Pending a b → Chain
  | _, _, .block _ outer => outer
  | _, _, _ => chain

end Pending

/-- From this environment on, every task of the stack stays in the region. -/
inductive Stack.Confined (R : Region σ₀) : {a : Answer} → Chain → Stack final a → Prop
  | done (chain : Chain) : Confined R chain .done
  | push {a b : Answer} {chain : Chain} {task : Pending a b} {below : Stack final b}
      (htask : task.Within R) (hchain : task.usesChain = true → R.Holds chain)
      (hbelow : Confined R (task.chainBelow chain) below) : Confined R chain (.push task below)

/-- A task that stays in the environment in which its answer arrives. -/
theorem Stack.Confined.pushHere {a b : Answer} {chain : Chain} {task : Pending a b}
    {below : Stack final b} (hbelow : below.Confined R chain) (hchain : R.Holds chain)
    (htask : task.Within R) (hsame : task.chainBelow chain = chain) :
    Stack.Confined R chain (.push task below) := by
  apply Stack.Confined.push htask (fun _ => hchain)
  rwa [hsame]

/-- The state is confined to the region, and so is all that is still to be done. A failure does
nothing more to the store. -/
inductive Config.Confined (R : Region σ₀) : Config final → Prop
  | eval {e : Expr} {stack : Stack final .value} {σ : State} (hσ : R.Confines σ)
      (hchain : R.Holds σ.chain) (hstack : stack.Confined R σ.chain) : Confined R (.eval e stack σ)
  | exec {s : Stmt} {stack : Stack final .flow} {σ : State} (hσ : R.Confines σ)
      (hchain : R.Holds σ.chain) (hstack : stack.Confined R σ.chain) : Confined R (.exec s stack σ)
  | answer {a : Answer} {x : a.Carrier} {stack : Stack final a} {σ : State} (hσ : R.Confines σ)
      (hx : AnswerWithin R a x) (hstack : stack.Confined R σ.chain) : Confined R (.answer x stack σ)
  | fail {a : Answer} {failure : Failure} {stack : Stack final a} {σ : State}
      (hσ : R.Confines σ) : Confined R (.fail failure stack σ)

namespace Config.Confined

variable {a : Answer} {v : Value} {f : Closure}

/-! ## Calls -/

theorem inBlock {stack : Stack final .flow} {outer : Chain} (hσ : R.Confines σ)
    (hchain : R.Holds σ.chain) (hstack : stack.Confined R outer) (body : List Stmt) :
    (Config.inBlock body outer stack σ).Confined R := by
  cases body with
  | nil => exact .answer (hσ.congr rfl rfl) trivial hstack
  | cons s rest => exact .exec hσ hchain (.push trivial (fun _ => hchain) hstack)

theorem inProgram {stack : Stack final .flow} (hσ : R.Confines σ) (hchain : R.Holds σ.chain)
    (hstack : stack.Confined R σ.chain) (statements : List Stmt) :
    (Config.inProgram statements stack σ).Confined R := by
  cases statements with
  | nil =>
      rw [Config.inProgram]
      split
      · exact .fail hσ
      · exact .answer hσ trivial hstack
  | cons s rest => exact .exec hσ hchain (hstack.pushHere hchain trivial rfl)

/-- A function runs in its own environment. That of its caller is only kept for the return. -/
theorem callFunction {arguments : List Value} {stack : Stack final .value} (paren : Token)
    (hσ : R.Confines σ) (hf : R.Holds f.chain) (hargs : ∀ v ∈ arguments, v.Within R)
    (hstack : stack.Confined R σ.chain) :
    (Config.callFunction f paren arguments stack σ).Confined R := by
  have hparams : ∀ x v, (Bindings.ofPairs
      ((f.decl.params.map Token.lexeme).zip arguments)).get? x = some v → v.Within R := by
    intro x v hv
    obtain ⟨p, hp, rfl⟩ := List.mem_map.mp (Bindings.mem_of_get?_ofPairs hv)
    exact hargs _ (List.of_mem_zip hp).2
  obtain ⟨hentered, hinside⟩ := hσ.enter hparams hf
  unfold Config.callFunction
  split
  · exact .fail hσ
  · have hbody : Stack.Confined R σ.chain (.push (.body f paren) stack) :=
      .push hf (fun h => by cases h) hstack
    refine inBlock ?_ ?_ hbody f.decl.body
    · exact hentered.congr rfl rfl
    · exact hinside

theorem callClass {c : Class} {arguments : List Value} {stack : Stack final .value}
    (paren : Token) (hσ : R.Confines σ) (hc : c.Within R) (hargs : ∀ v ∈ arguments, v.Within R)
    (hstack : stack.Confined R σ.chain) :
    (Config.callClass c paren arguments stack σ).Confined R := by
  obtain ⟨hallocated, hobject⟩ := hσ.allocate hc
  rw [Config.callClass]
  dsimp only
  split
  · exact .answer hallocated hobject hstack
  · next init hinit =>
    obtain ⟨hbound, hinside, hsame⟩ := hallocated.bind (hc.findMethod? hinit) hobject
    have hbelow : Stack.Confined R σ.chain (.push (.construct σ.objects.size) stack) :=
      .push hobject (fun h => by cases h) hstack
    exact callFunction paren hbound hinside hargs (hsame ▸ hbelow)

/-- Whatever is called, only the callee and the arguments have to lead into the region. -/
theorem call {callee : Value} {arguments : List Value} {stack : Stack final .value}
    (paren : Token) (hσ : R.Confines σ) (hcallee : callee.Within R)
    (hargs : ∀ v ∈ arguments, v.Within R) (hstack : stack.Confined R σ.chain) :
    (Config.call callee paren arguments stack σ).Confined R := by
  rcases Config.call_cases callee paren arguments stack σ with
    ⟨fault, -, heq⟩ | ⟨f, rfl, heq⟩ | ⟨f, rfl, -, heq⟩ | ⟨c, rfl, -, heq⟩ <;> rw [heq]
  · exact .fail hσ
  · cases f with
    | clock => exact .answer (hσ.congr rfl rfl) trivial hstack
  · exact callFunction paren hσ hcallee hargs hstack
  · exact callClass paren hσ hcallee hargs hstack

theorem callWith {callee : Value} {done : List Value} {stack : Stack final .value} (paren : Token)
    (hσ : R.Confines σ) (hchain : R.Holds σ.chain) (hcallee : callee.Within R)
    (hdone : ∀ v ∈ done, v.Within R) (rest : List Expr) (hstack : stack.Confined R σ.chain) :
    (Config.callWith callee paren done rest stack σ).Confined R := by
  cases rest with
  | nil => exact call paren hσ hcallee (fun v hv => hdone v (List.mem_reverse.mp hv)) hstack
  | cons e rest => exact .eval hσ hchain (hstack.pushHere hchain ⟨hcallee, hdone⟩ rfl)

theorem endCall {flow : Flow} {stack : Stack final .value} (paren : Token) (hσ : R.Confines σ)
    (hf : R.Holds f.chain) (hflow : AnswerWithin R .flow flow)
    (hstack : stack.Confined R σ.chain) :
    (Config.endCall f paren flow stack σ).Confined R := by
  have hleft : R.Confines { σ with depth := σ.depth - 1 } := hσ.congr rfl rfl
  unfold Config.endCall
  dsimp only
  split
  · split
    · next v hv => exact .answer hleft (hσ.getAt hf hv) hstack
    · exact .fail hleft
  · cases flow with
    | normal => exact .answer hleft trivial hstack
    | returned v => exact .answer hleft hflow hstack

theorem readVariable {stack : Stack final .value} (id : NodeId) (name : Token)
    (hσ : R.Confines σ) (hchain : R.Holds σ.chain) (hstack : stack.Confined R σ.chain) :
    (Config.readVariable id name stack σ).Confined R := by
  rw [Config.readVariable]
  split
  · next v hv => exact .answer hσ (hσ.lookup? hchain hv) hstack
  · exact .fail hσ

theorem assignVariable {stack : Stack final .value} (id : NodeId) (name : Token)
    (hσ : R.Confines σ) (hchain : R.Holds σ.chain) (hv : v.Within R)
    (hstack : stack.Confined R σ.chain) :
    (Config.assignVariable id name v stack σ).Confined R := by
  rw [Config.assignVariable]
  split
  · next g hg => exact .answer (hσ.defineIn (Region.Confines.target? hchain hg) _ hv) hv hstack
  · exact .fail hσ

theorem bindMethod {m : Closure} {object : ObjectId} {stack : Stack final .value}
    (hσ : R.Confines σ) (hm : R.Holds m.chain) (hobject : R.objects object)
    (hstack : stack.Confined R σ.chain) :
    (Config.bindMethod m object stack σ).Confined R := by
  obtain ⟨hbound, hinside, hsame⟩ := hσ.bind hm hobject
  exact .answer hbound hinside (hsame ▸ hstack)

theorem readProperty {object : ObjectId} {stack : Stack final .value} (name : Token)
    (hσ : R.Confines σ) (hobject : R.objects object) (hstack : stack.Confined R σ.chain) :
    (Config.readProperty object name stack σ).Confined R := by
  rw [Config.readProperty]
  split
  · next v hv => exact .answer hσ (hσ.property? hobject hv) hstack
  · next m hm => exact bindMethod hσ (hσ.property? hobject hm) hobject hstack
  · exact .fail hσ

theorem readSuper {stack : Stack final .value} (id : NodeId) (keyword method : Token)
    (hσ : R.Confines σ) (hchain : R.Holds σ.chain) (hstack : stack.Confined R σ.chain) :
    (Config.readSuper id keyword method stack σ).Confined R := by
  rw [Config.readSuper]
  split
  · next m object hm =>
    obtain ⟨hinside, hobject⟩ := hσ.superMethod hchain hm
    exact bindMethod hσ hinside hobject hstack
  · exact .fail hσ

theorem declareClass {name : Token} {superclass : Option Class} {stack : Stack final .flow}
    (hσ : R.Confines σ) (hchain : R.Holds σ.chain) (hs : ∀ c, superclass = some c → c.Within R)
    (methods : List FunctionDecl) (hstack : stack.Confined R σ.chain) :
    (Config.declareClass name superclass methods stack σ).Confined R := by
  obtain ⟨hdefined, hsame⟩ := hσ.define (v := .nil) hchain name.lexeme trivial
  rw [← hsame] at hchain
  obtain ⟨hmade, hclass, hsame'⟩ := hdefined.makeClass hchain name.lexeme hs methods
  rw [← hsame, ← hsame'] at hstack
  rw [← hsame'] at hchain
  rw [Config.declareClass]
  dsimp only
  split
  · next g hg =>
    have hg : R.frames g := hchain g (List.mem_of_find?_eq_some hg)
    exact .answer (hmade.defineIn hg _ hclass) trivial hstack
  · exact .fail hmade

/-! ## Steps -/

theorem evalStep {e : Expr} {stack : Stack final .value} (hσ : R.Confines σ)
    (hchain : R.Holds σ.chain) (hstack : stack.Confined R σ.chain) :
    (Config.evalStep e stack σ).Confined R := by
  cases e with
  | literal literal =>
      apply Confined.answer hσ _ hstack
      cases literal <;> trivial
  | group inner => exact .eval hσ hchain hstack
  | var id name => exact readVariable id name hσ hchain hstack
  | this id keyword => exact readVariable id keyword hσ hchain hstack
  | super id keyword method => exact readSuper id keyword method hσ hchain hstack
  | _ => exact .eval hσ hchain (hstack.pushHere hchain trivial rfl)

theorem execStep {s : Stmt} {stack : Stack final .flow} (hσ : R.Confines σ)
    (hchain : R.Holds σ.chain) (hstack : stack.Confined R σ.chain) :
    (Config.execStep s stack σ).Confined R := by
  cases s with
  | var name initializer =>
      cases initializer with
      | none =>
          obtain ⟨hdefined, hsame⟩ := hσ.define (v := .nil) hchain name.lexeme trivial
          exact .answer hdefined trivial (hsame ▸ hstack)
      | some e => exact .eval hσ hchain (hstack.pushHere hchain trivial rfl)
  | block body =>
      obtain ⟨hentered, hinside⟩ := hσ.enter (b := []) (by simp) hchain
      exact inBlock hentered hinside hstack body
  | function decl =>
      have hused : R.Confines σ.useIdentity := hσ.congr rfl rfl
      obtain ⟨hdefined, hsame⟩ := hused.define (v := .function (σ.closure decl false)) hchain
        decl.name.lexeme hchain
      refine .answer hdefined trivial ?_
      rw [hsame]
      exact hstack
  | ret keyword value =>
      cases value with
      | none => exact .answer hσ trivial hstack
      | some e => exact .eval hσ hchain (hstack.pushHere hchain trivial rfl)
  | classDecl name superclass methods =>
      cases superclass with
      | none =>
          rw [Config.execStep]
          exact declareClass hσ hchain (fun _ h => by cases h) methods hstack
      | some e => exact .eval hσ hchain (hstack.pushHere hchain trivial rfl)
  | _ => exact .eval hσ hchain (hstack.pushHere hchain trivial rfl)

theorem ofExcept {result : Except Failure Value} {stack : Stack final .value} (hσ : R.Confines σ)
    (hresult : ∀ w, result = .ok w → w.IsScalar) (hstack : stack.Confined R σ.chain) :
    (Config.ofExcept (a := .value) stack σ result).Confined R := by
  cases result with
  | error failure => exact .fail hσ
  | ok w => exact .answer hσ (hresult w rfl).within hstack

theorem resumeValue {b : Answer} {task : Pending .value b} {stack : Stack final b}
    (hσ : R.Confines σ) (hv : v.Within R) (htask : task.Within R)
    (hchain : task.usesChain = true → R.Holds σ.chain)
    (hstack : stack.Confined R (task.chainBelow σ.chain)) :
    (Config.resumeValue v task stack σ).Confined R := by
  cases task with
  | discard => exact .answer hσ trivial hstack
  | print =>
      have hprinted : R.Confines (σ.print (σ.display v)) := hσ.congr rfl rfl
      rw [Config.resumeValue_print]
      split
      · exact .answer hprinted trivial hstack
      · exact .fail hprinted
  | define name =>
      obtain ⟨hdefined, hsame⟩ := hσ.define (hchain rfl) name.lexeme hv
      exact .answer hdefined trivial (hsame ▸ hstack)
  | branch t e =>
      rw [Config.resumeValue_branch]
      split
      · exact .exec hσ (hchain rfl) hstack
      · split
        · exact .exec hσ (hchain rfl) hstack
        · exact .answer hσ trivial hstack
  | loopTest c body =>
      have hloop : Stack.Confined R σ.chain (.push (.loopBody c body) stack) :=
        hstack.pushHere (hchain rfl) trivial rfl
      rw [Config.resumeValue_loopTest]
      split
      · exact .exec hσ (hchain rfl) hloop
      · exact .answer hσ trivial hstack
  | ret => exact .answer (a := .flow) hσ hv hstack
  | superclass name blame methods =>
      cases v with
      | cls c =>
          rw [Config.resumeValue]
          refine declareClass hσ (hchain rfl) (fun c' h => ?_) methods hstack
          cases h
          exact hv
      | _ => exact .fail hσ
  | unary operator => exact ofExcept hσ (fun w hw => isScalar_of_applyUnary hw) hstack
  | binaryLeft operator right => exact .eval hσ (hchain rfl) (hstack.pushHere (hchain rfl) hv rfl)
  | binaryRight left operator => exact ofExcept hσ (fun w hw => isScalar_of_applyBinary hw) hstack
  | logical operator right =>
      rw [Config.resumeValue_logical]
      split
      · exact .answer (a := .value) hσ hv hstack
      · exact .eval hσ (hchain rfl) hstack
  | conditional t e =>
      rw [Config.resumeValue_conditional]
      split
      · exact .eval hσ (hchain rfl) hstack
      · exact .eval hσ (hchain rfl) hstack
  | assign id name => exact assignVariable id name hσ (hchain rfl) hv hstack
  | callee paren arguments => exact callWith paren hσ (hchain rfl) hv (by simp) arguments hstack
  | argument callee paren done rest =>
      apply callWith paren hσ (hchain rfl) htask.1 _ rest hstack
      intro w hw
      rcases List.mem_cons.mp hw with rfl | hw
      · exact hv
      · exact htask.2 w hw
  | get name =>
      cases v with
      | object object => exact readProperty name hσ hv hstack
      | _ => exact .fail hσ
  | setObject name value =>
      cases v with
      | object object => exact .eval hσ (hchain rfl) (hstack.pushHere (hchain rfl) hv rfl)
      | _ => exact .fail hσ
  | setField object name =>
      exact .answer (a := .value) (hσ.setField htask name.lexeme hv) hv hstack
  | construct object => exact .answer (a := .value) hσ htask hstack

theorem resumeFlow {b : Answer} {flow : Flow} {task : Pending .flow b} {stack : Stack final b}
    (hσ : R.Confines σ) (hflow : AnswerWithin R .flow flow) (htask : task.Within R)
    (hchain : task.usesChain = true → R.Holds σ.chain)
    (hstack : stack.Confined R (task.chainBelow σ.chain)) :
    (Config.resumeFlow flow task stack σ).Confined R := by
  cases task with
  | loopBody c body =>
      cases flow with
      | normal => exact .eval hσ (hchain rfl) (hstack.pushHere (hchain rfl) trivial rfl)
      | returned v => exact .answer (a := .flow) hσ hflow hstack
  | block rest outer =>
      cases flow with
      | normal => exact inBlock hσ (hchain rfl) hstack rest
      | returned v => exact .answer (a := .flow) (hσ.congr rfl rfl) hflow hstack
  | body f paren => exact endCall paren hσ htask hflow hstack
  | program rest => exact inProgram hσ (hchain rfl) hstack rest

theorem leave {b : Answer} (hσ : R.Confines σ) (task : Pending a b) :
    R.Confines (task.leave σ) := by
  cases task <;> exact hσ.congr rfl rfl

/-- A step stays in the region. -/
theorem step {c : Config final} (hc : c.Confined R) :
    match c.step with
    | .inl c' => c'.Confined R
    | .inr outcome => R.Confines outcome.σ := by
  cases hc with
  | eval hσ hchain hstack => exact evalStep hσ hchain hstack
  | exec hσ hchain hstack => exact execStep hσ hchain hstack
  | @answer a x stack σ hσ hx hstack =>
      cases hstack with
      | done => exact hσ
      | push htask hchain hbelow =>
          cases a with
          | value => exact resumeValue hσ hx htask hchain hbelow
          | flow => exact resumeFlow hσ hx htask hchain hbelow
  | @fail a failure stack σ hσ =>
      cases stack with
      | done => exact hσ
      | push task below => exact .fail (leave hσ task)

/-- A run that begins in the region never changes anything outside. -/
theorem run {c : Config final} (hc : c.Confined R) {steps : Nat} {outcome : Outcome final}
    (hrun : c.run steps = some outcome) : R.Confines outcome.σ := by
  have hadvance := holds_advance (fun hd => step hd) hc steps
  rwa [Sum.getRight?_eq_some_iff.mp hrun] at hadvance

end Config.Confined

end Lox.Machine
