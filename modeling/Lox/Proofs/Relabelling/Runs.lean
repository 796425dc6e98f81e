import Lox.Proofs.Relabelling.States

/-!
# Relabelling runs

A step of a relabelled run is the relabelled step. A run therefore does not depend on the identities
of its nodes beyond their distances, nor on lines beyond the line of its failure.
-/

namespace Lox.Machine

variable {final : Answer} {φ : Relabelling} {D : Distances}

section Definitions

variable (φ : Relabelling) (D : Distances)

def Flow.relabel : Flow → Flow
  | .normal => .normal
  | .returned v => .returned (v.relabel φ)

def Answer.relabel : (a : Answer) → a.Carrier → a.Carrier
  | .value, x => Value.relabel φ x
  | .flow, x => Flow.relabel φ x

def Pending.relabel : {a b : Answer} → Pending a b → Pending a b
  | _, _, .discard => .discard
  | _, _, .print => .print
  | _, _, .define name => .define (φ.token name)
  | _, _, .branch t e => .branch (t.relabel φ) (e.map (Stmt.relabel φ))
  | _, _, .loopTest c s => .loopTest (c.relabel φ) (s.relabel φ)
  | _, _, .ret => .ret
  | _, _, .superclass name blame ms =>
      .superclass (φ.token name) (φ.token blame) (FunctionDecl.listRelabel φ ms)
  | _, _, .unary operator => .unary (φ.token operator)
  | _, _, .binaryLeft operator right => .binaryLeft (φ.token operator) (right.relabel φ)
  | _, _, .binaryRight left operator => .binaryRight (left.relabel φ) (φ.token operator)
  | _, _, .logical operator right => .logical (φ.token operator) (right.relabel φ)
  | _, _, .conditional t e => .conditional (t.relabel φ) (e.relabel φ)
  | _, _, .assign id name => .assign (φ.id id) (φ.token name)
  | _, _, .callee paren arguments => .callee (φ.token paren) (Expr.listRelabel φ arguments)
  | _, _, .argument v paren done rest =>
      .argument (v.relabel φ) (φ.token paren) (done.map (Value.relabel φ))
        (Expr.listRelabel φ rest)
  | _, _, .get name => .get (φ.token name)
  | _, _, .setObject name value => .setObject (φ.token name) (value.relabel φ)
  | _, _, .setField object name => .setField object (φ.token name)
  | _, _, .construct object => .construct object
  | _, _, .loopBody c s => .loopBody (c.relabel φ) (s.relabel φ)
  | _, _, .block rest outer => .block (Stmt.listRelabel φ rest) outer
  | _, _, .body f paren => .body (f.relabel φ) (φ.token paren)
  | _, _, .program rest => .program (Stmt.listRelabel φ rest)

def Stack.relabel : {a : Answer} → Stack final a → Stack final a
  | _, .done => .done
  | _, .push task below => .push (task.relabel φ) below.relabel

/-- The moment of a run after a relabelling, with this table of distances. -/
def Config.relabel : Config final → Config final
  | .eval e stack σ => .eval (e.relabel φ) (stack.relabel φ) (σ.relabel φ D)
  | .exec s stack σ => .exec (s.relabel φ) (stack.relabel φ) (σ.relabel φ D)
  | .answer (a := a) x stack σ => .answer (a.relabel φ x) (stack.relabel φ) (σ.relabel φ D)
  | .fail failure stack σ => .fail (failure.relabel φ) (stack.relabel φ) (σ.relabel φ D)

def relabelResult {a : Answer} : Except Failure a.Carrier → Except Failure a.Carrier
  | .ok x => .ok (a.relabel φ x)
  | .error failure => .error (failure.relabel φ)

def Outcome.relabel (o : Outcome final) : Outcome final :=
  ⟨relabelResult φ o.result, o.σ.relabel φ D⟩

end Definitions

variable {σ : State}

theorem relabel_applyUnary (operator : Token) (v : Value) :
    applyUnary (φ.token operator) (v.relabel φ)
      = relabelResult φ (a := .value) (applyUnary operator v) := by
  unfold applyUnary
  rw [Relabelling.token_kind]
  split
  · cases v <;> rfl
  · rw [Value.relabel_truthy]
    rfl
  · rfl

theorem relabel_applyNumeric (operator : Token) (x y : Float) :
    applyNumeric (φ.token operator) x y
      = relabelResult φ (a := .value) (applyNumeric operator x y) := by
  unfold applyNumeric
  rw [Relabelling.token_kind]
  split <;> rfl

theorem relabel_applyPlus (operator : Token) (v w : Value) :
    applyPlus (φ.token operator) (v.relabel φ) (w.relabel φ)
      = relabelResult φ (a := .value) (applyPlus operator v w) := by
  cases v <;> cases w <;> rfl

theorem relabel_applyBinary (operator : Token) (v w : Value) :
    applyBinary (v.relabel φ) (φ.token operator) (w.relabel φ)
      = relabelResult φ (a := .value) (applyBinary v operator w) := by
  unfold applyBinary
  rw [Relabelling.token_kind]
  split
  · rw [Value.relabel_equal]
    rfl
  · rw [Value.relabel_equal]
    rfl
  · exact relabel_applyPlus operator v w
  · cases v <;> cases w <;> first | exact relabel_applyNumeric operator _ _ | rfl

theorem relabel_decides (operator : Token) (v : Value) :
    decides (φ.token operator) (v.relabel φ) = decides operator v := by
  simp [decides]

namespace Config

theorem relabel_ofExcept {a : Answer} (stack : Stack final a)
    (result : Except Failure a.Carrier) :
    ofExcept (stack.relabel φ) (σ.relabel φ D) (relabelResult φ result)
      = (ofExcept stack σ result).relabel φ D := by
  cases result <;> rfl

theorem relabel_inBlock (body : List Stmt) (outer : Chain) (stack : Stack final .flow) :
    inBlock (Stmt.listRelabel φ body) outer (stack.relabel φ) (σ.relabel φ D)
      = (inBlock body outer stack σ).relabel φ D := by
  cases body <;> rfl

theorem relabel_inProgram (statements : List Stmt) (stack : Stack final .flow) :
    inProgram (Stmt.listRelabel φ statements) (stack.relabel φ) (σ.relabel φ D)
      = (inProgram statements stack σ).relabel φ D := by
  cases statements with
  | nil =>
      have hsink : (σ.relabel φ D).sink.refusesFlush = σ.sink.refusesFlush := rfl
      rw [Stmt.listRelabel, inProgram, inProgram, hsink]
      split <;> rfl
  | cons s rest => rfl

theorem relabel_arguments (params : List Token) (arguments : List Value) :
    ((params.map φ.token).map Token.lexeme).zip (arguments.map (Value.relabel φ))
      = Bindings.mapValues (Value.relabel φ) ((params.map Token.lexeme).zip arguments) := by
  induction params generalizing arguments with
  | nil => rfl
  | cons param params ih =>
      cases arguments with
      | nil => rfl
      | cons v arguments =>
          simp only [List.map_cons, List.zip_cons_cons, ih]
          rfl

theorem relabel_callFunction (f : Closure) (paren : Token) (arguments : List Value)
    (stack : Stack final .value) :
    callFunction (f.relabel φ) (φ.token paren) (arguments.map (Value.relabel φ))
        (stack.relabel φ) (σ.relabel φ D)
      = (callFunction f paren arguments stack σ).relabel φ D := by
  have henter := State.relabel_enter (φ := φ) (D := D) σ
    (.ofPairs ((f.decl.params.map Token.lexeme).zip arguments)) f.chain
  rw [← Bindings.ofPairs_mapValues, ← relabel_arguments] at henter
  unfold callFunction
  rw [State.relabel_depth]
  split
  · rfl
  · have hparams : (f.relabel φ).decl.params = f.decl.params.map φ.token :=
      FunctionDecl.relabel_params φ f.decl
    have hbody : (f.relabel φ).decl.body = Stmt.listRelabel φ f.decl.body :=
      FunctionDecl.relabel_body φ f.decl
    have hchain : (f.relabel φ).chain = f.chain := rfl
    dsimp only
    rw [hparams, hbody, hchain, henter, ← relabel_inBlock]
    rfl

theorem relabel_callClass (c : Class) (paren : Token) (arguments : List Value)
    (stack : Stack final .value) :
    callClass (c.relabel φ) (φ.token paren) (arguments.map (Value.relabel φ)) (stack.relabel φ)
        (σ.relabel φ D)
      = (callClass c paren arguments stack σ).relabel φ D := by
  have hsize : (σ.relabel φ D).objects.size = σ.objects.size := Array.size_map
  unfold callClass
  dsimp only
  rw [Class.findMethod?_relabel, State.relabel_allocate, hsize]
  cases c.findMethod? initializerName with
  | none => rfl
  | some init =>
      simp only [Option.map_some]
      rw [State.relabel_bind]
      exact relabel_callFunction _ _ _ (.push (.construct σ.objects.size) stack)

theorem relabel_callNative (f : Native) (stack : Stack final .value) :
    callNative f (stack.relabel φ) (σ.relabel φ D) = (callNative f stack σ).relabel φ D := by
  cases f
  rfl

theorem relabel_arity? (v : Value) : arity? (v.relabel φ) = arity? v := by
  cases v with
  | function f => exact congrArg some (FunctionDecl.relabel_arity φ f.decl)
  | cls c => exact congrArg some (Class.relabel_arity φ c)
  | _ => rfl

theorem relabel_call (callee : Value) (paren : Token) (arguments : List Value)
    (stack : Stack final .value) :
    call (callee.relabel φ) (φ.token paren) (arguments.map (Value.relabel φ)) (stack.relabel φ)
        (σ.relabel φ D)
      = (call callee paren arguments stack σ).relabel φ D := by
  unfold call
  rw [relabel_arity?, List.length_map]
  cases arity? callee with
  | none => rfl
  | some expected =>
      dsimp only
      split
      · rfl
      · cases callee with
        | native f => exact relabel_callNative f stack
        | function f => exact relabel_callFunction f paren arguments stack
        | cls c => exact relabel_callClass c paren arguments stack
        | _ => rfl

theorem relabel_callWith (callee : Value) (paren : Token) (done : List Value) (rest : List Expr)
    (stack : Stack final .value) :
    callWith (callee.relabel φ) (φ.token paren) (done.map (Value.relabel φ))
        (Expr.listRelabel φ rest) (stack.relabel φ) (σ.relabel φ D)
      = (callWith callee paren done rest stack σ).relabel φ D := by
  cases rest with
  | nil =>
      rw [Expr.listRelabel, callWith, callWith, ← List.map_reverse]
      exact relabel_call callee paren done.reverse stack
  | cons e rest => rfl

theorem relabel_endCall (f : Closure) (paren : Token) (flow : Flow) (stack : Stack final .value) :
    endCall (f.relabel φ) (φ.token paren) (flow.relabel φ) (stack.relabel φ) (σ.relabel φ D)
      = (endCall f paren flow stack σ).relabel φ D := by
  have hthis : (σ.relabel φ D).frames.getAt (f.relabel φ).chain 0 "this"
      = (σ.frames.getAt f.chain 0 "this").map (Value.relabel φ) :=
    Frames.getAt_map _ _ _ _ _
  have hinit : (f.relabel φ).isInitializer = f.isInitializer := rfl
  unfold endCall
  dsimp only
  rw [hthis, hinit]
  split
  · cases σ.frames.getAt f.chain 0 "this" <;> rfl
  · cases flow <;> rfl

/-! ## Syntax -/

theorem relabel_declareClass (name : Token) (superclass : Option Class) (ms : List FunctionDecl)
    (stack : Stack final .flow) :
    declareClass (φ.token name) (superclass.map (Class.relabel φ)) (FunctionDecl.listRelabel φ ms)
        (stack.relabel φ) (σ.relabel φ D)
      = (declareClass name superclass ms stack σ).relabel φ D := by
  unfold declareClass
  dsimp only
  rw [Relabelling.token_lexeme, State.relabel_define_nil, State.relabel_makeClass]
  simp only [State.relabel_frames, State.relabel_chain, Frames.holder?_map]
  split
  · rw [show Value.cls (Class.relabel φ _) = Value.relabel φ (.cls _) from rfl,
      State.relabel_defineIn]
    rfl
  · rfl

theorem relabel_readVariable (h : σ.Matches φ D) (id : NodeId) (name : Token)
    (stack : Stack final .value) :
    readVariable (φ.id id) (φ.token name) (stack.relabel φ) (σ.relabel φ D)
      = (readVariable id name stack σ).relabel φ D := by
  unfold readVariable
  rw [Relabelling.token_lexeme, h.relabel_lookup?]
  cases σ.lookup? id name.lexeme <;> rfl

theorem relabel_assignVariable (h : σ.Matches φ D) (id : NodeId) (name : Token) (v : Value)
    (stack : Stack final .value) :
    assignVariable (φ.id id) (φ.token name) (v.relabel φ) (stack.relabel φ) (σ.relabel φ D)
      = (assignVariable id name v stack σ).relabel φ D := by
  unfold assignVariable
  rw [Relabelling.token_lexeme, h.relabel_target?]
  cases σ.target? id name.lexeme with
  | none => rfl
  | some f =>
      dsimp only
      rw [State.relabel_defineIn]
      rfl

theorem relabel_bindMethod (m : Closure) (object : ObjectId) (stack : Stack final .value) :
    bindMethod (m.relabel φ) object (stack.relabel φ) (σ.relabel φ D)
      = (bindMethod m object stack σ).relabel φ D := by
  unfold bindMethod
  rw [State.relabel_bind]
  rfl

theorem relabel_readProperty (object : ObjectId) (name : Token) (stack : Stack final .value) :
    readProperty object (φ.token name) (stack.relabel φ) (σ.relabel φ D)
      = (readProperty object name stack σ).relabel φ D := by
  unfold readProperty
  rw [Relabelling.token_lexeme, State.relabel_property?]
  cases σ.property? object name.lexeme with
  | none => rfl
  | some p =>
      cases p with
      | field v => rfl
      | method m => exact relabel_bindMethod m object stack

theorem relabel_readSuper (h : σ.Matches φ D) (id : NodeId) (keyword method : Token)
    (stack : Stack final .value) :
    readSuper (φ.id id) (φ.token keyword) (φ.token method) (stack.relabel φ) (σ.relabel φ D)
      = (readSuper id keyword method stack σ).relabel φ D := by
  unfold readSuper
  rw [h.relabel_superMethod]
  cases σ.superMethod id keyword method with
  | error failure => rfl
  | ok found => exact relabel_bindMethod found.1 found.2 stack

theorem relabel_evalStep (h : σ.Matches φ D) (e : Expr) (stack : Stack final .value) :
    evalStep (e.relabel φ) (stack.relabel φ) (σ.relabel φ D)
      = (evalStep e stack σ).relabel φ D := by
  cases e with
  | literal v =>
      cases v <;> rfl
  | var id name => exact relabel_readVariable h id name stack
  | this id keyword => exact relabel_readVariable h id keyword stack
  | super id keyword method => exact relabel_readSuper h id keyword method stack
  | _ => rfl

theorem relabel_superclassToken (name : Token) (e : Expr) :
    superclassToken (φ.token name) (e.relabel φ) = φ.token (superclassToken name e) := by
  cases e <;> rfl

theorem relabel_execStep (s : Stmt) (stack : Stack final .flow) :
    execStep (s.relabel φ) (stack.relabel φ) (σ.relabel φ D)
      = (execStep s stack σ).relabel φ D := by
  cases s with
  | var name initializer =>
      cases initializer with
      | none =>
          simp only [Stmt.relabel, Option.map_none, execStep, Relabelling.token_lexeme,
            State.relabel_define_nil]
          rfl
      | some e => rfl
  | block body =>
      have henter := State.relabel_enter (φ := φ) (D := D) σ [] σ.chain
      have hblock := relabel_inBlock (φ := φ) (D := D) (σ := σ.enter [] σ.chain) body σ.chain stack
      simp only [Stmt.relabel, execStep, State.relabel_chain]
      rw [← hblock, ← henter]
      rfl
  | function decl =>
      have hdefine := State.relabel_define (φ := φ) (D := D) σ.useIdentity decl.name.lexeme
        (.function (σ.closure decl false))
      simp only [Stmt.relabel, execStep, FunctionDecl.relabel_name, Relabelling.token_lexeme,
        State.relabel_useIdentity, State.relabel_closure]
      rw [show Value.function (Closure.relabel φ _) = Value.relabel φ (.function _) from rfl,
        hdefine]
      rfl
  | ret keyword value => cases value <;> rfl
  | classDecl name superclass ms =>
      cases superclass with
      | none => exact relabel_declareClass name none ms stack
      | some e =>
          simp only [Stmt.relabel, Option.map_some, execStep, relabel_superclassToken]
          rfl
  | _ => rfl

theorem relabel_resumeValue {b : Answer} (h : σ.Matches φ D) (v : Value)
    (task : Pending .value b) (stack : Stack final b) :
    resumeValue (v.relabel φ) (task.relabel φ) (stack.relabel φ) (σ.relabel φ D)
      = (resumeValue v task stack σ).relabel φ D := by
  cases task with
  | print =>
      simp only [Pending.relabel, resumeValue, State.relabel_display, State.relabel_canPrint]
      split <;> rfl
  | define name =>
      simp only [Pending.relabel, resumeValue, Relabelling.token_lexeme, State.relabel_define]
      rfl
  | branch t e =>
      simp only [Pending.relabel, resumeValue, Value.relabel_truthy]
      split
      · rfl
      · cases e <;> rfl
  | loopTest c body =>
      simp only [Pending.relabel, resumeValue, Value.relabel_truthy]
      split <;> rfl
  | superclass name blame ms =>
      cases v with
      | cls c => exact relabel_declareClass name (some c) ms stack
      | _ => rfl
  | unary operator =>
      simp only [Pending.relabel, resumeValue, relabel_applyUnary]
      exact relabel_ofExcept (a := .value) stack _
  | binaryRight left operator =>
      simp only [Pending.relabel, resumeValue, relabel_applyBinary]
      exact relabel_ofExcept (a := .value) stack _
  | logical operator right =>
      simp only [Pending.relabel, resumeValue, relabel_decides]
      split <;> rfl
  | conditional t e =>
      simp only [Pending.relabel, resumeValue, Value.relabel_truthy]
      split <;> rfl
  | assign id name => exact relabel_assignVariable h id name v stack
  | callee paren arguments => exact relabel_callWith v paren [] arguments stack
  | argument callee paren done rest => exact relabel_callWith callee paren (v :: done) rest stack
  | get name =>
      cases v with
      | object o => exact relabel_readProperty o name stack
      | _ => rfl
  | setObject name value => cases v <;> rfl
  | setField o name =>
      simp only [Pending.relabel, resumeValue, Relabelling.token_lexeme, State.relabel_setField]
      rfl
  | _ => rfl

theorem relabel_resumeFlow {b : Answer} (flow : Flow) (task : Pending .flow b)
    (stack : Stack final b) :
    resumeFlow (flow.relabel φ) (task.relabel φ) (stack.relabel φ) (σ.relabel φ D)
      = (resumeFlow flow task stack σ).relabel φ D := by
  cases task with
  | loopBody c s => cases flow <;> rfl
  | block rest outer =>
      cases flow with
      | normal => exact relabel_inBlock rest outer stack
      | returned v => rfl
  | body f paren => exact relabel_endCall f paren flow stack
  | program rest => exact relabel_inProgram rest stack

theorem relabel_leave {a b : Answer} (task : Pending a b) :
    (task.relabel φ).leave (σ.relabel φ D) = (task.leave σ).relabel φ D := by
  cases task <;> rfl

end Config

/-! ## Runs -/

/-- A step of the relabelled run is the relabelled step. -/
theorem Config.relabel_step {c : Config final} (h : c.state.Matches φ D) :
    (c.relabel φ D).step = c.step.map (Config.relabel φ D) (Outcome.relabel φ D) := by
  cases c with
  | eval e stack σ => exact congrArg Sum.inl (relabel_evalStep h e stack)
  | exec s stack σ => exact congrArg Sum.inl (relabel_execStep s stack)
  | @answer a x stack σ =>
      cases stack with
      | done => rfl
      | push task below =>
          cases a with
          | value => exact congrArg Sum.inl (relabel_resumeValue h x task below)
          | flow => exact congrArg Sum.inl (relabel_resumeFlow x task below)
  | fail failure stack σ =>
      cases stack with
      | done => rfl
      | push task below =>
          refine congrArg Sum.inl ?_
          simp only [Config.relabel, relabel_leave]

theorem Pending.relabel_refl {a b : Answer} (task : Pending a b) : task.relabel .refl = task := by
  cases task with
  | branch t e => cases e <;> simp [Pending.relabel]
  | _ => simp [Pending.relabel]

theorem Stack.relabel_refl {a : Answer} (stack : Stack final a) : stack.relabel .refl = stack := by
  induction stack with
  | done => rfl
  | push task below ih => rw [Stack.relabel, Pending.relabel_refl, ih]

theorem Answer.relabel_refl : (a : Answer) → (x : a.Carrier) → a.relabel .refl x = x
  | .value, v => congrFun value_relabel_refl v
  | .flow, .normal => rfl
  | .flow, .returned v => congrArg Flow.returned (congrFun value_relabel_refl v)

theorem Failure.relabel_refl (f : Failure) : f.relabel .refl = f := by
  cases f <;> rfl

theorem Config.relabel_refl (c : Config final) : c.relabel .refl c.state.distances = c := by
  cases c <;> simp [Config.relabel, Config.state, Stack.relabel_refl, Answer.relabel_refl,
    Failure.relabel_refl]

theorem Config.sink_relabel (c : Config final) : (c.relabel φ D).state.sink = c.state.sink := by
  cases c <;> rfl

/-- A step keeps the table of distances. -/
theorem Config.distances_step {c c' : Config final} (h : c.step = .inl c') :
    c'.state.distances = c.state.distances := by
  -- The table of the relabelled moment is the given one, and here nothing else is relabelled.
  have hstep := relabel_step (φ := .refl) (D := c.state.distances) (c := c) fun _ => rfl
  rw [relabel_refl, h] at hstep
  have hc' : c' = c'.relabel .refl c.state.distances := Sum.inl.inj hstep
  rw [hc']
  cases c' <;> rfl

/-- The relabelled run goes through the relabelled moments. -/
theorem Config.relabel_advance {c : Config final} (h : c.state.Matches φ D) (n : Nat) :
    (c.relabel φ D).advance n = (c.advance n).map (Config.relabel φ D) (Outcome.relabel φ D) := by
  induction n generalizing c with
  | zero => rfl
  | succ n ih =>
      rw [advance, advance, relabel_step h]
      cases hstep : c.step with
      | inr o => rfl
      | inl c' =>
          refine ih fun id => ?_
          rw [distances_step hstep]
          exact h id

/-- A run keeps the table of distances. -/
theorem Config.distances_outcome {c : Config final} {n : Nat} {o : Outcome final}
    (h : c.advance n = .inr o) : o.σ.distances = c.state.distances := by
  have hadvance := relabel_advance (φ := .refl) (D := c.state.distances) (c := c) (fun _ => rfl) n
  rw [relabel_refl, h] at hadvance
  have ho : o = o.relabel .refl c.state.distances := Sum.inr.inj hadvance
  rw [ho]
  rfl

theorem Config.relabel_ofProgram (program : List Stmt) (σ : State) :
    ofProgram (Stmt.listRelabel φ program) (σ.relabel φ D)
      = (ofProgram program σ).relabel φ D :=
  relabel_inProgram program .done

theorem Config.distances_ofProgram (program : List Stmt) (σ : State) :
    (ofProgram program σ).state.distances = σ.distances := by
  unfold ofProgram inProgram
  split
  · rfl
  · split <;> rfl

end Lox.Machine
