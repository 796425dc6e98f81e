import Mathlib.Tactic.Common
import Lox.Machine.Step

/-!
# Runs with another sink

Printing writes to the sink, and the end of a program flushes it. No other step looks at the sink or
changes it, so that a run takes the same steps with another one in its place until it prints.
-/

namespace Lox.Machine

variable {final : Answer}

namespace State

variable (σ : State) (k : Sink)

/-- The state with another sink. -/
def withSink : State :=
  { σ with sink := k }

@[simp] theorem sink_withSink : (σ.withSink k).sink = k := rfl

theorem withSink_sink : σ.withSink σ.sink = σ := rfl

theorem define_withSink (name : String) (value : Value) :
    (σ.withSink k).define name value = (σ.define name value).withSink k := by
  obtain ⟨frames, objects, nextIdentity, chain, distances, depth, sink, clock⟩ := σ
  cases chain <;> rfl

theorem makeMethods_withSink (methods : List FunctionDecl) :
    (σ.withSink k).makeMethods methods
      = ((σ.makeMethods methods).1, (σ.makeMethods methods).2.withSink k) := by
  induction methods generalizing σ with
  | nil => rfl
  | cons m methods ih =>
      have huse : (σ.withSink k).useIdentity = σ.useIdentity.withSink k := rfl
      rw [makeMethods, makeMethods, huse, ih σ.useIdentity]
      rfl

theorem makeClass_withSink (name : String) (superclass : Option Class)
    (methods : List FunctionDecl) :
    (σ.withSink k).makeClass name superclass methods
      = ((σ.makeClass name superclass methods).1,
          (σ.makeClass name superclass methods).2.withSink k) := by
  cases superclass with
  | none =>
      unfold makeClass
      dsimp only
      rw [makeMethods_withSink]
      rfl
  | some c =>
      have henter : (σ.withSink k).enter [("super", .cls c)] (σ.withSink k).chain
          = (σ.enter [("super", .cls c)] σ.chain).withSink k := rfl
      unfold makeClass
      dsimp only
      rw [henter, makeMethods_withSink]
      rfl

end State

def Outcome.withSink (o : Outcome final) (k : Sink) : Outcome final :=
  { o with σ := o.σ.withSink k }

namespace Config

def withSink (c : Config final) (k : Sink) : Config final :=
  match c with
  | .eval e stack σ => .eval e stack (σ.withSink k)
  | .exec s stack σ => .exec s stack (σ.withSink k)
  | .answer x stack σ => .answer x stack (σ.withSink k)
  | .fail failure stack σ => .fail failure stack (σ.withSink k)

@[simp] theorem state_withSink (c : Config final) (k : Sink) :
    (c.withSink k).state = c.state.withSink k := by
  cases c <;> rfl

theorem withSink_sink (c : Config final) : c.withSink c.state.sink = c := by
  cases c <;> rfl

variable {σ : State} {k : Sink}

theorem withSink_ofExcept {a : Answer} (stack : Stack final a)
    (result : Except Failure a.Carrier) :
    (ofExcept stack σ result).withSink k = ofExcept stack (σ.withSink k) result := by
  cases result <;> rfl

theorem withSink_inBlock (body : List Stmt) (outer : Chain) (stack : Stack final .flow) :
    (inBlock body outer stack σ).withSink k = inBlock body outer stack (σ.withSink k) := by
  cases body <;> rfl

theorem withSink_inProgram (hk : k.refusesFlush = σ.sink.refusesFlush) (statements : List Stmt)
    (stack : Stack final .flow) :
    (inProgram statements stack σ).withSink k = inProgram statements stack (σ.withSink k) := by
  cases statements with
  | cons s rest => rfl
  | nil =>
      simp only [inProgram_nil]
      rw [State.sink_withSink, hk]
      split <;> rfl

theorem withSink_callFunction (f : Closure) (paren : Token) (arguments : List Value)
    (stack : Stack final .value) :
    (callFunction f paren arguments stack σ).withSink k
      = callFunction f paren arguments stack (σ.withSink k) := by
  unfold callFunction
  dsimp only
  rw [show (σ.withSink k).depth = σ.depth from rfl]
  split
  · rfl
  · exact withSink_inBlock _ _ _

theorem withSink_callClass (c : Class) (paren : Token) (arguments : List Value)
    (stack : Stack final .value) :
    (callClass c paren arguments stack σ).withSink k
      = callClass c paren arguments stack (σ.withSink k) := by
  unfold callClass
  dsimp only
  split
  · rfl
  · exact withSink_callFunction _ _ _ _

theorem withSink_call (callee : Value) (paren : Token) (arguments : List Value)
    (stack : Stack final .value) :
    (call callee paren arguments stack σ).withSink k
      = call callee paren arguments stack (σ.withSink k) := by
  unfold call
  split
  · rfl
  · split
    · rfl
    · cases callee with
      | native f => cases f; rfl
      | function f => exact withSink_callFunction f paren arguments stack
      | cls c => exact withSink_callClass c paren arguments stack
      | _ => rfl

theorem withSink_callWith (callee : Value) (paren : Token) (done : List Value) (rest : List Expr)
    (stack : Stack final .value) :
    (callWith callee paren done rest stack σ).withSink k
      = callWith callee paren done rest stack (σ.withSink k) := by
  cases rest with
  | nil => exact withSink_call callee paren done.reverse stack
  | cons e rest => rfl

theorem withSink_endCall (f : Closure) (paren : Token) (flow : Flow) (stack : Stack final .value) :
    (endCall f paren flow stack σ).withSink k = endCall f paren flow stack (σ.withSink k) := by
  unfold endCall
  dsimp only
  split
  · rw [show (σ.withSink k).frames = σ.frames from rfl]
    split <;> rfl
  · cases flow <;> rfl

theorem withSink_declareClass (name : Token) (superclass : Option Class)
    (methods : List FunctionDecl) (stack : Stack final .flow) :
    (declareClass name superclass methods stack σ).withSink k
      = declareClass name superclass methods stack (σ.withSink k) := by
  unfold declareClass
  dsimp only
  rw [State.define_withSink, State.makeClass_withSink]
  generalize (σ.define name.lexeme .nil).makeClass name.lexeme superclass methods = made
  obtain ⟨c, τ⟩ := made
  dsimp only
  rw [show (τ.withSink k).frames = τ.frames from rfl, show (τ.withSink k).chain = τ.chain from rfl]
  split <;> rfl

theorem withSink_readVariable (id : NodeId) (name : Token) (stack : Stack final .value) :
    (readVariable id name stack σ).withSink k = readVariable id name stack (σ.withSink k) := by
  unfold readVariable
  rw [show (σ.withSink k).lookup? id name.lexeme = σ.lookup? id name.lexeme from rfl]
  split <;> rfl

theorem withSink_assignVariable (id : NodeId) (name : Token) (v : Value)
    (stack : Stack final .value) :
    (assignVariable id name v stack σ).withSink k
      = assignVariable id name v stack (σ.withSink k) := by
  unfold assignVariable
  rw [show (σ.withSink k).target? id name.lexeme = σ.target? id name.lexeme from rfl]
  split <;> rfl

theorem withSink_readProperty (object : ObjectId) (name : Token) (stack : Stack final .value) :
    (readProperty object name stack σ).withSink k
      = readProperty object name stack (σ.withSink k) := by
  unfold readProperty
  rw [show (σ.withSink k).property? object name.lexeme = σ.property? object name.lexeme from rfl]
  split <;> rfl

theorem withSink_readSuper (id : NodeId) (keyword method : Token) (stack : Stack final .value) :
    (readSuper id keyword method stack σ).withSink k
      = readSuper id keyword method stack (σ.withSink k) := by
  unfold readSuper
  rw [show (σ.withSink k).superMethod id keyword method = σ.superMethod id keyword method from rfl]
  split <;> rfl

theorem withSink_evalStep (e : Expr) (stack : Stack final .value) :
    (evalStep e stack σ).withSink k = evalStep e stack (σ.withSink k) := by
  cases e with
  | var id name => exact withSink_readVariable id name stack
  | this id keyword => exact withSink_readVariable id keyword stack
  | super id keyword method => exact withSink_readSuper id keyword method stack
  | _ => rfl

theorem withSink_define (name : String) (v : Value) (stack : Stack final .flow) :
    (answer (a := .flow) .normal stack (σ.define name v) : Config final).withSink k
      = answer (a := .flow) .normal stack ((σ.withSink k).define name v) := by
  rw [State.define_withSink]
  rfl

theorem withSink_execStep (s : Stmt) (stack : Stack final .flow) :
    (execStep s stack σ).withSink k = execStep s stack (σ.withSink k) := by
  cases s with
  | var name initializer =>
      cases initializer with
      | none => exact withSink_define name.lexeme .nil stack
      | some e => rfl
  | block body => exact withSink_inBlock body σ.chain stack
  | function decl => exact withSink_define (σ := σ.useIdentity) decl.name.lexeme _ stack
  | ret keyword value => cases value <;> rfl
  | classDecl name superclass methods =>
      cases superclass with
      | none => exact withSink_declareClass name none methods stack
      | some e => rfl
  | _ => rfl

theorem withSink_ofProgram (hk : k.refusesFlush = σ.sink.refusesFlush) (program : List Stmt) :
    (ofProgram program σ).withSink k = ofProgram program (σ.withSink k) :=
  withSink_inProgram hk program .done

theorem sink_ofProgram (program : List Stmt) (σ : State) :
    (ofProgram program σ).state.sink = σ.sink := by
  have hsame := withSink_ofProgram (k := σ.sink) rfl program
  rw [State.withSink_sink] at hsame
  rw [← hsame, state_withSink, State.sink_withSink]

/-- The line that the next step prints, and what goes on after that. -/
def printing? : Config final → Option (String × Stack final .flow)
  | .answer (a := .value) v (.push .print stack) σ => some (σ.display v, stack)
  | _ => none

/-- A step that prints goes on behind the print statement if the line fits, and fails otherwise. -/
theorem step_printing {c : Config final} {line : String} {stack : Stack final .flow}
    (h : c.printing? = some (line, stack)) :
    c.step = .inl (if c.state.canPrint line
      then .answer (a := .flow) .normal stack (c.state.print line)
      else .fail (.output .sinkFull) stack (c.state.print line)) := by
  unfold printing? at h
  split at h
  · cases h
    rfl
  · cases h

theorem printing?_withSink (c : Config final) (k : Sink) :
    (c.withSink k).printing? = c.printing? := by
  cases c with
  | @answer a x stack σ =>
      cases a with
      | flow => rfl
      | value =>
          cases stack with
          | done => rfl
          | push task below => cases task <;> rfl
  | _ => rfl

theorem withSink_resumeValue {b : Answer} (v : Value) (task : Pending .value b)
    (stack : Stack final b)
    (hsilent : (answer (a := .value) v (.push task stack) σ).printing? = none) :
    (resumeValue v task stack σ).withSink k = resumeValue v task stack (σ.withSink k) := by
  cases task with
  | print => cases hsilent
  | define name => exact withSink_define name.lexeme v stack
  | branch t e =>
      simp only [resumeValue_branch]
      split
      · rfl
      · cases e <;> rfl
  | loopTest c body =>
      simp only [resumeValue_loopTest]
      split <;> rfl
  | superclass name blame methods =>
      cases v with
      | cls c => exact withSink_declareClass name (some c) methods stack
      | _ => rfl
  | unary operator => exact withSink_ofExcept (a := .value) stack _
  | binaryRight left operator => exact withSink_ofExcept (a := .value) stack _
  | logical operator right =>
      simp only [resumeValue_logical]
      split <;> rfl
  | conditional t e =>
      simp only [resumeValue_conditional]
      split <;> rfl
  | assign id name => exact withSink_assignVariable id name v stack
  | callee paren arguments => exact withSink_callWith v paren [] arguments stack
  | argument callee paren done rest => exact withSink_callWith callee paren (v :: done) rest stack
  | get name =>
      cases v with
      | object object => exact withSink_readProperty object name stack
      | _ => rfl
  | setObject name value => cases v <;> rfl
  | _ => rfl

theorem withSink_resumeFlow (hk : k.refusesFlush = σ.sink.refusesFlush) {b : Answer} (flow : Flow)
    (task : Pending .flow b) (stack : Stack final b) :
    (resumeFlow flow task stack σ).withSink k = resumeFlow flow task stack (σ.withSink k) := by
  cases task with
  | loopBody c body => cases flow <;> rfl
  | block rest outer =>
      cases flow with
      | normal => exact withSink_inBlock rest outer stack
      | returned v => rfl
  | body f paren => exact withSink_endCall f paren flow stack
  | program rest => exact withSink_inProgram hk rest stack

theorem leave_withSink {a b : Answer} (task : Pending a b) :
    task.leave (σ.withSink k) = (task.leave σ).withSink k := by
  cases task <;> rfl

/-- A step that does not print is the same with another sink, as long as that one answers a flush in
the same way. -/
theorem step_withSink {c : Config final} (hsilent : c.printing? = none)
    (hk : k.refusesFlush = c.state.sink.refusesFlush) :
    (c.withSink k).step = c.step.map (withSink · k) (Outcome.withSink · k) := by
  cases c with
  | eval e stack σ => exact congrArg Sum.inl (withSink_evalStep e stack).symm
  | exec s stack σ => exact congrArg Sum.inl (withSink_execStep s stack).symm
  | @answer a x stack σ =>
      cases stack with
      | done => rfl
      | push task below =>
          cases a with
          | value => exact congrArg Sum.inl (withSink_resumeValue x task below hsilent).symm
          | flow => exact congrArg Sum.inl (withSink_resumeFlow hk x task below).symm
  | fail failure stack σ =>
      cases stack with
      | done => rfl
      | push task below =>
          change Sum.inl (fail failure below (task.leave (σ.withSink k))) = _
          rw [leave_withSink]
          rfl

/-- A step that does not print leaves the sink as it is. -/
theorem sink_of_step {c c' : Config final} (hsilent : c.printing? = none)
    (h : c.step = .inl c') : c'.state.sink = c.state.sink := by
  have hsame := step_withSink hsilent (k := c.state.sink) rfl
  rw [withSink_sink, h, Sum.map_inl, Sum.inl.injEq] at hsame
  rw [hsame, state_withSink, State.sink_withSink]

theorem sink_of_step_end {c : Config final} {o : Outcome final} (h : c.step = .inr o) :
    c.printing? = none ∧ o.σ.sink = c.state.sink := by
  have hsilent : c.printing? = none := by
    cases hprinting : c.printing? with
    | none => rfl
    | some printed =>
        rw [step_printing hprinting] at h
        cases h
  have hsame := step_withSink hsilent (k := c.state.sink) rfl
  rw [withSink_sink, h, Sum.map_inr, Sum.inr.injEq] at hsame
  refine ⟨hsilent, ?_⟩
  rw [hsame]
  rfl

end Config

end Lox.Machine
