import Lox.Machine.Config
import Lox.Machine.Operator

/-!
# Running programs

The steps of a run. Each step evaluates or executes the head of a piece of syntax, or hands an
answer to the topmost pending task. A failure leaves the pending tasks one by one, and each of them
restores what it had changed.
-/

namespace Lox.Machine

variable {final : Answer}

/-- Go on with the answer of a partial operation. -/
def Config.ofExcept {a : Answer} (stack : Stack final a) (σ : State) :
    Except Failure a.Carrier → Config final
  | .ok x => .answer x stack σ
  | .error failure => .fail failure stack σ

/-- Fail with a fault at a token. -/
def Config.faultAt {a : Answer} (fault : Fault) (token : Token) (stack : Stack final a) (σ : State) :
    Config final :=
  .fail (.atToken fault token) stack σ

/-- Go on with the statements of a block, or leave it. -/
def Config.inBlock (body : List Stmt) (outer : Chain) (stack : Stack final .flow) (σ : State) :
    Config final :=
  match body with
  | [] => .answer (a := .flow) .normal stack (σ.within outer)
  | s :: rest => .exec s (.push (.block rest outer) stack) σ

/-- Go on with the statements of a program. At its end the output is flushed. -/
def Config.inProgram (statements : List Stmt) (stack : Stack final .flow) (σ : State) :
    Config final :=
  match statements with
  | s :: rest => .exec s (.push (.program rest) stack) σ
  | [] =>
      if σ.sink.refusesFlush then .fail (.output .flushFailed) stack σ
      else .answer (a := .flow) .normal stack σ

theorem Config.inProgram_nil {stack : Stack final .flow} {σ : State} :
    inProgram [] stack σ
      = if σ.sink.refusesFlush then .fail (.output .flushFailed) stack σ
        else .answer (a := .flow) .normal stack σ :=
  rfl

/-- Call a function whose number of arguments is right. -/
def Config.callFunction (f : Closure) (paren : Token) (arguments : List Value)
    (stack : Stack final .value) (σ : State) : Config final :=
  if maxDepth ≤ σ.depth then .faultAt .stackOverflow paren stack σ
  else
    let params := f.decl.params.map Token.lexeme
    let outer := σ.chain
    let σ := σ.enter (.ofPairs (params.zip arguments)) f.chain
    .inBlock f.decl.body outer (.push (.body f paren) stack) { σ with depth := σ.depth + 1 }

/-- Call a class whose number of arguments is right: the new object is the value of the call. -/
def Config.callClass (c : Class) (paren : Token) (arguments : List Value)
    (stack : Stack final .value) (σ : State) : Config final :=
  let object := σ.objects.size
  let σ := σ.allocate c
  match c.findMethod? initializerName with
  | none => .answer (a := .value) (.object object) stack σ
  | some init =>
      let (bound, σ) := σ.bind init object
      .callFunction bound paren arguments (.push (.construct object) stack) σ

def Config.callNative (f : Native) (stack : Stack final .value) (σ : State) : Config final :=
  let (value, σ) := σ.callNative f
  .answer (a := .value) value stack σ

/-- The number of arguments that a callable value takes. -/
def arity? : Value → Option Nat
  | .native f => some f.arity
  | .function f => some f.decl.arity
  | .cls c => some c.arity
  | _ => none

def Config.call (callee : Value) (paren : Token) (arguments : List Value)
    (stack : Stack final .value) (σ : State) : Config final :=
  match arity? callee with
  | none => .faultAt .notCallable paren stack σ
  | some expected =>
      if expected ≠ arguments.length then
        .faultAt (.wrongArity expected arguments.length) paren stack σ
      else
        match callee with
        | .native f => .callNative f stack σ
        | .function f => .callFunction f paren arguments stack σ
        | .cls c => .callClass c paren arguments stack σ
        | _ => .faultAt .notCallable paren stack σ

/-- Evaluate the arguments that are left, and then call. -/
def Config.callWith (callee : Value) (paren : Token) (done : List Value) (rest : List Expr)
    (stack : Stack final .value) (σ : State) : Config final :=
  match rest with
  | [] => .call callee paren done.reverse stack σ
  | e :: rest => .eval e (.push (.argument callee paren done rest) stack) σ

/-- End the call of a function. An initializer gives the object it was bound to. -/
def Config.endCall (f : Closure) (paren : Token) (flow : Flow) (stack : Stack final .value)
    (σ : State) : Config final :=
  let σ := { σ with depth := σ.depth - 1 }
  if f.isInitializer then
    match σ.frames.getAt f.chain 0 "this" with
    | some value => .answer (a := .value) value stack σ
    | none => .faultAt (.undefinedVariable "this") paren stack σ
  else
    match flow with
    | .returned value => .answer (a := .value) value stack σ
    | .normal => .answer (a := .value) .nil stack σ

/-- Declare a class. Its name is bound before the class is made, and assigned at the end. -/
def Config.declareClass (name : Token) (superclass : Option Class) (methods : List FunctionDecl)
    (stack : Stack final .flow) (σ : State) : Config final :=
  let σ := σ.define name.lexeme .nil
  let (c, σ) := σ.makeClass name.lexeme superclass methods
  match σ.frames.holder? σ.chain name.lexeme with
  | some f => .answer (a := .flow) .normal stack (σ.defineIn f name.lexeme (.cls c))
  | none => .faultAt (.undefinedVariable name.lexeme) name stack σ

def Config.readVariable (id : NodeId) (name : Token) (stack : Stack final .value) (σ : State) :
    Config final :=
  match σ.lookup? id name.lexeme with
  | some value => .answer (a := .value) value stack σ
  | none => .faultAt (.undefinedVariable name.lexeme) name stack σ

def Config.assignVariable (id : NodeId) (name : Token) (value : Value)
    (stack : Stack final .value) (σ : State) : Config final :=
  match σ.target? id name.lexeme with
  | some f => .answer (a := .value) value stack (σ.defineIn f name.lexeme value)
  | none => .faultAt (.undefinedVariable name.lexeme) name stack σ

/-- Go on with a method bound to an object. -/
def Config.bindMethod (method : Closure) (object : ObjectId) (stack : Stack final .value)
    (σ : State) : Config final :=
  let (bound, σ) := σ.bind method object
  .answer (a := .value) (.function bound) stack σ

/-- Read a property of an object. A method is bound to the object. -/
def Config.readProperty (object : ObjectId) (name : Token) (stack : Stack final .value)
    (σ : State) : Config final :=
  match σ.property? object name.lexeme with
  | some (.field value) => .answer (a := .value) value stack σ
  | some (.method method) => .bindMethod method object stack σ
  | none => .faultAt (.undefinedProperty name.lexeme) name stack σ

/-- Read a method of the superclass, bound to the object whose method is running. -/
def Config.readSuper (id : NodeId) (keyword method : Token) (stack : Stack final .value)
    (σ : State) : Config final :=
  match σ.superMethod id keyword method with
  | .ok (found, object) => .bindMethod found object stack σ
  | .error failure => .fail failure stack σ

/-- The first step of an expression. -/
def Config.evalStep (e : Expr) (stack : Stack final .value) (σ : State) : Config final :=
  match e with
  | .literal literal => .answer (a := .value) literal.value stack σ
  | .group inner => .eval inner stack σ
  | .unary operator operand => .eval operand (.push (.unary operator) stack) σ
  | .binary left operator right => .eval left (.push (.binaryLeft operator right) stack) σ
  | .logical left operator right => .eval left (.push (.logical operator right) stack) σ
  | .conditional c t e => .eval c (.push (.conditional t e) stack) σ
  | .var id name => .readVariable id name stack σ
  | .assign id name value => .eval value (.push (.assign id name) stack) σ
  | .call callee paren arguments => .eval callee (.push (.callee paren arguments) stack) σ
  | .get object name => .eval object (.push (.get name) stack) σ
  | .set object name value => .eval object (.push (.setObject name value) stack) σ
  | .this id keyword => .readVariable id keyword stack σ
  | .super id keyword method => .readSuper id keyword method stack σ

/-- The token to blame if the superclass of a class is no class. -/
def superclassToken (name : Token) : Expr → Token
  | .var _ superName => superName
  | _ => name

/-- The first step of a statement. -/
def Config.execStep (s : Stmt) (stack : Stack final .flow) (σ : State) : Config final :=
  match s with
  | .expression e => .eval e (.push .discard stack) σ
  | .print e => .eval e (.push .print stack) σ
  | .var name none => .answer (a := .flow) .normal stack (σ.define name.lexeme .nil)
  | .var name (some e) => .eval e (.push (.define name) stack) σ
  | .block body => .inBlock body σ.chain stack (σ.enter [] σ.chain)
  | .ifThen c t => .eval c (.push (.branch t none) stack) σ
  | .ifElse c t e => .eval c (.push (.branch t (some e)) stack) σ
  | .loop c body => .eval c (.push (.loopTest c body) stack) σ
  | .function decl =>
      let f := σ.closure decl false
      .answer (a := .flow) .normal stack (σ.useIdentity.define decl.name.lexeme (.function f))
  | .ret _ none => .answer (a := .flow) (.returned .nil) stack σ
  | .ret _ (some e) => .eval e (.push .ret stack) σ
  | .classDecl name none methods => .declareClass name none methods stack σ
  | .classDecl name (some e) methods =>
      .eval e (.push (.superclass name (superclassToken name e) methods) stack) σ

/-- Hand a value to the task that waits for it. -/
def Config.resumeValue {b : Answer} (v : Value) (task : Pending .value b) (stack : Stack final b)
    (σ : State) : Config final :=
  match task with
  | .discard => .answer (a := .flow) .normal stack σ
  | .print =>
      let line := σ.display v
      if σ.canPrint line then .answer (a := .flow) .normal stack (σ.print line)
      else .fail (.output .sinkFull) stack (σ.print line)
  | .define name => .answer (a := .flow) .normal stack (σ.define name.lexeme v)
  | .branch t e =>
      if v.truthy then .exec t stack σ
      else
        match e with
        | some e => .exec e stack σ
        | none => .answer (a := .flow) .normal stack σ
  | .loopTest c body =>
      if v.truthy then .exec body (.push (.loopBody c body) stack) σ
      else .answer (a := .flow) .normal stack σ
  | .ret => .answer (a := .flow) (.returned v) stack σ
  | .superclass name blame methods =>
      match v with
      | .cls c => .declareClass name (some c) methods stack σ
      | _ => .faultAt .superclassNotClass blame stack σ
  | .unary operator => .ofExcept stack σ (a := .value) (applyUnary operator v)
  | .binaryLeft operator right => .eval right (.push (.binaryRight v operator) stack) σ
  | .binaryRight left operator => .ofExcept stack σ (a := .value) (applyBinary left operator v)
  | .logical operator right =>
      if decides operator v then .answer (a := .value) v stack σ else .eval right stack σ
  | .conditional t e => if v.truthy then .eval t stack σ else .eval e stack σ
  | .assign id name => .assignVariable id name v stack σ
  | .callee paren arguments => .callWith v paren [] arguments stack σ
  | .argument callee paren done rest => .callWith callee paren (v :: done) rest stack σ
  | .get name =>
      match v with
      | .object object => .readProperty object name stack σ
      | _ => .faultAt .noProperties name stack σ
  | .setObject name value =>
      match v with
      | .object object => .eval value (.push (.setField object name) stack) σ
      | _ => .faultAt .noFields name stack σ
  | .setField object name => .answer (a := .value) v stack (σ.setField object name.lexeme v)
  | .construct object => .answer (a := .value) (.object object) stack σ

section Choices

variable {v : Value} {σ : State}

theorem Config.resumeValue_print {stack : Stack final .flow} :
    resumeValue v .print stack σ
      = if σ.canPrint (σ.display v) then
          .answer (a := .flow) .normal stack (σ.print (σ.display v))
        else .fail (.output .sinkFull) stack (σ.print (σ.display v)) :=
  rfl

theorem Config.resumeValue_branch {t : Stmt} {e : Option Stmt} {stack : Stack final .flow} :
    resumeValue v (.branch t e) stack σ
      = if v.truthy then .exec t stack σ
        else
          match e with
          | some e => .exec e stack σ
          | none => .answer (a := .flow) .normal stack σ :=
  rfl

theorem Config.resumeValue_loopTest {c : Expr} {body : Stmt} {stack : Stack final .flow} :
    resumeValue v (.loopTest c body) stack σ
      = if v.truthy then .exec body (.push (.loopBody c body) stack) σ
        else .answer (a := .flow) .normal stack σ :=
  rfl

theorem Config.resumeValue_logical {operator : Token} {right : Expr}
    {stack : Stack final .value} :
    resumeValue v (.logical operator right) stack σ
      = if decides operator v then .answer (a := .value) v stack σ else .eval right stack σ :=
  rfl

theorem Config.resumeValue_conditional {t e : Expr} {stack : Stack final .value} :
    resumeValue v (.conditional t e) stack σ
      = if v.truthy then .eval t stack σ else .eval e stack σ :=
  rfl

end Choices

/-- Hand the flow of a statement to the task that waits for it. A return passes through blocks and
loops up to the call that it ends. -/
def Config.resumeFlow {b : Answer} (flow : Flow) (task : Pending .flow b) (stack : Stack final b)
    (σ : State) : Config final :=
  match task with
  | .loopBody c body =>
      match flow with
      | .normal => .eval c (.push (.loopTest c body) stack) σ
      | .returned v => .answer (a := .flow) (.returned v) stack σ
  | .block rest outer =>
      match flow with
      | .normal => .inBlock rest outer stack σ
      | .returned v => .answer (a := .flow) (.returned v) stack (σ.within outer)
  | .body f paren => .endCall f paren flow stack σ
  | .program rest => .inProgram rest stack σ

/-- Hand an answer to the task that waits for it. -/
def Config.resume {a b : Answer} (x : a.Carrier) (task : Pending a b) (stack : Stack final b)
    (σ : State) : Config final :=
  match a, x, task with
  | .value, v, task => resumeValue v task stack σ
  | .flow, flow, task => resumeFlow flow task stack σ

/-- The state after a task is left because of a failure. -/
def Pending.leave {a b : Answer} (σ : State) : Pending a b → State
  | .block _ outer => σ.within outer
  | .body _ _ => { σ with depth := σ.depth - 1 }
  | .program _ => σ.reset
  | _ => σ

/-- One step of a run, or its end. -/
def Config.step : Config final → Config final ⊕ Outcome final
  | .eval e stack σ => .inl (evalStep e stack σ)
  | .exec s stack σ => .inl (execStep s stack σ)
  | .answer x (.push task stack) σ => .inl (resume x task stack σ)
  | .answer x .done σ => .inr ⟨.ok x, σ⟩
  | .fail failure (.push task stack) σ => .inl (.fail failure stack (task.leave σ))
  | .fail failure .done σ => .inr ⟨.error failure, σ⟩

/-- The moment after this many steps of a run, or its end if it ends before. -/
def Config.advance : Nat → Config final → Config final ⊕ Outcome final
  | 0, c => .inl c
  | n + 1, c =>
      match c.step with
      | .inl c => c.advance n
      | .inr outcome => .inr outcome

/-- The end of a run, if it ends within this many steps. -/
def Config.run (steps : Nat) (c : Config final) : Option (Outcome final) :=
  (c.advance steps).getRight?

/-- The run of a program. -/
def Config.ofProgram (program : List Stmt) (σ : State) : Config .flow :=
  .inProgram program .done σ

end Lox.Machine
