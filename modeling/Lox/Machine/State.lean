import Std.Data.TreeMap
import Lox.Machine.Fault
import Lox.Value

/-!
# The state of an interpreter

Everything that lasts while programs run: the frames and objects they create, the distances of
their local references, the current environment and call depth, the output, and the clock.
-/

namespace Lox.Machine

/-- The distances of the nodes that refer to local bindings. -/
abbrev Distances := Std.TreeMap NodeId Nat

/-- The distances with more of them added; a later one replaces an earlier one. -/
def Distances.add (distances : Distances) (found : List (NodeId × Nat)) : Distances :=
  found.foldl (fun distances (id, distance) => distances.insert id distance) distances

/-- A clock that shows a time in seconds at each of its readings. -/
structure Clock where
  /-- The time at each reading. -/
  time : Nat → Float
  /-- The number of readings so far. -/
  readings : Nat

/-- The frame of the global variables. -/
def globalFrame : FrameId := 0

/-- The environment of top-level code. -/
def globalChain : Chain := [globalFrame]

/-- The deepest nesting of calls. -/
def maxDepth : Nat := 4096

/-- The state of an interpreter. -/
structure State where
  frames : Frames Value
  objects : Array Object
  /-- The identity of the next function or class. -/
  nextIdentity : Identity
  chain : Chain
  distances : Distances
  /-- The number of functions that are being called. -/
  depth : Nat
  sink : Sink
  clock : Clock

namespace State

/-- The state of a new interpreter: the global frame binds the functions of the interpreter. -/
def initial (sink : Sink) (time : Nat → Float) : State where
  frames := Frames.empty.push [(Native.clock.name, .native .clock)]
  objects := #[]
  nextIdentity := 0
  chain := globalChain
  distances := ∅
  depth := 0
  sink := sink
  clock := ⟨time, 0⟩

/-- The state back at the top level, after a run that stopped. -/
def reset (σ : State) : State :=
  { σ with chain := globalChain, depth := 0 }

/-- The state with the chain as its environment. -/
def within (σ : State) (chain : Chain) : State :=
  { σ with chain := chain }

/-- The state inside a new innermost frame of the environment that begins at `outer`. -/
def enter (σ : State) (bindings : Bindings Value) (outer : Chain) : State :=
  let σ := σ.within (σ.frames.size :: outer)
  { σ with frames := σ.frames.push bindings }

/-- Bind a name in a frame. -/
def defineIn (σ : State) (f : FrameId) (name : String) (value : Value) : State :=
  { σ with frames := σ.frames.define f name value }

/-- Bind a name in the current frame. -/
def define (σ : State) (name : String) (value : Value) : State :=
  match σ.chain with
  | [] => σ
  | f :: _ => σ.defineIn f name value

/-- The value of a node that refers to a name: at its distance if it is local, and otherwise in the
global frame. -/
def lookup? (σ : State) (id : NodeId) (name : String) : Option Value :=
  match σ.distances[id]? with
  | some distance => σ.frames.getAt σ.chain distance name
  | none => σ.frames.lookup globalChain name

/-- The frame that a node assigns to: at its distance if it is local, and otherwise the global one.
The frame has to bind the name already. -/
def target? (σ : State) (id : NodeId) (name : String) : Option FrameId :=
  match σ.distances[id]? with
  | some distance => σ.frames.holderAt? σ.chain distance name
  | none => σ.frames.holder? globalChain name

/-- A new function over the current environment. -/
def closure (σ : State) (decl : FunctionDecl) (isInitializer : Bool) : Closure :=
  ⟨σ.nextIdentity, decl, σ.chain, isInitializer⟩

/-- The state after its next identity is used. -/
def useIdentity (σ : State) : State :=
  { σ with nextIdentity := σ.nextIdentity + 1 }

/-- The methods of a class over the current environment, and the state after that. -/
def makeMethods (σ : State) : List FunctionDecl → List (String × Closure) × State
  | [] => ([], σ)
  | m :: ms =>
      let (more, σ') := σ.useIdentity.makeMethods ms
      ((m.name.lexeme, σ.closure m m.isInitializer) :: more, σ')

/-- A method bound to an object: its environment has one more frame, which binds `this`. -/
def bind (σ : State) (method : Closure) (object : ObjectId) : Closure × State :=
  ({ method with id := σ.nextIdentity, chain := σ.frames.size :: method.chain },
    { σ with
      frames := σ.frames.push [("this", .object object)]
      nextIdentity := σ.nextIdentity + 1 })

/-- The state with a new object of a class, which is at place `σ.objects.size`. -/
def allocate (σ : State) (c : Class) : State :=
  { σ with objects := σ.objects.push ⟨c, []⟩ }

/-- Set a field of an object. -/
def setField (σ : State) (object : ObjectId) (name : String) (value : Value) : State :=
  { σ with objects := σ.objects.modify object fun o => { o with fields := o.fields.set name value } }

/-- What an object has under a name. -/
inductive Property
  | field (value : Value)
  | method (method : Closure)

/-- The property of an object: a field, or else a method of its class. -/
def property? (σ : State) (object : ObjectId) (name : String) : Option Property :=
  match σ.objects[object]? with
  | none => none
  | some o =>
      match o.fields.get? name with
      | some value => some (.field value)
      | none => (o.cls.findMethod? name).map .method

/-- The method of the superclass that an expression names, and the object whose method is running.
The frame of `this` lies directly inside that of `super`. -/
def superMethod (σ : State) (id : NodeId) (keyword method : Token) :
    Except Failure (Closure × ObjectId) :=
  match σ.distances[id]? with
  | none => .error (.atToken .superUnavailable keyword)
  | some distance =>
      match σ.frames.getAt σ.chain distance keyword.lexeme with
      | none => .error (.atToken (.undefinedVariable keyword.lexeme) keyword)
      | some (.cls superclass) =>
          match σ.frames.getAt σ.chain (distance - 1) "this" with
          | none => .error (.atToken (.undefinedVariable "this") keyword)
          | some (.object object) =>
              match superclass.findMethod? method.lexeme with
              | some found => .ok (found, object)
              | none => .error (.atToken (.undefinedProperty method.lexeme) method)
          | some _ => .error (.atToken .superUnavailable keyword)
      | some _ => .error (.atToken .superclassNotClass keyword)

/-- A class over the current environment, and the state after it is made. A superclass is bound as
`super` in a frame around the methods alone. -/
def makeClass (σ : State) (name : String) (superclass : Option Class)
    (methods : List FunctionDecl) : Class × State :=
  let outer := σ.chain
  let σ :=
    match superclass with
    | none => σ
    | some c => σ.enter [("super", .cls c)] outer
  let (table, σ) := σ.makeMethods methods
  (.make σ.nextIdentity name (.ofPairs table) superclass, σ.useIdentity.within outer)

/-- The text of a value. -/
def display (σ : State) : Value → String
  | .nil => "nil"
  | .boolean true => "true"
  | .boolean false => "false"
  | .number x => Number.display x
  | .string text => text
  | .native _ => "<native fn>"
  | .function f => "<fn " ++ f.decl.name.lexeme ++ ">"
  | .cls c => c.name
  | .object id =>
      match σ.objects[id]? with
      | some o => o.cls.name ++ " instance"
      | none => "instance"

/-- Print a line. What still fits is written even if the line does not fit. -/
def print (σ : State) (line : String) : State :=
  { σ with sink := σ.sink.write (line ++ "\n") }

/-- The line still fits the output. -/
def canPrint (σ : State) (line : String) : Bool :=
  σ.sink.fits (line ++ "\n").utf8ByteSize

/-- The result of calling a function of the interpreter. -/
def callNative (σ : State) : Native → Value × State
  | .clock =>
      (.number (σ.clock.time σ.clock.readings),
        { σ with clock := { σ.clock with readings := σ.clock.readings + 1 } })

end State

end Lox.Machine
