import Lox.Frames
import Lox.Syntax

/-!
# Values

What expressions evaluate to. Functions and classes carry an identity, by which they are compared;
an object is its place in the store of objects. A class contains its superclass, so that a chain of
superclasses always ends.
-/

namespace Lox

/-- The identity of a function or a class. -/
abbrev Identity := Nat

/-- The place of an object in the store. -/
abbrev ObjectId := Nat

/-- A function of the interpreter. -/
inductive Native
  | clock
  deriving DecidableEq, Repr

def Native.arity : Native → Nat
  | .clock => 0

def Native.name : Native → String
  | .clock => "clock"

/-- A function or method with the environment in which it was declared. -/
structure Closure where
  id : Identity
  decl : FunctionDecl
  chain : Chain
  /-- It is a method that runs when a class is called. -/
  isInitializer : Bool

/-- A class with its own methods, on its own or extending another class. -/
inductive Class
  | root (id : Identity) (name : String) (methods : Bindings Closure)
  | extending (id : Identity) (name : String) (methods : Bindings Closure) (superclass : Class)

namespace Class

def id : Class → Identity
  | root id _ _ => id
  | extending id _ _ _ => id

def name : Class → String
  | root _ name _ => name
  | extending _ name _ _ => name

/-- The methods that a class declares itself. -/
def methods : Class → Bindings Closure
  | root _ _ methods => methods
  | extending _ _ methods _ => methods

/-- The class that a class extends. -/
def superclass? : Class → Option Class
  | root _ _ _ => none
  | extending _ _ _ superclass => some superclass

/-- A class of the given parts. -/
def make (id : Identity) (name : String) (methods : Bindings Closure) : Option Class → Class
  | none => root id name methods
  | some superclass => extending id name methods superclass

/-- The method of a name: that of the nearest class that declares one, from this class upwards. -/
def findMethod? (method : String) : Class → Option Closure
  | root _ _ methods => methods.get? method
  | extending _ _ methods superclass =>
      match methods.get? method with
      | some found => some found
      | none => superclass.findMethod? method

/-- The number of arguments that a call of the class takes. -/
def arity (c : Class) : Nat :=
  match c.findMethod? initializerName with
  | some init => init.decl.arity
  | none => 0

end Class

inductive Value
  | nil
  | boolean (value : Bool)
  | number (value : Float)
  | string (text : String)
  | native (f : Native)
  | function (f : Closure)
  | cls (c : Class)
  | object (id : ObjectId)

/-- An object: its class, and the fields that were set on it. -/
structure Object where
  cls : Class
  fields : Bindings Value

def Literal.value : Literal → Value
  | .nil => .nil
  | .boolean b => .boolean b
  | .number x => .number x
  | .string text => .string text

namespace Value

/-- The value counts as true: all do but `nil` and `false`. -/
def truthy : Value → Bool
  | nil => false
  | boolean b => b
  | _ => true

/-- The values are equal: scalars by what they are, all others by identity. -/
def equal : Value → Value → Bool
  | nil, nil => true
  | boolean a, boolean b => a == b
  | number a, number b => a == b
  | string a, string b => a == b
  | native a, native b => a == b
  | function a, function b => a.id == b.id
  | cls a, cls b => a.id == b.id
  | object a, object b => a == b
  | _, _ => false

end Value

end Lox
