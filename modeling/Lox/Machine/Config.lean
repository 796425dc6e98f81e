import Lox.Machine.State

/-!
# Configurations

A running program is a piece of syntax, or the answer of one, above a stack of what still has to be
done with that answer. An expression is answered by a value and a statement by how control leaves
it. Every pending task is typed by the answer that it waits for and the answer that it gives, so
that a stack always fits what stands above it.
-/

namespace Lox.Machine

/-- The two sorts of answers. -/
inductive Answer
  | value
  | flow
  deriving DecidableEq, Repr

/-- How control leaves a statement. -/
inductive Flow
  | normal
  /-- A return statement was executed, and the call that it belongs to is to end. -/
  | returned (value : Value)

/-- The answers of a sort. -/
abbrev Answer.Carrier : Answer → Type
  | .value => Value
  | .flow => Flow

/-- What is done with an answer of the first sort to give one of the second. -/
inductive Pending : Answer → Answer → Type
  /-- End an expression statement. -/
  | discard : Pending .value .flow
  /-- Print the value. -/
  | print : Pending .value .flow
  /-- Bind a new variable to the value. -/
  | define (name : Token) : Pending .value .flow
  /-- Choose a branch of an if statement. -/
  | branch (thenBranch : Stmt) (elseBranch : Option Stmt) : Pending .value .flow
  /-- Decide whether a loop goes on. -/
  | loopTest (condition : Expr) (body : Stmt) : Pending .value .flow
  /-- Return the value. -/
  | ret : Pending .value .flow
  /-- Declare a class that extends the value; the token is to blame if it is no class. -/
  | superclass (name blame : Token) (methods : List FunctionDecl) : Pending .value .flow
  /-- Apply a unary operator. -/
  | unary (operator : Token) : Pending .value .value
  /-- Go on to the right operand of a binary operator. -/
  | binaryLeft (operator : Token) (right : Expr) : Pending .value .value
  /-- Apply a binary operator to the left operand and the value. -/
  | binaryRight (left : Value) (operator : Token) : Pending .value .value
  /-- Go on to the right operand of a logical operator, unless the value decides it. -/
  | logical (operator : Token) (right : Expr) : Pending .value .value
  /-- Choose a branch of a conditional expression. -/
  | conditional (thenBranch elseBranch : Expr) : Pending .value .value
  /-- Assign the value. -/
  | assign (id : NodeId) (name : Token) : Pending .value .value
  /-- Go on to the arguments of a call. -/
  | callee (paren : Token) (arguments : List Expr) : Pending .value .value
  /-- Add an argument to those evaluated so far, the latest first, and go on to the others. -/
  | argument (callee : Value) (paren : Token) (done : List Value) (rest : List Expr) :
      Pending .value .value
  /-- Read a property. -/
  | get (name : Token) : Pending .value .value
  /-- Go on to the new value of a field. -/
  | setObject (name : Token) (value : Expr) : Pending .value .value
  /-- Set a field of an object. -/
  | setField (object : ObjectId) (name : Token) : Pending .value .value
  /-- Give the new object whose initializer has run. -/
  | construct (object : ObjectId) : Pending .value .value
  /-- Test a loop's condition again. -/
  | loopBody (condition : Expr) (body : Stmt) : Pending .flow .flow
  /-- Go on with a block, and leave it for the environment around it. -/
  | block (rest : List Stmt) (outer : Chain) : Pending .flow .flow
  /-- End the call of a function. -/
  | body (f : Closure) (paren : Token) : Pending .flow .value
  /-- Go on with a program. -/
  | program (rest : List Stmt) : Pending .flow .flow

/-- The tasks between an answer and the final answer of a run. -/
inductive Stack (final : Answer) : Answer → Type
  | done : Stack final final
  | push {a b : Answer} (task : Pending a b) (below : Stack final b) : Stack final a

/-- A moment of a run. -/
inductive Config (final : Answer)
  | eval (e : Expr) (stack : Stack final .value) (σ : State)
  | exec (s : Stmt) (stack : Stack final .flow) (σ : State)
  | answer {a : Answer} (x : a.Carrier) (stack : Stack final a) (σ : State)
  /-- Leave all pending tasks because of a failure. -/
  | fail {a : Answer} (failure : Failure) (stack : Stack final a) (σ : State)

/-- The end of a run. -/
structure Outcome (final : Answer) where
  result : Except Failure final.Carrier
  σ : State

/-- The state at a moment of a run. -/
def Config.state {final : Answer} : Config final → State
  | .eval _ _ σ => σ
  | .exec _ _ σ => σ
  | .answer _ _ σ => σ
  | .fail _ _ σ => σ

end Lox.Machine
