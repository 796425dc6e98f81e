import Lox.Output
import Lox.Syntax

/-!
# Failures of a run

Why a run stops before its end: a fault of the program, located by a line, or a failure of the
output.
-/

namespace Lox.Machine

/-- A fault of a running program. -/
inductive Fault
  | undefinedVariable (name : String)
  | undefinedProperty (name : String)
  | noProperties
  | noFields
  | notCallable
  | wrongArity (expected got : Nat)
  | stackOverflow
  | superUnavailable
  | superclassNotClass
  | operandNotNumber
  | operandsNotNumbers
  | operandsNotAddable
  | invalidUnary
  | invalidBinary
  deriving DecidableEq, Repr

def Fault.message : Fault → String
  | .undefinedVariable name => "Undefined variable '" ++ name ++ "'."
  | .undefinedProperty name => "Undefined property '" ++ name ++ "'."
  | .noProperties => "Only instances have properties."
  | .noFields => "Only instances have fields."
  | .notCallable => "Can only call functions and classes."
  | .wrongArity expected got =>
      "Expected " ++ Nat.repr expected ++ " arguments but got " ++ Nat.repr got ++ "."
  | .stackOverflow => "Stack overflow."
  | .superUnavailable => "Can't use 'super' here."
  | .superclassNotClass => "Superclass must be a class."
  | .operandNotNumber => "Operand must be a number."
  | .operandsNotNumbers => "Operands must be numbers."
  | .operandsNotAddable => "Operands must be two numbers or two strings."
  | .invalidUnary => "Invalid unary operator."
  | .invalidBinary => "Invalid binary operator."

/-- Why a run stops before its end. -/
inductive Failure
  | fault (fault : Fault) (line : Nat)
  | output (error : OutputError)
  deriving DecidableEq, Repr

namespace Failure

/-- A fault at a token. -/
def atToken (f : Fault) (token : Token) : Failure :=
  .fault f token.line

/-- The wording of a failure. -/
def message : Failure → String
  | fault f _ => f.message
  | output error => error.message

/-- The line of a failure; a failure of the output has none. -/
def line : Failure → Nat
  | fault _ line => line
  | output _ => 0

end Failure

end Lox.Machine
