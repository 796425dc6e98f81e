import Lox.Token.Lexer
import Lox.Grammar.Fault
import Lox.Scope.Resolution
import Lox.Machine.Fault

/-!
# Diagnostics

Everything that can be reported about a source or a run, with its line, its place in that line and
its wording. What is found before a program runs is reported in one form, and what stops a run in
another.
-/

namespace Lox

/-- A report about a source or a run. -/
inductive Diagnostic
  | lexical (e : Lexer.Error)
  | grammar (e : Grammar.Error)
  | resolution (e : Resolution.Error)
  | failure (f : Machine.Failure)

namespace Diagnostic

/-- The line that a diagnostic is about. -/
def line : Diagnostic → Nat
  | lexical e => e.line
  | grammar e => e.token.line
  | resolution e => e.token.line
  | failure f => f.line

/-- The place in the line, as it is written behind the word `Error`. -/
def location : Diagnostic → String
  | lexical _ => ""
  | grammar e => e.token.location
  | resolution e => e.token.location
  | failure _ => ""

/-- The wording of a diagnostic, without its line and place. -/
def message : Diagnostic → String
  | lexical e => e.fault.message
  | grammar e => e.fault.message
  | resolution e => e.fault.message
  | failure f => f.message

/-- The diagnostic is about a run. -/
def isRuntime : Diagnostic → Bool
  | failure _ => true
  | _ => false

/-- The text of a diagnostic as it is reported. -/
def text (d : Diagnostic) : String :=
  if d.isRuntime then d.message ++ "\n[line " ++ Nat.repr d.line ++ "]"
  else "[line " ++ Nat.repr d.line ++ "] Error" ++ d.location ++ ": " ++ d.message

end Diagnostic

end Lox
