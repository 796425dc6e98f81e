import Lox.Syntax

/-!
# Scopes

The names that are visible at a place of a program, scope by scope from the innermost outwards. The
global scope is not among them: a name that no scope holds is global. The distance of a name is the
number of scopes between its use and the nearest scope that holds it.
-/

namespace Lox

/-- The names of one scope, the latest first, each with whether its initializer is complete. -/
abbrev Scope := List (String × Bool)

/-- The scope holds the name. -/
def Scope.holds (s : Scope) (name : String) : Bool :=
  (s.lookup name).isSome

/-- The scopes around a place, the innermost first. -/
abbrev Scopes := List Scope

namespace Scopes

/-- The innermost scope holds the name. -/
def redeclares (scopes : Scopes) (name : String) : Bool :=
  match scopes with
  | [] => false
  | s :: _ => s.holds name

/-- The innermost scope holds the name, and its initializer is not complete. -/
def isPending (scopes : Scopes) (name : String) : Bool :=
  match scopes with
  | [] => false
  | s :: _ => s.lookup name == some false

/-- The scopes after the name is declared in the innermost one. A name that it already holds stays
as it is, and a global name leaves no trace. -/
def declare (scopes : Scopes) (name : String) : Scopes :=
  match scopes with
  | [] => []
  | s :: outer => (if s.holds name then s else (name, false) :: s) :: outer

/-- The scopes after the name is completed in the innermost one. -/
def define (scopes : Scopes) (name : String) : Scopes :=
  match scopes with
  | [] => []
  | s :: outer => ((name, true) :: s) :: outer

/-- The scopes inside a new scope that holds only this name. -/
def enterWith (scopes : Scopes) (name : String) : Scopes :=
  [(name, true)] :: scopes

/-- The distance to the nearest scope that holds the name. -/
def distance? (scopes : Scopes) (name : String) : Option Nat :=
  scopes.findIdx? (·.holds name)

end Scopes

end Lox
