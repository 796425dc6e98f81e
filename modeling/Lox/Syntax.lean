import Lox.Token

/-!
# Syntax trees

Expressions, statements and function declarations. Nodes that refer to a binding carry an identity,
under which the distance to that binding is recorded; all other nodes are known by their tokens.
-/

namespace Lox

/-- The identity of a node that refers to a binding. -/
abbrev NodeId := Nat

inductive Literal
  | nil
  | boolean (value : Bool)
  | number (value : Float)
  | string (text : String)
  deriving DecidableEq

inductive Expr
  | literal (value : Literal)
  /-- An expression in parentheses. -/
  | group (inner : Expr)
  | unary (operator : Token) (operand : Expr)
  | binary (left : Expr) (operator : Token) (right : Expr)
  /-- An operator that may leave its right operand unevaluated. -/
  | logical (left : Expr) (operator : Token) (right : Expr)
  | conditional (condition thenBranch elseBranch : Expr)
  | var (id : NodeId) (name : Token)
  | assign (id : NodeId) (name : Token) (value : Expr)
  /-- A call, located at its closing parenthesis. -/
  | call (callee : Expr) (paren : Token) (arguments : List Expr)
  | get (object : Expr) (name : Token)
  | set (object : Expr) (name : Token) (value : Expr)
  | this (id : NodeId) (keyword : Token)
  | super (id : NodeId) (keyword method : Token)

mutual

inductive Stmt
  | expression (e : Expr)
  | print (e : Expr)
  | var (name : Token) (initializer : Option Expr)
  | block (body : List Stmt)
  | ifThen (condition : Expr) (thenBranch : Stmt)
  | ifElse (condition : Expr) (thenBranch elseBranch : Stmt)
  | loop (condition : Expr) (body : Stmt)
  | function (decl : FunctionDecl)
  | ret (keyword : Token) (value : Option Expr)
  | classDecl (name : Token) (superclass : Option Expr) (methods : List FunctionDecl)

/-- The declaration of a function or a method. -/
structure FunctionDecl where
  name : Token
  params : List Token
  body : List Stmt

end

def FunctionDecl.arity (f : FunctionDecl) : Nat :=
  f.params.length

/-- The name of the method that runs when a class is called. -/
def initializerName : String := "init"

/-- A method of this name is an initializer. -/
def FunctionDecl.isInitializer (f : FunctionDecl) : Bool :=
  f.name.lexeme == initializerName

/-- The largest number of parameters of a function and of arguments of a call. -/
def maxArity : Nat := 255

end Lox
