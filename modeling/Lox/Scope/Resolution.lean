import Lox.Scope

/-!
# Resolution

A walk over a program that finds, for each node that refers to a local binding, the distance to the
scope of that binding, and that checks the static rules. The walk never stops at an error. What it
finds depends only on the scopes and on the callable and class around a place, and a statement
changes the scopes of what follows it only by the name that it declares.
-/

namespace Lox.Resolution

/-- A static rule that is broken. -/
inductive Fault
  | redeclared
  | readInOwnInitializer
  | topLevelReturn
  | initializerReturnsValue
  | thisOutsideClass
  | superOutsideClass
  | superWithoutSuperclass
  | inheritsFromItself
  deriving DecidableEq, Repr

def Fault.message : Fault → String
  | .redeclared => "Already a variable with this name in this scope."
  | .readInOwnInitializer => "Can't read local variable in its own initializer."
  | .topLevelReturn => "Can't return from top-level code."
  | .initializerReturnsValue => "Can't return a value from an initializer."
  | .thisOutsideClass => "Can't use 'this' outside of a class."
  | .superOutsideClass => "Can't use 'super' outside of a class."
  | .superWithoutSuperclass => "Can't use 'super' in a class with no superclass."
  | .inheritsFromItself => "A class can't inherit from itself."

/-- A broken rule and the token that breaks it. -/
structure Error where
  fault : Fault
  token : Token
  deriving DecidableEq

/-- What the walk over a part of a program finds. -/
structure Findings where
  /-- The nodes that refer to local bindings, with their distances. -/
  locals : List (NodeId × Nat)
  errors : List Error

namespace Findings

def none : Findings := ⟨[], []⟩

def error (fault : Fault) (token : Token) : Findings := ⟨[], [⟨fault, token⟩]⟩

/-- A single error, if the condition holds. -/
def errorIf (condition : Bool) (fault : Fault) (token : Token) : Findings :=
  if condition then error fault token else none

/-- The findings of one part followed by those of the next. -/
instance : Append Findings where
  append a b := ⟨a.locals ++ b.locals, a.errors ++ b.errors⟩

@[simp] theorem locals_append (a b : Findings) : (a ++ b).locals = a.locals ++ b.locals := rfl

@[simp] theorem errors_append (a b : Findings) : (a ++ b).errors = a.errors ++ b.errors := rfl

@[simp] theorem locals_none : none.locals = [] := rfl

@[simp] theorem errors_none : none.errors = [] := rfl

@[simp] theorem locals_error (fault : Fault) (token : Token) : (error fault token).locals = [] := rfl

@[simp] theorem errors_error (fault : Fault) (token : Token) :
    (error fault token).errors = [⟨fault, token⟩] := rfl

end Findings

/-- The callable around a place. -/
inductive CallableContext
  | topLevel
  | function
  | method
  | initializer
  deriving DecidableEq, Repr

/-- The class around a place. -/
inductive ClassContext
  | none
  | plain
  | derived
  deriving DecidableEq, Repr

/-- What is around a place. -/
structure Context where
  callable : CallableContext
  enclosingClass : ClassContext

/-- The context of a whole program. -/
def Context.program : Context := ⟨.topLevel, .none⟩

/-- The context of a method's body. -/
def methodContext (method : FunctionDecl) : CallableContext :=
  if method.isInitializer then .initializer else .method

/-- A node that refers to a name: it is local if some scope holds the name. -/
def reference (scopes : Scopes) (id : NodeId) (name : Token) : Findings :=
  match scopes.distance? name.lexeme with
  | some d => ⟨[(id, d)], []⟩
  | none => .none

mutual

/-- The findings in an expression. -/
def ofExpr (context : Context) (scopes : Scopes) : Expr → Findings
  | .literal _ => .none
  | .group inner => ofExpr context scopes inner
  | .unary _ operand => ofExpr context scopes operand
  | .binary left _ right => ofExpr context scopes left ++ ofExpr context scopes right
  | .logical left _ right => ofExpr context scopes left ++ ofExpr context scopes right
  | .conditional c t e =>
      ofExpr context scopes c ++ ofExpr context scopes t ++ ofExpr context scopes e
  | .var id name =>
      .errorIf (scopes.isPending name.lexeme) .readInOwnInitializer name
        ++ reference scopes id name
  | .assign id name value => ofExpr context scopes value ++ reference scopes id name
  | .call callee _ arguments => ofExpr context scopes callee ++ ofExprs context scopes arguments
  | .get object _ => ofExpr context scopes object
  | .set object _ value => ofExpr context scopes value ++ ofExpr context scopes object
  | .this id keyword =>
      match context.enclosingClass with
      | .none => .error .thisOutsideClass keyword
      | _ => reference scopes id keyword
  | .super id keyword _ =>
      match context.enclosingClass with
      | .none => .error .superOutsideClass keyword
      | .plain => .error .superWithoutSuperclass keyword
      | .derived => reference scopes id keyword

def ofExprs (context : Context) (scopes : Scopes) : List Expr → Findings
  | [] => .none
  | e :: es => ofExpr context scopes e ++ ofExprs context scopes es

end

def ofExpr? (context : Context) (scopes : Scopes) : Option Expr → Findings
  | none => .none
  | some e => ofExpr context scopes e

/-- A declaration in a scope that already holds its name. -/
def redeclaration (scopes : Scopes) (name : Token) : Findings :=
  .errorIf (scopes.redeclares name.lexeme) .redeclared name

/-- The scopes after these names are declared and completed in order. -/
def defineAll (scopes : Scopes) (names : List Token) : Scopes :=
  names.foldl (fun scopes name => scopes.define name.lexeme) scopes

/-- The findings in a parameter list. -/
def ofParams (scopes : Scopes) : List Token → Findings
  | [] => .none
  | param :: params =>
      redeclaration scopes param ++ ofParams (scopes.define param.lexeme) params

/-- The names that a statement declares in the scope it stands in. A branch or a loop body has no
scope of its own. -/
@[simp] def declaredNames : Stmt → List Token
  | .var name _ => [name]
  | .function decl => [decl.name]
  | .classDecl name _ _ => [name]
  | .ifThen _ t => declaredNames t
  | .ifElse _ t e => declaredNames t ++ declaredNames e
  | .loop _ body => declaredNames body
  | _ => []

/-- The scopes of what follows a statement. -/
def after (scopes : Scopes) (s : Stmt) : Scopes :=
  defineAll scopes (declaredNames s)

/-- A class that names itself as its superclass. -/
def selfInheritance (name : Token) : Expr → Findings
  | .var _ superName => .errorIf (superName.lexeme == name.lexeme) .inheritsFromItself superName
  | _ => .none

/-- The scopes around the methods of a class: one that holds `this`, inside one that holds `super`
if there is a superclass. -/
def methodScopes (scopes : Scopes) (superclass : Option Expr) : Scopes :=
  match superclass with
  | none => scopes.enterWith "this"
  | some _ => (scopes.enterWith "super").enterWith "this"

/-- The context of a class's superclass and methods. -/
def classContext (context : Context) (superclass : Option Expr) : Context :=
  { context with enclosingClass := if superclass.isSome then .derived else .plain }

/-- The findings in the heading of a class: its name, and the superclass it names. -/
def ofClassHead (context : Context) (scopes : Scopes) (name : Token) (superclass : Option Expr) :
    Findings :=
  redeclaration scopes name
    ++ match superclass with
      | none => .none
      | some e =>
          selfInheritance name e
            ++ ofExpr (classContext context superclass) (scopes.define name.lexeme) e

/-- The findings in a return statement. -/
def ofReturn (context : Context) (scopes : Scopes) (keyword : Token) (value : Option Expr) :
    Findings :=
  .errorIf (context.callable == .topLevel) .topLevelReturn keyword
    ++ .errorIf (value.isSome && context.callable == .initializer) .initializerReturnsValue keyword
    ++ ofExpr? context scopes value

mutual

/-- The findings in a statement. -/
def ofStmt (context : Context) (scopes : Scopes) : Stmt → Findings
  | .expression e => ofExpr context scopes e
  | .print e => ofExpr context scopes e
  | .var name initializer =>
      redeclaration scopes name ++ ofExpr? context (scopes.declare name.lexeme) initializer
  | .block body => ofStmts context ([] :: scopes) body
  | .ifThen c t => ofExpr context scopes c ++ ofStmt context scopes t
  | .ifElse c t e =>
      ofExpr context scopes c ++ ofStmt context scopes t ++ ofStmt context (after scopes t) e
  | .loop c body => ofExpr context scopes c ++ ofStmt context scopes body
  | .function decl =>
      redeclaration scopes decl.name
        ++ ofFunction { context with callable := .function } (scopes.define decl.name.lexeme) decl
  | .ret keyword value => ofReturn context scopes keyword value
  | .classDecl name superclass methods =>
      ofClassHead context scopes name superclass
        ++ ofMethods (classContext context superclass)
            (methodScopes (scopes.define name.lexeme) superclass) methods

def ofStmts (context : Context) (scopes : Scopes) : List Stmt → Findings
  | [] => .none
  | s :: ss => ofStmt context scopes s ++ ofStmts context (after scopes s) ss

/-- The findings in a callable, whose parameters and body share one scope. -/
def ofFunction (context : Context) (scopes : Scopes) : FunctionDecl → Findings
  | ⟨_, params, body⟩ =>
      ofParams ([] :: scopes) params ++ ofStmts context (defineAll ([] :: scopes) params) body

/-- The findings in the methods of a class. -/
def ofMethods (context : Context) (scopes : Scopes) : List FunctionDecl → Findings
  | [] => .none
  | m :: ms =>
      ofFunction { context with callable := methodContext m } scopes m
        ++ ofMethods context scopes ms

end

/-- The local references of a program with their distances, or the rules that it breaks. -/
def resolve (program : List Stmt) : Except (List Error) (List (NodeId × Nat)) :=
  let found := ofStmts .program [] program
  if found.errors.isEmpty then .ok found.locals else .error found.errors

end Lox.Resolution
