import Lox.Scope.Resolution

/-!
# Places of a program and the rules that hold there

The statements and expressions of a program together with the blocks, functions, methods and classes
around them, and the static rules as conditions on what stands where. Nothing here follows the order
in which a program is walked: a rule is broken if some part of the program breaks it.
-/

namespace Lox

/-- The expressions directly inside an expression. -/
def Expr.parts : Expr → List Expr
  | .literal _ => []
  | .group inner => [inner]
  | .unary _ operand => [operand]
  | .binary left _ right => [left, right]
  | .logical left _ right => [left, right]
  | .conditional c t e => [c, t, e]
  | .var _ _ => []
  | .assign _ _ value => [value]
  | .call callee _ arguments => callee :: arguments
  | .get object _ => [object]
  | .set object _ value => [object, value]
  | .this _ _ => []
  | .super _ _ _ => []

/-- An expression is itself or stands somewhere inside another one. -/
inductive Expr.Contains (e : Expr) : Expr → Prop
  | self : Contains e e
  | part {f g : Expr} : Contains e f → g ∈ f.parts → Contains e g

/-- The expressions directly inside a statement. The superclass of a class is not among them, since
it stands inside the class. -/
def Stmt.expressions : Stmt → List Expr
  | .expression e => [e]
  | .print e => [e]
  | .var _ initializer => initializer.toList
  | .ifThen c _ => [c]
  | .ifElse c _ _ => [c]
  | .loop c _ => [c]
  | .ret _ value => value.toList
  | .block _ => []
  | .function _ => []
  | .classDecl _ _ _ => []

/-- The statements that a statement runs in its own scope. -/
def Stmt.branches : Stmt → List Stmt
  | .ifThen _ t => [t]
  | .ifElse _ t e => [t, e]
  | .loop _ body => [body]
  | _ => []

/-- A construct that other statements stand in. -/
inductive Enclosure
  | block
  | function
  | method (name : Token)
  | classBody (superclass : Option Expr)

/-- Functions and methods can be returned from. -/
def Enclosure.isCallable : Enclosure → Bool
  | .function => true
  | .method _ => true
  | _ => false

def Enclosure.superclass? : Enclosure → Option (Option Expr)
  | .classBody superclass => some superclass
  | _ => none

/-- The nearest function or method among the enclosures of a place, the innermost first. -/
def nearestCallable (around : List Enclosure) : Option Enclosure :=
  around.find? (·.isCallable)

/-- What the innermost class of a place names as its superclass, if there is a class. -/
def nearestSuperclass (around : List Enclosure) : Option (Option Expr) :=
  around.findSome? (·.superclass?)

/-- A statement stands in a program with these enclosures around it, the innermost first. -/
inductive Stands (program : List Stmt) : List Enclosure → Stmt → Prop
  | top {s : Stmt} : s ∈ program → Stands program [] s
  | branch {around : List Enclosure} {s t : Stmt} :
      Stands program around s → t ∈ s.branches → Stands program around t
  | inBlock {around : List Enclosure} {body : List Stmt} {s : Stmt} :
      Stands program around (.block body) → s ∈ body → Stands program (.block :: around) s
  | inFunction {around : List Enclosure} {f : FunctionDecl} {s : Stmt} :
      Stands program around (.function f) → s ∈ f.body → Stands program (.function :: around) s
  | inMethod {around : List Enclosure} {name : Token} {superclass : Option Expr}
      {methods : List FunctionDecl} {m : FunctionDecl} {s : Stmt} :
      Stands program around (.classDecl name superclass methods) → m ∈ methods → s ∈ m.body →
        Stands program (.method m.name :: .classBody superclass :: around) s

/-- An expression stands in a program with these enclosures around it. -/
inductive StandsExpr (program : List Stmt) : List Enclosure → Expr → Prop
  | inStmt {around : List Enclosure} {s : Stmt} {e : Expr} :
      Stands program around s → e ∈ s.expressions → StandsExpr program around e
  | superclass {around : List Enclosure} {name : Token} {e : Expr} {methods : List FunctionDecl} :
      Stands program around (.classDecl name (some e) methods) →
        StandsExpr program (.classBody (some e) :: around) e
  | part {around : List Enclosure} {e f : Expr} :
      StandsExpr program around e → f ∈ e.parts → StandsExpr program around f

theorem StandsExpr.contains {program : List Stmt} {around : List Enclosure} {e f : Expr}
    (h : StandsExpr program around e) (hf : e.Contains f) : StandsExpr program around f := by
  induction hf with
  | self => exact h
  | part _ hpart ih => exact ih.part hpart

namespace Resolution

/-- Statements that follow one another declare these names in the scope they stand in. -/
def namesOf (body : List Stmt) : List Token :=
  body.flatMap declaredNames

/-- The parameters and the body of a callable share one scope. -/
def scopeNames (f : FunctionDecl) : List Token :=
  f.params ++ namesOf f.body

def Distinct (names : List Token) : Prop :=
  (names.map Token.lexeme).Nodup

/-- Some part of the program breaks the rule. -/
inductive BreaksRule (program : List Stmt) : Fault → Prop
  | redeclaredInBlock {around : List Enclosure} {body : List Stmt} :
      Stands program around (.block body) → ¬ Distinct (namesOf body) →
        BreaksRule program .redeclared
  | redeclaredInFunction {around : List Enclosure} {f : FunctionDecl} :
      Stands program around (.function f) → ¬ Distinct (scopeNames f) →
        BreaksRule program .redeclared
  | redeclaredInMethod {around : List Enclosure} {name : Token} {superclass : Option Expr}
      {methods : List FunctionDecl} {m : FunctionDecl} :
      Stands program around (.classDecl name superclass methods) → m ∈ methods →
        ¬ Distinct (scopeNames m) → BreaksRule program .redeclared
  /-- A variable without enclosures is global. -/
  | readInOwnInitializer {around : List Enclosure} {name read : Token} {e : Expr} {id : NodeId} :
      Stands program around (.var name (some e)) → around ≠ [] → e.Contains (.var id read) →
        read.lexeme = name.lexeme → BreaksRule program .readInOwnInitializer
  | topLevelReturn {around : List Enclosure} {keyword : Token} {value : Option Expr} :
      Stands program around (.ret keyword value) → nearestCallable around = none →
        BreaksRule program .topLevelReturn
  | initializerReturnsValue {around : List Enclosure} {keyword name : Token} {value : Expr} :
      Stands program around (.ret keyword (some value)) →
        nearestCallable around = some (.method name) → name.lexeme = initializerName →
          BreaksRule program .initializerReturnsValue
  | thisOutsideClass {around : List Enclosure} {id : NodeId} {keyword : Token} :
      StandsExpr program around (.this id keyword) → nearestSuperclass around = none →
        BreaksRule program .thisOutsideClass
  | superOutsideClass {around : List Enclosure} {id : NodeId} {keyword method : Token} :
      StandsExpr program around (.super id keyword method) → nearestSuperclass around = none →
        BreaksRule program .superOutsideClass
  | superWithoutSuperclass {around : List Enclosure} {id : NodeId} {keyword method : Token} :
      StandsExpr program around (.super id keyword method) →
        nearestSuperclass around = some none → BreaksRule program .superWithoutSuperclass
  | inheritsFromItself {around : List Enclosure} {name superName : Token} {id : NodeId}
      {methods : List FunctionDecl} :
      Stands program around (.classDecl name (some (.var id superName)) methods) →
        superName.lexeme = name.lexeme → BreaksRule program .inheritsFromItself

end Resolution

end Lox
