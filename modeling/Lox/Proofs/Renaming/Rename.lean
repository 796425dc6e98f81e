import Lox.Proofs.Syntax.Shape
import Lox.Proofs.Token.Spelling

/-!
# Renaming a variable

A local variable or a parameter gets a new name, together with exactly those variables and
assignments that are resolved to it. A scope is known by its path: the places, from the inside, of
the statements and methods that lead to it. A node refers to the renamed variable if it has the old
name and the distance that is recorded for it leads to the scope.
-/

namespace Lox

/-- A new name for a variable of one scope, in a program with these distances. Neither name is that
of an implicit variable. -/
structure Renaming where
  scope : List Nat
  old : String
  new : String
  distance : NodeId → Option Nat
  old_explicit : ¬ Implicit old
  new_explicit : ¬ Implicit new

/-- The statement declares a function or a class of this name. -/
def Stmt.declaresCallable (x : String) : Stmt → Bool
  | .function decl => decl.name.lexeme == x
  | .classDecl name _ _ => name.lexeme == x
  | _ => false

namespace Renaming

variable (ρ : Renaming)

/-- The name that a name has in a scope, which is marked if its variable is renamed. -/
def name (marked : Bool) (x : String) : String :=
  if marked && x == ρ.old then ρ.new else x

/-- The token of a name in a scope. -/
def token (marked : Bool) (t : Token) : Token :=
  { t with lexeme := ρ.name marked t.lexeme }

/-- The scope of this path and body is the one whose variable is renamed. A function or a class of
the name is no variable. -/
def marks (path : List Nat) (body : List Stmt) : Bool :=
  path == ρ.scope && !body.any (·.declaresCallable ρ.old)

/-- A distance leads to the marked one of the scopes around a place. -/
def leads (marked : List Bool) : Option Nat → Bool
  | some d => marked.getD d false
  | none => false

/-- The node refers to the marked one of the scopes around it. -/
def refers (marked : List Bool) (id : NodeId) : Bool :=
  leads marked (ρ.distance id)

/-- The scopes inside a class. -/
def inClass (marked : List Bool) (superclass : Option Expr) : List Bool :=
  match superclass with
  | none => false :: marked
  | some _ => false :: false :: marked

end Renaming

mutual

def Expr.rename (ρ : Renaming) (marked : List Bool) : Expr → Expr
  | .literal value => .literal value
  | .group inner => .group (inner.rename ρ marked)
  | .unary operator operand => .unary operator (operand.rename ρ marked)
  | .binary left operator right => .binary (left.rename ρ marked) operator (right.rename ρ marked)
  | .logical left operator right => .logical (left.rename ρ marked) operator (right.rename ρ marked)
  | .conditional c t e =>
      .conditional (c.rename ρ marked) (t.rename ρ marked) (e.rename ρ marked)
  | .var id name => .var id (ρ.token (ρ.refers marked id) name)
  | .assign id name value =>
      .assign id (ρ.token (ρ.refers marked id) name) (value.rename ρ marked)
  | .call callee paren arguments =>
      .call (callee.rename ρ marked) paren (Expr.listRename ρ marked arguments)
  | .get object name => .get (object.rename ρ marked) name
  | .set object name value => .set (object.rename ρ marked) name (value.rename ρ marked)
  | .this id keyword => .this id keyword
  | .super id keyword method => .super id keyword method

def Expr.listRename (ρ : Renaming) (marked : List Bool) : List Expr → List Expr
  | [] => []
  | e :: es => e.rename ρ marked :: Expr.listRename ρ marked es

end

mutual

/-- The statement at this path after a renaming. -/
def Stmt.rename (ρ : Renaming) (marked : List Bool) (path : List Nat) : Stmt → Stmt
  | .expression e => .expression (e.rename ρ marked)
  | .print e => .print (e.rename ρ marked)
  | .var name initializer =>
      .var (ρ.token (marked.headD false) name) (initializer.map (·.rename ρ marked))
  | .block body =>
      .block (Stmt.listRename ρ (ρ.marks path body :: marked) path 0 body)
  | .ifThen c t => .ifThen (c.rename ρ marked) (t.rename ρ marked (0 :: path))
  | .ifElse c t e =>
      .ifElse (c.rename ρ marked) (t.rename ρ marked (0 :: path)) (e.rename ρ marked (1 :: path))
  | .loop c body => .loop (c.rename ρ marked) (body.rename ρ marked (0 :: path))
  | .function decl => .function (decl.rename ρ marked path)
  | .ret keyword value => .ret keyword (value.map (·.rename ρ marked))
  | .classDecl name superclass methods =>
      .classDecl name (superclass.map (·.rename ρ marked))
        (FunctionDecl.listRename ρ (Renaming.inClass marked superclass) path 0 methods)

/-- The statements after a renaming, the first one at this place below the path. -/
def Stmt.listRename (ρ : Renaming) (marked : List Bool) (path : List Nat) (place : Nat) :
    List Stmt → List Stmt
  | [] => []
  | s :: ss => s.rename ρ marked (place :: path) :: Stmt.listRename ρ marked path (place + 1) ss

/-- The callable at this path after a renaming. -/
def FunctionDecl.rename (ρ : Renaming) (marked : List Bool) (path : List Nat) :
    FunctionDecl → FunctionDecl
  | ⟨name, params, body⟩ =>
      ⟨name, params.map (ρ.token (ρ.marks path body)),
        Stmt.listRename ρ (ρ.marks path body :: marked) path 0 body⟩

/-- The callables after a renaming, the first one at this place below the path. -/
def FunctionDecl.listRename (ρ : Renaming) (marked : List Bool) (path : List Nat) (place : Nat) :
    List FunctionDecl → List FunctionDecl
  | [] => []
  | f :: fs =>
      f.rename ρ marked (place :: path) :: FunctionDecl.listRename ρ marked path (place + 1) fs

end

namespace Renaming

variable {ρ : Renaming} {m : Bool} {x y : String}

@[simp] theorem name_false (ρ : Renaming) (x : String) : ρ.name false x = x := rfl

@[simp] theorem lexeme_token (m : Bool) (t : Token) :
    (ρ.token m t).lexeme = ρ.name m t.lexeme := rfl

theorem name_of_ne (h : x ≠ ρ.old) : ρ.name m x = x := by
  simp [name, h]

@[simp] theorem name_true_old (ρ : Renaming) : ρ.name true ρ.old = ρ.new := by
  simp [name]

/-- Names other than the new one stay distinct. -/
theorem name_inj (hx : x ≠ ρ.new) (hy : y ≠ ρ.new) (h : ρ.name m x = ρ.name m y) : x = y := by
  unfold name at h
  split at h
  · rename_i hxo
    split at h
    · rename_i hyo
      simp only [Bool.and_eq_true, beq_iff_eq] at hxo hyo
      exact hxo.2.trans hyo.2.symm
    · exact absurd h.symm hy
  · split at h
    · exact absurd h hx
    · exact h

theorem token_of_ne {t : Token} (h : t.lexeme ≠ ρ.old) : ρ.token m t = t := by
  simp [token, name_of_ne h]

theorem name_ne (hxy : x ≠ y) (hy : y ≠ ρ.new) : ρ.name m x ≠ y := by
  unfold name
  split
  · exact hy.symm
  · exact hxy

theorem old_ne_of_implicit (hx : Implicit x) : x ≠ ρ.old := by
  rintro rfl
  exact ρ.old_explicit hx

theorem new_ne_of_implicit (hx : Implicit x) : x ≠ ρ.new := by
  rintro rfl
  exact ρ.new_explicit hx

/-- The token is spelled as its terminal is, and it is not a use of the new name. -/
structure Fresh (ρ : Renaming) (t : Token) : Prop where
  ne : t.lexeme ≠ ρ.new
  spelled : t.Spelled

end Renaming

variable {ρ : Renaming} {marked : List Bool}

@[simp] theorem FunctionDecl.name_rename (f : FunctionDecl) (path : List Nat) :
    (f.rename ρ marked path).name = f.name := by
  cases f
  simp only [FunctionDecl.rename]

/-- In a marked scope, the statement declares no function or class of the old name. -/
def Stmt.KeepsCallables (ρ : Renaming) (marked : List Bool) (s : Stmt) : Prop :=
  marked.headD false = true → s.declaresCallable ρ.old = false

theorem Stmt.keepsCallables_of_mem {s : Stmt} {body : List Stmt} (hs : s ∈ body)
    (path : List Nat) (marked : List Bool) : s.KeepsCallables ρ (ρ.marks path body :: marked) := by
  intro h
  simp only [List.headD_cons, Renaming.marks, Bool.and_eq_true, Bool.not_eq_true',
    List.any_eq_false] at h
  simpa using h.2 s hs

theorem Stmt.keepsCallables_of_declaredNames {s : Stmt} (h : Resolution.declaredNames s = []) :
    s.KeepsCallables ρ marked := by
  intro _
  cases s with
  | function decl => simp [Resolution.declaredNames] at h
  | classDecl name superclass methods => simp [Resolution.declaredNames] at h
  | _ => rfl

theorem Stmt.keepsCallables_nil (s : Stmt) : s.KeepsCallables ρ [] :=
  nofun

namespace Renaming

theorem token_headD {name : Token}
    (h : marked.headD false = true → (name.lexeme == ρ.old) = false) :
    ρ.token (marked.headD false) name = name := by
  cases hm : marked.headD false with
  | false => rfl
  | true => exact token_of_ne (by simpa using h hm)

theorem token_function {decl : FunctionDecl} (h : (Stmt.function decl).KeepsCallables ρ marked) :
    ρ.token (marked.headD false) decl.name = decl.name :=
  token_headD h

theorem token_classDecl {name : Token} {superclass : Option Expr} {methods : List FunctionDecl}
    (h : (Stmt.classDecl name superclass methods).KeepsCallables ρ marked) :
    ρ.token (marked.headD false) name = name :=
  token_headD h

end Renaming

end Lox
