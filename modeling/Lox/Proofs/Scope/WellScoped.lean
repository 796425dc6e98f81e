import Lox.Scope.Resolution
import Lox.Proofs.Token.Spelling

/-!
# Well-scoped programs

A piece of a program is well scoped at its place if it follows the rules of scopes there and each of
its references is known with the distance at which the scopes hold its name. What is known is a
relation between identities and distances, so that the same notion serves for every table of
distances. The rules concern names only: `this` stands inside a class, `super` inside one with a
superclass and then one scope further out than `this`, and no name is declared twice in a scope.
-/

namespace Lox

open Resolution (declaredNames after methodScopes defineAll)

@[simp] theorem Scope.holds_nil (x : String) : Scope.holds [] x = false := rfl

@[simp] theorem Scope.holds_cons (s : Scope) (y x : String) (complete : Bool) :
    Scope.holds ((y, complete) :: s) x = (x == y || s.holds x) := by
  unfold Scope.holds
  rw [List.lookup_cons]
  cases x == y <;> simp

namespace Scopes

variable {scopes : Scopes} {s : Scope} {x y : String}

@[simp] theorem distance?_nil (x : String) : distance? [] x = none := rfl

theorem distance?_cons (s : Scope) (scopes : Scopes) (x : String) :
    distance? (s :: scopes) x =
      if s.holds x = true then some 0 else (distance? scopes x).map (· + 1) := by
  unfold distance?
  rw [List.findIdx?_cons]

theorem holds_declared (s : Scope) (y x : String) :
    Scope.holds (if s.holds y then s else (y, false) :: s) x = (x == y || s.holds x) := by
  by_cases h : s.holds y = true
  · by_cases hx : x = y
    · simp [h, hx]
    · simp [h, hx]
  · simp [h]

theorem distance?_declare_of_ne (h : x ≠ y) :
    (scopes.declare y).distance? x = scopes.distance? x := by
  cases scopes with
  | nil => rfl
  | cons s scopes => simp [declare, distance?_cons, holds_declared, h]

theorem distance?_declare_self : (declare (s :: scopes) y).distance? y = some 0 := by
  simp [declare, distance?_cons, holds_declared]

theorem distance?_define_of_ne (h : x ≠ y) :
    (scopes.define y).distance? x = scopes.distance? x := by
  cases scopes with
  | nil => rfl
  | cons s scopes => simp [define, distance?_cons, h]

/-- A name is pending from its declaration on. -/
theorem isPending_declare_of_not_redeclares (h : redeclares (s :: scopes) y = false) :
    isPending (declare (s :: scopes) y) y = true := by
  have h' : s.holds y = false := h
  simp [declare, isPending, h']

theorem isPending_declare_of_ne (h : x ≠ y) :
    isPending (scopes.declare y) x = scopes.isPending x := by
  cases scopes with
  | nil => rfl
  | cons s scopes =>
      have h' : (x == y) = false := by simpa using h
      by_cases hy : s.holds y = true
      · simp [declare, isPending, hy]
      · simp [declare, isPending, hy, List.lookup_cons, h']

theorem isPending_define_of_ne (h : x ≠ y) :
    isPending (scopes.define y) x = scopes.isPending x := by
  cases scopes with
  | nil => rfl
  | cons s scopes =>
      have h' : (x == y) = false := by simpa using h
      simp [define, isPending, List.lookup_cons, h']

end Scopes

namespace Resolution

theorem after_nil (s : Stmt) : after [] s = [] := by
  unfold after
  induction declaredNames s with
  | nil => rfl
  | cons name names ih => exact ih

theorem after_eq_self {scopes : Scopes} {s : Stmt} (h : declaredNames s = []) :
    after scopes s = scopes := by
  rw [after, h]
  rfl

theorem after_eq_define {scopes : Scopes} {s : Stmt} (name : Token) (h : declaredNames s = [name]) :
    after scopes s = scopes.define name.lexeme := by
  rw [after, h]
  rfl

end Resolution

/-! ## Well-scoped syntax -/

variable (known : NodeId → Option Nat → Prop)

mutual

/-- The expression is well scoped. -/
def Expr.WellScoped (scopes : Scopes) : Expr → Prop
  | .literal _ => True
  | .group inner => inner.WellScoped scopes
  | .unary _ operand => operand.WellScoped scopes
  | .binary left _ right => left.WellScoped scopes ∧ right.WellScoped scopes
  | .logical left _ right => left.WellScoped scopes ∧ right.WellScoped scopes
  | .conditional c t e => c.WellScoped scopes ∧ t.WellScoped scopes ∧ e.WellScoped scopes
  | .var id name =>
      ¬ Implicit name.lexeme ∧ scopes.isPending name.lexeme = false
        ∧ known id (scopes.distance? name.lexeme)
  | .assign id name value =>
      value.WellScoped scopes ∧ ¬ Implicit name.lexeme ∧ known id (scopes.distance? name.lexeme)
  | .call callee _ arguments => callee.WellScoped scopes ∧ Expr.ListWellScoped scopes arguments
  | .get object _ => object.WellScoped scopes
  | .set object _ value => object.WellScoped scopes ∧ value.WellScoped scopes
  | .this id keyword =>
      keyword.lexeme = "this" ∧ ∃ d, scopes.distance? "this" = some d ∧ known id (some d)
  | .super id keyword _ =>
      keyword.lexeme = "super" ∧ ∃ d, scopes.distance? "this" = some d
        ∧ scopes.distance? "super" = some (d + 1) ∧ known id (some (d + 1))

def Expr.ListWellScoped (scopes : Scopes) : List Expr → Prop
  | [] => True
  | e :: es => e.WellScoped scopes ∧ Expr.ListWellScoped scopes es

end

def Expr.WellScoped? (scopes : Scopes) : Option Expr → Prop
  | none => True
  | some e => e.WellScoped known scopes

/-- The superclass of the named class, if there is one, is another variable, which is evaluated
before the class is declared. -/
def Expr.SuperclassScoped (scopes : Scopes) (name : Token) : Option Expr → Prop
  | none => True
  | some (.var id superName) =>
      superName.lexeme ≠ name.lexeme ∧ (Expr.var id superName).WellScoped known scopes
  | some _ => False

/-- The name may be declared in the innermost scope. -/
structure Scopes.Admits (scopes : Scopes) (name : Token) : Prop where
  not_implicit : ¬ Implicit name.lexeme
  not_redeclares : scopes.redeclares name.lexeme = false

/-- The names may be declared in the innermost scope in order. -/
def Scopes.AdmitsAll (scopes : Scopes) : List Token → Prop
  | [] => True
  | name :: names => scopes.Admits name ∧ (scopes.define name.lexeme).AdmitsAll names

mutual

/-- The statement is well scoped. -/
def Stmt.WellScoped (scopes : Scopes) : Stmt → Prop
  | .expression e => e.WellScoped known scopes
  | .print e => e.WellScoped known scopes
  | .var name initializer =>
      scopes.Admits name ∧ Expr.WellScoped? known (scopes.declare name.lexeme) initializer
  | .block body => Stmt.ListWellScoped ([] :: scopes) body
  | .ifThen c t => c.WellScoped known scopes ∧ t.WellScoped scopes ∧ declaredNames t = []
  | .ifElse c t e =>
      c.WellScoped known scopes ∧ (t.WellScoped scopes ∧ declaredNames t = [])
        ∧ e.WellScoped scopes ∧ declaredNames e = []
  | .loop c body => c.WellScoped known scopes ∧ body.WellScoped scopes ∧ declaredNames body = []
  | .function decl => scopes.Admits decl.name ∧ decl.WellScoped (scopes.define decl.name.lexeme)
  | .ret _ value => Expr.WellScoped? known scopes value
  | .classDecl name superclass methods =>
      scopes.Admits name ∧ Expr.SuperclassScoped known scopes name superclass
        ∧ FunctionDecl.ListWellScoped (methodScopes (scopes.define name.lexeme) superclass) methods

def Stmt.ListWellScoped (scopes : Scopes) : List Stmt → Prop
  | [] => True
  | s :: ss => s.WellScoped scopes ∧ Stmt.ListWellScoped (after scopes s) ss

/-- The callable is well scoped, its parameters and body in a scope of their own. -/
def FunctionDecl.WellScoped (scopes : Scopes) : FunctionDecl → Prop
  | ⟨_, params, body⟩ =>
      Scopes.AdmitsAll ([] :: scopes) params
        ∧ Stmt.ListWellScoped (defineAll ([] :: scopes) params) body

def FunctionDecl.ListWellScoped (scopes : Scopes) : List FunctionDecl → Prop
  | [] => True
  | f :: fs => f.WellScoped scopes ∧ FunctionDecl.ListWellScoped scopes fs

end

theorem FunctionDecl.ListWellScoped.forall {known : NodeId → Option Nat → Prop} {scopes : Scopes}
    {fs : List FunctionDecl} (h : FunctionDecl.ListWellScoped known scopes fs) :
    ∀ f ∈ fs, f.WellScoped known scopes := by
  induction fs with
  | nil => nofun
  | cons f fs ih =>
      simp only [FunctionDecl.ListWellScoped] at h
      exact List.forall_mem_cons.mpr ⟨h.1, ih h.2⟩

/-! ## Declared names -/

/-- The name that a statement itself declares. -/
def Stmt.declaredName? : Stmt → Option Token
  | .var name _ => some name
  | .function decl => some decl.name
  | .classDecl name _ _ => some name
  | _ => none

/-- Branches and loop bodies declare nothing, so that a statement declares one name at most. -/
theorem Stmt.WellScoped.declaredNames_eq {known : NodeId → Option Nat → Prop} {scopes : Scopes}
    {s : Stmt} (h : s.WellScoped known scopes) :
    Resolution.declaredNames s = s.declaredName?.toList := by
  cases s with
  | ifThen c t =>
      simp only [Stmt.WellScoped] at h
      simp [Stmt.declaredName?, h.2.2]
  | ifElse c t e =>
      simp only [Stmt.WellScoped] at h
      simp [Stmt.declaredName?, h.2.1.2, h.2.2.2]
  | loop c body =>
      simp only [Stmt.WellScoped] at h
      simp [Stmt.declaredName?, h.2.2]
  | _ => simp [Stmt.declaredName?]

/-- A statement declares only a name that its scope admits. -/
theorem Stmt.WellScoped.admits {known : NodeId → Option Nat → Prop} {scopes : Scopes} {s : Stmt}
    (h : s.WellScoped known scopes) {name : Token} (hname : s.declaredName? = some name) :
    scopes.Admits name := by
  cases s with
  | var name' initializer =>
      cases hname
      simp only [Stmt.WellScoped] at h
      exact h.1
  | function decl =>
      cases hname
      simp only [Stmt.WellScoped] at h
      exact h.1
  | classDecl name' superclass methods =>
      cases hname
      simp only [Stmt.WellScoped] at h
      exact h.1
  | _ => cases hname

section Imp

variable {known} {known' : NodeId → Option Nat → Prop}

mutual

theorem Expr.WellScoped.imp {scopes : Scopes}
    (hk : ∀ id r, known id r → known' id r) :
    ∀ {e : Expr}, e.WellScoped known scopes → e.WellScoped known' scopes
  | .literal _, _ => by simp [Expr.WellScoped]
  | .group _, h => by
      simp only [Expr.WellScoped] at *
      exact h.imp hk
  | .unary _ _, h => by
      simp only [Expr.WellScoped] at *
      exact h.imp hk
  | .binary _ _ _, h => by
      simp only [Expr.WellScoped] at *
      exact ⟨h.1.imp hk, h.2.imp hk⟩
  | .logical _ _ _, h => by
      simp only [Expr.WellScoped] at *
      exact ⟨h.1.imp hk, h.2.imp hk⟩
  | .conditional _ _ _, h => by
      simp only [Expr.WellScoped] at *
      exact ⟨h.1.imp hk, h.2.1.imp hk, h.2.2.imp hk⟩
  | .var _ _, h => by
      simp only [Expr.WellScoped] at *
      exact ⟨h.1, h.2.1, hk _ _ h.2.2⟩
  | .assign _ _ _, h => by
      simp only [Expr.WellScoped] at *
      exact ⟨h.1.imp hk, h.2.1, hk _ _ h.2.2⟩
  | .call _ _ _, h => by
      simp only [Expr.WellScoped] at *
      exact ⟨h.1.imp hk, Expr.ListWellScoped.imp hk h.2⟩
  | .get _ _, h => by
      simp only [Expr.WellScoped] at *
      exact h.imp hk
  | .set _ _ _, h => by
      simp only [Expr.WellScoped] at *
      exact ⟨h.1.imp hk, h.2.imp hk⟩
  | .this _ _, h => by
      simp only [Expr.WellScoped] at *
      obtain ⟨hkeyword, d, hd, hid⟩ := h
      exact ⟨hkeyword, d, hd, hk _ _ hid⟩
  | .super _ _ _, h => by
      simp only [Expr.WellScoped] at *
      obtain ⟨hkeyword, d, hd, hd', hid⟩ := h
      exact ⟨hkeyword, d, hd, hd', hk _ _ hid⟩

theorem Expr.ListWellScoped.imp {scopes : Scopes}
    (hk : ∀ id r, known id r → known' id r) :
    ∀ {es : List Expr}, Expr.ListWellScoped known scopes es → Expr.ListWellScoped known' scopes es
  | [], _ => by simp [Expr.ListWellScoped]
  | _ :: _, h => by
      simp only [Expr.ListWellScoped] at *
      exact ⟨h.1.imp hk, Expr.ListWellScoped.imp hk h.2⟩

end

theorem Expr.WellScoped?.imp {scopes : Scopes} {e : Option Expr}
    (hk : ∀ id r, known id r → known' id r)
    (h : Expr.WellScoped? known scopes e) : Expr.WellScoped? known' scopes e := by
  cases e with
  | none => trivial
  | some e => exact Expr.WellScoped.imp hk h

theorem Expr.SuperclassScoped.imp {scopes : Scopes} {name : Token} {superclass : Option Expr}
    (hk : ∀ id r, known id r → known' id r)
    (h : Expr.SuperclassScoped known scopes name superclass) :
    Expr.SuperclassScoped known' scopes name superclass := by
  cases superclass with
  | none => trivial
  | some e =>
      cases e with
      | var id superName => exact ⟨h.1, h.2.imp hk⟩
      | _ => exact h.elim

mutual

theorem Stmt.WellScoped.imp {scopes : Scopes}
    (hk : ∀ id r, known id r → known' id r) :
    ∀ {s : Stmt}, s.WellScoped known scopes → s.WellScoped known' scopes
  | .expression _, h => by
      simp only [Stmt.WellScoped] at *
      exact h.imp hk
  | .print _, h => by
      simp only [Stmt.WellScoped] at *
      exact h.imp hk
  | .var _ _, h => by
      simp only [Stmt.WellScoped] at *
      exact ⟨h.1, h.2.imp hk⟩
  | .block _, h => by
      simp only [Stmt.WellScoped] at *
      exact Stmt.ListWellScoped.imp hk h
  | .ifThen _ _, h => by
      simp only [Stmt.WellScoped] at *
      exact ⟨h.1.imp hk, h.2.1.imp hk, h.2.2⟩
  | .ifElse _ _ _, h => by
      simp only [Stmt.WellScoped] at *
      exact ⟨h.1.imp hk, ⟨h.2.1.1.imp hk, h.2.1.2⟩, h.2.2.1.imp hk, h.2.2.2⟩
  | .loop _ _, h => by
      simp only [Stmt.WellScoped] at *
      exact ⟨h.1.imp hk, h.2.1.imp hk, h.2.2⟩
  | .function _, h => by
      simp only [Stmt.WellScoped] at *
      exact ⟨h.1, h.2.imp hk⟩
  | .ret _ _, h => by
      simp only [Stmt.WellScoped] at *
      exact h.imp hk
  | .classDecl _ _ _, h => by
      simp only [Stmt.WellScoped] at *
      exact ⟨h.1, h.2.1.imp hk, FunctionDecl.ListWellScoped.imp hk h.2.2⟩

theorem Stmt.ListWellScoped.imp {scopes : Scopes}
    (hk : ∀ id r, known id r → known' id r) :
    ∀ {ss : List Stmt}, Stmt.ListWellScoped known scopes ss → Stmt.ListWellScoped known' scopes ss
  | [], _ => by simp [Stmt.ListWellScoped]
  | _ :: _, h => by
      simp only [Stmt.ListWellScoped] at *
      exact ⟨h.1.imp hk, Stmt.ListWellScoped.imp hk h.2⟩

theorem FunctionDecl.WellScoped.imp {scopes : Scopes}
    (hk : ∀ id r, known id r → known' id r) :
    ∀ {f : FunctionDecl}, f.WellScoped known scopes → f.WellScoped known' scopes
  | ⟨_, _, _⟩, h => by
      simp only [FunctionDecl.WellScoped] at *
      exact ⟨h.1, Stmt.ListWellScoped.imp hk h.2⟩

theorem FunctionDecl.ListWellScoped.imp {scopes : Scopes}
    (hk : ∀ id r, known id r → known' id r) :
    ∀ {fs : List FunctionDecl}, FunctionDecl.ListWellScoped known scopes fs →
      FunctionDecl.ListWellScoped known' scopes fs
  | [], _ => by simp [FunctionDecl.ListWellScoped]
  | _ :: _, h => by
      simp only [FunctionDecl.ListWellScoped] at *
      exact ⟨h.1.imp hk, FunctionDecl.ListWellScoped.imp hk h.2⟩

end

end Imp

end Lox
