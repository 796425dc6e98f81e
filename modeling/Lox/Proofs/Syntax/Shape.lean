import Mathlib.Data.List.Nodup
import Lox.Scope.Resolution

/-!
# The shape of syntax trees

Two views of a tree: the identities of its nodes, in the order in which they are resolved, and the
tokens that its nodes are made of. A tree is built from tokens with a property if each of its nodes
has tokens of the terminals that it needs, and these have the property. Branches and loop bodies of
such a tree declare nothing in the scope around them.
-/

namespace Lox

open Resolution (declaredNames)

mutual

/-- The identities of the nodes of an expression. -/
@[simp] def Expr.ids : Expr → List NodeId
  | .literal _ => []
  | .group inner => inner.ids
  | .unary _ operand => operand.ids
  | .binary left _ right => left.ids ++ right.ids
  | .logical left _ right => left.ids ++ right.ids
  | .conditional c t e => c.ids ++ t.ids ++ e.ids
  | .var id _ => [id]
  | .assign id _ value => value.ids ++ [id]
  | .call callee _ arguments => callee.ids ++ Expr.listIds arguments
  | .get object _ => object.ids
  | .set object _ value => value.ids ++ object.ids
  | .this id _ => [id]
  | .super id _ _ => [id]

@[simp] def Expr.listIds : List Expr → List NodeId
  | [] => []
  | e :: es => e.ids ++ Expr.listIds es

end

@[simp] def Expr.ids? : Option Expr → List NodeId
  | none => []
  | some e => e.ids

mutual

/-- The identities of the nodes of a statement. -/
@[simp] def Stmt.ids : Stmt → List NodeId
  | .expression e => e.ids
  | .print e => e.ids
  | .var _ initializer => Expr.ids? initializer
  | .block body => Stmt.listIds body
  | .ifThen c t => c.ids ++ t.ids
  | .ifElse c t e => c.ids ++ t.ids ++ e.ids
  | .loop c body => c.ids ++ body.ids
  | .function decl => decl.ids
  | .ret _ value => Expr.ids? value
  | .classDecl _ superclass methods => Expr.ids? superclass ++ FunctionDecl.listIds methods

@[simp] def Stmt.listIds : List Stmt → List NodeId
  | [] => []
  | s :: ss => s.ids ++ Stmt.listIds ss

@[simp] def FunctionDecl.ids : FunctionDecl → List NodeId
  | ⟨_, _, body⟩ => Stmt.listIds body

@[simp] def FunctionDecl.listIds : List FunctionDecl → List NodeId
  | [] => []
  | f :: fs => f.ids ++ FunctionDecl.listIds fs

end

/-- The identities are distinct, and none lies outside the bounds. -/
structure DistinctWithin (first next : Nat) (ids : List Nat) : Prop where
  nodup : ids.Nodup
  bounds : ∀ id ∈ ids, first ≤ id ∧ id < next

namespace DistinctWithin

variable {a b c d : Nat} {xs ys : List Nat}

theorem nil : DistinctWithin a b [] :=
  ⟨List.nodup_nil, by simp⟩

theorem single (h : a ≤ b) (hbc : b < c) : DistinctWithin a c [b] :=
  ⟨List.nodup_singleton b, by simp [h, hbc]⟩

theorem mono (h : DistinctWithin b c xs) (hab : a ≤ b) (hcd : c ≤ d) : DistinctWithin a d xs := by
  refine ⟨h.nodup, fun id hid => ?_⟩
  have hb := h.bounds id hid
  omega

theorem append (hx : DistinctWithin a b xs) (hy : DistinctWithin b c ys) (hab : a ≤ b)
    (hbc : b ≤ c) : DistinctWithin a c (xs ++ ys) := by
  constructor
  · refine List.nodup_append'.mpr ⟨hx.nodup, hy.nodup, ?_⟩
    intro id hid hid'
    have h := hx.bounds id hid
    have h' := hy.bounds id hid'
    omega
  · intro id hid
    rcases List.mem_append.mp hid with hid | hid
    · have h := hx.bounds id hid
      omega
    · have h := hy.bounds id hid
      omega

theorem perm (h : DistinctWithin a b xs) (hp : xs.Perm ys) : DistinctWithin a b ys :=
  ⟨hp.nodup_iff.mp h.nodup, fun id hid => h.bounds id (hp.mem_iff.mpr hid)⟩

end DistinctWithin

variable (Q : Token → Prop)

/-- The token is a name with the property. -/
def Token.IsName (t : Token) : Prop :=
  Q t ∧ t.terminal = .identifier

/-- The token is this symbol and has the property. -/
def Token.IsSymbol (t : Token) (s : Symbol) : Prop :=
  Q t ∧ t.terminal = .symbol s

mutual

/-- The expression is built from tokens with the property. -/
@[simp] def Expr.Built : Expr → Prop
  | .literal _ => True
  | .group inner => inner.Built
  | .unary _ operand => operand.Built
  | .binary left _ right => left.Built ∧ right.Built
  | .logical left _ right => left.Built ∧ right.Built
  | .conditional c t e => c.Built ∧ t.Built ∧ e.Built
  | .var _ name => name.IsName Q
  | .assign _ name value => name.IsName Q ∧ value.Built
  | .call callee _ arguments => callee.Built ∧ Expr.ListBuilt arguments
  | .get object _ => object.Built
  | .set object _ value => object.Built ∧ value.Built
  | .this _ keyword => keyword.IsSymbol Q .thisWord
  | .super _ keyword _ => keyword.IsSymbol Q .superWord

@[simp] def Expr.ListBuilt : List Expr → Prop
  | [] => True
  | e :: es => e.Built ∧ Expr.ListBuilt es

end

@[simp] def Expr.Built? : Option Expr → Prop
  | none => True
  | some e => e.Built Q

/-- The superclass of a class, if it has one, is a variable. -/
@[simp] def Expr.IsSuperclass : Option Expr → Prop
  | none => True
  | some (.var _ name) => name.IsName Q
  | some _ => False

mutual

/-- The statement is built from tokens with the property. -/
@[simp] def Stmt.Built : Stmt → Prop
  | .expression e => e.Built Q
  | .print e => e.Built Q
  | .var name initializer => name.IsName Q ∧ Expr.Built? Q initializer
  | .block body => Stmt.ListBuilt body
  | .ifThen c t => c.Built Q ∧ t.Built ∧ declaredNames t = []
  | .ifElse c t e =>
      c.Built Q ∧ (t.Built ∧ declaredNames t = []) ∧ e.Built ∧ declaredNames e = []
  | .loop c body => c.Built Q ∧ body.Built ∧ declaredNames body = []
  | .function decl => decl.Built
  | .ret _ value => Expr.Built? Q value
  | .classDecl name superclass methods =>
      name.IsName Q ∧ Expr.IsSuperclass Q superclass ∧ FunctionDecl.ListBuilt methods

@[simp] def Stmt.ListBuilt : List Stmt → Prop
  | [] => True
  | s :: ss => s.Built ∧ Stmt.ListBuilt ss

@[simp] def FunctionDecl.Built : FunctionDecl → Prop
  | ⟨name, params, body⟩ =>
      name.IsName Q ∧ (∀ param ∈ params, param.IsName Q) ∧ Stmt.ListBuilt body

@[simp] def FunctionDecl.ListBuilt : List FunctionDecl → Prop
  | [] => True
  | f :: fs => f.Built ∧ FunctionDecl.ListBuilt fs

end

variable {Q}

/-- What a statement declares are names with the property. -/
theorem Stmt.Built.isName {s : Stmt} (hb : s.Built Q) {name : Token}
    (h : name ∈ declaredNames s) : name.IsName Q := by
  cases s with
  | var name' initializer =>
      obtain rfl : name = name' := by simpa using h
      simp only [Stmt.Built] at hb
      exact hb.1
  | function decl =>
      obtain ⟨name', params, body⟩ := decl
      obtain rfl : name = name' := by simpa using h
      simp only [Stmt.Built, FunctionDecl.Built] at hb
      exact hb.1
  | classDecl name' superclass methods =>
      obtain rfl : name = name' := by simpa using h
      simp only [Stmt.Built] at hb
      exact hb.1
  | ifThen c t =>
      simp only [Stmt.Built] at hb
      simp [hb.2.2] at h
  | ifElse c t e =>
      simp only [Stmt.Built] at hb
      simp [hb.2.1.2, hb.2.2.2] at h
  | loop c body =>
      simp only [Stmt.Built] at hb
      simp [hb.2.2] at h
  | _ => simp at h

end Lox
