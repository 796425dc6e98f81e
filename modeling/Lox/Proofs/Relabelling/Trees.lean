import Lox.Proofs.Syntax.Shape

/-!
# Relabelling trees

The nodes of a tree get new identities and its tokens new lines, and nothing else changes.
-/

namespace Lox

/-- New identities for nodes and new lines for tokens. -/
structure Relabelling where
  id : NodeId → NodeId
  line : Nat → Nat

namespace Relabelling

/-- All nodes get the same identity, and tokens keep their lines. -/
def anonymous : Relabelling where
  id _ := 0
  line n := n

/-- Everything stays as it is. -/
def refl : Relabelling where
  id n := n
  line n := n

/-- The token on its new line. -/
def token (φ : Relabelling) (t : Token) : Token :=
  { t with line := φ.line t.line }

variable {φ : Relabelling}

@[simp] theorem token_kind (t : Token) : (φ.token t).kind = t.kind := rfl

@[simp] theorem token_lexeme (t : Token) : (φ.token t).lexeme = t.lexeme := rfl

@[simp] theorem token_terminal (t : Token) : (φ.token t).terminal = t.terminal := rfl

@[simp] theorem refl_id (id : NodeId) : refl.id id = id := rfl

@[simp] theorem refl_token (t : Token) : refl.token t = t := rfl

theorem token_congr {ψ : Relabelling} (h : φ.line = ψ.line) : φ.token = ψ.token := by
  funext t
  rw [token, token, h]

end Relabelling

variable (φ : Relabelling)

mutual

/-- The expression after a relabelling. -/
@[simp] def Expr.relabel : Expr → Expr
  | .literal value => .literal value
  | .group inner => .group inner.relabel
  | .unary operator operand => .unary (φ.token operator) operand.relabel
  | .binary left operator right => .binary left.relabel (φ.token operator) right.relabel
  | .logical left operator right => .logical left.relabel (φ.token operator) right.relabel
  | .conditional c t e => .conditional c.relabel t.relabel e.relabel
  | .var id name => .var (φ.id id) (φ.token name)
  | .assign id name value => .assign (φ.id id) (φ.token name) value.relabel
  | .call callee paren arguments =>
      .call callee.relabel (φ.token paren) (Expr.listRelabel arguments)
  | .get object name => .get object.relabel (φ.token name)
  | .set object name value => .set object.relabel (φ.token name) value.relabel
  | .this id keyword => .this (φ.id id) (φ.token keyword)
  | .super id keyword method => .super (φ.id id) (φ.token keyword) (φ.token method)

@[simp] def Expr.listRelabel : List Expr → List Expr
  | [] => []
  | e :: es => e.relabel :: Expr.listRelabel es

end

mutual

@[simp] def Stmt.relabel : Stmt → Stmt
  | .expression e => .expression (e.relabel φ)
  | .print e => .print (e.relabel φ)
  | .var name initializer => .var (φ.token name) (initializer.map (Expr.relabel φ))
  | .block body => .block (Stmt.listRelabel body)
  | .ifThen c t => .ifThen (c.relabel φ) t.relabel
  | .ifElse c t e => .ifElse (c.relabel φ) t.relabel e.relabel
  | .loop c body => .loop (c.relabel φ) body.relabel
  | .function decl => .function decl.relabel
  | .ret keyword value => .ret (φ.token keyword) (value.map (Expr.relabel φ))
  | .classDecl name superclass methods =>
      .classDecl (φ.token name) (superclass.map (Expr.relabel φ)) (FunctionDecl.listRelabel methods)

@[simp] def Stmt.listRelabel : List Stmt → List Stmt
  | [] => []
  | s :: ss => s.relabel :: Stmt.listRelabel ss

@[simp] def FunctionDecl.relabel : FunctionDecl → FunctionDecl
  | ⟨name, params, body⟩ => ⟨φ.token name, params.map φ.token, Stmt.listRelabel body⟩

@[simp] def FunctionDecl.listRelabel : List FunctionDecl → List FunctionDecl
  | [] => []
  | f :: fs => f.relabel :: FunctionDecl.listRelabel fs

end

theorem Expr.listRelabel_eq_map (es : List Expr) :
    Expr.listRelabel φ es = es.map (Expr.relabel φ) := by
  induction es with
  | nil => rfl
  | cons e es ih => simp [ih]

theorem Stmt.listRelabel_eq_map (ss : List Stmt) :
    Stmt.listRelabel φ ss = ss.map (Stmt.relabel φ) := by
  induction ss with
  | nil => rfl
  | cons s ss ih => simp [ih]

theorem FunctionDecl.listRelabel_eq_map (fs : List FunctionDecl) :
    FunctionDecl.listRelabel φ fs = fs.map (FunctionDecl.relabel φ) := by
  induction fs with
  | nil => rfl
  | cons f fs ih => simp [ih]

@[simp] theorem FunctionDecl.relabel_name (f : FunctionDecl) :
    (f.relabel φ).name = φ.token f.name := by
  cases f
  rfl

@[simp] theorem FunctionDecl.relabel_params (f : FunctionDecl) :
    (f.relabel φ).params = f.params.map φ.token := by
  cases f
  rfl

@[simp] theorem FunctionDecl.relabel_body (f : FunctionDecl) :
    (f.relabel φ).body = Stmt.listRelabel φ f.body := by
  cases f
  rfl

@[simp] theorem FunctionDecl.relabel_arity (f : FunctionDecl) :
    (f.relabel φ).arity = f.arity := by
  simp [FunctionDecl.arity]

@[simp] theorem FunctionDecl.relabel_isInitializer (f : FunctionDecl) :
    (f.relabel φ).isInitializer = f.isInitializer := by
  simp [FunctionDecl.isInitializer]

mutual

@[simp] theorem Expr.relabel_refl : ∀ e : Expr, e.relabel .refl = e
  | .literal _ => rfl
  | .group inner => by simp [Expr.relabel_refl inner]
  | .unary _ operand => by simp [Expr.relabel_refl operand]
  | .binary left _ right => by simp [Expr.relabel_refl left, Expr.relabel_refl right]
  | .logical left _ right => by simp [Expr.relabel_refl left, Expr.relabel_refl right]
  | .conditional c t e => by
      simp [Expr.relabel_refl c, Expr.relabel_refl t, Expr.relabel_refl e]
  | .var _ _ => rfl
  | .assign _ _ value => by simp [Expr.relabel_refl value]
  | .call callee _ arguments => by
      simp [Expr.relabel_refl callee, Expr.listRelabel_refl arguments]
  | .get object _ => by simp [Expr.relabel_refl object]
  | .set object _ value => by simp [Expr.relabel_refl object, Expr.relabel_refl value]
  | .this _ _ => rfl
  | .super _ _ _ => rfl

@[simp] theorem Expr.listRelabel_refl : ∀ es : List Expr, Expr.listRelabel .refl es = es
  | [] => rfl
  | e :: es => by simp [Expr.relabel_refl e, Expr.listRelabel_refl es]

end

@[simp] theorem Expr.map_relabel_refl (e : Option Expr) : e.map (Expr.relabel .refl) = e := by
  cases e with
  | none => rfl
  | some e => exact congrArg some (Expr.relabel_refl e)

@[simp] theorem Relabelling.map_token_refl (ts : List Token) : ts.map Relabelling.refl.token = ts :=
  List.map_id' ts

mutual

@[simp] theorem Stmt.relabel_refl : ∀ s : Stmt, s.relabel .refl = s
  | .expression e => by simp
  | .print e => by simp
  | .var _ initializer => by simp
  | .block body => by simp [Stmt.listRelabel_refl body]
  | .ifThen _ t => by simp [Stmt.relabel_refl t]
  | .ifElse _ t e => by simp [Stmt.relabel_refl t, Stmt.relabel_refl e]
  | .loop _ body => by simp [Stmt.relabel_refl body]
  | .function decl => by simp [FunctionDecl.relabel_refl decl]
  | .ret _ value => by simp
  | .classDecl _ superclass methods => by simp [FunctionDecl.listRelabel_refl methods]

@[simp] theorem Stmt.listRelabel_refl : ∀ ss : List Stmt, Stmt.listRelabel .refl ss = ss
  | [] => rfl
  | s :: ss => by simp [Stmt.relabel_refl s, Stmt.listRelabel_refl ss]

@[simp] theorem FunctionDecl.relabel_refl : ∀ f : FunctionDecl, f.relabel .refl = f
  | ⟨_, params, body⟩ => by simp [Stmt.listRelabel_refl body]

@[simp] theorem FunctionDecl.listRelabel_refl :
    ∀ fs : List FunctionDecl, FunctionDecl.listRelabel .refl fs = fs
  | [] => rfl
  | f :: fs => by simp [FunctionDecl.relabel_refl f, FunctionDecl.listRelabel_refl fs]

end

section Congruence

variable {φ} {ψ : Relabelling}

mutual

theorem Expr.relabel_congr (hline : φ.line = ψ.line) : ∀ {e : Expr},
    (∀ id ∈ e.ids, φ.id id = ψ.id id) → e.relabel φ = e.relabel ψ
  | .literal _, _ => rfl
  | .group inner, h => by
      simp only [Expr.ids] at h
      simp [Expr.relabel_congr hline h]
  | .unary _ operand, h => by
      simp only [Expr.ids] at h
      simp [Relabelling.token_congr hline, Expr.relabel_congr hline h]
  | .binary left _ right, h => by
      simp only [Expr.ids, List.forall_mem_append] at h
      simp [Relabelling.token_congr hline, Expr.relabel_congr hline h.1,
        Expr.relabel_congr hline h.2]
  | .logical left _ right, h => by
      simp only [Expr.ids, List.forall_mem_append] at h
      simp [Relabelling.token_congr hline, Expr.relabel_congr hline h.1,
        Expr.relabel_congr hline h.2]
  | .conditional c t e, h => by
      simp only [Expr.ids, List.forall_mem_append] at h
      simp [Expr.relabel_congr hline h.1.1, Expr.relabel_congr hline h.1.2,
        Expr.relabel_congr hline h.2]
  | .var id _, h => by simp [Relabelling.token_congr hline, h id (by simp)]
  | .assign id _ value, h => by
      simp only [Expr.ids, List.forall_mem_append, List.forall_mem_singleton] at h
      simp [Relabelling.token_congr hline, h.2, Expr.relabel_congr hline h.1]
  | .call callee _ arguments, h => by
      simp only [Expr.ids, List.forall_mem_append] at h
      simp [Relabelling.token_congr hline, Expr.relabel_congr hline h.1,
        Expr.listRelabel_congr hline h.2]
  | .get object _, h => by
      simp only [Expr.ids] at h
      simp [Relabelling.token_congr hline, Expr.relabel_congr hline h]
  | .set object _ value, h => by
      simp only [Expr.ids, List.forall_mem_append] at h
      simp [Relabelling.token_congr hline, Expr.relabel_congr hline h.1,
        Expr.relabel_congr hline h.2]
  | .this id _, h => by simp [Relabelling.token_congr hline, h id (by simp)]
  | .super id _ _, h => by simp [Relabelling.token_congr hline, h id (by simp)]

theorem Expr.listRelabel_congr (hline : φ.line = ψ.line) : ∀ {es : List Expr},
    (∀ id ∈ Expr.listIds es, φ.id id = ψ.id id) → Expr.listRelabel φ es = Expr.listRelabel ψ es
  | [], _ => rfl
  | e :: es, h => by
      simp only [Expr.listIds, List.forall_mem_append] at h
      simp [Expr.relabel_congr hline h.1, Expr.listRelabel_congr hline h.2]

end

theorem Expr.map_relabel_congr (hline : φ.line = ψ.line) {e : Option Expr}
    (h : ∀ id ∈ Expr.ids? e, φ.id id = ψ.id id) :
    e.map (Expr.relabel φ) = e.map (Expr.relabel ψ) := by
  cases e with
  | none => rfl
  | some e => exact congrArg some (Expr.relabel_congr hline h)

mutual

theorem Stmt.relabel_congr (hline : φ.line = ψ.line) : ∀ {s : Stmt},
    (∀ id ∈ s.ids, φ.id id = ψ.id id) → s.relabel φ = s.relabel ψ
  | .expression e, h => congrArg Stmt.expression (Expr.relabel_congr hline h)
  | .print e, h => congrArg Stmt.print (Expr.relabel_congr hline h)
  | .var _ initializer, h => by
      simp only [Stmt.ids] at h
      simp [Relabelling.token_congr hline, Expr.map_relabel_congr hline h]
  | .block body, h => by
      simp only [Stmt.ids] at h
      simp [Stmt.listRelabel_congr hline h]
  | .ifThen c t, h => by
      simp only [Stmt.ids, List.forall_mem_append] at h
      simp [Expr.relabel_congr hline h.1, Stmt.relabel_congr hline h.2]
  | .ifElse c t e, h => by
      simp only [Stmt.ids, List.forall_mem_append] at h
      simp [Expr.relabel_congr hline h.1.1, Stmt.relabel_congr hline h.1.2,
        Stmt.relabel_congr hline h.2]
  | .loop c body, h => by
      simp only [Stmt.ids, List.forall_mem_append] at h
      simp [Expr.relabel_congr hline h.1, Stmt.relabel_congr hline h.2]
  | .function decl, h => by
      simp only [Stmt.ids] at h
      simp [FunctionDecl.relabel_congr hline h]
  | .ret _ value, h => by
      simp only [Stmt.ids] at h
      simp [Relabelling.token_congr hline, Expr.map_relabel_congr hline h]
  | .classDecl _ superclass methods, h => by
      simp only [Stmt.ids, List.forall_mem_append] at h
      simp [Relabelling.token_congr hline, Expr.map_relabel_congr hline h.1,
        FunctionDecl.listRelabel_congr hline h.2]

theorem Stmt.listRelabel_congr (hline : φ.line = ψ.line) : ∀ {ss : List Stmt},
    (∀ id ∈ Stmt.listIds ss, φ.id id = ψ.id id) → Stmt.listRelabel φ ss = Stmt.listRelabel ψ ss
  | [], _ => rfl
  | s :: ss, h => by
      simp only [Stmt.listIds, List.forall_mem_append] at h
      simp [Stmt.relabel_congr hline h.1, Stmt.listRelabel_congr hline h.2]

theorem FunctionDecl.relabel_congr (hline : φ.line = ψ.line) : ∀ {f : FunctionDecl},
    (∀ id ∈ f.ids, φ.id id = ψ.id id) → f.relabel φ = f.relabel ψ
  | ⟨_, _, body⟩, h => by
      simp only [FunctionDecl.ids] at h
      simp [Relabelling.token_congr hline, Stmt.listRelabel_congr hline h]

theorem FunctionDecl.listRelabel_congr (hline : φ.line = ψ.line) : ∀ {fs : List FunctionDecl},
    (∀ id ∈ FunctionDecl.listIds fs, φ.id id = ψ.id id) →
    FunctionDecl.listRelabel φ fs = FunctionDecl.listRelabel ψ fs
  | [], _ => rfl
  | f :: fs, h => by
      simp only [FunctionDecl.listIds, List.forall_mem_append] at h
      simp [FunctionDecl.relabel_congr hline h.1, FunctionDecl.listRelabel_congr hline h.2]

end

end Congruence

end Lox
