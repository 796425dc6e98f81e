import Lox.Proofs.Scope.Places
import Lox.Proofs.Scope.WellScoped
import Lox.Proofs.Scope.Recorded

/-!
# The checks of a walk

What resolution checks at one node, at one declaration and at one place. The walk knows a place by a
context and by scopes. These describe the enclosures of the place, and go on describing them from one
step to the next.
-/

namespace Lox.Resolution

variable {program : List Stmt} {around : List Enclosure} {context : Context} {scopes : Scopes}

/-- The checks at a single node of an expression. -/
def Allowed (context : Context) (scopes : Scopes) : Expr → Prop
  | .var _ name => scopes.isPending name.lexeme = false
  | .this _ _ => context.enclosingClass ≠ .none
  | .super _ _ _ => context.enclosingClass = .derived
  | _ => True

theorem errors_reference (scopes : Scopes) (id : NodeId) (name : Token) :
    (reference scopes id name).errors = [] := by
  unfold reference
  split <;> rfl

theorem errors_ofExprs_eq_nil {es : List Expr} :
    (ofExprs context scopes es).errors = [] ↔ ∀ e ∈ es, (ofExpr context scopes e).errors = [] := by
  induction es with
  | nil => simp [ofExprs]
  | cons e es ih => simp [ofExprs, ih]

theorem errors_ofExpr_eq_nil_iff_parts {e : Expr} :
    (ofExpr context scopes e).errors = [] ↔
      Allowed context scopes e ∧ ∀ f ∈ e.parts, (ofExpr context scopes f).errors = [] := by
  cases e with
  | var id name =>
      simp [ofExpr, Expr.parts, Allowed, errors_errorIf_eq_nil, errors_reference]
  | this id keyword =>
      cases hc : context.enclosingClass <;>
        simp [ofExpr, Expr.parts, Allowed, hc, errors_reference]
  | super id keyword method =>
      cases hc : context.enclosingClass <;>
        simp [ofExpr, Expr.parts, Allowed, hc, errors_reference]
  | call callee paren arguments =>
      simp [ofExpr, Expr.parts, Allowed, errors_ofExprs_eq_nil]
  | set object name value =>
      simp [ofExpr, Expr.parts, Allowed, and_comm]
  | _ => simp [ofExpr, Expr.parts, Allowed, errors_reference]

theorem sizeOf_lt_of_mem_parts {e f : Expr} (h : f ∈ e.parts) : sizeOf f < sizeOf e := by
  cases e with
  | call callee paren arguments =>
      rcases List.mem_cons.mp h with rfl | h
      · simp
        omega
      · have hlt := List.sizeOf_lt_of_mem h
        simp
        omega
  | literal | var | this | super => simp [Expr.parts] at h
  | _ =>
      simp only [Expr.parts, List.mem_cons, List.not_mem_nil, or_false] at h
      rcases h with rfl | rfl | rfl <;> simp <;> omega

/-- An expression is free of errors if each node in it passes its own checks. -/
theorem errors_ofExpr_eq_nil {e : Expr} :
    (ofExpr context scopes e).errors = [] ↔ ∀ f, e.Contains f → Allowed context scopes f := by
  constructor
  · intro h f hf
    have hclean : (ofExpr context scopes f).errors = [] := by
      induction hf with
      | self => exact h
      | part _ hpart ih => exact (errors_ofExpr_eq_nil_iff_parts.mp ih).2 _ hpart
    exact (errors_ofExpr_eq_nil_iff_parts.mp hclean).1
  · suffices hbelow : ∀ f, e.Contains f → (∀ g, e.Contains g → Allowed context scopes g) →
        (ofExpr context scopes f).errors = [] from hbelow e .self
    intro f hf h
    induction hn : sizeOf f using Nat.strongRecOn generalizing f with
    | _ n ih =>
        apply errors_ofExpr_eq_nil_iff_parts.mpr
        refine ⟨h f hf, fun g hg => ih (sizeOf g) ?_ g (hf.part hg) rfl⟩
        rw [← hn]
        exact sizeOf_lt_of_mem_parts hg

theorem errors_ofExpr?_eq_nil {e : Option Expr} :
    (ofExpr? context scopes e).errors = [] ↔
      ∀ f ∈ e.toList, (ofExpr context scopes f).errors = [] := by
  cases e <;> simp [ofExpr?]

/-- The names can be declared in order in the innermost scope. -/
def Fresh (scopes : Scopes) : List Token → Prop
  | [] => True
  | name :: names => scopes.redeclares name.lexeme = false ∧ Fresh (scopes.define name.lexeme) names

theorem fresh_append {names names' : List Token} :
    Fresh scopes (names ++ names') ↔ Fresh scopes names ∧ Fresh (defineAll scopes names) names' := by
  induction names generalizing scopes with
  | nil => simp [Fresh, defineAll]
  | cons name names ih => simp [Fresh, ih, defineAll, and_assoc]

theorem fresh_nil (names : List Token) : Fresh [] names := by
  induction names with
  | nil => trivial
  | cons name names ih => exact ⟨rfl, ih⟩

theorem fresh_cons {s : Scope} {names : List Token} :
    Fresh (s :: scopes) names ↔
      Distinct names ∧ ∀ name ∈ names, s.holds name.lexeme = false := by
  induction names generalizing s with
  | nil => simp [Fresh, Distinct]
  | cons name names ih =>
      have hstep : Fresh (s :: scopes) (name :: names) ↔ s.holds name.lexeme = false
          ∧ Fresh (((name.lexeme, true) :: s) :: scopes) names := Iff.rfl
      simp only [hstep, ih, Distinct, List.map_cons, List.nodup_cons, List.mem_map, not_exists,
        not_and, Scope.holds_cons, Bool.or_eq_false_iff, beq_eq_false_iff_ne, List.forall_mem_cons]
      constructor
      · rintro ⟨hname, hdistinct, hrest⟩
        exact ⟨⟨fun n hn => (hrest n hn).1, hdistinct⟩, hname, fun n hn => (hrest n hn).2⟩
      · rintro ⟨⟨hnot, hdistinct⟩, hname, hrest⟩
        exact ⟨hname, hdistinct, fun n hn => ⟨hnot n hn, hrest n hn⟩⟩

/-- A new scope takes any names that are distinct. -/
theorem fresh_enter {names : List Token} : Fresh ([] :: scopes) names ↔ Distinct names := by
  simp [fresh_cons]

theorem errors_redeclaration_eq_nil {name : Token} :
    (redeclaration scopes name).errors = [] ↔ Fresh scopes [name] := by
  simp [redeclaration, errors_errorIf_eq_nil, Fresh]

theorem errors_ofParams_eq_nil {params : List Token} :
    (ofParams scopes params).errors = [] ↔ Fresh scopes params := by
  induction params generalizing scopes with
  | nil => simp [ofParams, Fresh]
  | cons param params ih => simp [ofParams, ih, redeclaration, errors_errorIf_eq_nil, Fresh]

@[simp] theorem namesOf_nil : namesOf [] = [] := rfl

@[simp] theorem namesOf_cons (s : Stmt) (ss : List Stmt) :
    namesOf (s :: ss) = declaredNames s ++ namesOf ss := List.flatMap_cons

/-- How the walk remembers the nearest callable. -/
def callableContext : Option Enclosure → CallableContext
  | some (.method name) => if name.lexeme == initializerName then .initializer else .method
  | some _ => .function
  | none => .topLevel

/-- How the walk remembers the innermost class. -/
def superclassContext : Option (Option Expr) → ClassContext
  | none => .none
  | some none => .plain
  | some (some _) => .derived

theorem callableContext_eq_topLevel {enclosure : Option Enclosure} :
    callableContext enclosure = .topLevel ↔ enclosure = none := by
  rcases enclosure with _ | _ | _ | name | superclass <;> simp [callableContext]
  split <;> simp

theorem callableContext_eq_initializer {enclosure : Option Enclosure} :
    callableContext enclosure = .initializer ↔
      ∃ name, enclosure = some (.method name) ∧ name.lexeme = initializerName := by
  rcases enclosure with _ | _ | _ | name | superclass <;> simp [callableContext]

/-- The context and the scopes of the walk at a place with these enclosures. -/
structure Describes (around : List Enclosure) (context : Context) (scopes : Scopes) : Prop where
  callable_eq : context.callable = callableContext (nearestCallable around)
  enclosingClass_eq : context.enclosingClass = superclassContext (nearestSuperclass around)
  nil_iff : scopes = [] ↔ around = []
  complete : ∀ x, scopes.isPending x = false

namespace Describes

theorem start : Describes [] .program [] := ⟨rfl, rfl, by simp, fun _ => rfl⟩

theorem complete_define (h : ∀ x, scopes.isPending x = false) (name : String) (x : String) :
    (scopes.define name).isPending x = false := by
  by_cases hx : x = name
  · subst hx
    cases scopes <;> simp [Scopes.define, Scopes.isPending]
  · rw [Scopes.isPending_define_of_ne hx, h]

theorem define (h : Describes around context scopes) (name : String) :
    Describes around context (scopes.define name) := by
  refine ⟨h.callable_eq, h.enclosingClass_eq, ?_, complete_define h.complete name⟩
  rw [← h.nil_iff]
  cases scopes <;> simp [Scopes.define]

theorem defineAll (h : Describes around context scopes) (names : List Token) :
    Describes around context (defineAll scopes names) := by
  induction names generalizing scopes with
  | nil => exact h
  | cons name names ih => exact ih (h.define name.lexeme)

theorem after (h : Describes around context scopes) (s : Stmt) :
    Describes around context (after scopes s) :=
  h.defineAll (declaredNames s)

theorem block (h : Describes around context scopes) :
    Describes (.block :: around) context ([] :: scopes) :=
  ⟨h.callable_eq, h.enclosingClass_eq, by simp, fun _ => rfl⟩

theorem function (h : Describes around context scopes) (f : FunctionDecl) :
    Describes (.function :: around) { context with callable := .function }
      (Resolution.defineAll ([] :: scopes.define f.name.lexeme) f.params) := by
  apply defineAll
  exact ⟨rfl, h.enclosingClass_eq, by simp, fun _ => rfl⟩

theorem method (m : FunctionDecl) (superclass : Option Expr) (around : List Enclosure)
    (context : Context) (scopes : Scopes) :
    Describes (.method m.name :: .classBody superclass :: around)
      { classContext context superclass with callable := methodContext m }
      (Resolution.defineAll ([] :: scopes) m.params) := by
  apply defineAll
  refine ⟨rfl, ?_, by simp, fun _ => rfl⟩
  cases superclass <;> rfl

end Describes

theorem enclosingClass_classContext (context : Context) (superclass : Option Expr)
    (around : List Enclosure) :
    (classContext context superclass).enclosingClass =
      superclassContext (nearestSuperclass (.classBody superclass :: around)) := by
  cases superclass <;> rfl

end Lox.Resolution
