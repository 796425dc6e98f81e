import Lox.Proofs.Grammar.Operators
import Lox.Proofs.Scope.WellScoped

/-!
# Uses of `super`

A use of `super` belongs to the innermost class around it, and stands some scopes inside the scope
that holds `this` for the methods of that class. In a well-scoped program that class names a
superclass, and the distance that is known for the use is one more than the number of these scopes.
-/

namespace Lox

open Resolution (declaredNames after methodScopes defineAll)

/-- Uses of `super` as they are seen from outside a scope. -/
def outside (uses : List (NodeId × Nat)) : List (NodeId × Nat) :=
  uses.map fun use => (use.1, use.2 + 1)

theorem forall_mem_outside {P : NodeId × Nat → Prop} {uses : List (NodeId × Nat)} :
    (∀ use ∈ outside uses, P use) ↔ ∀ use ∈ uses, P (use.1, use.2 + 1) :=
  List.forall_mem_map

mutual

/-- The nodes of the expression that read a method of a superclass, each with the number of scopes
of the expression around it, which is 0. -/
@[simp] def Expr.supers : Expr → List (NodeId × Nat)
  | .literal _ => []
  | .group inner => inner.supers
  | .unary _ operand => operand.supers
  | .binary left _ right => left.supers ++ right.supers
  | .logical left _ right => left.supers ++ right.supers
  | .conditional c t e => c.supers ++ (t.supers ++ e.supers)
  | .var _ _ => []
  | .assign _ _ value => value.supers
  | .call callee _ arguments => callee.supers ++ Expr.listSupers arguments
  | .get object _ => object.supers
  | .set object _ value => object.supers ++ value.supers
  | .this _ _ => []
  | .super id _ _ => [(id, 0)]

@[simp] def Expr.listSupers : List Expr → List (NodeId × Nat)
  | [] => []
  | e :: es => e.supers ++ Expr.listSupers es

end

@[simp] def Expr.supers? : Option Expr → List (NodeId × Nat)
  | none => []
  | some e => e.supers

mutual

/-- The nodes of the statement that read a method of a superclass, each with the number of scopes of
the statement around it. Those in the methods of a class belong to that class and are left out. -/
@[simp] def Stmt.supers : Stmt → List (NodeId × Nat)
  | .expression e => e.supers
  | .print e => e.supers
  | .var _ initializer => Expr.supers? initializer
  | .block body => outside (Stmt.listSupers body)
  | .ifThen c t => c.supers ++ t.supers
  | .ifElse c t e => c.supers ++ (t.supers ++ e.supers)
  | .loop c body => c.supers ++ body.supers
  | .function decl => decl.supers
  | .ret _ value => Expr.supers? value
  | .classDecl _ superclass _ => Expr.supers? superclass

@[simp] def Stmt.listSupers : List Stmt → List (NodeId × Nat)
  | [] => []
  | s :: ss => s.supers ++ Stmt.listSupers ss

/-- The same for a callable, whose parameters and body share one scope. -/
@[simp] def FunctionDecl.supers : FunctionDecl → List (NodeId × Nat)
  | ⟨_, _, body⟩ => outside (Stmt.listSupers body)

end

variable (known : NodeId → Option Nat → Prop)

mutual

/-- Operators are of their sort, no name that is bound implicitly is assigned to, and `super` is
spelled so. -/
@[simp] def Expr.Proper : Expr → Prop
  | .unary operator operand => operator.IsUnary ∧ operand.Proper
  | .binary left operator right => operator.IsBinary ∧ left.Proper ∧ right.Proper
  | .group inner => inner.Proper
  | .logical left _ right => left.Proper ∧ right.Proper
  | .conditional c t e => c.Proper ∧ t.Proper ∧ e.Proper
  | .assign _ name value => ¬ Implicit name.lexeme ∧ value.Proper
  | .call callee _ arguments => callee.Proper ∧ Expr.ListProper arguments
  | .get object _ => object.Proper
  | .set object _ value => object.Proper ∧ value.Proper
  | .super _ keyword _ => keyword.lexeme = "super"
  | _ => True

@[simp] def Expr.ListProper : List Expr → Prop
  | [] => True
  | e :: es => e.Proper ∧ Expr.ListProper es

end

@[simp] def Expr.Proper? : Option Expr → Prop
  | none => True
  | some e => e.Proper

/-- If a method of a class uses `super`, the class names a superclass, and what is known for the use
is the distance to the scope around that of `this`. -/
def FunctionDecl.SupersKnown (derived : Bool) (method : FunctionDecl) : Prop :=
  ∀ use ∈ method.supers, derived = true ∧ known use.1 (some (use.2 + 1))

mutual

/-- The expressions of the statement are proper, no name that is bound implicitly is declared, and
the uses of `super` in its classes are known. -/
@[simp] def Stmt.Proper : Stmt → Prop
  | .expression e => e.Proper
  | .print e => e.Proper
  | .var name initializer => ¬ Implicit name.lexeme ∧ Expr.Proper? initializer
  | .block body => Stmt.ListProper body
  | .ifThen c t => c.Proper ∧ t.Proper
  | .ifElse c t e => c.Proper ∧ t.Proper ∧ e.Proper
  | .loop c body => c.Proper ∧ body.Proper
  | .function decl => ¬ Implicit decl.name.lexeme ∧ decl.Proper
  | .ret _ value => Expr.Proper? value
  | .classDecl name superclass methods =>
      ¬ Implicit name.lexeme ∧ Expr.Proper? superclass
        ∧ (∀ m ∈ methods, m.SupersKnown known superclass.isSome)
        ∧ FunctionDecl.ListProper methods

@[simp] def Stmt.ListProper : List Stmt → Prop
  | [] => True
  | s :: ss => s.Proper ∧ Stmt.ListProper ss

@[simp] def FunctionDecl.Proper : FunctionDecl → Prop
  | ⟨_, params, body⟩ => (∀ param ∈ params, ¬ Implicit param.lexeme) ∧ Stmt.ListProper body

@[simp] def FunctionDecl.ListProper : List FunctionDecl → Prop
  | [] => True
  | f :: fs => f.Proper ∧ FunctionDecl.ListProper fs

end

variable {known} {scopes : Scopes}

theorem FunctionDecl.listProper_iff {fs : List FunctionDecl} :
    FunctionDecl.ListProper known fs ↔ ∀ f ∈ fs, f.Proper known := by
  induction fs with
  | nil => simp
  | cons f fs ih => simp [ih]

/-- The implicit names are at the same distances. -/
def Scopes.SameImplicit (scopes scopes' : Scopes) : Prop :=
  ∀ x, Implicit x → scopes'.distance? x = scopes.distance? x

namespace Scopes.SameImplicit

theorem refl (scopes : Scopes) : SameImplicit scopes scopes := fun _ _ => rfl

theorem trans {scopes' scopes'' : Scopes} (h : SameImplicit scopes scopes')
    (h' : SameImplicit scopes' scopes'') : SameImplicit scopes scopes'' :=
  fun x hx => (h' x hx).trans (h x hx)

theorem declare {x : String} (hx : ¬ Implicit x) : SameImplicit scopes (scopes.declare x) :=
  fun _ hy => Scopes.distance?_declare_of_ne (by rintro rfl; exact hx hy)

theorem define {x : String} (hx : ¬ Implicit x) : SameImplicit scopes (scopes.define x) :=
  fun _ hy => Scopes.distance?_define_of_ne (by rintro rfl; exact hx hy)

theorem defineAll {names : List Token} (h : ∀ name ∈ names, ¬ Implicit name.lexeme) :
    SameImplicit scopes (Resolution.defineAll scopes names) := by
  induction names generalizing scopes with
  | nil => exact refl scopes
  | cons name names ih =>
      rw [List.forall_mem_cons] at h
      exact (define h.1).trans (ih h.2)

theorem after {s : Stmt} (h : s.WellScoped known scopes) :
    SameImplicit scopes (Resolution.after scopes s) := by
  refine defineAll fun name hname => ?_
  rw [h.declaredNames_eq] at hname
  exact (h.admits (Option.mem_toList.mp hname)).not_implicit

end Scopes.SameImplicit

/-- The parameters of a well-scoped callable are no implicit names. -/
theorem not_implicit_of_admitsAll {params : List Token} (h : scopes.AdmitsAll params) :
    ∀ param ∈ params, ¬ Implicit param.lexeme := by
  induction params generalizing scopes with
  | nil => nofun
  | cons param params ih => exact List.forall_mem_cons.mpr ⟨h.1.not_implicit, ih h.2⟩

/-! ## Uses in well-scoped syntax -/

/-- A use of `super` finds `this` in the scopes and `super` one scope further out, which is what is
known for it. -/
def Placed (known : NodeId → Option Nat → Prop) (scopes : Scopes) (use : NodeId × Nat) : Prop :=
  ∃ n, scopes.distance? "this" = some n ∧ scopes.distance? "super" = some (n + 1)
    ∧ known use.1 (some (use.2 + n + 1))

theorem Placed.congr {scopes' : Scopes} {use : NodeId × Nat} (h : Placed known scopes' use)
    (hsame : scopes.SameImplicit scopes') : Placed known scopes use := by
  obtain ⟨n, hthis, hsuper, hid⟩ := h
  exact ⟨n, (hsame _ (.inl rfl)).symm.trans hthis, (hsame _ (.inr rfl)).symm.trans hsuper, hid⟩

/-- A new scope holds neither `this` nor `super`. -/
theorem Placed.outside {use : NodeId × Nat} (h : Placed known ([] :: scopes) use) :
    Placed known scopes (use.1, use.2 + 1) := by
  obtain ⟨n, hthis, hsuper, hid⟩ := h
  simp only [Scopes.distance?_cons, Scope.holds_nil, Bool.false_eq_true, if_false,
    Option.map_eq_some_iff] at hthis hsuper
  obtain ⟨n', hthis, rfl⟩ := hthis
  obtain ⟨m, hsuper, hm⟩ := hsuper
  obtain rfl : m = n' + 1 := by omega
  refine ⟨n', hthis, hsuper, ?_⟩
  rwa [show use.2 + 1 + n' = use.2 + (n' + 1) by omega]

mutual

theorem Expr.WellScoped.placed :
    ∀ {e : Expr}, e.WellScoped known scopes → ∀ use ∈ e.supers, Placed known scopes use
  | .literal _, _ => by simp
  | .group _, h => by
      simp only [Expr.WellScoped, Expr.supers] at *
      exact h.placed
  | .unary _ _, h => by
      simp only [Expr.WellScoped, Expr.supers] at *
      exact h.placed
  | .binary _ _ _, h => by
      simp only [Expr.WellScoped, Expr.supers, List.forall_mem_append] at *
      exact ⟨h.1.placed, h.2.placed⟩
  | .logical _ _ _, h => by
      simp only [Expr.WellScoped, Expr.supers, List.forall_mem_append] at *
      exact ⟨h.1.placed, h.2.placed⟩
  | .conditional _ _ _, h => by
      simp only [Expr.WellScoped, Expr.supers, List.forall_mem_append] at *
      exact ⟨h.1.placed, h.2.1.placed, h.2.2.placed⟩
  | .var _ _, _ => by simp
  | .assign _ _ _, h => by
      simp only [Expr.WellScoped, Expr.supers] at *
      exact h.1.placed
  | .call _ _ _, h => by
      simp only [Expr.WellScoped, Expr.supers, List.forall_mem_append] at *
      exact ⟨h.1.placed, Expr.ListWellScoped.placed h.2⟩
  | .get _ _, h => by
      simp only [Expr.WellScoped, Expr.supers] at *
      exact h.placed
  | .set _ _ _, h => by
      simp only [Expr.WellScoped, Expr.supers, List.forall_mem_append] at *
      exact ⟨h.1.placed, h.2.placed⟩
  | .this _ _, _ => by simp
  | .super id _ _, h => by
      simp only [Expr.WellScoped, Expr.supers, List.forall_mem_singleton] at *
      obtain ⟨-, n, hthis, hsuper, hid⟩ := h
      exact ⟨n, hthis, hsuper, by rwa [Nat.zero_add]⟩

theorem Expr.ListWellScoped.placed :
    ∀ {es : List Expr}, Expr.ListWellScoped known scopes es →
      ∀ use ∈ Expr.listSupers es, Placed known scopes use
  | [], _ => by simp
  | _ :: _, h => by
      simp only [Expr.ListWellScoped, Expr.listSupers, List.forall_mem_append] at *
      exact ⟨h.1.placed, Expr.ListWellScoped.placed h.2⟩

end

theorem Expr.WellScoped?.placed {e : Option Expr} (h : Expr.WellScoped? known scopes e) :
    ∀ use ∈ Expr.supers? e, Placed known scopes use := by
  cases e with
  | none => simp
  | some e => exact Expr.WellScoped.placed h

/-- The superclass of a class is a variable. -/
theorem Expr.SuperclassScoped.supers_eq {name : Token} {superclass : Option Expr}
    (h : Expr.SuperclassScoped known scopes name superclass) : Expr.supers? superclass = [] := by
  cases superclass with
  | none => rfl
  | some e =>
      cases e with
      | var id superName => rfl
      | _ => exact h.elim

mutual

theorem Stmt.WellScoped.placed {scopes : Scopes} :
    ∀ {s : Stmt}, s.WellScoped known scopes → ∀ use ∈ s.supers, Placed known scopes use
  | .expression _, h => by
      simp only [Stmt.WellScoped, Stmt.supers] at *
      exact h.placed
  | .print _, h => by
      simp only [Stmt.WellScoped, Stmt.supers] at *
      exact h.placed
  | .var _ _, h => by
      simp only [Stmt.WellScoped, Stmt.supers] at *
      exact fun use huse => (h.2.placed use huse).congr (.declare h.1.not_implicit)
  | .block _, h => by
      simp only [Stmt.WellScoped, Stmt.supers, forall_mem_outside] at *
      exact fun use huse => (Stmt.ListWellScoped.placed h use huse).outside
  | .ifThen _ _, h => by
      simp only [Stmt.WellScoped, Stmt.supers, List.forall_mem_append] at *
      exact ⟨h.1.placed, h.2.1.placed⟩
  | .ifElse _ _ _, h => by
      simp only [Stmt.WellScoped, Stmt.supers, List.forall_mem_append] at *
      exact ⟨h.1.placed, h.2.1.1.placed, h.2.2.1.placed⟩
  | .loop _ _, h => by
      simp only [Stmt.WellScoped, Stmt.supers, List.forall_mem_append] at *
      exact ⟨h.1.placed, h.2.1.placed⟩
  | .function _, h => by
      simp only [Stmt.WellScoped, Stmt.supers] at *
      exact fun use huse => (h.2.placed use huse).congr (.define h.1.not_implicit)
  | .ret _ _, h => by
      simp only [Stmt.WellScoped, Stmt.supers] at *
      exact h.placed
  | .classDecl _ _ _, h => by
      simp only [Stmt.WellScoped, Stmt.supers] at *
      rw [h.2.1.supers_eq]
      nofun

theorem Stmt.ListWellScoped.placed {scopes : Scopes} :
    ∀ {ss : List Stmt}, Stmt.ListWellScoped known scopes ss →
      ∀ use ∈ Stmt.listSupers ss, Placed known scopes use
  | [], _ => by simp
  | _ :: _, h => by
      simp only [Stmt.ListWellScoped, Stmt.listSupers, List.forall_mem_append] at *
      exact ⟨h.1.placed, fun use huse => (Stmt.ListWellScoped.placed h.2 use huse).congr (.after h.1)⟩

theorem FunctionDecl.WellScoped.placed {scopes : Scopes} :
    ∀ {f : FunctionDecl}, f.WellScoped known scopes → ∀ use ∈ f.supers, Placed known scopes use
  | ⟨_, _, _⟩, h => by
      simp only [FunctionDecl.WellScoped, FunctionDecl.supers, forall_mem_outside] at *
      have hparams : Scopes.SameImplicit ([] :: scopes) _ :=
        .defineAll (not_implicit_of_admitsAll h.1)
      exact fun use huse => ((Stmt.ListWellScoped.placed h.2 use huse).congr hparams).outside

end

/-- No use of `super` in a program stands outside of all classes. -/
theorem Stmt.ListWellScoped.listSupers_eq {program : List Stmt}
    (h : Stmt.ListWellScoped known [] program) : Stmt.listSupers program = [] := by
  refine List.eq_nil_iff_forall_not_mem.mpr fun use huse => ?_
  obtain ⟨n, hthis, -⟩ := h.placed use huse
  cases hthis

/-! ## Well-scoped syntax is proper -/

/-- The innermost scope is not the one that holds `super`. -/
def Scopes.Plain (scopes : Scopes) : Prop :=
  scopes.distance? "super" ≠ some 0

theorem Scopes.Plain.congr {scopes' : Scopes} (h : scopes.Plain)
    (hsame : scopes.SameImplicit scopes') : scopes'.Plain := by
  rwa [Plain, hsame _ (.inr rfl)]

theorem Scopes.plain_nil_cons (scopes : Scopes) : Scopes.Plain ([] :: scopes) := by
  simp [Plain, Scopes.distance?_cons]

/-- A use of `super` in a method finds `this` in the innermost scope of its class, and `super` in the
next one, which only a class with a superclass has. -/
theorem FunctionDecl.WellScoped.supersKnown {superclass : Option Expr} {method : FunctionDecl}
    (h : method.WellScoped known (methodScopes scopes superclass)) (hplain : scopes.Plain) :
    method.SupersKnown known superclass.isSome := by
  intro use huse
  obtain ⟨n, hthis, hsuper, hid⟩ := h.placed use huse
  cases superclass with
  | none =>
      simp only [methodScopes, Scopes.enterWith, Scopes.distance?_cons] at hthis hsuper
      obtain rfl : 0 = n := by simpa using hthis
      exact absurd (by simpa using hsuper) hplain
  | some e =>
      simp only [methodScopes, Scopes.enterWith, Scopes.distance?_cons] at hthis
      obtain rfl : 0 = n := by simpa using hthis
      exact ⟨rfl, hid⟩

mutual

theorem Expr.WellScoped.proper :
    ∀ {e : Expr}, e.WellScoped known scopes → e.Operable → e.Proper
  | .literal _, _, _ => by simp
  | .group _, h, ho => by
      simp only [Expr.WellScoped, Expr.Operable, Expr.Proper] at *
      exact h.proper ho
  | .unary _ _, h, ho => by
      simp only [Expr.WellScoped, Expr.Operable, Expr.Proper] at *
      exact ⟨ho.1, h.proper ho.2⟩
  | .binary _ _ _, h, ho => by
      simp only [Expr.WellScoped, Expr.Operable, Expr.Proper] at *
      exact ⟨ho.1, h.1.proper ho.2.1, h.2.proper ho.2.2⟩
  | .logical _ _ _, h, ho => by
      simp only [Expr.WellScoped, Expr.Operable, Expr.Proper] at *
      exact ⟨h.1.proper ho.1, h.2.proper ho.2⟩
  | .conditional _ _ _, h, ho => by
      simp only [Expr.WellScoped, Expr.Operable, Expr.Proper] at *
      exact ⟨h.1.proper ho.1, h.2.1.proper ho.2.1, h.2.2.proper ho.2.2⟩
  | .var _ _, _, _ => by simp
  | .assign _ _ _, h, ho => by
      simp only [Expr.WellScoped, Expr.Operable, Expr.Proper] at *
      exact ⟨h.2.1, h.1.proper ho⟩
  | .call _ _ _, h, ho => by
      simp only [Expr.WellScoped, Expr.Operable, Expr.Proper] at *
      exact ⟨h.1.proper ho.1, Expr.ListWellScoped.proper h.2 ho.2⟩
  | .get _ _, h, ho => by
      simp only [Expr.WellScoped, Expr.Operable, Expr.Proper] at *
      exact h.proper ho
  | .set _ _ _, h, ho => by
      simp only [Expr.WellScoped, Expr.Operable, Expr.Proper] at *
      exact ⟨h.1.proper ho.1, h.2.proper ho.2⟩
  | .this _ _, _, _ => by simp
  | .super _ _ _, h, _ => by
      simp only [Expr.WellScoped, Expr.Proper] at *
      exact h.1

theorem Expr.ListWellScoped.proper :
    ∀ {es : List Expr}, Expr.ListWellScoped known scopes es → Expr.ListOperable es →
      Expr.ListProper es
  | [], _, _ => by simp
  | _ :: _, h, ho => by
      simp only [Expr.ListWellScoped, Expr.ListOperable, Expr.ListProper] at *
      exact ⟨h.1.proper ho.1, Expr.ListWellScoped.proper h.2 ho.2⟩

end

theorem Expr.WellScoped?.proper {e : Option Expr} (h : Expr.WellScoped? known scopes e)
    (ho : Expr.Operable? e) : Expr.Proper? e := by
  cases e with
  | none => trivial
  | some e => exact Expr.WellScoped.proper h (ho e rfl)

theorem Expr.SuperclassScoped.proper {name : Token} {superclass : Option Expr}
    (h : Expr.SuperclassScoped known scopes name superclass) : Expr.Proper? superclass := by
  cases superclass with
  | none => trivial
  | some e =>
      cases e with
      | var id superName => simp
      | _ => exact h.elim

mutual

theorem Stmt.WellScoped.proper {scopes : Scopes} (hplain : scopes.Plain) :
    ∀ {s : Stmt}, s.WellScoped known scopes → s.Operable → s.Proper known
  | .expression _, h, ho => by
      simp only [Stmt.WellScoped, Stmt.Operable, Stmt.Proper] at *
      exact h.proper ho
  | .print _, h, ho => by
      simp only [Stmt.WellScoped, Stmt.Operable, Stmt.Proper] at *
      exact h.proper ho
  | .var _ _, h, ho => by
      simp only [Stmt.WellScoped, Stmt.Operable, Stmt.Proper] at *
      exact ⟨h.1.not_implicit, h.2.proper ho⟩
  | .block _, h, ho => by
      simp only [Stmt.WellScoped, Stmt.Operable, Stmt.Proper] at *
      exact Stmt.ListWellScoped.proper (Scopes.plain_nil_cons _) h ho
  | .ifThen _ _, h, ho => by
      simp only [Stmt.WellScoped, Stmt.Operable, Stmt.Proper] at *
      exact ⟨h.1.proper ho.1, h.2.1.proper hplain ho.2⟩
  | .ifElse _ _ _, h, ho => by
      simp only [Stmt.WellScoped, Stmt.Operable, Stmt.Proper] at *
      exact ⟨h.1.proper ho.1, h.2.1.1.proper hplain ho.2.1, h.2.2.1.proper hplain ho.2.2⟩
  | .loop _ _, h, ho => by
      simp only [Stmt.WellScoped, Stmt.Operable, Stmt.Proper] at *
      exact ⟨h.1.proper ho.1, h.2.1.proper hplain ho.2⟩
  | .function _, h, ho => by
      simp only [Stmt.WellScoped, Stmt.Operable, Stmt.Proper] at *
      exact ⟨h.1.not_implicit, h.2.proper ho⟩
  | .ret _ _, h, ho => by
      simp only [Stmt.WellScoped, Stmt.Operable, Stmt.Proper] at *
      exact h.proper ho
  | .classDecl _ _ _, h, ho => by
      simp only [Stmt.WellScoped, Stmt.Operable, Stmt.Proper] at *
      have hinside := hplain.congr (.define h.1.not_implicit)
      exact ⟨h.1.not_implicit, h.2.1.proper,
        fun m hm => (h.2.2.forall m hm).supersKnown hinside,
        FunctionDecl.ListWellScoped.proper h.2.2 ho.2⟩

theorem Stmt.ListWellScoped.proper {scopes : Scopes} (hplain : scopes.Plain) :
    ∀ {ss : List Stmt}, Stmt.ListWellScoped known scopes ss → Stmt.ListOperable ss →
      Stmt.ListProper known ss
  | [], _, _ => by simp
  | _ :: _, h, ho => by
      simp only [Stmt.ListWellScoped, Stmt.ListOperable, Stmt.ListProper] at *
      exact ⟨h.1.proper hplain ho.1,
        Stmt.ListWellScoped.proper (hplain.congr (.after h.1)) h.2 ho.2⟩

theorem FunctionDecl.WellScoped.proper {scopes : Scopes} :
    ∀ {f : FunctionDecl}, f.WellScoped known scopes → f.Operable → f.Proper known
  | ⟨_, _, _⟩, h, ho => by
      simp only [FunctionDecl.WellScoped, FunctionDecl.Operable, FunctionDecl.Proper] at *
      have hparams := not_implicit_of_admitsAll h.1
      have hplain := (Scopes.plain_nil_cons scopes).congr (.defineAll hparams)
      exact ⟨hparams, Stmt.ListWellScoped.proper hplain h.2 ho⟩

theorem FunctionDecl.ListWellScoped.proper {scopes : Scopes} :
    ∀ {fs : List FunctionDecl}, FunctionDecl.ListWellScoped known scopes fs →
      FunctionDecl.ListOperable fs → FunctionDecl.ListProper known fs
  | [], _, _ => by simp
  | _ :: _, h, ho => by
      simp only [FunctionDecl.ListWellScoped, FunctionDecl.ListOperable,
        FunctionDecl.ListProper] at *
      exact ⟨h.1.proper ho.1, FunctionDecl.ListWellScoped.proper h.2 ho.2⟩

end

section Imp

variable {known' : NodeId → Option Nat → Prop}

theorem FunctionDecl.SupersKnown.imp (hk : ∀ id r, known id r → known' id r) {derived : Bool}
    {m : FunctionDecl} (h : m.SupersKnown known derived) : m.SupersKnown known' derived :=
  fun use huse => ⟨(h use huse).1, hk _ _ (h use huse).2⟩

mutual

theorem Stmt.Proper.imp (hk : ∀ id r, known id r → known' id r) :
    ∀ {s : Stmt}, s.Proper known → s.Proper known'
  | .expression _, h => by
      simp only [Stmt.Proper] at *
      exact h
  | .print _, h => by
      simp only [Stmt.Proper] at *
      exact h
  | .var _ _, h => by
      simp only [Stmt.Proper] at *
      exact h
  | .block _, h => by
      simp only [Stmt.Proper] at *
      exact Stmt.ListProper.imp hk h
  | .ifThen _ _, h => by
      simp only [Stmt.Proper] at *
      exact ⟨h.1, h.2.imp hk⟩
  | .ifElse _ _ _, h => by
      simp only [Stmt.Proper] at *
      exact ⟨h.1, h.2.1.imp hk, h.2.2.imp hk⟩
  | .loop _ _, h => by
      simp only [Stmt.Proper] at *
      exact ⟨h.1, h.2.imp hk⟩
  | .function _, h => by
      simp only [Stmt.Proper] at *
      exact ⟨h.1, h.2.imp hk⟩
  | .ret _ _, h => by
      simp only [Stmt.Proper] at *
      exact h
  | .classDecl _ _ _, h => by
      simp only [Stmt.Proper] at *
      exact ⟨h.1, h.2.1, fun m hm => (h.2.2.1 m hm).imp hk, FunctionDecl.ListProper.imp hk h.2.2.2⟩

theorem Stmt.ListProper.imp (hk : ∀ id r, known id r → known' id r) :
    ∀ {ss : List Stmt}, Stmt.ListProper known ss → Stmt.ListProper known' ss
  | [], _ => by simp
  | _ :: _, h => by
      simp only [Stmt.ListProper] at *
      exact ⟨h.1.imp hk, Stmt.ListProper.imp hk h.2⟩

theorem FunctionDecl.Proper.imp (hk : ∀ id r, known id r → known' id r) :
    ∀ {f : FunctionDecl}, f.Proper known → f.Proper known'
  | ⟨_, _, _⟩, h => by
      simp only [FunctionDecl.Proper] at *
      exact ⟨h.1, Stmt.ListProper.imp hk h.2⟩

theorem FunctionDecl.ListProper.imp (hk : ∀ id r, known id r → known' id r) :
    ∀ {fs : List FunctionDecl}, FunctionDecl.ListProper known fs → FunctionDecl.ListProper known' fs
  | [], _ => by simp
  | _ :: _, h => by
      simp only [FunctionDecl.ListProper] at *
      exact ⟨h.1.imp hk, FunctionDecl.ListProper.imp hk h.2⟩

end

end Imp

end Lox
