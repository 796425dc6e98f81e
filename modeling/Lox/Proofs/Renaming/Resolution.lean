import Lox.Proofs.Renaming.Rename
import Lox.Proofs.Scope.WellScoped

/-!
# Renaming and resolution

In a well-scoped program, resolution finds the same distances and breaks the same rules after a
renaming to a name that the program does not use.
-/

namespace Lox

open Resolution

variable {ρ : Renaming} {m : Bool} {marked : List Bool} {scopes : Scopes} {s : Scope} {x : String}

def Scope.rename (ρ : Renaming) (m : Bool) (s : Scope) : Scope :=
  s.map fun (x, complete) => (ρ.name m x, complete)

def Scopes.rename (ρ : Renaming) (marked : List Bool) (scopes : Scopes) : Scopes :=
  List.zipWith (Scope.rename ρ) marked scopes

/-- No scope holds the new name. -/
def Scopes.Fresh (ρ : Renaming) (scopes : Scopes) : Prop :=
  ∀ s ∈ scopes, ∀ p ∈ s, p.1 ≠ ρ.new

theorem Scope.lookup_rename (hs : ∀ p ∈ s, p.1 ≠ ρ.new) (hx : x ≠ ρ.new) :
    (s.rename ρ m).lookup (ρ.name m x) = s.lookup x := by
  induction s with
  | nil => rfl
  | cons p s ih =>
      obtain ⟨y, complete⟩ := p
      have hy : y ≠ ρ.new := hs (y, complete) List.mem_cons_self
      have hrest := ih fun q hq => hs q (List.mem_cons_of_mem _ hq)
      have hbeq : (ρ.name m x == ρ.name m y) = (x == y) := by
        rw [Bool.eq_iff_iff, beq_iff_eq, beq_iff_eq]
        exact ⟨Renaming.name_inj hx hy, fun h => by rw [h]⟩
      rw [Scope.rename, List.map_cons, List.lookup_cons, List.lookup_cons, hbeq]
      rw [← hrest]
      rfl

theorem Scope.holds_rename (hs : ∀ p ∈ s, p.1 ≠ ρ.new) (hx : x ≠ ρ.new) :
    (s.rename ρ m).holds (ρ.name m x) = s.holds x := by
  rw [Scope.holds, lookup_rename hs hx, ← Scope.holds]

theorem Scope.holds_eq_false_iff : s.holds x = false ↔ ∀ p ∈ s, p.1 ≠ x := by
  rw [holds, Option.isSome_eq_false_iff, Option.isNone_iff_eq_none, List.lookup_eq_none_iff]
  refine forall₂_congr fun p _ => ?_
  rw [bne_iff_ne, ne_comm]

theorem Scope.rename_eq_self (h : s.holds ρ.old = false) : s.rename ρ m = s := by
  have hne := holds_eq_false_iff.mp h
  unfold rename
  conv_rhs => rw [← List.map_id s]
  refine List.map_congr_left fun p hp => ?_
  exact Prod.ext (Renaming.name_of_ne (hne p hp)) rfl

theorem Scope.holds_rename_eq_false (hs : ∀ p ∈ s, p.1 ≠ ρ.new) (hx : x ≠ ρ.new)
    (h : s.holds x = false) (b : Bool) : (s.rename ρ m).holds (ρ.name b x) = false := by
  by_cases hold : x = ρ.old
  · subst hold
    rw [rename_eq_self h]
    cases b with
    | false => exact h
    | true => rwa [Renaming.name_true_old, holds_eq_false_iff]
  · rw [Renaming.name_of_ne hold, ← h, ← holds_rename (m := m) hs hx, Renaming.name_of_ne hold]

namespace Scopes

theorem Fresh.cons_iff : Fresh ρ (s :: scopes) ↔ (∀ p ∈ s, p.1 ≠ ρ.new) ∧ Fresh ρ scopes := by
  simp [Fresh]

/-- A name is at the same distance after a renaming, under the name that it has there. -/
theorem distance?_rename (hlen : marked.length = scopes.length) (hf : scopes.Fresh ρ)
    (hx : x ≠ ρ.new) :
    (scopes.rename ρ marked).distance? (ρ.name (Renaming.leads marked (scopes.distance? x)) x)
      = scopes.distance? x := by
  induction scopes generalizing marked with
  | nil =>
      obtain rfl := List.length_eq_zero_iff.mp hlen
      rfl
  | cons s scopes ih =>
      obtain ⟨m, marked, rfl⟩ := List.exists_of_length_succ _ hlen
      rw [Fresh.cons_iff] at hf
      have hrest := ih (by simpa using hlen) hf.2
      rw [rename, List.zipWith_cons_cons, ← rename, distance?_cons, distance?_cons]
      by_cases h : s.holds x = true
      · rw [if_pos h]
        have hholds : (s.rename ρ m).holds (ρ.name m x) = true := by
          rw [Scope.holds_rename hf.1 hx, h]
        rw [if_pos (by exact hholds)]
      · rw [if_neg h]
        have hleads : Renaming.leads (m :: marked) ((distance? scopes x).map (· + 1))
            = Renaming.leads marked (distance? scopes x) := by
          cases distance? scopes x <;> rfl
        rw [hleads, Scope.holds_rename_eq_false hf.1 hx (by simpa using h)]
        simp only [Bool.false_eq_true, if_false, hrest]

/-- The innermost scope treats a name after a renaming as it did before. -/
theorem isPending_rename (hlen : marked.length = scopes.length) (hf : scopes.Fresh ρ)
    (hx : x ≠ ρ.new) :
    (scopes.rename ρ marked).isPending (ρ.name (Renaming.leads marked (scopes.distance? x)) x)
      = scopes.isPending x := by
  cases scopes with
  | nil => simp [rename, isPending]
  | cons s scopes =>
      obtain ⟨m, marked, rfl⟩ := List.exists_of_length_succ _ hlen
      rw [Fresh.cons_iff] at hf
      rw [rename, List.zipWith_cons_cons, isPending, isPending, distance?_cons]
      by_cases h : s.holds x = true
      · rw [if_pos h, ← Scope.lookup_rename (m := m) hf.1 hx]
        rfl
      · rw [if_neg h]
        have h : s.holds x = false := by simpa using h
        have h' := Scope.holds_rename_eq_false (m := m) hf.1 hx h
          (Renaming.leads (m :: marked) ((distance? scopes x).map (· + 1)))
        rw [Scope.holds, Option.isSome_eq_false_iff, Option.isNone_iff_eq_none] at h h'
        rw [h, h']

theorem redeclares_rename (hlen : marked.length = scopes.length) (hf : scopes.Fresh ρ)
    (hx : x ≠ ρ.new) :
    (scopes.rename ρ marked).redeclares (ρ.name (marked.headD false) x) = scopes.redeclares x := by
  cases scopes with
  | nil => simp [rename, redeclares]
  | cons s scopes =>
      obtain ⟨m, marked, rfl⟩ := List.exists_of_length_succ _ hlen
      rw [Fresh.cons_iff] at hf
      exact Scope.holds_rename hf.1 hx

theorem define_rename (hlen : marked.length = scopes.length) :
    (scopes.rename ρ marked).define (ρ.name (marked.headD false) x)
      = (scopes.define x).rename ρ marked := by
  cases scopes with
  | nil => simp [rename, define]
  | cons s scopes =>
      obtain ⟨m, marked, rfl⟩ := List.exists_of_length_succ _ hlen
      rfl

theorem declare_rename (hlen : marked.length = scopes.length) (hf : scopes.Fresh ρ)
    (hx : x ≠ ρ.new) :
    (scopes.rename ρ marked).declare (ρ.name (marked.headD false) x)
      = (scopes.declare x).rename ρ marked := by
  cases scopes with
  | nil => simp [rename, declare]
  | cons s scopes =>
      obtain ⟨m, marked, rfl⟩ := List.exists_of_length_succ _ hlen
      rw [Fresh.cons_iff] at hf
      have hholds : (s.rename ρ m).holds (ρ.name m x) = s.holds x := Scope.holds_rename hf.1 hx
      simp only [rename, List.zipWith_cons_cons, declare, List.headD_cons, hholds]
      split <;> rfl

theorem Fresh.define (hf : scopes.Fresh ρ) (hx : x ≠ ρ.new) : (scopes.define x).Fresh ρ := by
  cases scopes with
  | nil => exact hf
  | cons s scopes =>
      rw [Fresh.cons_iff] at hf
      refine Fresh.cons_iff.mpr ⟨fun p hp => ?_, hf.2⟩
      rcases List.mem_cons.mp hp with rfl | hp
      · exact hx
      · exact hf.1 p hp

theorem Fresh.declare (hf : scopes.Fresh ρ) (hx : x ≠ ρ.new) : (scopes.declare x).Fresh ρ := by
  cases scopes with
  | nil => exact hf
  | cons s scopes =>
      rw [Fresh.cons_iff] at hf
      refine Fresh.cons_iff.mpr ⟨fun p hp => ?_, hf.2⟩
      split at hp
      · exact hf.1 p hp
      · rcases List.mem_cons.mp hp with rfl | hp
        · exact hx
        · exact hf.1 p hp

theorem length_define (x : String) : (scopes.define x).length = scopes.length := by
  cases scopes <;> rfl

theorem length_declare (x : String) : (scopes.declare x).length = scopes.length := by
  cases scopes <;> rfl

/-- The scopes can be renamed. -/
structure Renames (ρ : Renaming) (marked : List Bool) (scopes : Scopes) : Prop where
  length_eq : marked.length = scopes.length
  fresh : scopes.Fresh ρ

namespace Renames

theorem enter (h : scopes.Renames ρ marked) (m : Bool) : Renames ρ (m :: marked) ([] :: scopes) :=
  ⟨by simp [h.length_eq], Fresh.cons_iff.mpr ⟨nofun, h.fresh⟩⟩

theorem enterWith (h : scopes.Renames ρ marked) (hx : Implicit x) :
    (scopes.enterWith x).Renames ρ (false :: marked) := by
  refine ⟨by simp [Scopes.enterWith, h.length_eq], Fresh.cons_iff.mpr ⟨fun p hp => ?_, h.fresh⟩⟩
  obtain rfl := List.mem_singleton.mp hp
  exact Renaming.new_ne_of_implicit hx

theorem define (h : scopes.Renames ρ marked) (hx : x ≠ ρ.new) :
    (scopes.define x).Renames ρ marked :=
  ⟨by rw [length_define, h.length_eq], h.fresh.define hx⟩

theorem declare (h : scopes.Renames ρ marked) (hx : x ≠ ρ.new) :
    (scopes.declare x).Renames ρ marked :=
  ⟨by rw [length_declare, h.length_eq], h.fresh.declare hx⟩

theorem distance?_implicit (h : scopes.Renames ρ marked) (hx : Implicit x) :
    (scopes.rename ρ marked).distance? x = scopes.distance? x := by
  have hdistance := distance?_rename h.length_eq h.fresh (Renaming.new_ne_of_implicit hx)
  rwa [Renaming.name_of_ne (Renaming.old_ne_of_implicit hx)] at hdistance

end Renames

end Scopes

namespace Resolution

/-! ## Findings after a renaming -/

/-- The same distances are found, and the same rules are broken. -/
structure Findings.Agree (a b : Findings) : Prop where
  locals_eq : a.locals = b.locals
  faults_eq : a.errors.map Error.fault = b.errors.map Error.fault

namespace Findings.Agree

variable {a b c d : Findings}

theorem refl (a : Findings) : a.Agree a :=
  ⟨rfl, rfl⟩

theorem append (h : a.Agree b) (h' : c.Agree d) : (a ++ c).Agree (b ++ d) :=
  ⟨by rw [locals_append, locals_append, h.locals_eq, h'.locals_eq],
    by rw [errors_append, errors_append, List.map_append, List.map_append, h.faults_eq,
      h'.faults_eq]⟩

theorem errorIf {p q : Bool} (h : p = q) (fault : Fault) (t u : Token) :
    (Findings.errorIf p fault t).Agree (Findings.errorIf q fault u) := by
  subst h
  cases p <;> exact ⟨rfl, rfl⟩

end Findings.Agree

theorem agree_reference (h : scopes.Renames ρ marked) {id : NodeId} {name : Token}
    (hname : ρ.Fresh name) (hid : ρ.distance id = scopes.distance? name.lexeme) :
    (reference (scopes.rename ρ marked) id (ρ.token (ρ.refers marked id) name)).Agree
      (reference scopes id name) := by
  have hdistance := Scopes.distance?_rename h.length_eq h.fresh hname.ne
  rw [← hid] at hdistance
  unfold reference
  rw [Renaming.lexeme_token, Renaming.refers, hdistance, hid]
  exact .refl _

theorem agree_reference_implicit (h : scopes.Renames ρ marked) (id : NodeId) {keyword : Token}
    (hx : Implicit keyword.lexeme) :
    (reference (scopes.rename ρ marked) id keyword).Agree (reference scopes id keyword) := by
  unfold reference
  rw [h.distance?_implicit hx]
  exact .refl _

mutual

theorem agree_ofExpr {context : Context} (h : scopes.Renames ρ marked) :
    ∀ {e : Expr}, e.Built ρ.Fresh → e.WellScoped (fun id r => ρ.distance id = r) scopes →
      (ofExpr context (scopes.rename ρ marked) (e.rename ρ marked)).Agree (ofExpr context scopes e)
  | .literal _, _, _ => by
      simp only [Expr.rename, ofExpr]
      exact .refl _
  | .group inner, hb, hw => by
      simp only [Expr.Built, Expr.WellScoped, Expr.rename, ofExpr] at *
      exact agree_ofExpr h hb hw
  | .unary _ operand, hb, hw => by
      simp only [Expr.Built, Expr.WellScoped, Expr.rename, ofExpr] at *
      exact agree_ofExpr h hb hw
  | .binary left _ right, hb, hw => by
      simp only [Expr.Built, Expr.WellScoped, Expr.rename, ofExpr] at *
      exact (agree_ofExpr h hb.1 hw.1).append (agree_ofExpr h hb.2 hw.2)
  | .logical left _ right, hb, hw => by
      simp only [Expr.Built, Expr.WellScoped, Expr.rename, ofExpr] at *
      exact (agree_ofExpr h hb.1 hw.1).append (agree_ofExpr h hb.2 hw.2)
  | .conditional c t e, hb, hw => by
      simp only [Expr.Built, Expr.WellScoped, Expr.rename, ofExpr] at *
      exact ((agree_ofExpr h hb.1 hw.1).append (agree_ofExpr h hb.2.1 hw.2.1)).append
        (agree_ofExpr h hb.2.2 hw.2.2)
  | .var id name, hb, hw => by
      simp only [Expr.Built, Expr.WellScoped, Expr.rename, ofExpr] at *
      refine .append (.errorIf ?_ ..) (agree_reference h hb.1 hw.2.2)
      rw [Renaming.lexeme_token, Renaming.refers, hw.2.2]
      exact Scopes.isPending_rename h.length_eq h.fresh hb.1.ne
  | .assign id name value, hb, hw => by
      simp only [Expr.Built, Expr.WellScoped, Expr.rename, ofExpr] at *
      exact (agree_ofExpr h hb.2 hw.1).append (agree_reference h hb.1.1 hw.2.2)
  | .call callee _ arguments, hb, hw => by
      simp only [Expr.Built, Expr.WellScoped, Expr.rename, ofExpr] at *
      exact (agree_ofExpr h hb.1 hw.1).append (agree_ofExprs h hb.2 hw.2)
  | .get object _, hb, hw => by
      simp only [Expr.Built, Expr.WellScoped, Expr.rename, ofExpr] at *
      exact agree_ofExpr h hb hw
  | .set object _ value, hb, hw => by
      simp only [Expr.Built, Expr.WellScoped, Expr.rename, ofExpr] at *
      exact (agree_ofExpr h hb.2 hw.2).append (agree_ofExpr h hb.1 hw.1)
  | .this id keyword, _, hw => by
      simp only [Expr.WellScoped, Expr.rename, ofExpr] at *
      cases context.enclosingClass with
      | none => exact .refl _
      | _ => exact agree_reference_implicit h id (.inl hw.1)
  | .super id keyword _, _, hw => by
      simp only [Expr.WellScoped, Expr.rename, ofExpr] at *
      cases context.enclosingClass with
      | derived => exact agree_reference_implicit h id (.inr hw.1)
      | _ => exact .refl _

theorem agree_ofExprs {context : Context} (h : scopes.Renames ρ marked) :
    ∀ {es : List Expr}, Expr.ListBuilt ρ.Fresh es →
      Expr.ListWellScoped (fun id r => ρ.distance id = r) scopes es →
      (ofExprs context (scopes.rename ρ marked) (Expr.listRename ρ marked es)).Agree
        (ofExprs context scopes es)
  | [], _, _ => by
      simp only [Expr.listRename, ofExprs]
      exact .refl _
  | e :: es, hb, hw => by
      simp only [Expr.ListBuilt, Expr.ListWellScoped, Expr.listRename, ofExprs] at *
      exact (agree_ofExpr h hb.1 hw.1).append (agree_ofExprs h hb.2 hw.2)

end

theorem agree_ofExpr? {context : Context} (h : scopes.Renames ρ marked) {e : Option Expr}
    (hb : Expr.Built? ρ.Fresh e)
    (hw : Expr.WellScoped? (fun id r => ρ.distance id = r) scopes e) :
    (ofExpr? context (scopes.rename ρ marked) (e.map (·.rename ρ marked))).Agree
      (ofExpr? context scopes e) := by
  cases e with
  | none => exact .refl _
  | some e => exact agree_ofExpr h hb hw

/-! ## Declarations after a renaming -/

theorem declaredNames_rename_eq_nil :
    ∀ {s : Stmt} {marked : List Bool} {path : List Nat}, declaredNames s = [] →
      declaredNames (s.rename ρ marked path) = []
  | .var _ _, _, _, h => by simp at h
  | .function _, _, _, h => by simp at h
  | .classDecl _ _ _, _, _, h => by simp at h
  | .ifThen c t, _, _, h => by
      simp only [declaredNames, Stmt.rename] at *
      exact declaredNames_rename_eq_nil h
  | .ifElse c t e, _, _, h => by
      simp only [declaredNames, Stmt.rename, List.append_eq_nil_iff] at *
      exact ⟨declaredNames_rename_eq_nil h.1, declaredNames_rename_eq_nil h.2⟩
  | .loop c body, _, _, h => by
      simp only [declaredNames, Stmt.rename] at *
      exact declaredNames_rename_eq_nil h
  | .expression _, _, _, _ => by simp only [declaredNames, Stmt.rename]
  | .print _, _, _, _ => by simp only [declaredNames, Stmt.rename]
  | .block _, _, _, _ => by simp only [declaredNames, Stmt.rename]
  | .ret _ _, _, _, _ => by simp only [declaredNames, Stmt.rename]

/-- A statement declares the same names after a renaming, under the names that they have then. -/
theorem declaredNames_rename {s : Stmt} (hb : s.Built ρ.Fresh) (hk : s.KeepsCallables ρ marked)
    (path : List Nat) :
    declaredNames (s.rename ρ marked path)
      = (declaredNames s).map (ρ.token (marked.headD false)) := by
  by_cases h : declaredNames s = []
  · rw [declaredNames_rename_eq_nil h, h, List.map_nil]
  · cases s with
    | var name initializer => simp only [Stmt.rename, declaredNames, List.map_cons, List.map_nil]
    | function decl =>
        simp only [Stmt.rename, declaredNames, List.map_cons, List.map_nil,
          FunctionDecl.name_rename, Renaming.token_function hk]
    | classDecl name superclass methods =>
        simp only [Stmt.rename, declaredNames, List.map_cons, List.map_nil,
          Renaming.token_classDecl hk]
    | ifThen c t =>
        simp only [Stmt.Built] at hb
        simp [hb.2.2] at h
    | ifElse c t e =>
        simp only [Stmt.Built] at hb
        simp [hb.2.1.2, hb.2.2.2] at h
    | loop c body =>
        simp only [Stmt.Built] at hb
        simp [hb.2.2] at h
    | _ => simp at h

/-- A statement that follows the rules declares names other than the new one. -/
theorem fresh_of_mem_declaredNames {s : Stmt} (hb : s.Built ρ.Fresh) {name : Token}
    (h : name ∈ declaredNames s) : ρ.Fresh name :=
  (hb.isName h).1

theorem defineAll_rename {names : List Token} (h : scopes.Renames ρ marked)
    (hnames : ∀ name ∈ names, ρ.Fresh name) :
    defineAll (scopes.rename ρ marked) (names.map (ρ.token (marked.headD false)))
        = (defineAll scopes names).rename ρ marked
      ∧ (defineAll scopes names).Renames ρ marked := by
  induction names generalizing scopes with
  | nil => exact ⟨rfl, h⟩
  | cons name names ih =>
      have hrest := ih (h.define (hnames name List.mem_cons_self).ne)
        fun n hn => hnames n (List.mem_cons_of_mem name hn)
      rwa [← Scopes.define_rename h.length_eq] at hrest

theorem after_rename (h : scopes.Renames ρ marked) {s : Stmt} (hb : s.Built ρ.Fresh)
    (hk : s.KeepsCallables ρ marked) (path : List Nat) :
    after (scopes.rename ρ marked) (s.rename ρ marked path) = (after scopes s).rename ρ marked
      ∧ (after scopes s).Renames ρ marked := by
  rw [after, declaredNames_rename hb hk]
  exact defineAll_rename h fun name hname => fresh_of_mem_declaredNames hb hname

theorem agree_redeclaration (h : scopes.Renames ρ marked) {name : Token} (hname : ρ.Fresh name) :
    (redeclaration (scopes.rename ρ marked) (ρ.token (marked.headD false) name)).Agree
      (redeclaration scopes name) :=
  .errorIf (Scopes.redeclares_rename h.length_eq h.fresh hname.ne) ..

theorem agree_ofParams {params : List Token} (h : scopes.Renames ρ marked)
    (hparams : ∀ param ∈ params, ρ.Fresh param) :
    (ofParams (scopes.rename ρ marked) (params.map (ρ.token (marked.headD false)))).Agree
      (ofParams scopes params) := by
  induction params generalizing scopes with
  | nil => exact .refl _
  | cons param params ih =>
      have hparam := hparams param List.mem_cons_self
      have hrest := ih (h.define hparam.ne) fun p hp => hparams p (List.mem_cons_of_mem param hp)
      rw [← Scopes.define_rename h.length_eq] at hrest
      exact (agree_redeclaration h hparam).append hrest

theorem methodScopes_rename (h : scopes.Renames ρ marked) (superclass : Option Expr) :
    methodScopes (scopes.rename ρ marked) (superclass.map (·.rename ρ marked))
        = (methodScopes scopes superclass).rename ρ (Renaming.inClass marked superclass)
      ∧ (methodScopes scopes superclass).Renames ρ (Renaming.inClass marked superclass) := by
  cases superclass with
  | none => exact ⟨rfl, h.enterWith (.inl rfl)⟩
  | some e => exact ⟨rfl, (h.enterWith (.inr rfl)).enterWith (.inl rfl)⟩

theorem agree_ofClassHead {context : Context} (h : scopes.Renames ρ marked) {name : Token}
    {superclass : Option Expr} (hname : ρ.Fresh name)
    (hsame : ρ.token (marked.headD false) name = name)
    (hb : Expr.IsSuperclass ρ.Fresh superclass)
    (hw : Expr.SuperclassScoped (fun id r => ρ.distance id = r) scopes name superclass) :
    (ofClassHead context (scopes.rename ρ marked) name (superclass.map (·.rename ρ marked))).Agree
      (ofClassHead context scopes name superclass) := by
  have hhead := agree_redeclaration h hname
  rw [hsame] at hhead
  apply hhead.append
  cases superclass with
  | none => exact .refl _
  | some e =>
      cases e with
      | var id superName =>
          obtain ⟨hne, hw⟩ := hw
          have hne' : ρ.name (ρ.refers marked id) superName.lexeme ≠ name.lexeme :=
            Renaming.name_ne hne hname.ne
          have hw' : (Expr.var id superName).WellScoped (fun id r => ρ.distance id = r)
              (scopes.define name.lexeme) := by
            simp only [Expr.WellScoped, Scopes.isPending_define_of_ne hne,
              Scopes.distance?_define_of_ne hne] at hw ⊢
            exact hw
          have hscopes : (scopes.rename ρ marked).define name.lexeme
              = (scopes.define name.lexeme).rename ρ marked := by
            rw [← Scopes.define_rename h.length_eq, ← Renaming.lexeme_token, hsame]
          refine .append (.errorIf ?_ ..) ?_
          · rw [Renaming.lexeme_token, beq_false_of_ne hne', beq_false_of_ne hne]
          · rw [hscopes]
            refine agree_ofExpr (h.define hname.ne) ?_ hw'
            simpa only [Expr.Built, Expr.IsSuperclass] using hb
      | _ => exact hb.elim

mutual

theorem agree_ofStmt {context : Context} {marked : List Bool} {scopes : Scopes}
    (h : scopes.Renames ρ marked) :
    ∀ {s : Stmt} {path : List Nat}, s.Built ρ.Fresh → s.KeepsCallables ρ marked →
      s.WellScoped (fun id r => ρ.distance id = r) scopes →
      (ofStmt context (scopes.rename ρ marked) (s.rename ρ marked path)).Agree
        (ofStmt context scopes s)
  | .expression e, _, hb, _, hw => by
      simp only [Stmt.Built, Stmt.WellScoped, Stmt.rename, ofStmt] at *
      exact agree_ofExpr h hb hw
  | .print e, _, hb, _, hw => by
      simp only [Stmt.Built, Stmt.WellScoped, Stmt.rename, ofStmt] at *
      exact agree_ofExpr h hb hw
  | .var name initializer, _, hb, _, hw => by
      simp only [Stmt.Built, Stmt.WellScoped, Stmt.rename, ofStmt] at *
      refine (agree_redeclaration h hb.1.1).append ?_
      rw [Renaming.lexeme_token, Scopes.declare_rename h.length_eq h.fresh hb.1.1.ne]
      exact agree_ofExpr? (h.declare hb.1.1.ne) hb.2 hw.2
  | .block body, path, hb, _, hw => by
      simp only [Stmt.Built, Stmt.WellScoped, Stmt.rename, ofStmt] at *
      exact agree_ofStmts (h.enter _) hb (fun s hs => Stmt.keepsCallables_of_mem hs path marked) hw
  | .ifThen c t, _, hb, _, hw => by
      simp only [Stmt.Built, Stmt.WellScoped, Stmt.rename, ofStmt] at *
      exact (agree_ofExpr h hb.1 hw.1).append
        (agree_ofStmt h hb.2.1 (Stmt.keepsCallables_of_declaredNames hb.2.2) hw.2.1)
  | .ifElse c t e, _, hb, _, hw => by
      simp only [Stmt.Built, Stmt.WellScoped, Stmt.rename, ofStmt] at *
      rw [after_eq_self hb.2.1.2, after_eq_self (declaredNames_rename_eq_nil hb.2.1.2)]
      exact ((agree_ofExpr h hb.1 hw.1).append
          (agree_ofStmt h hb.2.1.1 (Stmt.keepsCallables_of_declaredNames hb.2.1.2) hw.2.1.1)).append
        (agree_ofStmt h hb.2.2.1 (Stmt.keepsCallables_of_declaredNames hb.2.2.2) hw.2.2.1)
  | .loop c body, _, hb, _, hw => by
      simp only [Stmt.Built, Stmt.WellScoped, Stmt.rename, ofStmt] at *
      exact (agree_ofExpr h hb.1 hw.1).append
        (agree_ofStmt h hb.2.1 (Stmt.keepsCallables_of_declaredNames hb.2.2) hw.2.1)
  | .function decl, path, hb, hk, hw => by
      have hfresh : ρ.Fresh decl.name := fresh_of_mem_declaredNames hb (by simp)
      have hsame := Renaming.token_function hk
      simp only [Stmt.Built, Stmt.WellScoped, Stmt.rename, ofStmt] at *
      have hhead := agree_redeclaration h hfresh
      have hscopes : (scopes.rename ρ marked).define decl.name.lexeme
          = (scopes.define decl.name.lexeme).rename ρ marked := by
        rw [← Scopes.define_rename h.length_eq, ← Renaming.lexeme_token, hsame]
      rw [hsame] at hhead
      rw [FunctionDecl.name_rename, hscopes]
      exact hhead.append (agree_ofFunction (h.define hfresh.ne) hb hw.2)
  | .ret keyword value, _, hb, _, hw => by
      simp only [Stmt.Built, Stmt.WellScoped, Stmt.rename, ofStmt, ofReturn] at *
      refine .append (.append (.refl _) (.errorIf ?_ ..)) (agree_ofExpr? h hb hw)
      rw [Option.isSome_map]
  | .classDecl name superclass methods, path, hb, hk, hw => by
      have hsame := Renaming.token_classDecl hk
      simp only [Stmt.Built, Stmt.WellScoped, Stmt.rename, ofStmt] at *
      have hcontext : classContext context (superclass.map (·.rename ρ marked))
          = classContext context superclass := by
        rw [classContext, classContext, Option.isSome_map]
      obtain ⟨hscopes, hrenames⟩ := methodScopes_rename (h.define hb.1.1.ne) superclass
      rw [← Scopes.define_rename h.length_eq, ← Renaming.lexeme_token, hsame] at hscopes
      rw [hcontext, hscopes]
      exact (agree_ofClassHead h hb.1.1 hsame hb.2.1 hw.2.1).append
        (agree_ofMethods hrenames hb.2.2 hw.2.2)

theorem agree_ofStmts {context : Context} {marked : List Bool} {scopes : Scopes}
    (h : scopes.Renames ρ marked) :
    ∀ {ss : List Stmt} {path : List Nat} {place : Nat}, Stmt.ListBuilt ρ.Fresh ss →
      (∀ s ∈ ss, s.KeepsCallables ρ marked) →
      Stmt.ListWellScoped (fun id r => ρ.distance id = r) scopes ss →
      (ofStmts context (scopes.rename ρ marked) (Stmt.listRename ρ marked path place ss)).Agree
        (ofStmts context scopes ss)
  | [], _, _, _, _, _ => by
      simp only [Stmt.listRename, ofStmts]
      exact .refl _
  | s :: ss, path, place, hb, hk, hw => by
      simp only [Stmt.ListBuilt, Stmt.ListWellScoped, Stmt.listRename, ofStmts] at *
      obtain ⟨hafter, hrenames⟩ :=
        after_rename h hb.1 (hk s List.mem_cons_self) (place :: path)
      rw [hafter]
      exact (agree_ofStmt h hb.1 (hk s List.mem_cons_self) hw.1).append
        (agree_ofStmts hrenames hb.2 (fun t ht => hk t (List.mem_cons_of_mem s ht)) hw.2)

theorem agree_ofFunction {context : Context} {marked : List Bool} {scopes : Scopes}
    (h : scopes.Renames ρ marked) :
    ∀ {f : FunctionDecl} {path : List Nat}, f.Built ρ.Fresh →
      f.WellScoped (fun id r => ρ.distance id = r) scopes →
      (ofFunction context (scopes.rename ρ marked) (f.rename ρ marked path)).Agree
        (ofFunction context scopes f)
  | ⟨name, params, body⟩, path, hb, hw => by
      simp only [FunctionDecl.Built, FunctionDecl.WellScoped, FunctionDecl.rename, ofFunction] at *
      have hinside := h.enter (ρ.marks path body)
      have hparams : ∀ param ∈ params, ρ.Fresh param := fun p hp => (hb.2.1 p hp).1
      obtain ⟨hscopes, hrenames⟩ := defineAll_rename hinside hparams
      refine (agree_ofParams hinside hparams).append ?_
      change defineAll ([] :: scopes.rename ρ marked) (params.map (ρ.token (ρ.marks path body)))
        = _ at hscopes
      rw [hscopes]
      exact agree_ofStmts hrenames hb.2.2 (fun s hs => Stmt.keepsCallables_of_mem hs path marked)
        hw.2

theorem agree_ofMethods {context : Context} {marked : List Bool} {scopes : Scopes}
    (h : scopes.Renames ρ marked) :
    ∀ {fs : List FunctionDecl} {path : List Nat} {place : Nat},
      FunctionDecl.ListBuilt ρ.Fresh fs →
      FunctionDecl.ListWellScoped (fun id r => ρ.distance id = r) scopes fs →
      (ofMethods context (scopes.rename ρ marked)
        (FunctionDecl.listRename ρ marked path place fs)).Agree (ofMethods context scopes fs)
  | [], _, _, _, _ => by
      simp only [FunctionDecl.listRename, ofMethods]
      exact .refl _
  | f :: fs, path, place, hb, hw => by
      have hcontext : methodContext (f.rename ρ marked (place :: path)) = methodContext f := by
        rw [methodContext, FunctionDecl.isInitializer, FunctionDecl.name_rename]
        rfl
      simp only [FunctionDecl.ListBuilt, FunctionDecl.ListWellScoped, FunctionDecl.listRename,
        ofMethods] at *
      rw [hcontext]
      exact (agree_ofFunction h hb.1 hw.1).append (agree_ofMethods h hb.2 hw.2)

end

end Resolution

end Lox
