import Mathlib.Data.List.Nodup
import Lox.Proofs.Scope.Recorded
import Lox.Proofs.Scope.WellScoped

/-!
# Accepted programs are well scoped

Resolution visits every node once. In a program whose nodes have distinct identities, what it
records for a node is therefore what it found at the node, and a program without errors follows the
rules of scopes.
-/

namespace Lox.Resolution

variable {known : NodeId → Option Nat → Prop}

/-- There are no errors, and each of the nodes is known with what is recorded for it. -/
structure Accepts (known : NodeId → Option Nat → Prop) (found : Findings) (ids : List NodeId) :
    Prop where
  errors_eq : found.errors = []
  nodup : ids.Nodup
  recorded : ∀ id ∈ ids, known id (found.locals.lookup id)

theorem lookup_eq_none_of_sublist {locals : List (NodeId × Nat)} {ids : List NodeId} {id : NodeId}
    (h : (locals.map Prod.fst).Sublist ids) (hid : id ∉ ids) : locals.lookup id = none := by
  rw [List.lookup_eq_none_iff]
  intro p hp
  have hmem : p.1 ∈ ids := h.subset (List.mem_map_of_mem hp)
  simp only [bne_iff_ne, ne_eq]
  rintro rfl
  exact hid hmem

namespace Accepts

variable {a b : Findings} {xs ys : List NodeId}

/-- What is found in two parts is accepted in each of them. -/
theorem of_append (h : Accepts known (a ++ b) (xs ++ ys)) (ha : (a.locals.map Prod.fst).Sublist xs)
    (hb : (b.locals.map Prod.fst).Sublist ys) : Accepts known a xs ∧ Accepts known b ys := by
  obtain ⟨herrors, hnodup, hrecorded⟩ := h
  rw [Findings.errors_append, List.append_eq_nil_iff] at herrors
  obtain ⟨hxs, hys, hdisjoint⟩ := List.nodup_append'.mp hnodup
  refine ⟨⟨herrors.1, hxs, fun id hid => ?_⟩, ⟨herrors.2, hys, fun id hid => ?_⟩⟩
  · have hnone := lookup_eq_none_of_sublist hb (hdisjoint hid)
    simpa [List.lookup_append, hnone] using hrecorded id (List.mem_append_left ys hid)
  · have hnone := lookup_eq_none_of_sublist ha fun hid' => hdisjoint hid' hid
    simpa [List.lookup_append, hnone] using hrecorded id (List.mem_append_right xs hid)

/-- A part that records nothing only has to be free of errors. -/
theorem of_append_left (h : Accepts known (a ++ b) xs) (ha : a.locals = []) :
    a.errors = [] ∧ Accepts known b xs := by
  obtain ⟨herrors, hnodup, hrecorded⟩ := h
  rw [Findings.errors_append, List.append_eq_nil_iff] at herrors
  exact ⟨herrors.1, herrors.2, hnodup, fun id hid => by simpa [ha] using hrecorded id hid⟩

theorem of_reference {scopes : Scopes} {id : NodeId} {name : Token}
    (h : Accepts known (reference scopes id name) [id]) :
    known id (scopes.distance? name.lexeme) := by
  have hid := h.recorded id List.mem_cons_self
  unfold reference at hid
  split at hid <;> simp_all

end Accepts

/-- The scopes hold `this` inside a class, and `super` one scope further out if the class has a
superclass. -/
def Suits : ClassContext → Scopes → Prop
  | .none, _ => True
  | .plain, scopes => ∃ d, scopes.distance? "this" = some d
  | .derived, scopes =>
      ∃ d, scopes.distance? "this" = some d ∧ scopes.distance? "super" = some (d + 1)

/-- What suits a class depends only on the distances of `this` and `super`. -/
theorem Suits.congr {c : ClassContext} {scopes scopes' : Scopes} (h : Suits c scopes)
    (heq : ∀ x, Implicit x → scopes'.distance? x = scopes.distance? x) : Suits c scopes' := by
  have hthis := heq "this" (.inl rfl)
  have hsuper := heq "super" (.inr rfl)
  cases c with
  | none => trivial
  | plain =>
      obtain ⟨d, hd⟩ := h
      exact ⟨d, hthis.trans hd⟩
  | derived =>
      obtain ⟨d, hd, hd'⟩ := h
      exact ⟨d, hthis.trans hd, hsuper.trans hd'⟩

theorem Suits.define {c : ClassContext} {scopes : Scopes} {name : String} (h : Suits c scopes)
    (hname : ¬ Implicit name) : Suits c (scopes.define name) :=
  h.congr fun x hx => Scopes.distance?_define_of_ne (by rintro rfl; exact hname hx)

theorem Suits.declare {c : ClassContext} {scopes : Scopes} {name : String} (h : Suits c scopes)
    (hname : ¬ Implicit name) : Suits c (scopes.declare name) :=
  h.congr fun x hx => Scopes.distance?_declare_of_ne (by rintro rfl; exact hname hx)

theorem Suits.defineAll {c : ClassContext} {names : List Token} {scopes : Scopes}
    (h : Suits c scopes) (hnames : ∀ name ∈ names, ¬ Implicit name.lexeme) :
    Suits c (defineAll scopes names) := by
  induction names generalizing scopes with
  | nil => exact h
  | cons name names ih =>
      exact ih (h.define (hnames name List.mem_cons_self))
        fun n hn => hnames n (List.mem_cons_of_mem name hn)

theorem Suits.enter {c : ClassContext} {scopes : Scopes} (h : Suits c scopes) :
    Suits c ([] :: scopes) := by
  cases c with
  | none => trivial
  | plain =>
      obtain ⟨d, hd⟩ := h
      exact ⟨d + 1, by simp [Scopes.distance?_cons, hd]⟩
  | derived =>
      obtain ⟨d, hd, hd'⟩ := h
      exact ⟨d + 1, by simp [Scopes.distance?_cons, hd], by simp [Scopes.distance?_cons, hd']⟩

/-- The scopes around the methods of a class suit that class. -/
theorem suits_methodScopes (context : Context) (scopes : Scopes) (superclass : Option Expr) :
    Suits (classContext context superclass).enclosingClass (methodScopes scopes superclass) := by
  cases superclass with
  | none => exact ⟨0, by simp [methodScopes, Scopes.enterWith, Scopes.distance?_cons]⟩
  | some e =>
      refine ⟨0, ?_, ?_⟩ <;> simp [methodScopes, Scopes.enterWith, Scopes.distance?_cons]

mutual

/-- An accepted expression is well scoped. -/
theorem wellScoped_of_ofExpr {context : Context} {scopes : Scopes}
    (hs : Suits context.enclosingClass scopes) :
    ∀ {e : Expr}, e.Built Token.Spelled → Accepts known (ofExpr context scopes e) e.ids →
      e.WellScoped known scopes
  | .literal _, _, _ => by simp [Expr.WellScoped]
  | .group inner, hb, ha => by
      simp only [Expr.Built, ofExpr, Expr.ids, Expr.WellScoped] at *
      exact wellScoped_of_ofExpr hs hb ha
  | .unary _ operand, hb, ha => by
      simp only [Expr.Built, ofExpr, Expr.ids, Expr.WellScoped] at *
      exact wellScoped_of_ofExpr hs hb ha
  | .binary left _ right, hb, ha => by
      simp only [Expr.Built, ofExpr, Expr.ids, Expr.WellScoped] at *
      obtain ⟨hl, hr⟩ := ha.of_append (keys_ofExpr ..) (keys_ofExpr ..)
      exact ⟨wellScoped_of_ofExpr hs hb.1 hl, wellScoped_of_ofExpr hs hb.2 hr⟩
  | .logical left _ right, hb, ha => by
      simp only [Expr.Built, ofExpr, Expr.ids, Expr.WellScoped] at *
      obtain ⟨hl, hr⟩ := ha.of_append (keys_ofExpr ..) (keys_ofExpr ..)
      exact ⟨wellScoped_of_ofExpr hs hb.1 hl, wellScoped_of_ofExpr hs hb.2 hr⟩
  | .conditional c t e, hb, ha => by
      simp only [Expr.Built, ofExpr, Expr.ids, Expr.WellScoped] at *
      obtain ⟨hct, he⟩ := ha.of_append
        (by simpa using (keys_ofExpr ..).append (keys_ofExpr ..)) (keys_ofExpr ..)
      obtain ⟨hc, ht⟩ := hct.of_append (keys_ofExpr ..) (keys_ofExpr ..)
      exact ⟨wellScoped_of_ofExpr hs hb.1 hc, wellScoped_of_ofExpr hs hb.2.1 ht,
        wellScoped_of_ofExpr hs hb.2.2 he⟩
  | .var id name, hb, ha => by
      simp only [Expr.Built, ofExpr, Expr.ids, Expr.WellScoped] at *
      obtain ⟨hpending, href⟩ := ha.of_append_left (locals_errorIf ..)
      exact ⟨hb.1.not_implicit hb.2, errors_errorIf_eq_nil.mp hpending, href.of_reference⟩
  | .assign id name value, hb, ha => by
      simp only [Expr.Built, ofExpr, Expr.ids, Expr.WellScoped] at *
      obtain ⟨hv, href⟩ := ha.of_append (keys_ofExpr ..) (keys_reference ..)
      exact ⟨wellScoped_of_ofExpr hs hb.2 hv, hb.1.1.not_implicit hb.1.2, href.of_reference⟩
  | .call callee _ arguments, hb, ha => by
      simp only [Expr.Built, ofExpr, Expr.ids, Expr.WellScoped] at *
      obtain ⟨hc, harguments⟩ := ha.of_append (keys_ofExpr ..) (keys_ofExprs ..)
      exact ⟨wellScoped_of_ofExpr hs hb.1 hc, wellScoped_of_ofExprs hs hb.2 harguments⟩
  | .get object _, hb, ha => by
      simp only [Expr.Built, ofExpr, Expr.ids, Expr.WellScoped] at *
      exact wellScoped_of_ofExpr hs hb ha
  | .set object _ value, hb, ha => by
      simp only [Expr.Built, ofExpr, Expr.ids, Expr.WellScoped] at *
      obtain ⟨hv, ho⟩ := ha.of_append (keys_ofExpr ..) (keys_ofExpr ..)
      exact ⟨wellScoped_of_ofExpr hs hb.1 ho, wellScoped_of_ofExpr hs hb.2 hv⟩
  | .this id keyword, hb, ha => by
      simp only [Expr.Built, ofExpr, Expr.ids, Expr.WellScoped] at *
      have hkeyword := hb.1.lexeme_this hb.2
      cases hc : context.enclosingClass with
      | none => simpa [hc] using ha.errors_eq
      | plain =>
          rw [hc] at hs ha
          obtain ⟨d, hd⟩ := hs
          exact ⟨hkeyword, d, hd, by simpa [hkeyword, hd] using ha.of_reference⟩
      | derived =>
          rw [hc] at hs ha
          obtain ⟨d, hd, -⟩ := hs
          exact ⟨hkeyword, d, hd, by simpa [hkeyword, hd] using ha.of_reference⟩
  | .super id keyword _, hb, ha => by
      simp only [Expr.Built, ofExpr, Expr.ids, Expr.WellScoped] at *
      have hkeyword := hb.1.lexeme_super hb.2
      cases hc : context.enclosingClass with
      | none => simpa [hc] using ha.errors_eq
      | plain => simpa [hc] using ha.errors_eq
      | derived =>
          rw [hc] at hs ha
          obtain ⟨d, hd, hd'⟩ := hs
          exact ⟨hkeyword, d, hd, hd', by simpa [hkeyword, hd'] using ha.of_reference⟩

theorem wellScoped_of_ofExprs {context : Context} {scopes : Scopes}
    (hs : Suits context.enclosingClass scopes) :
    ∀ {es : List Expr}, Expr.ListBuilt Token.Spelled es →
      Accepts known (ofExprs context scopes es) (Expr.listIds es) →
      Expr.ListWellScoped known scopes es
  | [], _, _ => by simp [Expr.ListWellScoped]
  | e :: es, hb, ha => by
      simp only [Expr.ListBuilt, ofExprs, Expr.listIds, Expr.ListWellScoped] at *
      obtain ⟨he, hes⟩ := ha.of_append (keys_ofExpr ..) (keys_ofExprs ..)
      exact ⟨wellScoped_of_ofExpr hs hb.1 he, wellScoped_of_ofExprs hs hb.2 hes⟩

end

theorem wellScoped_of_ofExpr? {context : Context} {scopes : Scopes}
    (hs : Suits context.enclosingClass scopes) {e : Option Expr} (hb : Expr.Built? Token.Spelled e)
    (ha : Accepts known (ofExpr? context scopes e) (Expr.ids? e)) :
    Expr.WellScoped? known scopes e := by
  cases e with
  | none => trivial
  | some e => exact wellScoped_of_ofExpr hs hb ha

theorem not_implicit_of_isName {name : Token} (h : name.IsName Token.Spelled) :
    ¬ Implicit name.lexeme :=
  h.1.not_implicit h.2

theorem not_implicit_of_mem_declaredNames {s : Stmt} (hb : s.Built Token.Spelled) {name : Token}
    (h : name ∈ declaredNames s) : ¬ Implicit name.lexeme :=
  not_implicit_of_isName (hb.isName h)

theorem admits_of_redeclaration {scopes : Scopes} {name : Token}
    (hname : name.IsName Token.Spelled) (h : (redeclaration scopes name).errors = []) :
    scopes.Admits name :=
  ⟨not_implicit_of_isName hname, errors_errorIf_eq_nil.mp h⟩

theorem admitsAll_of_ofParams {params : List Token} {scopes : Scopes}
    (hb : ∀ param ∈ params, param.IsName Token.Spelled)
    (h : (ofParams scopes params).errors = []) : scopes.AdmitsAll params := by
  induction params generalizing scopes with
  | nil => trivial
  | cons param params ih =>
      rw [ofParams, Findings.errors_append, List.append_eq_nil_iff] at h
      exact ⟨admits_of_redeclaration (hb param List.mem_cons_self) h.1,
        ih (fun p hp => hb p (List.mem_cons_of_mem param hp)) h.2⟩

/-- The superclass of an accepted class is another variable. Since it is another one, it is at the
same distance before and after the class is declared. -/
theorem superclassScoped_of_ofClassHead {context : Context} {scopes : Scopes} {name : Token}
    {superclass : Option Expr} (hb : Expr.IsSuperclass Token.Spelled superclass)
    (ha : Accepts known (ofClassHead context scopes name superclass) (Expr.ids? superclass)) :
    Expr.SuperclassScoped known scopes name superclass := by
  cases superclass with
  | none => trivial
  | some e =>
      cases e with
      | var id superName =>
          have hself := (ha.of_append_left (locals_redeclaration name)).2
          obtain ⟨hne, he⟩ := hself.of_append_left (locals_selfInheritance name _)
          have hne' : superName.lexeme ≠ name.lexeme := by
            simpa using errors_errorIf_eq_nil.mp hne
          have hbuilt : (Expr.var id superName).Built Token.Spelled := by
            simpa using hb
          have hoff : Suits Context.program.enclosingClass (scopes.define name.lexeme) := trivial
          have hscoped := wellScoped_of_ofExpr hoff hbuilt (by simpa only [ofExpr, Expr.ids?] using he)
          simp only [Expr.WellScoped, Scopes.isPending_define_of_ne hne',
            Scopes.distance?_define_of_ne hne'] at hscoped
          exact ⟨hne', by simpa only [Expr.WellScoped] using hscoped⟩
      | _ => exact hb.elim

mutual

/-- An accepted statement is well scoped. -/
theorem wellScoped_of_ofStmt {context : Context} {scopes : Scopes}
    (hs : Suits context.enclosingClass scopes) :
    ∀ {s : Stmt}, s.Built Token.Spelled → Accepts known (ofStmt context scopes s) s.ids →
      s.WellScoped known scopes
  | .expression e, hb, ha => by
      simp only [Stmt.Built, ofStmt, Stmt.ids, Stmt.WellScoped] at *
      exact wellScoped_of_ofExpr hs hb ha
  | .print e, hb, ha => by
      simp only [Stmt.Built, ofStmt, Stmt.ids, Stmt.WellScoped] at *
      exact wellScoped_of_ofExpr hs hb ha
  | .var name initializer, hb, ha => by
      simp only [Stmt.Built, ofStmt, Stmt.ids, Stmt.WellScoped] at *
      obtain ⟨hname, hinitializer⟩ := ha.of_append_left (locals_redeclaration name)
      have hadmits := admits_of_redeclaration hb.1 hname
      exact ⟨hadmits, wellScoped_of_ofExpr? (hs.declare hadmits.not_implicit) hb.2 hinitializer⟩
  | .block body, hb, ha => by
      simp only [Stmt.Built, ofStmt, Stmt.ids, Stmt.WellScoped] at *
      exact wellScoped_of_ofStmts hs.enter hb ha
  | .ifThen c t, hb, ha => by
      simp only [Stmt.Built, ofStmt, Stmt.ids, Stmt.WellScoped] at *
      obtain ⟨hc, ht⟩ := ha.of_append (keys_ofExpr ..) (keys_ofStmt ..)
      exact ⟨wellScoped_of_ofExpr hs hb.1 hc, wellScoped_of_ofStmt hs hb.2.1 ht, hb.2.2⟩
  | .ifElse c t e, hb, ha => by
      simp only [Stmt.Built, ofStmt, Stmt.ids, Stmt.WellScoped] at *
      obtain ⟨hct, he⟩ := ha.of_append
        (by simpa using (keys_ofExpr ..).append (keys_ofStmt ..)) (keys_ofStmt ..)
      obtain ⟨hc, ht⟩ := hct.of_append (keys_ofExpr ..) (keys_ofStmt ..)
      rw [show after scopes t = scopes by simp [after, defineAll, hb.2.1.2]] at he
      exact ⟨wellScoped_of_ofExpr hs hb.1 hc, ⟨wellScoped_of_ofStmt hs hb.2.1.1 ht, hb.2.1.2⟩,
        wellScoped_of_ofStmt hs hb.2.2.1 he, hb.2.2.2⟩
  | .loop c body, hb, ha => by
      simp only [Stmt.Built, ofStmt, Stmt.ids, Stmt.WellScoped] at *
      obtain ⟨hc, hbody⟩ := ha.of_append (keys_ofExpr ..) (keys_ofStmt ..)
      exact ⟨wellScoped_of_ofExpr hs hb.1 hc, wellScoped_of_ofStmt hs hb.2.1 hbody, hb.2.2⟩
  | .function decl, hb, ha => by
      simp only [Stmt.Built, ofStmt, Stmt.ids, Stmt.WellScoped] at *
      obtain ⟨hname, hdecl⟩ := ha.of_append_left (locals_redeclaration _)
      have hadmits : scopes.Admits decl.name := by
        refine admits_of_redeclaration ?_ hname
        cases decl
        simp only [FunctionDecl.Built] at hb
        exact hb.1
      have hinside : Suits ({ context with callable := .function } : Context).enclosingClass
          (scopes.define decl.name.lexeme) := hs.define hadmits.not_implicit
      exact ⟨hadmits, wellScoped_of_ofFunction hinside hb hdecl⟩
  | .ret keyword value, hb, ha => by
      simp only [Stmt.Built, ofStmt, Stmt.ids, Stmt.WellScoped, ofReturn] at *
      exact wellScoped_of_ofExpr? hs hb
        (ha.of_append_left (by simp [locals_errorIf])).2
  | .classDecl name superclass methods, hb, ha => by
      simp only [Stmt.Built, ofStmt, Stmt.ids, Stmt.WellScoped] at *
      obtain ⟨hhead, hmethods⟩ := ha.of_append (keys_ofClassHead ..) (keys_ofMethods ..)
      have hadmits : scopes.Admits name := by
        apply admits_of_redeclaration hb.1
        have herrors := hhead.errors_eq
        unfold ofClassHead at herrors
        rw [Findings.errors_append, List.append_eq_nil_iff] at herrors
        exact herrors.1
      exact ⟨hadmits, superclassScoped_of_ofClassHead hb.2.1 hhead,
        wellScoped_of_ofMethods (suits_methodScopes ..) hb.2.2 hmethods⟩

theorem wellScoped_of_ofStmts {context : Context} {scopes : Scopes}
    (hs : Suits context.enclosingClass scopes) :
    ∀ {ss : List Stmt}, Stmt.ListBuilt Token.Spelled ss →
      Accepts known (ofStmts context scopes ss) (Stmt.listIds ss) →
      Stmt.ListWellScoped known scopes ss
  | [], _, _ => by simp [Stmt.ListWellScoped]
  | s :: ss, hb, ha => by
      simp only [Stmt.ListBuilt, ofStmts, Stmt.listIds, Stmt.ListWellScoped] at *
      obtain ⟨hstmt, hrest⟩ := ha.of_append (keys_ofStmt ..) (keys_ofStmts ..)
      have hafter : Suits context.enclosingClass (after scopes s) :=
        hs.defineAll fun _ => not_implicit_of_mem_declaredNames hb.1
      exact ⟨wellScoped_of_ofStmt hs hb.1 hstmt, wellScoped_of_ofStmts hafter hb.2 hrest⟩

theorem wellScoped_of_ofFunction {context : Context} {scopes : Scopes}
    (hs : Suits context.enclosingClass scopes) :
    ∀ {f : FunctionDecl}, f.Built Token.Spelled → Accepts known (ofFunction context scopes f) f.ids →
      f.WellScoped known scopes
  | ⟨name, params, body⟩, hb, ha => by
      simp only [FunctionDecl.Built, ofFunction, FunctionDecl.ids, FunctionDecl.WellScoped] at *
      obtain ⟨hparams, hbody⟩ := ha.of_append_left (locals_ofParams params)
      have hscope := hs.enter.defineAll fun p hp => not_implicit_of_isName (hb.2.1 p hp)
      exact ⟨admitsAll_of_ofParams hb.2.1 hparams, wellScoped_of_ofStmts hscope hb.2.2 hbody⟩

theorem wellScoped_of_ofMethods {context : Context} {scopes : Scopes}
    (hs : Suits context.enclosingClass scopes) :
    ∀ {fs : List FunctionDecl}, FunctionDecl.ListBuilt Token.Spelled fs →
      Accepts known (ofMethods context scopes fs) (FunctionDecl.listIds fs) →
      FunctionDecl.ListWellScoped known scopes fs
  | [], _, _ => by simp [FunctionDecl.ListWellScoped]
  | f :: fs, hb, ha => by
      simp only [FunctionDecl.ListBuilt, ofMethods, FunctionDecl.listIds,
        FunctionDecl.ListWellScoped] at *
      obtain ⟨hf, hfs⟩ := ha.of_append (keys_ofFunction ..) (keys_ofMethods ..)
      have hinside : Suits ({ context with callable := methodContext f } : Context).enclosingClass
          scopes := hs
      exact ⟨wellScoped_of_ofFunction hinside hb.1 hf, wellScoped_of_ofMethods hs hb.2 hfs⟩

end

end Lox.Resolution
