import Lox.Proofs.Scope.Checks

/-!
# Resolution checks exactly the static rules

A program is resolved without errors if and only if no part of it breaks a rule. A walk without errors
has been, without errors, at every place, and there the rules can be read off. If no rule is broken,
each check of the walk succeeds, since the context and the scopes describe where it is.
-/

namespace Lox.Resolution

variable {program : List Stmt} {around : List Enclosure} {context : Context} {scopes : Scopes}

/-- A walk over statements without errors comes to each of them. -/
theorem exists_of_mem_ofStmts {body : List Stmt} {s : Stmt} (hs : s ∈ body)
    (hd : Describes around context scopes) (h : (ofStmts context scopes body).errors = []) :
    ∃ scopes', Describes around context scopes' ∧ (ofStmt context scopes' s).errors = [] := by
  induction body generalizing scopes with
  | nil => simp at hs
  | cons t ts ih =>
      simp only [ofStmts, Findings.errors_append, List.append_eq_nil_iff] at h
      rcases List.mem_cons.mp hs with rfl | hs
      · exact ⟨scopes, hd, h.1⟩
      · exact ih hs (hd.after t) h.2

theorem ofMethods_eq_nil_of_mem {methods : List FunctionDecl} {m : FunctionDecl} (hm : m ∈ methods)
    (h : (ofMethods context scopes methods).errors = []) :
    (ofFunction { context with callable := methodContext m } scopes m).errors = [] := by
  induction methods with
  | nil => simp at hm
  | cons f fs ih =>
      simp only [ofMethods, Findings.errors_append, List.append_eq_nil_iff] at h
      rcases List.mem_cons.mp hm with rfl | hm
      · exact h.1
      · exact ih hm h.2

/-! ## A walk without errors breaks no rule -/

/-- A walk without errors comes, without errors, to every statement. -/
theorem Stands.visited (hclean : (ofStmts .program [] program).errors = []) {s : Stmt}
    (h : Stands program around s) :
    ∃ context scopes, Describes around context scopes ∧ (ofStmt context scopes s).errors = [] := by
  induction h with
  | top hs =>
      obtain ⟨scopes, hd, h⟩ := exists_of_mem_ofStmts hs Describes.start hclean
      exact ⟨_, scopes, hd, h⟩
  | @branch around s t _ ht ih =>
      obtain ⟨context, scopes, hd, h⟩ := ih
      cases s with
      | ifThen c t' =>
          obtain rfl : t = t' := by simpa [Stmt.branches] using ht
          simp only [ofStmt, Findings.errors_append, List.append_eq_nil_iff] at h
          exact ⟨context, scopes, hd, h.2⟩
      | ifElse c t' e =>
          simp only [ofStmt, Findings.errors_append, List.append_eq_nil_iff] at h
          simp only [Stmt.branches, List.mem_cons, List.not_mem_nil, or_false] at ht
          rcases ht with rfl | rfl
          · exact ⟨context, scopes, hd, h.1.2⟩
          · exact ⟨context, after scopes t', hd.after t', h.2⟩
      | loop c body =>
          obtain rfl : t = body := by simpa [Stmt.branches] using ht
          simp only [ofStmt, Findings.errors_append, List.append_eq_nil_iff] at h
          exact ⟨context, scopes, hd, h.2⟩
      | _ => simp [Stmt.branches] at ht
  | inBlock _ hs ih =>
      obtain ⟨context, scopes, hd, h⟩ := ih
      obtain ⟨scopes', hd', h'⟩ := exists_of_mem_ofStmts hs hd.block (by simpa only [ofStmt] using h)
      exact ⟨context, scopes', hd', h'⟩
  | @inFunction around f s _ hs ih =>
      obtain ⟨context, scopes, hd, h⟩ := ih
      obtain ⟨name, params, body⟩ := f
      simp only [ofStmt, ofFunction, Findings.errors_append, List.append_eq_nil_iff] at h
      obtain ⟨scopes', hd', h'⟩ := exists_of_mem_ofStmts hs (hd.function ⟨name, params, body⟩) h.2.2
      exact ⟨_, scopes', hd', h'⟩
  | @inMethod around name superclass methods m s _ hm hs ih =>
      -- A method sets both parts of the context anew, whatever is around its class.
      obtain ⟨context, scopes, -, h⟩ := ih
      simp only [ofStmt, Findings.errors_append, List.append_eq_nil_iff] at h
      have hmethod := ofMethods_eq_nil_of_mem hm h.2
      obtain ⟨mname, params, body⟩ := m
      simp only [ofFunction, Findings.errors_append, List.append_eq_nil_iff] at hmethod
      obtain ⟨scopes', hd', h'⟩ := exists_of_mem_ofStmts hs
        (Describes.method ⟨mname, params, body⟩ superclass around context _) hmethod.2
      exact ⟨_, scopes', hd', h'⟩

/-- The expressions directly inside a statement are free of errors if it is. The initializer of a
variable is walked with the variable declared and not complete. -/
theorem errors_of_mem_expressions {s : Stmt} (h : (ofStmt context scopes s).errors = []) {e : Expr}
    (he : e ∈ s.expressions) : ∃ scopes', (ofExpr context scopes' e).errors = [] := by
  cases s with
  | block | function | classDecl => simp [Stmt.expressions] at he
  | var name initializer =>
      simp only [ofStmt, Findings.errors_append, List.append_eq_nil_iff] at h
      exact ⟨_, errors_ofExpr?_eq_nil.mp h.2 e he⟩
  | ret keyword value =>
      simp only [ofStmt, ofReturn, Findings.errors_append, List.append_eq_nil_iff] at h
      exact ⟨_, errors_ofExpr?_eq_nil.mp h.2 e he⟩
  | expression | print =>
      simp only [Stmt.expressions, List.mem_singleton] at he
      subst he
      exact ⟨scopes, by simpa only [ofStmt] using h⟩
  | ifThen | ifElse | loop =>
      simp only [Stmt.expressions, List.mem_singleton] at he
      subst he
      simp only [ofStmt, Findings.errors_append, List.append_eq_nil_iff] at h
      exact ⟨scopes, by simp only [h]⟩

theorem StandsExpr.visited (hclean : (ofStmts .program [] program).errors = []) {e : Expr}
    (h : StandsExpr program around e) :
    ∃ context scopes, context.enclosingClass = superclassContext (nearestSuperclass around)
      ∧ (ofExpr context scopes e).errors = [] := by
  induction h with
  | inStmt hs he =>
      obtain ⟨context, scopes, hd, h⟩ := Stands.visited hclean hs
      obtain ⟨scopes', h'⟩ := errors_of_mem_expressions h he
      exact ⟨context, scopes', hd.enclosingClass_eq, h'⟩
  | @superclass around name e methods hs =>
      obtain ⟨context, scopes, hd, h⟩ := Stands.visited hclean hs
      simp only [ofStmt, ofClassHead, Findings.errors_append, List.append_eq_nil_iff] at h
      exact ⟨_, _, enclosingClass_classContext context (some e) around, h.1.2.2⟩
  | part _ hf ih =>
      obtain ⟨context, scopes, hd, h⟩ := ih
      exact ⟨context, scopes, hd, (errors_ofExpr_eq_nil_iff_parts.mp h).2 _ hf⟩

mutual

/-- A statement without errors declares names that its scope does not hold yet. -/
theorem fresh_of_ofStmt (context : Context) (scopes : Scopes) :
    ∀ s, (ofStmt context scopes s).errors = [] → Fresh scopes (declaredNames s)
  | .var name initializer, h => by
      simp only [ofStmt, Findings.errors_append, List.append_eq_nil_iff] at h
      exact errors_redeclaration_eq_nil.mp h.1
  | .function decl, h => by
      simp only [ofStmt, Findings.errors_append, List.append_eq_nil_iff] at h
      exact errors_redeclaration_eq_nil.mp h.1
  | .classDecl name superclass methods, h => by
      simp only [ofStmt, ofClassHead, Findings.errors_append, List.append_eq_nil_iff] at h
      exact errors_redeclaration_eq_nil.mp h.1.1
  | .ifThen c t, h => by
      simp only [ofStmt, Findings.errors_append, List.append_eq_nil_iff] at h
      exact fresh_of_ofStmt context scopes t h.2
  | .ifElse c t e, h => by
      simp only [ofStmt, Findings.errors_append, List.append_eq_nil_iff] at h
      exact fresh_append.mpr ⟨fresh_of_ofStmt context scopes t h.1.2,
        fresh_of_ofStmt context (after scopes t) e h.2⟩
  | .loop c body, h => by
      simp only [ofStmt, Findings.errors_append, List.append_eq_nil_iff] at h
      exact fresh_of_ofStmt context scopes body h.2
  | .expression _, _ => trivial
  | .print _, _ => trivial
  | .block _, _ => trivial
  | .ret _ _, _ => trivial

end

theorem fresh_of_ofStmts {body : List Stmt} (h : (ofStmts context scopes body).errors = []) :
    Fresh scopes (namesOf body) := by
  induction body generalizing scopes with
  | nil => trivial
  | cons s ss ih =>
      simp only [ofStmts, Findings.errors_append, List.append_eq_nil_iff] at h
      exact fresh_append.mpr ⟨fresh_of_ofStmt context scopes s h.1, ih h.2⟩

theorem distinct_of_ofFunction {f : FunctionDecl} (h : (ofFunction context scopes f).errors = []) :
    Distinct (scopeNames f) := by
  obtain ⟨name, params, body⟩ := f
  simp only [ofFunction, Findings.errors_append, List.append_eq_nil_iff] at h
  apply fresh_enter.mp
  exact fresh_append.mpr ⟨errors_ofParams_eq_nil.mp h.1, fresh_of_ofStmts h.2⟩

theorem not_breaksRule (hclean : (ofStmts .program [] program).errors = []) {rule : Fault} :
    ¬ BreaksRule program rule := by
  intro hbreak
  cases hbreak with
  | redeclaredInBlock hs hnot =>
      obtain ⟨context, scopes, hd, h⟩ := Stands.visited hclean hs
      simp only [ofStmt] at h
      exact hnot (fresh_enter.mp (fresh_of_ofStmts h))
  | redeclaredInFunction hs hnot =>
      obtain ⟨context, scopes, hd, h⟩ := Stands.visited hclean hs
      simp only [ofStmt, Findings.errors_append, List.append_eq_nil_iff] at h
      exact hnot (distinct_of_ofFunction h.2)
  | redeclaredInMethod hs hm hnot =>
      obtain ⟨context, scopes, hd, h⟩ := Stands.visited hclean hs
      simp only [ofStmt, Findings.errors_append, List.append_eq_nil_iff] at h
      exact hnot (distinct_of_ofFunction (ofMethods_eq_nil_of_mem hm h.2))
  | @readInOwnInitializer around name read e id hs hlocal hread heq =>
      obtain ⟨context, scopes, hd, h⟩ := Stands.visited hclean hs
      simp only [ofStmt, ofExpr?, Findings.errors_append, List.append_eq_nil_iff] at h
      have hcomplete := errors_ofExpr_eq_nil.mp h.2 _ hread
      cases scopes with
      | nil => exact hlocal (hd.nil_iff.mp rfl)
      | cons s scopes =>
          -- While its initializer is walked, the variable is declared and not complete.
          have hpending := Scopes.isPending_declare_of_not_redeclares
            (errors_errorIf_eq_nil.mp h.1)
          rw [Allowed, heq, hpending] at hcomplete
          cases hcomplete
  | topLevelReturn hs hnone =>
      obtain ⟨context, scopes, hd, h⟩ := Stands.visited hclean hs
      simp only [ofStmt, ofReturn, Findings.errors_append, List.append_eq_nil_iff,
        errors_errorIf_eq_nil, hd.callable_eq, hnone] at h
      simp [callableContext] at h
  | initializerReturnsValue hs hmethod hname =>
      obtain ⟨context, scopes, hd, h⟩ := Stands.visited hclean hs
      simp only [ofStmt, ofReturn, Findings.errors_append, List.append_eq_nil_iff,
        errors_errorIf_eq_nil, hd.callable_eq, hmethod] at h
      simp [callableContext, hname] at h
  | thisOutsideClass he hnone =>
      obtain ⟨context, scopes, hc, h⟩ := StandsExpr.visited hclean he
      have hallowed := (errors_ofExpr_eq_nil_iff_parts.mp h).1
      exact hallowed (by rw [hc, hnone]; rfl)
  | superOutsideClass he hnone =>
      obtain ⟨context, scopes, hc, h⟩ := StandsExpr.visited hclean he
      have hallowed := (errors_ofExpr_eq_nil_iff_parts.mp h).1
      rw [Allowed, hc, hnone] at hallowed
      cases hallowed
  | superWithoutSuperclass he hnone =>
      obtain ⟨context, scopes, hc, h⟩ := StandsExpr.visited hclean he
      have hallowed := (errors_ofExpr_eq_nil_iff_parts.mp h).1
      rw [Allowed, hc, hnone] at hallowed
      cases hallowed
  | inheritsFromItself hs heq =>
      obtain ⟨context, scopes, hd, h⟩ := Stands.visited hclean hs
      simp only [ofStmt, ofClassHead, selfInheritance, Findings.errors_append,
        List.append_eq_nil_iff, errors_errorIf_eq_nil] at h
      simp [heq] at h

/-! ## If no rule is broken, the walk finds no error -/

section Converse

variable (hrules : ∀ rule, ¬ BreaksRule program rule)
include hrules

theorem distinct_of_stands {around : List Enclosure} {body : List Stmt}
    (h : Stands program around (.block body)) : Distinct (namesOf body) := by
  by_contra hnot
  exact hrules _ (.redeclaredInBlock h hnot)

/-- The nodes of an expression that stands in the program pass their own checks, if the walk has the
innermost class right and the reads are of complete variables. -/
theorem errors_ofExpr_of_standsExpr {e : Expr} (h : StandsExpr program around e)
    (hc : context.enclosingClass = superclassContext (nearestSuperclass around))
    (hreads : ∀ id name, e.Contains (.var id name) → scopes.isPending name.lexeme = false) :
    (ofExpr context scopes e).errors = [] := by
  apply errors_ofExpr_eq_nil.mpr
  intro f hf
  have hstands := h.contains hf
  cases f with
  | var id name => exact hreads id name hf
  | this id keyword =>
      intro hnone
      apply hrules _ (.thisOutsideClass hstands _)
      cases hs : nearestSuperclass around with
      | none => rfl
      | some superclass => cases superclass <;> simp [hc, hs, superclassContext] at hnone
  | super id keyword method =>
      cases hs : nearestSuperclass around with
      | none => exact (hrules _ (.superOutsideClass hstands hs)).elim
      | some superclass =>
          cases superclass with
          | none => exact (hrules _ (.superWithoutSuperclass hstands hs)).elim
          | some e => simp [Allowed, hc, hs, superclassContext]
  | _ => trivial

theorem errors_ofExpr_of_mem_expressions {s : Stmt} (hs : Stands program around s)
    (hd : Describes around context scopes) {e : Expr} (he : e ∈ s.expressions) :
    (ofExpr context scopes e).errors = [] :=
  errors_ofExpr_of_standsExpr hrules (.inStmt hs he) hd.enclosingClass_eq
    fun _ name _ => hd.complete name.lexeme

theorem errors_ofExpr?_initializer {name : Token} {initializer : Option Expr}
    (hs : Stands program around (.var name initializer)) (hd : Describes around context scopes) :
    (ofExpr? context (scopes.declare name.lexeme) initializer).errors = [] := by
  cases initializer with
  | none => rfl
  | some e =>
      apply errors_ofExpr_of_standsExpr hrules (.inStmt hs (List.mem_singleton_self e))
        hd.enclosingClass_eq
      intro id read hread
      by_cases heq : read.lexeme = name.lexeme
      · have hglobal : around = [] := by
          by_contra hlocal
          exact hrules _ (.readInOwnInitializer hs hlocal hread heq)
        rw [hd.nil_iff.mpr hglobal]
        rfl
      · rw [Scopes.isPending_declare_of_ne heq, hd.complete]

theorem errors_ofReturn {keyword : Token} {value : Option Expr}
    (hs : Stands program around (.ret keyword value)) (hd : Describes around context scopes) :
    (ofReturn context scopes keyword value).errors = [] := by
  have hcallable : (context.callable == .topLevel) = false := by
    rw [beq_eq_false_iff_ne, hd.callable_eq]
    intro htop
    exact hrules _ (.topLevelReturn hs (callableContext_eq_topLevel.mp htop))
  have hinitializer : (value.isSome && context.callable == .initializer) = false := by
    cases value with
    | none => rfl
    | some e =>
        rw [Option.isSome_some, Bool.true_and, beq_eq_false_iff_ne, hd.callable_eq]
        intro hinit
        obtain ⟨name, hmethod, hname⟩ := callableContext_eq_initializer.mp hinit
        exact hrules _ (.initializerReturnsValue hs hmethod hname)
  have hvalue : (ofExpr? context scopes value).errors = [] :=
    errors_ofExpr?_eq_nil.mpr fun e he => errors_ofExpr_of_mem_expressions hrules hs hd he
  simp [ofReturn, errors_errorIf_eq_nil, hcallable, hinitializer, hvalue]

theorem errors_ofClassHead {name : Token} {superclass : Option Expr} {methods : List FunctionDecl}
    (hs : Stands program around (.classDecl name superclass methods))
    (hd : Describes around context scopes) (hfresh : Fresh scopes [name]) :
    (ofClassHead context scopes name superclass).errors = [] := by
  have hname := errors_redeclaration_eq_nil.mpr hfresh
  cases superclass with
  | none => simp [ofClassHead, hname]
  | some e =>
      have hself : (selfInheritance name e).errors = [] := by
        unfold selfInheritance
        split
        · rw [errors_errorIf_eq_nil, beq_eq_false_iff_ne]
          intro heq
          exact hrules _ (.inheritsFromItself hs heq)
        · rfl
      have he : (ofExpr (classContext context (some e)) (scopes.define name.lexeme) e).errors = [] :=
        errors_ofExpr_of_standsExpr hrules (.superclass hs)
          (enclosingClass_classContext context (some e) around)
          fun _ read _ => Describes.complete_define hd.complete _ read.lexeme
      simp [ofClassHead, hname, hself, he]

end Converse

mutual

/-- The statement at a place is free of errors if its names are new there. -/
theorem errors_ofStmt {around : List Enclosure} {context : Context} {scopes : Scopes}
    (hrules : ∀ rule, ¬ BreaksRule program rule) :
    ∀ {s : Stmt}, Stands program around s → Describes around context scopes →
      Fresh scopes (declaredNames s) → (ofStmt context scopes s).errors = []
  | .expression e, hs, hd, _ => by
      rw [ofStmt]
      exact errors_ofExpr_of_mem_expressions hrules hs hd (List.mem_singleton_self e)
  | .print e, hs, hd, _ => by
      rw [ofStmt]
      exact errors_ofExpr_of_mem_expressions hrules hs hd (List.mem_singleton_self e)
  | .var name initializer, hs, hd, hfresh => by
      rw [ofStmt, Findings.errors_append, List.append_eq_nil_iff]
      exact ⟨errors_redeclaration_eq_nil.mpr hfresh, errors_ofExpr?_initializer hrules hs hd⟩
  | .block body, hs, hd, _ => by
      rw [ofStmt]
      exact errors_ofStmts hrules (fun s hmem => hs.inBlock hmem) hd.block
        (fresh_enter.mpr (distinct_of_stands hrules hs))
  | .ifThen c t, hs, hd, hfresh => by
      rw [ofStmt, Findings.errors_append, List.append_eq_nil_iff]
      have ht : Stands program around t := hs.branch (List.mem_singleton_self t)
      exact ⟨errors_ofExpr_of_mem_expressions hrules hs hd (List.mem_singleton_self c),
        errors_ofStmt hrules ht hd hfresh⟩
  | .ifElse c t e, hs, hd, hfresh => by
      simp only [ofStmt, Findings.errors_append, List.append_eq_nil_iff]
      have ht : Stands program around t := hs.branch List.mem_cons_self
      have he : Stands program around e := hs.branch (by simp [Stmt.branches])
      obtain ⟨hfresht, hfreshe⟩ := fresh_append.mp hfresh
      exact ⟨⟨errors_ofExpr_of_mem_expressions hrules hs hd (List.mem_singleton_self c),
        errors_ofStmt hrules ht hd hfresht⟩, errors_ofStmt hrules he (hd.after t) hfreshe⟩
  | .loop c body, hs, hd, hfresh => by
      rw [ofStmt, Findings.errors_append, List.append_eq_nil_iff]
      have hbody : Stands program around body := hs.branch (List.mem_singleton_self body)
      exact ⟨errors_ofExpr_of_mem_expressions hrules hs hd (List.mem_singleton_self c),
        errors_ofStmt hrules hbody hd hfresh⟩
  | .function f, hs, hd, hfresh => by
      rw [ofStmt, Findings.errors_append, List.append_eq_nil_iff]
      have hdistinct : Distinct (scopeNames f) := by
        by_contra hnot
        exact hrules _ (.redeclaredInFunction hs hnot)
      exact ⟨errors_redeclaration_eq_nil.mpr hfresh,
        errors_ofFunction hrules (fun s hmem => hs.inFunction hmem) (hd.function f) hdistinct⟩
  | .ret keyword value, hs, hd, _ => by
      rw [ofStmt]
      exact errors_ofReturn hrules hs hd
  | .classDecl name superclass methods, hs, hd, hfresh => by
      rw [ofStmt, Findings.errors_append, List.append_eq_nil_iff]
      constructor
      · exact errors_ofClassHead hrules hs hd hfresh
      · apply errors_ofMethods hrules
        · intro m hm
          by_contra hnot
          exact hrules _ (.redeclaredInMethod hs hm hnot)
        · intro m hm s hmem
          exact hs.inMethod hm hmem

theorem errors_ofStmts {around : List Enclosure} {context : Context} {scopes : Scopes}
    (hrules : ∀ rule, ¬ BreaksRule program rule) :
    ∀ {body : List Stmt}, (∀ s ∈ body, Stands program around s) → Describes around context scopes →
      Fresh scopes (namesOf body) → (ofStmts context scopes body).errors = []
  | [], _, _, _ => by simp [ofStmts]
  | s :: ss, hs, hd, hfresh => by
      obtain ⟨hfirst, hrest⟩ := List.forall_mem_cons.mp hs
      rw [namesOf_cons, fresh_append] at hfresh
      rw [ofStmts, Findings.errors_append, List.append_eq_nil_iff]
      exact ⟨errors_ofStmt hrules hfirst hd hfresh.1, errors_ofStmts hrules hrest (hd.after s) hfresh.2⟩

theorem errors_ofFunction {around : List Enclosure} {context : Context} {scopes : Scopes}
    (hrules : ∀ rule, ¬ BreaksRule program rule) :
    ∀ {f : FunctionDecl}, (∀ s ∈ f.body, Stands program around s) →
      Describes around context (defineAll ([] :: scopes) f.params) → Distinct (scopeNames f) →
        (ofFunction context scopes f).errors = []
  | ⟨name, params, body⟩, hs, hd, hdistinct => by
      have hfresh : Fresh ([] :: scopes) (params ++ namesOf body) := fresh_enter.mpr hdistinct
      obtain ⟨hparams, hbody⟩ := fresh_append.mp hfresh
      rw [ofFunction, Findings.errors_append, List.append_eq_nil_iff]
      exact ⟨errors_ofParams_eq_nil.mpr hparams, errors_ofStmts hrules hs hd hbody⟩

theorem errors_ofMethods {around : List Enclosure} {context : Context} {scopes : Scopes}
    {superclass : Option Expr} (hrules : ∀ rule, ¬ BreaksRule program rule) :
    ∀ {methods : List FunctionDecl}, (∀ m ∈ methods, Distinct (scopeNames m)) →
      (∀ m ∈ methods, ∀ s ∈ m.body,
        Stands program (.method m.name :: .classBody superclass :: around) s) →
        (ofMethods (classContext context superclass) scopes methods).errors = []
  | [], _, _ => by simp [ofMethods]
  | m :: ms, hdistinct, hs => by
      obtain ⟨hfirst, hrest⟩ := List.forall_mem_cons.mp hs
      obtain ⟨hdfirst, hdrest⟩ := List.forall_mem_cons.mp hdistinct
      rw [ofMethods, Findings.errors_append, List.append_eq_nil_iff]
      exact ⟨errors_ofFunction hrules hfirst (Describes.method m superclass around context scopes) hdfirst,
        errors_ofMethods hrules hdrest hrest⟩

end

/-- Resolution succeeds if and only if no part of the program breaks a rule. -/
theorem resolve_ok_iff (program : List Stmt) :
    (∃ locals, resolve program = .ok locals) ↔ ∀ rule, ¬ BreaksRule program rule := by
  have hresolve : (∃ locals, resolve program = .ok locals) ↔
      (ofStmts .program [] program).errors = [] := by
    by_cases h : (ofStmts .program [] program).errors = [] <;> simp [resolve, h]
  rw [hresolve]
  constructor
  · intro hclean rule
    exact not_breaksRule hclean
  · intro hrules
    exact errors_ofStmts hrules (fun s hs => .top hs) Describes.start (fresh_nil _)

end Lox.Resolution
