import Lox.Proofs.Order.Statements
import Lox.Proofs.Scope.Checks

/-!
# Findings in the order of their tokens

Resolution finds the errors of a program in the order of its tokens, with two exceptions: it walks
through the value of a property assignment before the object, and through the body of a for statement
before the increment, which runs after it.
-/

namespace Lox.Resolution

variable {program : List Stmt} {context : Context} {scopes : Scopes}
  {ts us : List Token} {es fs : List Error} {t : Token}

/-- The walk over a program goes on with these statements, in this context and these scopes. -/
inductive Visits (program : List Stmt) : Context → Scopes → List Stmt → Prop
  | start : Visits program .program [] program
  | next {context : Context} {scopes : Scopes} {s : Stmt} {ss : List Stmt} :
      Visits program context scopes (s :: ss) → Visits program context (after scopes s) ss
  | block {context : Context} {scopes : Scopes} {body ss : List Stmt} :
      Visits program context scopes (.block body :: ss) →
        Visits program context ([] :: scopes) body
  | ifThen {context : Context} {scopes : Scopes} {c : Expr} {t : Stmt} {ss : List Stmt} :
      Visits program context scopes (.ifThen c t :: ss) → Visits program context scopes [t]
  | ifElse {context : Context} {scopes : Scopes} {c : Expr} {t e : Stmt} {ss : List Stmt} :
      Visits program context scopes (.ifElse c t e :: ss) → Visits program context scopes [t, e]
  | loop {context : Context} {scopes : Scopes} {c : Expr} {body : Stmt} {ss : List Stmt} :
      Visits program context scopes (.loop c body :: ss) → Visits program context scopes [body]
  | function {context : Context} {scopes : Scopes} {f : FunctionDecl} {ss : List Stmt} :
      Visits program context scopes (.function f :: ss) →
        Visits program { context with callable := .function }
          (defineAll ([] :: scopes.define f.name.lexeme) f.params) f.body
  | method {context : Context} {scopes : Scopes} {name : Token} {superclass : Option Expr}
      {methods : List FunctionDecl} {m : FunctionDecl} {ss : List Stmt} :
      Visits program context scopes (.classDecl name superclass methods :: ss) → m ∈ methods →
        Visits program { classContext context superclass with callable := methodContext m }
          (defineAll ([] :: methodScopes (scopes.define name.lexeme) superclass) m.params) m.body

/-- The scopes in which the walk comes to the expressions of a statement. -/
def expressionScopes (scopes : Scopes) : Stmt → Scopes
  | .var name _ => scopes.declare name.lexeme
  | _ => scopes

/-- The walk over a program comes to this expression, in this context and these scopes. -/
inductive VisitsExpr (program : List Stmt) : Context → Scopes → Expr → Prop
  | inStmt {context : Context} {scopes : Scopes} {s : Stmt} {e : Expr} {ss : List Stmt} :
      Visits program context scopes (s :: ss) → e ∈ s.expressions →
        VisitsExpr program context (expressionScopes scopes s) e
  | superclass {context : Context} {scopes : Scopes} {name : Token} {e : Expr}
      {methods : List FunctionDecl} {ss : List Stmt} :
      Visits program context scopes (.classDecl name (some e) methods :: ss) →
        VisitsExpr program (classContext context (some e)) (scopes.define name.lexeme) e
  | part {context : Context} {scopes : Scopes} {e f : Expr} :
      VisitsExpr program context scopes e → f ∈ e.parts → VisitsExpr program context scopes f

/-- The walk comes to the first error before the second one: in the value before the object of a
property assignment, or in the body before the increment of a for statement. -/
inductive Overtakes (program : List Stmt) (x y : Error) : Prop
  | target {object value : Expr} {name : Token} {context : Context} {scopes : Scopes} :
      VisitsExpr program context scopes (.set object name value) →
        x ∈ (ofExpr context scopes value).errors → y ∈ (ofExpr context scopes object).errors →
          Overtakes program x y
  | increment {c e : Expr} {body : Stmt} {context : Context} {scopes : Scopes} {ss : List Stmt} :
      Visits program context scopes (.loop c (.block [body, .expression e]) :: ss) →
        x ∈ (ofStmt context ([] :: scopes) body).errors →
          y ∈ (ofExpr context (after ([] :: scopes) body) e).errors → Overtakes program x y

/-- The token of the second error stands before that of the first one, which the walk comes to
earlier. So the loop of `Overtakes.increment` was written as a for statement: in a block that was
written the body stands before the last expression. -/
structure Swapped (program : List Stmt) (tokens : List Token) (x y : Error) : Prop where
  written : [y.token, x.token].Sublist tokens
  overtakes : Overtakes program x y

/-- The errors are at some of the tokens and in their order, except where they are swapped. -/
structure InOrder (program : List Stmt) (tokens : List Token) (es : List Error) : Prop where
  within : ∀ e ∈ es, e.token ∈ tokens
  pairwise : es.Pairwise fun x y => Before tokens x.token y.token ∨ Swapped program tokens x y

namespace InOrder

theorem nil : InOrder program ts [] :=
  ⟨List.forall_mem_nil _, .nil⟩

theorem mono (h : InOrder program ts es) (hsub : ts.Sublist us) : InOrder program us es where
  within := fun e he => hsub.subset (h.within e he)
  pairwise := h.pairwise.imp fun hxy =>
    hxy.imp (fun hbefore => hbefore.mono hsub) fun hswap =>
      ⟨hswap.written.trans hsub, hswap.overtakes⟩

theorem append (h : InOrder program ts es) (h' : InOrder program us fs) :
    InOrder program (ts ++ us) (es ++ fs) where
  within := by
    rw [List.forall_mem_append]
    refine ⟨fun x hx => ?_, fun y hy => ?_⟩
    · exact List.mem_append_left us (h.within x hx)
    · exact List.mem_append_right ts (h'.within y hy)
  pairwise := by
    refine List.pairwise_append.mpr ⟨?_, ?_, fun x hx y hy => .inl ?_⟩
    · exact (h.mono (List.sublist_append_left ts us)).pairwise
    · exact (h'.mono (List.sublist_append_right ts us)).pairwise
    · exact before_append (h.within x hx) (h'.within y hy)

/-- Errors that are found before those of an earlier part. -/
theorem swap (h : InOrder program ts es) (h' : InOrder program us fs)
    (hswap : ∀ x ∈ fs, ∀ y ∈ es, Overtakes program x y) : InOrder program (ts ++ us) (fs ++ es) where
  within := by
    rw [List.forall_mem_append]
    refine ⟨fun x hx => ?_, fun y hy => ?_⟩
    · exact List.mem_append_right ts (h'.within x hx)
    · exact List.mem_append_left us (h.within y hy)
  pairwise := by
    refine List.pairwise_append.mpr ⟨?_, ?_, fun x hx y hy => .inr ⟨?_, hswap x hx y hy⟩⟩
    · exact (h'.mono (List.sublist_append_right ts us)).pairwise
    · exact (h.mono (List.sublist_append_left ts us)).pairwise
    · exact (List.singleton_sublist.mpr (h.within y hy)).append
        (List.singleton_sublist.mpr (h'.within x hx))

/-- Errors at the first token are found first. -/
theorem behind (hes : ∀ e ∈ es, e.token = t) (h : InOrder program (t :: ts) fs) :
    InOrder program (t :: ts) (es ++ fs) where
  within := by
    rw [List.forall_mem_append]
    refine ⟨fun x hx => ?_, h.within⟩
    rw [hes x hx]
    exact List.mem_cons_self
  pairwise := by
    refine List.pairwise_append.mpr ⟨?_, h.pairwise, fun x hx y hy => .inl ?_⟩
    · refine List.pairwise_of_forall_mem_list fun x hx y hy => .inl (.inl ?_)
      rw [hes x hx, hes y hy]
    · rw [hes x hx]
      rcases List.mem_cons.mp (h.within y hy) with hfirst | hrest
      · exact .inl hfirst.symm
      · exact before_append (List.mem_singleton_self t) hrest

theorem at_first (hes : ∀ e ∈ es, e.token = t) : InOrder program (t :: ts) es := by
  rw [← List.append_nil es]
  exact behind hes .nil

end InOrder

theorem token_of_mem_errorIf {condition : Bool} {fault : Fault} :
    ∀ e ∈ (Findings.errorIf condition fault t).errors, e.token = t := by
  cases condition <;> simp [Findings.errorIf]

theorem token_of_mem_redeclaration : ∀ e ∈ (redeclaration scopes t).errors, e.token = t :=
  token_of_mem_errorIf

mutual

/-- The errors in an expression of the program are in the order of its references. -/
theorem inOrder_ofExpr (context : Context) (scopes : Scopes) :
    ∀ e, VisitsExpr program context scopes e →
      InOrder program e.references (ofExpr context scopes e).errors
  | .literal _, _ => .nil
  | .group inner, h => by
      simpa [ofExpr] using inOrder_ofExpr context scopes inner (h.part (by simp [Expr.parts]))
  | .unary _ operand, h => by
      simpa [ofExpr] using inOrder_ofExpr context scopes operand (h.part (by simp [Expr.parts]))
  | .binary left _ right, h => by
      have hleft := inOrder_ofExpr context scopes left (h.part (by simp [Expr.parts]))
      have hright := inOrder_ofExpr context scopes right (h.part (by simp [Expr.parts]))
      simpa [ofExpr] using hleft.append hright
  | .logical left _ right, h => by
      have hleft := inOrder_ofExpr context scopes left (h.part (by simp [Expr.parts]))
      have hright := inOrder_ofExpr context scopes right (h.part (by simp [Expr.parts]))
      simpa [ofExpr] using hleft.append hright
  | .conditional c t e, h => by
      have hc := inOrder_ofExpr context scopes c (h.part (by simp [Expr.parts]))
      have ht := inOrder_ofExpr context scopes t (h.part (by simp [Expr.parts]))
      have he := inOrder_ofExpr context scopes e (h.part (by simp [Expr.parts]))
      simpa [ofExpr] using hc.append (ht.append he)
  | .var id name, _ => by
      simpa [ofExpr, errors_reference] using InOrder.at_first token_of_mem_errorIf
  | .assign id name value, h => by
      have hvalue := inOrder_ofExpr context scopes value (h.part (by simp [Expr.parts]))
      simpa [ofExpr, errors_reference] using hvalue.mono (List.sublist_cons_self name _)
  | .call callee _ arguments, h => by
      have hcallee := inOrder_ofExpr context scopes callee (h.part (by simp [Expr.parts]))
      have harguments := inOrder_ofExprs context scopes arguments fun e he =>
        h.part (by simp [Expr.parts, he])
      simpa [ofExpr] using hcallee.append harguments
  | .get object _, h => by
      simpa [ofExpr] using inOrder_ofExpr context scopes object (h.part (by simp [Expr.parts]))
  | .set object _ value, h => by
      have hobject := inOrder_ofExpr context scopes object (h.part (by simp [Expr.parts]))
      have hvalue := inOrder_ofExpr context scopes value (h.part (by simp [Expr.parts]))
      simpa [ofExpr] using hobject.swap hvalue fun x hx y hy => .target h hx hy
  | .this id keyword, _ => by
      cases hclass : context.enclosingClass with
      | none => simpa [ofExpr, hclass] using InOrder.at_first (by simp)
      | _ => simpa [ofExpr, hclass, errors_reference] using InOrder.nil
  | .super id keyword _, _ => by
      cases hclass : context.enclosingClass with
      | derived => simpa [ofExpr, hclass, errors_reference] using InOrder.nil
      | _ => simpa [ofExpr, hclass] using InOrder.at_first (by simp)

theorem inOrder_ofExprs (context : Context) (scopes : Scopes) :
    ∀ es, (∀ e ∈ es, VisitsExpr program context scopes e) →
      InOrder program (Expr.listReferences es) (ofExprs context scopes es).errors
  | [], _ => .nil
  | e :: es, h => by
      obtain ⟨he, hes⟩ := List.forall_mem_cons.mp h
      simpa [ofExprs] using
        (inOrder_ofExpr context scopes e he).append (inOrder_ofExprs context scopes es hes)

end

theorem inOrder_ofExpr? (context : Context) (scopes : Scopes) {e : Option Expr}
    (h : ∀ f ∈ e.toList, VisitsExpr program context scopes f) :
    InOrder program (Expr.references? e) (ofExpr? context scopes e).errors := by
  cases e with
  | none => exact .nil
  | some e => exact inOrder_ofExpr context scopes e (h e (by simp))

theorem inOrder_ofParams (params : List Token) :
    InOrder program params (ofParams scopes params).errors := by
  induction params generalizing scopes with
  | nil => exact .nil
  | cons param params ih =>
      exact .behind token_of_mem_redeclaration (ih.mono (List.sublist_cons_self param params))

/-- A superclass that is named is looked at twice. -/
theorem inOrder_superclass (context : Context) (scopes : Scopes) (name : Token) {e : Expr}
    (h : VisitsExpr program context scopes e) :
    InOrder program e.references (selfInheritance name e ++ ofExpr context scopes e).errors := by
  have he := inOrder_ofExpr context scopes e h
  cases e with
  | var id superName => exact .behind token_of_mem_errorIf he
  | _ => exact he

theorem inOrder_ofClassHead (context : Context) (scopes : Scopes) {name : Token}
    {superclass : Option Expr} {methods : List FunctionDecl} {ss : List Stmt}
    (h : Visits program context scopes (.classDecl name superclass methods :: ss)) :
    InOrder program (name :: Expr.references? superclass)
      (ofClassHead context scopes name superclass).errors := by
  refine .behind token_of_mem_redeclaration ?_
  cases superclass with
  | none => exact .nil
  | some e =>
      have he := inOrder_superclass (classContext context (some e)) (scopes.define name.lexeme) name
        (.superclass h)
      exact he.mono (List.sublist_cons_self name _)

-- The recursion is on how a statement was written: the tree of a loop leaves two orders open.
mutual

/-- The errors in a statement of the program are in the order in which it was written. -/
theorem inOrder_ofStmt (context : Context) (scopes : Scopes) :
    ∀ {ts s}, Stmt.Written ts s → ∀ {ss}, Visits program context scopes (s :: ss) →
      InOrder program ts (ofStmt context scopes s).errors
  | _, _, .expression e, _, h => by
      simpa [ofStmt] using inOrder_ofExpr context scopes e (.inStmt h (by simp [Stmt.expressions]))
  | _, _, .print e, _, h => by
      simpa [ofStmt] using inOrder_ofExpr context scopes e (.inStmt h (by simp [Stmt.expressions]))
  | _, _, .var name initializer, _, h => by
      have hinitializer := inOrder_ofExpr? context (scopes.declare name.lexeme) fun e he =>
        VisitsExpr.inStmt h he
      rw [ofStmt]
      exact .behind token_of_mem_redeclaration (hinitializer.mono (List.sublist_cons_self name _))
  | _, _, .block body hbody, _, h => by
      simpa [ofStmt] using inOrder_ofStmts context _ hbody h.block
  | _, _, .ifThen c t ht, _, h => by
      have hc := inOrder_ofExpr context scopes c (.inStmt h (by simp [Stmt.expressions]))
      have ht := inOrder_ofStmt context scopes ht h.ifThen
      simpa [ofStmt] using hc.append ht
  | _, _, .ifElse c t e ht he, _, h => by
      have hc := inOrder_ofExpr context scopes c (.inStmt h (by simp [Stmt.expressions]))
      have ht := inOrder_ofStmt context scopes ht h.ifElse
      have he := inOrder_ofStmt context (after scopes t) he h.ifElse.next
      simpa [ofStmt] using hc.append (ht.append he)
  | _, _, .loop c body hbody, _, h => by
      have hc := inOrder_ofExpr context scopes c (.inStmt h (by simp [Stmt.expressions]))
      have hbody := inOrder_ofStmt context scopes hbody h.loop
      simpa [ofStmt] using hc.append hbody
  | _, _, .increment c e body hbody, _, h => by
      have hround : Visits program context ([] :: scopes) [body, .expression e] := h.loop.block
      have hc := inOrder_ofExpr context scopes c (.inStmt h (by simp [Stmt.expressions]))
      have hbody := inOrder_ofStmt context ([] :: scopes) hbody hround
      have he := inOrder_ofExpr context (after ([] :: scopes) body) e
        (.inStmt hround.next (by simp [Stmt.expressions]))
      simpa [ofStmt, ofStmts] using hc.append (he.swap hbody fun x hx y hy => .increment h hx hy)
  | _, _, .function decl hdecl, _, h => by
      have hbody := inOrder_ofFunction { context with callable := .function }
        (scopes.define decl.name.lexeme) hdecl h.function
      -- Only now it may be seen that the tokens of the callable begin with its name.
      cases hdecl
      rw [ofStmt]
      exact .behind token_of_mem_redeclaration hbody
  | _, _, .ret keyword value, _, h => by
      have hvalue := inOrder_ofExpr? context scopes fun e he => VisitsExpr.inStmt h he
      rw [ofStmt]
      refine .behind (List.forall_mem_append.mpr ⟨token_of_mem_errorIf, token_of_mem_errorIf⟩) ?_
      exact hvalue.mono (List.sublist_cons_self keyword _)
  | _, _, .classDecl name superclass methods hmethods, _, h => by
      have hhead := inOrder_ofClassHead context scopes h
      have hbodies := inOrder_ofMethods (classContext context superclass)
        (methodScopes (scopes.define name.lexeme) superclass) hmethods fun f hf => h.method hf
      simpa [ofStmt] using hhead.append hbodies

theorem inOrder_ofStmts (context : Context) (scopes : Scopes) :
    ∀ {ts ss}, Stmt.ListWritten ts ss → Visits program context scopes ss →
      InOrder program ts (ofStmts context scopes ss).errors
  | _, _, .nil, _ => .nil
  | _, _, .cons s ss hs hss, h => by
      simpa [ofStmts] using (inOrder_ofStmt context scopes hs h).append
        (inOrder_ofStmts context (after scopes s) hss h.next)

theorem inOrder_ofFunction (context : Context) (scopes : Scopes) :
    ∀ {ts f}, FunctionDecl.Written ts f →
      Visits program context (defineAll ([] :: scopes) f.params) f.body →
        InOrder program ts (ofFunction context scopes f).errors
  | _, _, .mk name params body hbody, h => by
      have hparams : InOrder program params (ofParams ([] :: scopes) params).errors :=
        inOrder_ofParams params
      have hbody := inOrder_ofStmts context (defineAll ([] :: scopes) params) hbody h
      simpa [ofFunction] using (hparams.append hbody).mono (List.sublist_cons_self name _)

theorem inOrder_ofMethods (context : Context) (scopes : Scopes) :
    ∀ {ts fs}, FunctionDecl.ListWritten ts fs →
      (∀ f ∈ fs, Visits program { context with callable := methodContext f }
        (defineAll ([] :: scopes) f.params) f.body) →
        InOrder program ts (ofMethods context scopes fs).errors
  | _, _, .nil, _ => .nil
  | _, _, .cons f fs hf hfs, h => by
      obtain ⟨hfirst, hrest⟩ := List.forall_mem_cons.mp h
      simpa [ofMethods] using (inOrder_ofFunction _ scopes hf hfirst).append
        (inOrder_ofMethods context scopes hfs hrest)

end

end Lox.Resolution
