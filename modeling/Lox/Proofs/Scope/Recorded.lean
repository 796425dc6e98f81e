import Lox.Proofs.Syntax.Shape

/-!
# What resolution records

Resolution records nodes of the program only, each at most once and in the order in which it visits
them.
-/

namespace Lox.Resolution

variable {context : Context} {scopes : Scopes}

theorem locals_errorIf (condition : Bool) (fault : Fault) (token : Token) :
    (Findings.errorIf condition fault token).locals = [] := by
  cases condition <;> rfl

theorem errors_errorIf_eq_nil {condition : Bool} {fault : Fault} {token : Token} :
    (Findings.errorIf condition fault token).errors = [] ↔ condition = false := by
  cases condition <;> simp [Findings.errorIf]

theorem keys_reference (id : NodeId) (name : Token) :
    ((reference scopes id name).locals.map Prod.fst).Sublist [id] := by
  unfold reference
  split <;> simp

mutual

/-- Only nodes of the expression are recorded, in their order. -/
theorem keys_ofExpr (context : Context) (scopes : Scopes) :
    ∀ e, ((ofExpr context scopes e).locals.map Prod.fst).Sublist e.ids
  | .literal _ => by simp [ofExpr]
  | .group inner => by simpa [ofExpr] using keys_ofExpr context scopes inner
  | .unary _ operand => by simpa [ofExpr] using keys_ofExpr context scopes operand
  | .binary left _ right => by
      simpa [ofExpr] using
        (keys_ofExpr context scopes left).append (keys_ofExpr context scopes right)
  | .logical left _ right => by
      simpa [ofExpr] using
        (keys_ofExpr context scopes left).append (keys_ofExpr context scopes right)
  | .conditional c t e => by
      simpa [ofExpr] using (keys_ofExpr context scopes c).append
        ((keys_ofExpr context scopes t).append (keys_ofExpr context scopes e))
  | .var id name => by
      simpa [ofExpr, locals_errorIf] using keys_reference id name
  | .assign id name value => by
      simpa [ofExpr] using
        (keys_ofExpr context scopes value).append (keys_reference id name)
  | .call callee _ arguments => by
      simpa [ofExpr] using
        (keys_ofExpr context scopes callee).append (keys_ofExprs context scopes arguments)
  | .get object _ => by simpa [ofExpr] using keys_ofExpr context scopes object
  | .set object _ value => by
      simpa [ofExpr] using
        (keys_ofExpr context scopes value).append (keys_ofExpr context scopes object)
  | .this id keyword => by
      unfold ofExpr Expr.ids
      split
      · simp
      · exact keys_reference id keyword
  | .super id keyword _ => by
      unfold ofExpr Expr.ids
      split
      · simp
      · simp
      · exact keys_reference id keyword

theorem keys_ofExprs (context : Context) (scopes : Scopes) :
    ∀ es, ((ofExprs context scopes es).locals.map Prod.fst).Sublist (Expr.listIds es)
  | [] => by simp [ofExprs]
  | e :: es => by
      simpa [ofExprs] using
        (keys_ofExpr context scopes e).append (keys_ofExprs context scopes es)

end

theorem keys_ofExpr? (context : Context) (scopes : Scopes) :
    ∀ e, ((ofExpr? context scopes e).locals.map Prod.fst).Sublist (Expr.ids? e)
  | none => by simp [ofExpr?]
  | some e => keys_ofExpr context scopes e

theorem locals_redeclaration (name : Token) : (redeclaration scopes name).locals = [] :=
  locals_errorIf _ _ _

theorem locals_ofParams (params : List Token) : (ofParams scopes params).locals = [] := by
  induction params generalizing scopes with
  | nil => rfl
  | cons param params ih => simp [ofParams, locals_redeclaration, ih]

theorem locals_selfInheritance (name : Token) (e : Expr) :
    (selfInheritance name e).locals = [] := by
  unfold selfInheritance
  split
  · exact locals_errorIf _ _ _
  · rfl

theorem keys_ofClassHead (context : Context) (scopes : Scopes) (name : Token)
    (superclass : Option Expr) :
    ((ofClassHead context scopes name superclass).locals.map Prod.fst).Sublist
      (Expr.ids? superclass) := by
  cases superclass with
  | none => simp [ofClassHead, locals_redeclaration]
  | some e =>
      simpa [ofClassHead, locals_redeclaration, locals_selfInheritance] using
        keys_ofExpr _ _ e

theorem keys_ofReturn (context : Context) (scopes : Scopes) (keyword : Token)
    (value : Option Expr) :
    ((ofReturn context scopes keyword value).locals.map Prod.fst).Sublist (Expr.ids? value) := by
  simpa [ofReturn, locals_errorIf] using keys_ofExpr? context scopes value

mutual

/-- Only nodes of the statement are recorded, in their order. -/
theorem keys_ofStmt (context : Context) (scopes : Scopes) :
    ∀ s, ((ofStmt context scopes s).locals.map Prod.fst).Sublist s.ids
  | .expression e => by simpa [ofStmt] using keys_ofExpr context scopes e
  | .print e => by simpa [ofStmt] using keys_ofExpr context scopes e
  | .var name initializer => by
      simpa [ofStmt, locals_redeclaration] using keys_ofExpr? context _ initializer
  | .block body => by simpa [ofStmt] using keys_ofStmts context _ body
  | .ifThen c t => by
      simpa [ofStmt] using
        (keys_ofExpr context scopes c).append (keys_ofStmt context scopes t)
  | .ifElse c t e => by
      simpa [ofStmt] using (keys_ofExpr context scopes c).append
        ((keys_ofStmt context scopes t).append (keys_ofStmt context _ e))
  | .loop c body => by
      simpa [ofStmt] using
        (keys_ofExpr context scopes c).append (keys_ofStmt context scopes body)
  | .function decl => by
      simpa [ofStmt, locals_redeclaration] using keys_ofFunction _ _ decl
  | .ret keyword value => by
      simpa [ofStmt] using keys_ofReturn context scopes keyword value
  | .classDecl name superclass methods => by
      simpa [ofStmt] using
        (keys_ofClassHead context scopes name superclass).append (keys_ofMethods _ _ methods)

theorem keys_ofStmts (context : Context) (scopes : Scopes) :
    ∀ ss, ((ofStmts context scopes ss).locals.map Prod.fst).Sublist (Stmt.listIds ss)
  | [] => by simp [ofStmts]
  | s :: ss => by
      simpa [ofStmts] using
        (keys_ofStmt context scopes s).append (keys_ofStmts context _ ss)

theorem keys_ofFunction (context : Context) (scopes : Scopes) :
    ∀ f, ((ofFunction context scopes f).locals.map Prod.fst).Sublist f.ids
  | ⟨_, params, body⟩ => by
      simpa [ofFunction, locals_ofParams] using keys_ofStmts context _ body

theorem keys_ofMethods (context : Context) (scopes : Scopes) :
    ∀ fs, ((ofMethods context scopes fs).locals.map Prod.fst).Sublist (FunctionDecl.listIds fs)
  | [] => by simp [ofMethods]
  | f :: fs => by
      simpa [ofMethods] using
        (keys_ofFunction _ scopes f).append (keys_ofMethods context scopes fs)

end

end Lox.Resolution
