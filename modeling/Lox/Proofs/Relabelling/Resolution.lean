import Lox.Proofs.Relabelling.Trees

/-!
# Relabelling findings

What is found in a relabelled program is what is found in the program, under the new identities and
at tokens on the new lines.
-/

namespace Lox.Resolution

variable (φ : Relabelling)

def Error.relabel (e : Error) : Error :=
  ⟨e.fault, φ.token e.token⟩

def Findings.relabel (found : Findings) : Findings :=
  ⟨found.locals.map fun (id, d) => (φ.id id, d), found.errors.map (Error.relabel φ)⟩

variable {φ}

namespace Findings

@[simp] theorem relabel_append (a b : Findings) :
    (a ++ b).relabel φ = a.relabel φ ++ b.relabel φ := by
  change (⟨_, _⟩ : Findings) = ⟨_, _⟩
  simp only [locals_append, errors_append, List.map_append, relabel]

theorem relabel_errorIf (condition : Bool) (fault : Fault) (t : Token) :
    errorIf condition fault (φ.token t) = (errorIf condition fault t).relabel φ := by
  cases condition <;> rfl

end Findings

theorem relabel_reference (scopes : Scopes) (id : NodeId) (name : Token) :
    reference scopes (φ.id id) (φ.token name) = (reference scopes id name).relabel φ := by
  unfold reference
  rw [Relabelling.token_lexeme]
  cases scopes.distance? name.lexeme <;> rfl

mutual

theorem relabel_ofExpr (context : Context) (scopes : Scopes) : ∀ e : Expr,
    ofExpr context scopes (e.relabel φ) = (ofExpr context scopes e).relabel φ
  | .literal _ => rfl
  | .group inner => relabel_ofExpr context scopes inner
  | .unary _ operand => relabel_ofExpr context scopes operand
  | .binary left _ right => by
      simp only [Expr.relabel, ofExpr, Findings.relabel_append,
        relabel_ofExpr context scopes left, relabel_ofExpr context scopes right]
  | .logical left _ right => by
      simp only [Expr.relabel, ofExpr, Findings.relabel_append,
        relabel_ofExpr context scopes left, relabel_ofExpr context scopes right]
  | .conditional c t e => by
      simp only [Expr.relabel, ofExpr, Findings.relabel_append, relabel_ofExpr context scopes c,
        relabel_ofExpr context scopes t, relabel_ofExpr context scopes e]
  | .var id name => by
      simp only [Expr.relabel, ofExpr, Findings.relabel_append, relabel_reference,
        Findings.relabel_errorIf, Relabelling.token_lexeme]
  | .assign id name value => by
      simp only [Expr.relabel, ofExpr, Findings.relabel_append, relabel_reference,
        relabel_ofExpr context scopes value]
  | .call callee _ arguments => by
      simp only [Expr.relabel, ofExpr, Findings.relabel_append,
        relabel_ofExpr context scopes callee, relabel_ofExprs context scopes arguments]
  | .get object _ => relabel_ofExpr context scopes object
  | .set object _ value => by
      simp only [Expr.relabel, ofExpr, Findings.relabel_append,
        relabel_ofExpr context scopes value, relabel_ofExpr context scopes object]
  | .this id keyword => by
      simp only [Expr.relabel, ofExpr]
      split
      · rfl
      · exact relabel_reference scopes id keyword
  | .super id keyword _ => by
      simp only [Expr.relabel, ofExpr]
      split
      · rfl
      · rfl
      · exact relabel_reference scopes id keyword

theorem relabel_ofExprs (context : Context) (scopes : Scopes) : ∀ es : List Expr,
    ofExprs context scopes (Expr.listRelabel φ es) = (ofExprs context scopes es).relabel φ
  | [] => rfl
  | e :: es => by
      simp only [Expr.listRelabel, ofExprs, Findings.relabel_append,
        relabel_ofExpr context scopes e, relabel_ofExprs context scopes es]

end

theorem relabel_ofExpr? (context : Context) (scopes : Scopes) (e : Option Expr) :
    ofExpr? context scopes (e.map (Expr.relabel φ)) = (ofExpr? context scopes e).relabel φ := by
  cases e with
  | none => rfl
  | some e => exact relabel_ofExpr context scopes e

theorem relabel_redeclaration (scopes : Scopes) (name : Token) :
    redeclaration scopes (φ.token name) = (redeclaration scopes name).relabel φ :=
  Findings.relabel_errorIf _ _ _

theorem relabel_defineAll (scopes : Scopes) (names : List Token) :
    defineAll scopes (names.map φ.token) = defineAll scopes names := by
  induction names generalizing scopes with
  | nil => rfl
  | cons name names ih => exact ih _

theorem relabel_ofParams (scopes : Scopes) (params : List Token) :
    ofParams scopes (params.map φ.token) = (ofParams scopes params).relabel φ := by
  induction params generalizing scopes with
  | nil => rfl
  | cons param params ih =>
      simp only [List.map_cons, ofParams, Findings.relabel_append, relabel_redeclaration,
        Relabelling.token_lexeme, ih]

theorem relabel_declaredNames : ∀ s : Stmt,
    declaredNames (s.relabel φ) = (declaredNames s).map φ.token
  | .var _ _ => rfl
  | .function decl => by simp [FunctionDecl.relabel_name]
  | .classDecl _ _ _ => rfl
  | .ifThen _ t => relabel_declaredNames t
  | .ifElse _ t e => by simp [relabel_declaredNames t, relabel_declaredNames e]
  | .loop _ body => relabel_declaredNames body
  | .expression _ => rfl
  | .print _ => rfl
  | .block _ => rfl
  | .ret _ _ => rfl

theorem relabel_after (scopes : Scopes) (s : Stmt) :
    after scopes (s.relabel φ) = after scopes s := by
  rw [after, after, relabel_declaredNames, relabel_defineAll]

theorem relabel_selfInheritance (name : Token) (e : Expr) :
    selfInheritance (φ.token name) (e.relabel φ) = (selfInheritance name e).relabel φ := by
  cases e with
  | var id superName => exact Findings.relabel_errorIf _ _ superName
  | _ => rfl

theorem relabel_ofClassHead (context : Context) (scopes : Scopes) (name : Token)
    (superclass : Option Expr) :
    ofClassHead context scopes (φ.token name) (superclass.map (Expr.relabel φ))
      = (ofClassHead context scopes name superclass).relabel φ := by
  unfold ofClassHead
  rw [Findings.relabel_append, relabel_redeclaration]
  cases superclass with
  | none => rfl
  | some e =>
      simp only [Option.map_some, Findings.relabel_append, relabel_selfInheritance,
        relabel_ofExpr, Relabelling.token_lexeme]
      rfl

theorem relabel_ofReturn (context : Context) (scopes : Scopes) (keyword : Token)
    (value : Option Expr) :
    ofReturn context scopes (φ.token keyword) (value.map (Expr.relabel φ))
      = (ofReturn context scopes keyword value).relabel φ := by
  simp only [ofReturn, Findings.relabel_append, Findings.relabel_errorIf, relabel_ofExpr?,
    Option.isSome_map]

theorem relabel_methodScopes (scopes : Scopes) (superclass : Option Expr) :
    methodScopes scopes (superclass.map (Expr.relabel φ)) = methodScopes scopes superclass := by
  cases superclass <;> rfl

theorem relabel_classContext (context : Context) (superclass : Option Expr) :
    classContext context (superclass.map (Expr.relabel φ)) = classContext context superclass := by
  cases superclass <;> rfl

mutual

theorem relabel_ofStmt (context : Context) (scopes : Scopes) : ∀ s : Stmt,
    ofStmt context scopes (s.relabel φ) = (ofStmt context scopes s).relabel φ
  | .expression e => relabel_ofExpr context scopes e
  | .print e => relabel_ofExpr context scopes e
  | .var name initializer => by
      simp only [Stmt.relabel, ofStmt, Findings.relabel_append, relabel_redeclaration,
        relabel_ofExpr?, Relabelling.token_lexeme]
  | .block body => relabel_ofStmts context ([] :: scopes) body
  | .ifThen c t => by
      simp only [Stmt.relabel, ofStmt, Findings.relabel_append, relabel_ofExpr,
        relabel_ofStmt context scopes t]
  | .ifElse c t e => by
      simp only [Stmt.relabel, ofStmt, Findings.relabel_append, relabel_ofExpr, relabel_after,
        relabel_ofStmt context scopes t, relabel_ofStmt context (after scopes t) e]
  | .loop c body => by
      simp only [Stmt.relabel, ofStmt, Findings.relabel_append, relabel_ofExpr,
        relabel_ofStmt context scopes body]
  | .function decl => by
      simp only [Stmt.relabel, ofStmt, Findings.relabel_append, relabel_redeclaration,
        FunctionDecl.relabel_name, Relabelling.token_lexeme,
        relabel_ofFunction _ _ decl]
  | .ret keyword value => relabel_ofReturn context scopes keyword value
  | .classDecl name superclass methods => by
      simp only [Stmt.relabel, ofStmt, Findings.relabel_append, relabel_ofClassHead,
        relabel_methodScopes, relabel_classContext, Relabelling.token_lexeme,
        relabel_ofMethods _ _ methods]

theorem relabel_ofStmts (context : Context) (scopes : Scopes) : ∀ ss : List Stmt,
    ofStmts context scopes (Stmt.listRelabel φ ss) = (ofStmts context scopes ss).relabel φ
  | [] => rfl
  | s :: ss => by
      simp only [Stmt.listRelabel, ofStmts, Findings.relabel_append, relabel_after,
        relabel_ofStmt context scopes s, relabel_ofStmts context (after scopes s) ss]

theorem relabel_ofFunction (context : Context) (scopes : Scopes) : ∀ f : FunctionDecl,
    ofFunction context scopes (f.relabel φ) = (ofFunction context scopes f).relabel φ
  | ⟨_, params, body⟩ => by
      simp only [FunctionDecl.relabel, ofFunction, Findings.relabel_append, relabel_ofParams,
        relabel_defineAll, relabel_ofStmts _ _ body]

theorem relabel_ofMethods (context : Context) (scopes : Scopes) : ∀ fs : List FunctionDecl,
    ofMethods context scopes (FunctionDecl.listRelabel φ fs)
      = (ofMethods context scopes fs).relabel φ
  | [] => rfl
  | f :: fs => by
      have hcontext : methodContext (f.relabel φ) = methodContext f := by
        rw [methodContext, methodContext, FunctionDecl.relabel_isInitializer]
      simp only [FunctionDecl.listRelabel, ofMethods, Findings.relabel_append, hcontext,
        relabel_ofFunction _ _ f, relabel_ofMethods context scopes fs]

end

end Lox.Resolution
