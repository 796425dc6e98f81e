import Lox.Grammar.Statement
import Lox.Proofs.Grammar.Yields
import Lox.Proofs.Relabelling.Trees

/-!
# Relabelling parses

A parse hands out identities one after the other and never looks at a line. If the input is moved to
other lines and the identities begin elsewhere, the result is relabelled in the same way.
-/

namespace Lox

/-- The new identities of successive nodes are successive. -/
def Relabelling.Successive (φ : Relabelling) : Prop :=
  ∀ n, φ.id (n + 1) = φ.id n + 1

namespace Grammar

variable {α β γ δ : Type} {φ : Relabelling}

section Definitions

variable (φ : Relabelling)

def Error.relabel (e : Error) : Error :=
  ⟨e.fault, φ.token e.token⟩

def Cursor.relabel (c : Cursor) : Cursor :=
  ⟨c.rest.map φ.token, φ.line c.endLine, φ.id c.nextId, c.errors.map (Error.relabel φ)⟩

def relabelResult (f : α → β) :
    EStateM.Result Error Cursor α → EStateM.Result Error Cursor β
  | .ok a c => .ok (f a) (c.relabel φ)
  | .error e c => .error (e.relabel φ) (c.relabel φ)

/-- On relabelled inputs the second rule does what the first one does, relabelled. -/
def Commutes (f : α → β) (r : Rule α) (r' : Rule β) : Prop :=
  ∀ c, r' (c.relabel φ) = relabelResult φ f (r c)

def Suffix.relabel : Suffix → Suffix
  | .call paren arguments => .call (φ.token paren) (Expr.listRelabel φ arguments)
  | .get name => .get (φ.token name)

def relabelOperand (x : Token × Expr) : Token × Expr :=
  (φ.token x.1, x.2.relabel φ)

end Definitions

theorem Cursor.relabel_next (c : Cursor) : (c.relabel φ).next = φ.token c.next := by
  unfold next relabel
  cases c.rest <;> rfl

namespace Commutes

variable {f : α → β} {g : γ → δ}

theorem pure {a : α} {b : β} (h : f a = b) : Commutes φ f (pure a) (pure b) :=
  fun _ => h ▸ rfl

theorem bind {r : Rule α} {r' : Rule β} {k : α → Rule γ} {k' : β → Rule δ}
    (hr : Commutes φ f r r') (hk : ∀ a, Commutes φ g (k a) (k' (f a))) :
    Commutes φ g (r >>= k) (r' >>= k') := by
  intro c
  rw [bind_apply, bind_apply, hr c]
  cases r c with
  | ok a c' => exact hk a c'
  | error e c' => rfl

end Commutes

theorem commutes_peek : Commutes φ φ.token peek peek := by
  intro c
  simp only [peek, relabelResult, Cursor.relabel_next]

theorem commutes_sees (s : Symbol) : Commutes φ id (sees s) (sees s) := by
  intro c
  simp only [sees, relabelResult, Cursor.relabel_next, Relabelling.token_terminal, id_eq]

theorem commutes_atEnd : Commutes φ id atEnd atEnd := by
  intro c
  simp only [atEnd, relabelResult, Cursor.relabel, List.isEmpty_map, id_eq]

theorem commutes_take : Commutes φ φ.token take take := by
  intro c
  simp only [take, relabelResult, Cursor.relabel_next]
  simp only [Cursor.relabel, List.map_tail]

theorem commutes_takeIf (p : Terminal → Bool) :
    Commutes φ (Option.map φ.token) (takeIf p) (takeIf p) := by
  intro c
  obtain ⟨rest, endLine, nextId, errors⟩ := c
  cases rest with
  | nil => rfl
  | cons t rest =>
      simp only [takeIf, Cursor.relabel, List.map_cons, Relabelling.token_terminal]
      split <;> rfl

theorem commutes_accept (s : Symbol) :
    Commutes φ (Option.map φ.token) (accept s) (accept s) :=
  commutes_takeIf _

theorem commutes_acceptAny (symbols : List Symbol) :
    Commutes φ (Option.map φ.token) (acceptAny symbols) (acceptAny symbols) :=
  commutes_takeIf _

theorem commutes_fail (f : α → β) (part : Part) : Commutes φ f (fail part) (fail part) := by
  intro c
  simp only [fail, relabelResult, Error.relabel, Cursor.relabel_next]

theorem commutes_expectTerminal (t : Terminal) (part : Part) :
    Commutes φ φ.token (expectTerminal t part) (expectTerminal t part) := by
  unfold expectTerminal
  refine (commutes_takeIf _).bind fun t? => ?_
  cases t? with
  | none => exact commutes_fail _ part
  | some t => exact .pure rfl

theorem commutes_expect (s : Symbol) (part : Part) :
    Commutes φ φ.token (expect s part) (expect s part) :=
  commutes_expectTerminal _ part

theorem commutes_expectName (part : Part) :
    Commutes φ φ.token (expectName part) (expectName part) :=
  commutes_expectTerminal _ part

theorem commutes_freshId (h : φ.Successive) : Commutes φ φ.id freshId freshId := by
  intro c
  simp only [freshId, relabelResult, Cursor.relabel, h c.nextId]

theorem commutes_record (fault : Fault) (t : Token) :
    Commutes φ id (record fault t) (record fault (φ.token t)) := by
  intro c
  simp only [record, relabelResult, Cursor.record, Cursor.relabel, List.map_append, id_eq]
  rfl

theorem commutes_recordNext (fault : Fault) :
    Commutes φ id (recordNext fault) (recordNext fault) := by
  intro c
  simp only [recordNext, relabelResult, Cursor.relabel_next, id_eq]
  simp only [Cursor.record, Cursor.relabel, List.map_append]
  rfl

theorem commutes_collectUpTo {f : α → β} {step : Nat → Rule (Option α)}
    {step' : Nat → Rule (Option β)}
    (h : ∀ count, Commutes φ (Option.map f) (step count) (step' count)) (n count : Nat) :
    Commutes φ (List.map f) (collectUpTo step n count) (collectUpTo step' n count) := by
  induction n generalizing count with
  | zero => exact .pure rfl
  | succ n ih =>
      refine (h count).bind fun a? => ?_
      cases a? with
      | none => exact .pure rfl
      | some a => exact (ih (count + 1)).bind fun more => .pure rfl

theorem commutes_collect {f : α → β} {step : Nat → Rule (Option α)}
    {step' : Nat → Rule (Option β)}
    (h : ∀ count, Commutes φ (Option.map f) (step count) (step' count)) :
    Commutes φ (List.map f) (collect step) (collect step') := by
  intro c
  have hlen : (c.relabel φ).rest.length = c.rest.length := List.length_map _
  rw [collect, hlen]
  exact commutes_collectUpTo h _ _ c

theorem commutes_commaSeparated {f : α → β} (tooMany : Fault) {item : Rule α} {item' : Rule β}
    (h : Commutes φ f item item') :
    Commutes φ (List.map f) (commaSeparated tooMany item) (commaSeparated tooMany item') := by
  have hnext : Commutes φ (Option.map f) (do let a ← item; pure (some a))
      (do let b ← item'; pure (some b)) :=
    h.bind fun a => .pure rfl
  unfold commaSeparated nextItem?
  refine h.bind fun first => (commutes_collect (f := f) fun count => ?_).bind
    fun more => .pure rfl
  refine (commutes_accept .comma).bind fun comma? => ?_
  cases comma? with
  | none => exact .pure rfl
  | some comma =>
      simp only [Option.map_some]
      split
      · exact (commutes_recordNext tooMany).bind fun _ => hnext
      · exact hnext

/-! ## Expressions -/

section Expressions

variable (hφ : φ.Successive) {self : Nonterminal → Rule Expr}

theorem commutes_optional {f : α → β} {r : Rule α} {r' : Rule β} (h : Commutes φ f r r') :
    Commutes φ (Option.map f) (do let a ← r; pure (some a)) (do let b ← r'; pure (some b)) :=
  h.bind fun _ => .pure rfl

theorem commutes_argumentList {expression expression' : Rule Expr}
    (h : Commutes φ (Expr.relabel φ) expression expression') :
    Commutes φ (Suffix.relabel φ) (argumentList expression) (argumentList expression') := by
  unfold argumentList
  refine (commutes_sees _).bind fun empty => ?_
  have hclose : ∀ arguments, Commutes φ (Suffix.relabel φ)
      (do let paren ← expect .rightParen .argumentsEnd
          pure (Suffix.call paren arguments))
      (do let paren ← expect .rightParen .argumentsEnd
          pure (Suffix.call paren (arguments.map (Expr.relabel φ)))) := by
    intro arguments
    refine (commutes_expect _ _).bind fun paren => .pure ?_
    rw [Suffix.relabel, Expr.listRelabel_eq_map]
  cases empty with
  | true => exact Commutes.bind (f := List.map (Expr.relabel φ)) (.pure rfl) hclose
  | false => exact (commutes_commaSeparated _ h).bind hclose

theorem commutes_suffix? {expression expression' : Rule Expr}
    (h : Commutes φ (Expr.relabel φ) expression expression') :
    Commutes φ (Option.map (Suffix.relabel φ)) (suffix? expression) (suffix? expression') := by
  unfold suffix?
  refine (commutes_acceptAny _).bind fun t? => ?_
  cases t? with
  | none => exact .pure rfl
  | some t =>
      have hterminal : ((φ.token t).terminal == .symbol .dot) = (t.terminal == .symbol .dot) := rfl
      by_cases hdot : (t.terminal == .symbol .dot) = true
      · simp only [Option.map_some, if_pos hdot, if_pos (hterminal.trans hdot)]
        exact (commutes_expectName _).bind fun name => .pure rfl
      · simp only [Option.map_some, if_neg hdot, if_neg (hterminal.trans_ne hdot)]
        exact commutes_optional (commutes_argumentList h)

theorem relabel_foldl_apply (suffixes : List Suffix) (base : Expr) :
    (suffixes.foldl Suffix.apply base).relabel φ
      = (suffixes.map (Suffix.relabel φ)).foldl Suffix.apply (base.relabel φ) := by
  induction suffixes generalizing base with
  | nil => rfl
  | cons s suffixes ih =>
      rw [List.foldl_cons, ih]
      cases s <;> rfl

theorem relabel_foldl_node {level : Level}
    (hnode : ∀ l t r, (level.node l t r).relabel φ
      = level.node (l.relabel φ) (φ.token t) (r.relabel φ))
    (more : List (Token × Expr)) (first : Expr) :
    (more.foldl (fun l x => level.node l x.1 x.2) first).relabel φ
      = (more.map (relabelOperand φ)).foldl (fun l x => level.node l x.1 x.2)
          (first.relabel φ) := by
  induction more generalizing first with
  | nil => rfl
  | cons x more ih =>
      rw [List.foldl_cons, ih, hnode]
      rfl

include hφ

theorem commutes_primary {expression expression' : Rule Expr}
    (h : Commutes φ (Expr.relabel φ) expression expression') :
    Commutes φ (Expr.relabel φ) (primary expression) (primary expression') := by
  have hliteral : ∀ value, Commutes φ (Expr.relabel φ)
      (do let _ ← take; pure (Expr.literal value)) (do let _ ← take; pure (Expr.literal value)) :=
    fun value => commutes_take.bind fun _ => .pure rfl
  unfold primary
  refine commutes_peek.bind fun t => ?_
  rw [Relabelling.token_kind]
  generalize t.kind = kind
  split
  iterate 5
    · exact hliteral _
  · exact commutes_take.bind fun keyword => (commutes_freshId hφ).bind fun id => .pure rfl
  · refine commutes_take.bind fun keyword => (commutes_expect _ _).bind fun dot => ?_
    refine (commutes_expectName _).bind fun method => ?_
    exact (commutes_freshId hφ).bind fun id => .pure rfl
  · exact commutes_take.bind fun name => (commutes_freshId hφ).bind fun id => .pure rfl
  · refine commutes_take.bind fun paren => h.bind fun inner => ?_
    exact (commutes_expect _ _).bind fun paren => .pure rfl
  · exact commutes_fail _ _

theorem commutes_postfixed {expression expression' : Rule Expr}
    (h : Commutes φ (Expr.relabel φ) expression expression') :
    Commutes φ (Expr.relabel φ) (postfixed expression) (postfixed expression') := by
  unfold postfixed
  refine (commutes_primary hφ h).bind fun base => ?_
  refine (commutes_collect fun _ => commutes_suffix? h).bind fun suffixes => .pure ?_
  exact relabel_foldl_apply suffixes base

omit hφ in
theorem commutes_leftAssociative {level : Level} {operand operand' : Rule Expr}
    (hnode : ∀ l t r, (level.node l t r).relabel φ
      = level.node (l.relabel φ) (φ.token t) (r.relabel φ))
    (h : Commutes φ (Expr.relabel φ) operand operand') :
    Commutes φ (Expr.relabel φ) (leftAssociative level operand)
      (leftAssociative level operand') := by
  unfold leftAssociative
  refine h.bind fun first => ?_
  refine (commutes_collect (f := relabelOperand φ) fun _ => ?_).bind
    fun more => .pure (relabel_foldl_node hnode more first)
  unfold rightOperand?
  refine (commutes_acceptAny _).bind fun t? => ?_
  cases t? with
  | none => exact .pure rfl
  | some t => exact h.bind fun right => .pure rfl

omit hφ in
theorem commutes_binaryOver {unary unary' : Rule Expr}
    (h : Commutes φ (Expr.relabel φ) unary unary') {ls : List Level}
    (hls : ∀ level ∈ ls, ∀ l t r, (level.node l t r).relabel φ
      = level.node (l.relabel φ) (φ.token t) (r.relabel φ)) :
    Commutes φ (Expr.relabel φ) (binaryOver unary ls) (binaryOver unary' ls) := by
  induction ls with
  | nil => exact h
  | cons level tighter ih =>
      apply commutes_leftAssociative (hls level List.mem_cons_self)
      exact ih fun level' hmem => hls level' (List.mem_cons_of_mem level hmem)

omit hφ in
theorem relabel_node : ∀ level ∈ levels, ∀ l t r, (level.node l t r).relabel φ
    = level.node (l.relabel φ) (φ.token t) (r.relabel φ) := by
  simp [levels]

theorem commutes_unaryRule (hself : ∀ x, Commutes φ (Expr.relabel φ) (self x) (self x)) :
    Commutes φ (Expr.relabel φ) (unaryRule self) (unaryRule self) := by
  unfold unaryRule
  refine (commutes_acceptAny _).bind fun t? => ?_
  cases t? with
  | none => exact commutes_postfixed hφ (hself .expression)
  | some t => exact (hself .unary).bind fun operand => .pure rfl

theorem commutes_conditionalRule (hself : ∀ x, Commutes φ (Expr.relabel φ) (self x) (self x)) :
    Commutes φ (Expr.relabel φ) (conditionalRule self) (conditionalRule self) := by
  unfold conditionalRule
  refine (commutes_binaryOver (commutes_unaryRule hφ hself) relabel_node).bind
    fun condition => ?_
  refine (commutes_accept _).bind fun t? => ?_
  cases t? with
  | none => exact .pure rfl
  | some t =>
      refine (hself .conditional).bind fun thenBranch => ?_
      refine (commutes_expect _ _).bind fun colon => ?_
      exact (hself .conditional).bind fun elseBranch => .pure rfl

theorem commutes_assignTo (target : Expr) (equals : Token) (value : Expr) :
    Commutes φ (Expr.relabel φ) (assignTo target equals value)
      (assignTo (target.relabel φ) (φ.token equals) (value.relabel φ)) := by
  cases target with
  | var id name => exact (commutes_freshId hφ).bind fun id => .pure rfl
  | get object name => exact .pure rfl
  | _ => exact (commutes_record _ equals).bind fun _ => .pure rfl

theorem commutes_assignmentRule (hself : ∀ x, Commutes φ (Expr.relabel φ) (self x) (self x)) :
    Commutes φ (Expr.relabel φ) (assignmentRule self) (assignmentRule self) := by
  unfold assignmentRule
  refine (commutes_conditionalRule hφ hself).bind fun target => ?_
  refine (commutes_accept _).bind fun t? => ?_
  cases t? with
  | none => exact .pure rfl
  | some equals =>
      exact (hself .expression).bind fun value => commutes_assignTo hφ target equals value

theorem commutes_expressionUpTo (n : Nat) (x : Nonterminal) :
    Commutes φ (Expr.relabel φ) (expressionUpTo n x) (expressionUpTo n x) := by
  induction n generalizing x with
  | zero => exact commutes_fail _ _
  | succ n ih =>
      cases x with
      | expression => exact commutes_assignmentRule hφ ih
      | conditional => exact commutes_conditionalRule hφ ih
      | unary => exact commutes_unaryRule hφ ih

theorem commutes_expression : Commutes φ (Expr.relabel φ) expression expression := by
  intro c
  have hlen : (c.relabel φ).rest.length = c.rest.length := List.length_map _
  rw [expression, hlen]
  exact commutes_expressionUpTo hφ _ _ c

end Expressions

/-! ## Statements -/

section Statements

variable {statement statement' : Rule Stmt} {declaration declaration' : Rule (Option Stmt)}

theorem skipStatement_map (ts : List Token) :
    skipStatement (ts.map φ.token) = (skipStatement ts).map φ.token := by
  induction ts with
  | nil => rfl
  | cons t ts ih =>
      have hbegins : beginsStatement (φ.token t) = beginsStatement t := rfl
      rw [List.map_cons, skipStatement, skipStatement, hbegins, Relabelling.token_terminal, ih]
      split
      · rfl
      · split <;> rfl

theorem synchronize_map (ts : List Token) :
    synchronize (ts.map φ.token) = (synchronize ts).map φ.token := by
  cases ts with
  | nil => rfl
  | cons t ts =>
      rw [List.map_cons, synchronize, synchronize, Relabelling.token_terminal, skipStatement_map]
      split <;> rfl

theorem commutes_recover {f : α → β} {r : Rule α} {r' : Rule β} (h : Commutes φ f r r') :
    Commutes φ (Option.map f) (recover r) (recover r') := by
  intro c
  simp only [recover, h c]
  cases r c with
  | ok a c' => rfl
  | error e c' =>
      simp only [relabelResult, Cursor.record, Cursor.relabel, List.map_append, synchronize_map]
      rfl

theorem relabel_filterMap_id (found : List (Option Stmt)) :
    Stmt.listRelabel φ (found.filterMap id)
      = (found.map (Option.map (Stmt.relabel φ))).filterMap id := by
  rw [Stmt.listRelabel_eq_map, List.map_filterMap, List.filterMap_map]
  rfl

theorem commutes_beforeBrace {f : α → β} {item : Rule α} {item' : Rule β}
    (h : Commutes φ f item item') :
    Commutes φ (Option.map f) (beforeBrace item) (beforeBrace item') := by
  unfold beforeBrace
  refine (commutes_sees _).bind fun closed => commutes_atEnd.bind fun ended => ?_
  simp only [id_eq]
  split
  · exact .pure rfl
  · exact commutes_optional h

theorem commutes_block
    (hd : Commutes φ (Option.map (Stmt.relabel φ)) declaration declaration') :
    Commutes φ (Stmt.listRelabel φ) (block declaration) (block declaration') := by
  have hdeclarations : Commutes φ (Stmt.listRelabel φ) (declarations declaration)
      (declarations declaration') := by
    unfold declarations
    refine (commutes_collect fun _ => commutes_beforeBrace hd).bind fun found => .pure ?_
    exact relabel_filterMap_id found
  unfold block
  refine hdeclarations.bind fun body => ?_
  exact (commutes_expect _ _).bind fun brace => .pure rfl

theorem commutes_callable (sort : Callable)
    (hd : Commutes φ (Option.map (Stmt.relabel φ)) declaration declaration') :
    Commutes φ (FunctionDecl.relabel φ) (callable declaration sort)
      (callable declaration' sort) := by
  unfold callable
  refine (commutes_expectName _).bind fun name => ?_
  refine (commutes_expect _ _).bind fun paren => ?_
  refine (commutes_sees _).bind fun empty => ?_
  have hrest : ∀ params : List Token, Commutes φ (FunctionDecl.relabel φ)
      (do let _ ← expect .rightParen .parametersEnd
          let _ ← expect .leftBrace (.bodyStart sort)
          let body ← block declaration
          pure (FunctionDecl.mk name params body))
      (do let _ ← expect .rightParen .parametersEnd
          let _ ← expect .leftBrace (.bodyStart sort)
          let body ← block declaration'
          pure (FunctionDecl.mk (φ.token name) (params.map φ.token) body)) := by
    intro params
    refine (commutes_expect _ _).bind fun paren => ?_
    refine (commutes_expect _ _).bind fun brace => ?_
    exact (commutes_block hd).bind fun body => .pure rfl
  cases empty with
  | true => exact Commutes.bind (f := List.map φ.token) (.pure rfl) hrest
  | false => exact (commutes_commaSeparated _ (commutes_expectName _)).bind hrest

theorem commutes_superclass? (hφ : φ.Successive) :
    Commutes φ (Option.map (Expr.relabel φ)) superclass? superclass? := by
  unfold superclass?
  refine (commutes_accept _).bind fun less? => ?_
  cases less? with
  | none => exact .pure rfl
  | some less =>
      refine (commutes_expectName _).bind fun name => ?_
      exact (commutes_freshId hφ).bind fun id => .pure rfl

theorem commutes_classRule (hφ : φ.Successive)
    (hd : Commutes φ (Option.map (Stmt.relabel φ)) declaration declaration') :
    Commutes φ (Stmt.relabel φ) (classRule declaration) (classRule declaration') := by
  unfold classRule
  refine (commutes_expectName _).bind fun name => ?_
  refine (commutes_superclass? hφ).bind fun superclass => ?_
  refine (commutes_expect _ _).bind fun brace => ?_
  refine (commutes_collect fun _ => commutes_beforeBrace (commutes_callable .method hd)).bind
    fun methods => ?_
  refine (commutes_expect _ _).bind fun brace => .pure ?_
  rw [Stmt.relabel, FunctionDecl.listRelabel_eq_map]

theorem commutes_varRule (hφ : φ.Successive) : Commutes φ (Stmt.relabel φ) varRule varRule := by
  unfold varRule
  refine (commutes_expectName _).bind fun name => ?_
  refine (commutes_accept _).bind fun equal? => ?_
  have hrest : ∀ initializer : Option Expr, Commutes φ (Stmt.relabel φ)
      (do let _ ← expect .semicolon .variableEnd
          pure (Stmt.var name initializer))
      (do let _ ← expect .semicolon .variableEnd
          pure (Stmt.var (φ.token name) (initializer.map (Expr.relabel φ)))) :=
    fun initializer => (commutes_expect _ _).bind fun semicolon => .pure rfl
  cases equal? with
  | none => exact Commutes.bind (f := Option.map (Expr.relabel φ)) (.pure rfl) hrest
  | some equal =>
      exact (commutes_expression hφ).bind fun value =>
        Commutes.bind (f := Option.map (Expr.relabel φ)) (.pure rfl) hrest

theorem commutes_expressionRule (hφ : φ.Successive) :
    Commutes φ (Stmt.relabel φ) expressionRule expressionRule :=
  (commutes_expression hφ).bind fun _ => (commutes_expect _ _).bind fun _ => .pure rfl

theorem commutes_expressionUnless (hφ : φ.Successive) (s : Symbol) :
    Commutes φ (Option.map (Expr.relabel φ)) (expressionUnless s) (expressionUnless s) := by
  unfold expressionUnless
  refine (commutes_sees _).bind fun missing => ?_
  cases missing with
  | true => exact .pure rfl
  | false => exact commutes_optional (commutes_expression hφ)

theorem relabel_forLoop (initializer : Option Stmt) (condition increment : Option Expr)
    (body : Stmt) :
    (forLoop initializer condition increment body).relabel φ
      = forLoop (initializer.map (Stmt.relabel φ)) (condition.map (Expr.relabel φ))
          (increment.map (Expr.relabel φ)) (body.relabel φ) := by
  cases initializer <;> cases condition <;> cases increment <;> rfl

theorem commutes_forInitializer (hφ : φ.Successive) :
    Commutes φ (Option.map (Stmt.relabel φ)) forInitializer forInitializer := by
  unfold forInitializer
  refine (commutes_acceptAny _).bind fun t? => ?_
  cases t? with
  | none => exact commutes_optional (commutes_expressionRule hφ)
  | some t =>
      have hterminal :
          ((φ.token t).terminal == .symbol .semicolon) = (t.terminal == .symbol .semicolon) := rfl
      by_cases hempty : (t.terminal == .symbol .semicolon) = true
      · simp only [Option.map_some, if_pos hempty, if_pos (hterminal.trans hempty)]
        exact .pure rfl
      · simp only [Option.map_some, if_neg hempty, if_neg (hterminal.trans_ne hempty)]
        exact commutes_optional (commutes_varRule hφ)

theorem commutes_forRule (hφ : φ.Successive)
    (hs : Commutes φ (Stmt.relabel φ) statement statement') :
    Commutes φ (Stmt.relabel φ) (forRule statement) (forRule statement') := by
  unfold forRule
  refine (commutes_expect _ _).bind fun paren => ?_
  refine (commutes_forInitializer hφ).bind fun initializer => ?_
  refine (commutes_expressionUnless hφ _).bind fun condition => ?_
  refine (commutes_expect _ _).bind fun semicolon => ?_
  refine (commutes_expressionUnless hφ _).bind fun increment => ?_
  refine (commutes_expect _ _).bind fun paren => ?_
  exact hs.bind fun body => .pure (relabel_forLoop initializer condition increment body)

theorem commutes_ifRule (hφ : φ.Successive)
    (hs : Commutes φ (Stmt.relabel φ) statement statement') :
    Commutes φ (Stmt.relabel φ) (ifRule statement) (ifRule statement') := by
  unfold ifRule
  refine (commutes_expect _ _).bind fun paren => ?_
  refine (commutes_expression hφ).bind fun condition => ?_
  refine (commutes_expect _ _).bind fun paren => ?_
  refine hs.bind fun thenBranch => ?_
  refine (commutes_accept _).bind fun else? => ?_
  cases else? with
  | none => exact .pure rfl
  | some word => exact hs.bind fun elseBranch => .pure rfl

theorem commutes_whileRule (hφ : φ.Successive)
    (hs : Commutes φ (Stmt.relabel φ) statement statement') :
    Commutes φ (Stmt.relabel φ) (whileRule statement) (whileRule statement') := by
  unfold whileRule
  refine (commutes_expect _ _).bind fun paren => ?_
  refine (commutes_expression hφ).bind fun condition => ?_
  refine (commutes_expect _ _).bind fun paren => ?_
  exact hs.bind fun body => .pure rfl

theorem commutes_statementRule (hφ : φ.Successive)
    (hs : Commutes φ (Stmt.relabel φ) statement statement')
    (hd : Commutes φ (Option.map (Stmt.relabel φ)) declaration declaration') :
    Commutes φ (Stmt.relabel φ) (statementRule statement declaration)
      (statementRule statement' declaration') := by
  unfold statementRule
  refine commutes_peek.bind fun t => ?_
  rw [Relabelling.token_kind]
  generalize t.kind = kind
  split
  · exact commutes_take.bind fun _ => commutes_forRule hφ hs
  · exact commutes_take.bind fun _ => commutes_ifRule hφ hs
  · exact commutes_take.bind fun _ => commutes_whileRule hφ hs
  · refine commutes_take.bind fun keyword => (commutes_expressionUnless hφ _).bind fun value => ?_
    exact (commutes_expect _ _).bind fun semicolon => .pure rfl
  · exact commutes_take.bind fun _ => (commutes_block hd).bind fun body => .pure rfl
  · refine commutes_take.bind fun _ => (commutes_expression hφ).bind fun e => ?_
    exact (commutes_expect _ _).bind fun semicolon => .pure rfl
  · exact commutes_expressionRule hφ

theorem commutes_declarationRule (hφ : φ.Successive)
    (hs : Commutes φ (Stmt.relabel φ) statement statement')
    (hd : Commutes φ (Option.map (Stmt.relabel φ)) declaration declaration') :
    Commutes φ (Stmt.relabel φ) (declarationRule statement declaration)
      (declarationRule statement' declaration') := by
  have hstatement := commutes_statementRule hφ hs hd
  unfold declarationRule
  refine commutes_peek.bind fun t => ?_
  rw [Relabelling.token_kind]
  generalize t.kind = kind
  split
  · exact commutes_take.bind fun _ => commutes_classRule hφ hd
  · exact commutes_take.bind fun _ => (commutes_callable .function hd).bind fun f => .pure rfl
  · exact commutes_take.bind fun _ => commutes_varRule hφ
  · exact hstatement

theorem commutes_upTo (hφ : φ.Successive) (n : Nat) :
    Commutes φ (Stmt.relabel φ) (statementUpTo n) (statementUpTo n)
      ∧ Commutes φ (Option.map (Stmt.relabel φ)) (declarationUpTo n) (declarationUpTo n) := by
  induction n with
  | zero => exact ⟨commutes_fail _ _, commutes_recover (commutes_fail _ _)⟩
  | succ n ih =>
      obtain ⟨hs, hd⟩ := ih
      constructor
      · exact commutes_statementRule hφ hs hd
      · exact commutes_recover (commutes_declarationRule hφ hs hd)

theorem commutes_programUpTo (hφ : φ.Successive) (n : Nat) :
    Commutes φ (Stmt.listRelabel φ) (programUpTo n) (programUpTo n) := by
  unfold programUpTo
  refine (commutes_collect (f := Option.map (Stmt.relabel φ)) fun _ => ?_).bind
    fun found => .pure (relabel_filterMap_id found)
  refine commutes_atEnd.bind fun ended => ?_
  cases ended with
  | true => exact .pure rfl
  | false => exact commutes_optional (commutes_upTo hφ n).2

end Statements

theorem relabel_ofTokens {tokens : List Token} (hend : tokens.any isEnd = true)
    (firstId : NodeId) :
    Cursor.ofTokens (tokens.map φ.token) (φ.id firstId)
      = (Cursor.ofTokens tokens firstId).relabel φ := by
  have hisEnd : isEnd ∘ φ.token = isEnd := rfl
  have hnotEnd : (fun t => !isEnd t) ∘ φ.token = fun t => !isEnd t := rfl
  obtain ⟨t, ht⟩ : ∃ t, tokens.find? isEnd = some t := by
    rw [← Option.isSome_iff_exists, List.find?_isSome]
    simpa using hend
  unfold Cursor.ofTokens Cursor.relabel
  rw [List.find?_map, hisEnd, ht, List.takeWhile_map, hnotEnd]
  rfl

/-- The parse of tokens on new lines with other identities is the parse, relabelled. -/
theorem relabel_parseProgram (hφ : φ.Successive) {tokens : List Token}
    (hend : tokens.any isEnd = true) (firstId : NodeId) :
    parseProgram (tokens.map φ.token) (φ.id firstId)
      = ⟨Stmt.listRelabel φ (parseProgram tokens firstId).result,
          (parseProgram tokens firstId).errors.map (Error.relabel φ),
          φ.id (parseProgram tokens firstId).nextId⟩ := by
  have hlen : ((Cursor.ofTokens tokens firstId).relabel φ).rest.length
      = (Cursor.ofTokens tokens firstId).rest.length := List.length_map _
  have hrun := commutes_programUpTo hφ (Cursor.ofTokens tokens firstId).rest.length
    (Cursor.ofTokens tokens firstId)
  simp only [parseProgram, relabel_ofTokens hend, hlen, hrun]
  cases programUpTo (Cursor.ofTokens tokens firstId).rest.length
      (Cursor.ofTokens tokens firstId) with
  | ok program c => rfl
  | error e c => simp [relabelResult, Cursor.relabel]

end Grammar

end Lox
