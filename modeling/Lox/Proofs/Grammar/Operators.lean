import Lox.Grammar.Statement
import Lox.Proofs.Grammar.Yields

/-!
# The operators of a parse

Whatever the tokens, the operator of each unary and binary node of a parsed program is one that an
evaluation knows. A rule says nothing about its failures here, since a statement that fails is
missing from the program.
-/

namespace Lox

/-- The token is a unary operator. -/
def Token.IsUnary (t : Token) : Prop :=
  ∃ s ∈ [Symbol.bang, .minus], t.kind = .symbol s

/-- The symbols of operators that evaluate both operands. -/
def Symbol.binaries : List Symbol :=
  [.equalEqual, .bangEqual, .plus, .minus, .star, .slash, .greater, .greaterEqual, .less,
    .lessEqual]

/-- The token is a binary operator that evaluates both operands. -/
def Token.IsBinary (t : Token) : Prop :=
  ∃ s ∈ Symbol.binaries, t.kind = .symbol s

mutual

/-- All unary and binary nodes of the expression have operators of their sort. -/
@[simp] def Expr.Operable : Expr → Prop
  | .unary operator operand => operator.IsUnary ∧ operand.Operable
  | .binary left operator right => operator.IsBinary ∧ left.Operable ∧ right.Operable
  | .group inner => inner.Operable
  | .logical left _ right => left.Operable ∧ right.Operable
  | .conditional c t e => c.Operable ∧ t.Operable ∧ e.Operable
  | .assign _ _ value => value.Operable
  | .call callee _ arguments => callee.Operable ∧ Expr.ListOperable arguments
  | .get object _ => object.Operable
  | .set object _ value => object.Operable ∧ value.Operable
  | _ => True

@[simp] def Expr.ListOperable : List Expr → Prop
  | [] => True
  | e :: es => e.Operable ∧ Expr.ListOperable es

end

@[simp] def Expr.Operable? (e : Option Expr) : Prop :=
  ∀ inner ∈ e, inner.Operable

mutual

@[simp] def Stmt.Operable : Stmt → Prop
  | .expression e => e.Operable
  | .print e => e.Operable
  | .var _ initializer => Expr.Operable? initializer
  | .block body => Stmt.ListOperable body
  | .ifThen c t => c.Operable ∧ t.Operable
  | .ifElse c t e => c.Operable ∧ t.Operable ∧ e.Operable
  | .loop c body => c.Operable ∧ body.Operable
  | .function decl => decl.Operable
  | .ret _ value => Expr.Operable? value
  | .classDecl _ superclass methods =>
      Expr.Operable? superclass ∧ FunctionDecl.ListOperable methods

@[simp] def Stmt.ListOperable : List Stmt → Prop
  | [] => True
  | s :: ss => s.Operable ∧ Stmt.ListOperable ss

@[simp] def FunctionDecl.Operable : FunctionDecl → Prop
  | ⟨_, _, body⟩ => Stmt.ListOperable body

@[simp] def FunctionDecl.ListOperable : List FunctionDecl → Prop
  | [] => True
  | f :: fs => f.Operable ∧ FunctionDecl.ListOperable fs

end

namespace Grammar

variable {α β : Type}

/-- Every result of the rule has the property. -/
def Gives (r : Rule α) (P : α → Prop) : Prop :=
  ∀ c a c', r c = .ok a c' → P a

namespace Gives

variable {r : Rule α} {f : α → Rule β} {P : α → Prop} {R : β → Prop}

theorem pure {a : α} (h : P a) : Gives (pure a) P := by
  rintro c b c' ⟨⟩
  exact h

theorem bind (hr : Gives r P) (hf : ∀ a, P a → Gives (f a) R) : Gives (r >>= f) R := by
  intro c b d h
  obtain ⟨a, c', hrc, hfc⟩ := bind_eq_ok h
  exact hf a (hr _ _ _ hrc) _ _ _ hfc

/-- A rule whose own result does not matter. -/
theorem after (hf : ∀ a, Gives (f a) R) : Gives (r >>= f) R :=
  bind (P := fun _ => True) (fun _ _ _ _ => trivial) fun a _ => hf a

end Gives

theorem gives_fail (part : Part) (P : α → Prop) : Gives (fail part : Rule α) P := by
  rintro c a c' ⟨⟩

theorem gives_acceptAny (symbols : List Symbol) :
    Gives (acceptAny symbols) fun t? => ∀ t ∈ t?, ∃ s ∈ symbols, t.kind = .symbol s := by
  intro c t? c' h t ht
  unfold acceptAny takeIf at h
  split at h
  · cases h
    cases ht
  · next u rest _ =>
    split at h
    · next hp =>
      cases h
      cases ht
      obtain ⟨kind, lexeme, line⟩ := t
      cases kind with
      | symbol s => exact ⟨s, by simpa [Token.terminal, Token.Kind.terminal] using hp, rfl⟩
      | _ => cases hp
    · cases h
      cases ht

theorem gives_collect {step : Nat → Rule (Option α)} {P : α → Prop}
    (hstep : ∀ count, Gives (step count) fun a? => ∀ a ∈ a?, P a) :
    Gives (collect step) fun as => ∀ a ∈ as, P a := by
  have hrounds (rounds : Nat) : ∀ count,
      Gives (collectUpTo step rounds count) fun as => ∀ a ∈ as, P a := by
    induction rounds with
    | zero => exact fun count => .pure (by simp)
    | succ rounds ih =>
        intro count
        refine (hstep count).bind fun a? ha => ?_
        cases a? with
        | none => exact .pure (by simp)
        | some a => exact (ih _).bind fun as has => .pure (List.forall_mem_cons.mpr ⟨ha a rfl, has⟩)
  intro c as c' h
  exact hrounds _ _ _ _ _ h

theorem gives_commaSeparated {item : Rule α} {tooMany : Fault} {P : α → Prop}
    (hitem : Gives item P) : Gives (commaSeparated tooMany item) fun as => ∀ a ∈ as, P a := by
  have hnext : Gives (do let next ← item; pure (some next)) fun a? => ∀ a ∈ a?, P a :=
    hitem.bind fun a ha => .pure (by rintro b ⟨⟩; exact ha)
  unfold commaSeparated nextItem?
  refine hitem.bind fun first hfirst => (gives_collect fun count => ?_).bind fun more hmore =>
    .pure (List.forall_mem_cons.mpr ⟨hfirst, hmore⟩)
  refine .after fun comma? => ?_
  cases comma? with
  | none => exact .pure (by simp)
  | some comma =>
      dsimp only
      split
      · exact .after fun _ => hnext
      · exact hnext

/-! ## Expressions -/

variable {expression : Rule Expr}

theorem listOperable_iff {es : List Expr} : Expr.ListOperable es ↔ ∀ e ∈ es, e.Operable := by
  induction es with
  | nil => simp
  | cons e es ih => simp [ih]

theorem gives_argumentList (he : Gives expression Expr.Operable) :
    Gives (argumentList expression) fun s => ∀ e, e.Operable → (s.apply e).Operable := by
  have hclose (arguments : List Expr) (ha : ∀ e ∈ arguments, e.Operable) :
      Gives (do
        let paren ← expect .rightParen .argumentsEnd
        pure (Suffix.call paren arguments)) fun s => ∀ e, e.Operable → (s.apply e).Operable := by
    refine .after fun paren => .pure fun e hcallee => ?_
    simpa [Suffix.apply] using ⟨hcallee, listOperable_iff.mpr ha⟩
  unfold argumentList
  refine .after fun empty => ?_
  dsimp only
  split
  · exact Gives.bind (.pure (by simp)) hclose
  · exact (gives_commaSeparated he).bind hclose

theorem gives_suffix? (he : Gives expression Expr.Operable) :
    Gives (suffix? expression) fun s? => ∀ s ∈ s?, ∀ e, e.Operable → (s.apply e).Operable := by
  unfold suffix?
  refine .after fun t? => ?_
  cases t? with
  | none => exact .pure (by simp)
  | some t =>
      dsimp only
      split
      · refine .after fun name => .pure ?_
        rintro s ⟨⟩ e h
        simpa [Suffix.apply] using h
      · refine (gives_argumentList he).bind fun call hcall => .pure ?_
        rintro s ⟨⟩
        exact hcall

theorem gives_primary (he : Gives expression Expr.Operable) :
    Gives (primary expression) Expr.Operable := by
  unfold primary
  refine .after fun t => ?_
  split
  · exact .after fun _ => .pure (by simp)
  · exact .after fun _ => .pure (by simp)
  · exact .after fun _ => .pure (by simp)
  · exact .after fun _ => .pure (by simp)
  · exact .after fun _ => .pure (by simp)
  · exact .after fun _ => .after fun _ => .pure (by simp)
  · exact .after fun _ => .after fun _ => .after fun _ => .after fun _ => .pure (by simp)
  · exact .after fun _ => .after fun _ => .pure (by simp)
  · exact .after fun _ => he.bind fun inner h => .after fun _ => .pure (by simpa using h)
  · exact gives_fail _ _

theorem gives_postfixed (he : Gives expression Expr.Operable) :
    Gives (postfixed expression) Expr.Operable := by
  unfold postfixed
  refine (gives_primary he).bind fun base hbase =>
    (gives_collect fun _ => gives_suffix? he).bind fun suffixes hsuffixes => .pure ?_
  exact List.foldlRecOn suffixes Suffix.apply hbase fun e h s hs => hsuffixes s hs e h

/-- The node of the level is operable if its operands are. -/
def Level.Operates (level : Level) : Prop :=
  ∀ left operator right, (∃ s ∈ level.operators, operator.kind = .symbol s) → left.Operable →
    right.Operable → (level.node left operator right).Operable

theorem operates_logical (symbols : List Symbol) : Level.Operates ⟨symbols, .logical⟩ := by
  intro left operator right _ hl hr
  simpa using ⟨hl, hr⟩

theorem operates_binary {symbols : List Symbol} (h : symbols ⊆ Symbol.binaries) :
    Level.Operates ⟨symbols, .binary⟩ := by
  rintro left operator right ⟨s, hs, hkind⟩ hl hr
  simpa using ⟨⟨s, h hs, hkind⟩, hl, hr⟩

theorem operates_of_mem_levels : ∀ level ∈ levels, level.Operates := by
  intro level hlevel
  simp only [levels, List.mem_cons, List.not_mem_nil, or_false] at hlevel
  rcases hlevel with rfl | rfl | rfl | rfl | rfl | rfl
  · exact operates_logical _
  · exact operates_logical _
  · exact operates_binary (by decide)
  · exact operates_binary (by decide)
  · exact operates_binary (by decide)
  · exact operates_binary (by decide)

theorem gives_leftAssociative {level : Level} {operand : Rule Expr} (hlevel : level.Operates)
    (ho : Gives operand Expr.Operable) : Gives (leftAssociative level operand) Expr.Operable := by
  have hright : Gives (rightOperand? level operand) fun p? => ∀ p ∈ p?,
      (∃ s ∈ level.operators, p.1.kind = .symbol s) ∧ p.2.Operable := by
    unfold rightOperand?
    refine (gives_acceptAny _).bind fun t? ht => ?_
    cases t? with
    | none => exact .pure (by simp)
    | some operator =>
        refine ho.bind fun right hright => .pure ?_
        rintro p ⟨⟩
        exact ⟨ht operator rfl, hright⟩
  unfold leftAssociative
  refine ho.bind fun first hfirst => (gives_collect fun _ => hright).bind fun more hmore => .pure ?_
  exact List.foldlRecOn more _ hfirst fun left hl p hp =>
    hlevel left p.1 p.2 (hmore p hp).1 hl (hmore p hp).2

theorem gives_binaryOver {unary : Rule Expr} (hu : Gives unary Expr.Operable) (ls : List Level)
    (hls : ∀ level ∈ ls, level.Operates) : Gives (binaryOver unary ls) Expr.Operable := by
  induction ls with
  | nil => exact hu
  | cons level tighter ih =>
      rw [List.forall_mem_cons] at hls
      exact gives_leftAssociative hls.1 (ih hls.2)

variable {self : Nonterminal → Rule Expr}

theorem gives_unaryRule (hself : ∀ s, Gives (self s) Expr.Operable) :
    Gives (unaryRule self) Expr.Operable := by
  unfold unaryRule
  refine (gives_acceptAny _).bind fun t? ht => ?_
  cases t? with
  | none => exact gives_postfixed (hself .expression)
  | some operator =>
      refine (hself .unary).bind fun operand h => .pure ?_
      simpa using ⟨ht operator rfl, h⟩

theorem gives_conditionalRule (hself : ∀ s, Gives (self s) Expr.Operable) :
    Gives (conditionalRule self) Expr.Operable := by
  unfold conditionalRule
  refine (gives_binaryOver (gives_unaryRule hself) levels operates_of_mem_levels).bind
    fun condition hc => .after fun question? => ?_
  cases question? with
  | none => exact .pure hc
  | some question =>
      refine (hself .conditional).bind fun t ht => .after fun colon => ?_
      refine (hself .conditional).bind fun e he => .pure ?_
      simpa using ⟨hc, ht, he⟩

theorem gives_assignTo {target value : Expr} (equals : Token) (ht : target.Operable)
    (hv : value.Operable) : Gives (assignTo target equals value) Expr.Operable := by
  unfold assignTo
  split
  · exact .after fun id => .pure (by simpa using hv)
  · exact .pure (by simpa using ⟨by simpa using ht, hv⟩)
  · exact .after fun _ => .pure ht

theorem gives_assignmentRule (hself : ∀ s, Gives (self s) Expr.Operable) :
    Gives (assignmentRule self) Expr.Operable := by
  unfold assignmentRule
  refine (gives_conditionalRule hself).bind fun target ht => .after fun equals? => ?_
  cases equals? with
  | none => exact .pure ht
  | some equals => exact (hself .expression).bind fun value hv => gives_assignTo equals ht hv

theorem gives_expression : Gives Grammar.expression Expr.Operable := by
  have hbound (bound : Nat) : ∀ s, Gives (expressionUpTo bound s) Expr.Operable := by
    induction bound with
    | zero => exact fun s => gives_fail _ _
    | succ bound ih =>
        intro s
        cases s with
        | expression => exact gives_assignmentRule ih
        | conditional => exact gives_conditionalRule ih
        | unary => exact gives_unaryRule ih
  intro c e c' h
  exact hbound _ _ _ _ _ h

/-! ## Statements -/

variable {statement : Rule Stmt} {declaration : Rule (Option Stmt)}

def Operable? (s? : Option Stmt) : Prop :=
  ∀ s ∈ s?, s.Operable

theorem gives_recover {rule : Rule Stmt} (h : Gives rule Stmt.Operable) :
    Gives (recover rule) Operable? := by
  intro c s? c' hrun s hs
  unfold recover at hrun
  split at hrun
  · next hrule =>
    cases hrun
    cases hs
    exact h _ _ _ hrule
  · cases hrun
    cases hs

theorem listOperable_filterMap {found : List (Option Stmt)} (h : ∀ s? ∈ found, Operable? s?) :
    Stmt.ListOperable (found.filterMap id) := by
  induction found with
  | nil => simp
  | cons s? found ih =>
      rw [List.forall_mem_cons] at h
      cases s? with
      | none => exact ih h.2
      | some s => simpa using ⟨h.1 s rfl, ih h.2⟩

theorem gives_block (hd : Gives declaration Operable?) :
    Gives (block declaration) Stmt.ListOperable := by
  unfold block declarations
  refine Gives.bind (P := Stmt.ListOperable) ?_ fun body hbody => .after fun brace => .pure hbody
  refine (gives_collect fun count => ?_).bind fun found h => .pure (listOperable_filterMap h)
  refine .after fun closed => .after fun ended => ?_
  split
  · exact .pure (by simp)
  · exact hd.bind fun s? hs => .pure (by rintro s ⟨⟩; exact hs)

theorem gives_callable (hd : Gives declaration Operable?) (sort : Callable) :
    Gives (callable declaration sort) FunctionDecl.Operable := by
  have hbody (name : Token) (params : List Token) : Gives (do
      let _ ← expect .rightParen .parametersEnd
      let _ ← expect .leftBrace (.bodyStart sort)
      let body ← block declaration
      pure ⟨name, params, body⟩) FunctionDecl.Operable :=
    .after fun paren => .after fun brace => (gives_block hd).bind fun body h =>
      .pure (by simpa using h)
  unfold callable
  refine .after fun name => .after fun paren => .after fun empty => ?_
  dsimp only
  split
  · exact .after fun params => hbody name params
  · exact .after fun params => hbody name params

theorem listOperable_methods_iff {fs : List FunctionDecl} :
    FunctionDecl.ListOperable fs ↔ ∀ f ∈ fs, f.Operable := by
  induction fs with
  | nil => simp
  | cons f fs ih => simp [ih]

theorem gives_superclass? : Gives superclass? Expr.Operable? := by
  unfold superclass?
  refine .after fun less? => ?_
  cases less? with
  | none => exact .pure (by simp)
  | some less => exact .after fun name => .after fun id => .pure (by simp)

theorem gives_classRule (hd : Gives declaration Operable?) :
    Gives (classRule declaration) Stmt.Operable := by
  unfold classRule
  refine .after fun name => gives_superclass?.bind fun superclass hs => .after fun brace => ?_
  refine (gives_collect (P := FunctionDecl.Operable) fun count => ?_).bind fun methods hm =>
    .after fun brace => .pure ?_
  · refine .after fun closed => .after fun ended => ?_
    split
    · exact .pure (by simp)
    · exact (gives_callable hd .method).bind fun f hf => .pure (by rintro g ⟨⟩; exact hf)
  · rw [Stmt.Operable]
    exact ⟨hs, listOperable_methods_iff.mpr hm⟩

theorem gives_varRule : Gives varRule Stmt.Operable := by
  have hrest (name : Token) (initializer : Option Expr) (h : Expr.Operable? initializer) : Gives (do
      let _ ← expect .semicolon .variableEnd
      pure (.var name initializer)) Stmt.Operable :=
    .after fun semicolon => .pure (by rwa [Stmt.Operable])
  unfold varRule
  refine .after fun name => .after fun equal? => ?_
  cases equal? with
  | none => exact Gives.bind (.pure (by simp)) (hrest name)
  | some equal =>
      refine gives_expression.bind fun value hv => ?_
      exact Gives.bind (.pure (by simpa using hv)) (hrest name)

theorem gives_expressionRule : Gives expressionRule Stmt.Operable := by
  unfold expressionRule
  exact gives_expression.bind fun e he => .after fun semicolon => .pure (by simpa using he)

theorem gives_printRule : Gives printRule Stmt.Operable := by
  unfold printRule
  exact gives_expression.bind fun e he => .after fun semicolon => .pure (by simpa using he)

theorem gives_expressionUnless (s : Symbol) : Gives (expressionUnless s) Expr.Operable? := by
  unfold expressionUnless
  refine .after fun missing => ?_
  split
  · exact .pure (by simp)
  · exact gives_expression.bind fun e he => .pure (by simpa using he)

theorem gives_returnRule (keyword : Token) : Gives (returnRule keyword) Stmt.Operable := by
  unfold returnRule
  refine (gives_expressionUnless _).bind fun value hv => .after fun semicolon => .pure ?_
  rwa [Stmt.Operable]

theorem gives_ifRule (hs : Gives statement Stmt.Operable) :
    Gives (ifRule statement) Stmt.Operable := by
  unfold ifRule
  refine .after fun paren => gives_expression.bind fun c hc => .after fun paren => ?_
  refine hs.bind fun t ht => .after fun else? => ?_
  cases else? with
  | none => exact .pure (by simpa using ⟨hc, ht⟩)
  | some word => exact hs.bind fun e he => .pure (by simpa using ⟨hc, ht, he⟩)

theorem gives_whileRule (hs : Gives statement Stmt.Operable) :
    Gives (whileRule statement) Stmt.Operable := by
  unfold whileRule
  refine .after fun paren => gives_expression.bind fun c hc => .after fun paren => ?_
  exact hs.bind fun body hb => .pure (by simpa using ⟨hc, hb⟩)

theorem operable_forLoop {initializer : Option Stmt} {condition increment : Option Expr}
    {body : Stmt} (hi : Operable? initializer) (hc : Expr.Operable? condition)
    (hincr : Expr.Operable? increment) (hb : body.Operable) :
    (forLoop initializer condition increment body).Operable := by
  have hcondition : (condition.getD (.literal (.boolean true))).Operable := by
    cases condition with
    | none => simp
    | some e => exact hc e rfl
  cases increment with
  | none =>
      cases initializer with
      | none => simpa [forLoop] using ⟨hcondition, hb⟩
      | some s => simpa [forLoop] using ⟨hi s rfl, hcondition, hb⟩
  | some e =>
      have he := hincr e rfl
      cases initializer with
      | none => simpa [forLoop] using ⟨hcondition, hb, he⟩
      | some s => simpa [forLoop] using ⟨hi s rfl, hcondition, hb, he⟩

theorem gives_forInitializer : Gives forInitializer Operable? := by
  have hstatement {rule : Rule Stmt} (h : Gives rule Stmt.Operable) :
      Gives (do let s ← rule; pure (some s)) Operable? :=
    h.bind fun s hs => .pure (by rintro s' ⟨⟩; exact hs)
  unfold forInitializer
  refine .after fun t? => ?_
  cases t? with
  | none => exact hstatement gives_expressionRule
  | some t =>
      dsimp only
      split
      · exact .pure (by simp [Operable?])
      · exact hstatement gives_varRule

theorem gives_forRule (hs : Gives statement Stmt.Operable) :
    Gives (forRule statement) Stmt.Operable := by
  unfold forRule
  refine .after fun paren => gives_forInitializer.bind fun initializer hi => ?_
  refine (gives_expressionUnless _).bind fun condition hc => .after fun semicolon => ?_
  refine (gives_expressionUnless _).bind fun increment hincr => .after fun paren => ?_
  exact hs.bind fun body hb => .pure (operable_forLoop hi hc hincr hb)

theorem gives_statementRule (hs : Gives statement Stmt.Operable)
    (hd : Gives declaration Operable?) :
    Gives (statementRule statement declaration) Stmt.Operable := by
  unfold statementRule
  refine .after fun t => ?_
  split
  · exact .after fun _ => gives_forRule hs
  · exact .after fun _ => gives_ifRule hs
  · exact .after fun _ => gives_whileRule hs
  · exact .after fun keyword => gives_returnRule keyword
  · exact .after fun _ => (gives_block hd).bind fun body hbody => .pure (by simpa using hbody)
  · exact .after fun _ => gives_printRule
  · exact gives_expressionRule

theorem gives_declarationRule (hs : Gives statement Stmt.Operable)
    (hd : Gives declaration Operable?) :
    Gives (declarationRule statement declaration) Stmt.Operable := by
  unfold declarationRule
  refine .after fun t => ?_
  split
  · exact .after fun _ => gives_classRule hd
  · exact .after fun _ => (gives_callable hd .function).bind fun f hf => .pure (by simpa using hf)
  · exact .after fun _ => gives_varRule
  · exact gives_statementRule hs hd

theorem gives_declarationUpTo (bound : Nat) :
    Gives (statementUpTo bound) Stmt.Operable ∧ Gives (declarationUpTo bound) Operable? := by
  induction bound with
  | zero => exact ⟨gives_fail _ _, gives_recover (gives_fail _ _)⟩
  | succ bound ih =>
      exact ⟨gives_statementRule ih.1 ih.2, gives_recover (gives_declarationRule ih.1 ih.2)⟩

/-- The statements of a parse have only operators that an evaluation knows. -/
theorem listOperable_parseProgram (tokens : List Token) (firstId : NodeId) :
    Stmt.ListOperable (parseProgram tokens firstId).result := by
  have hprogram (bound : Nat) : Gives (programUpTo bound) Stmt.ListOperable := by
    unfold programUpTo
    refine (gives_collect fun count => ?_).bind fun found h => .pure (listOperable_filterMap h)
    refine .after fun ended => ?_
    split
    · exact .pure (by simp)
    · exact (gives_declarationUpTo bound).2.bind fun s? hs => .pure (by rintro s ⟨⟩; exact hs)
  unfold parseProgram
  dsimp only
  split
  · next hrun => exact hprogram _ _ _ _ hrun
  · simp

end Grammar

end Lox
