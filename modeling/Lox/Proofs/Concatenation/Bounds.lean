import Lox.Grammar.Statement
import Lox.Proofs.Concatenation.Statements

/-!
# Larger bounds and earlier errors

The rules are unfolded as often as there are tokens. A larger bound makes no difference, neither to a
result nor to a failure, and neither do errors that were recorded before: they stay in front of those
that a rule records. The two are shown together, since a program parsed as the second half of an input
differs from the same program on its own in both.
-/

namespace Lox.Grammar

variable {α β : Type} {es : List Error} {n m : Nat}

/-- The cursor with more errors recorded before. -/
def Cursor.preceded (c : Cursor) (es : List Error) : Cursor :=
  { c with errors := es ++ c.errors }

/-- The outcome with more errors recorded before. -/
def precededResult (es : List Error) :
    EStateM.Result Error Cursor α → EStateM.Result Error Cursor α
  | .ok a c => .ok a (c.preceded es)
  | .error e c => .error e (c.preceded es)

/-- What an outcome leaves of the input. -/
def leftOver : EStateM.Result Error Cursor α → List Token
  | .ok _ c => c.rest
  | .error _ c => c.rest

/-- On inputs of at most `n` tokens the first rule does not make the input longer, and the second one
does the same with the errors in front. -/
def Agrees (es : List Error) (n : Nat) (r r' : Rule α) : Prop :=
  ∀ c, c.rest.length ≤ n → (leftOver (r c)).length ≤ c.rest.length
    ∧ r' (c.preceded es) = precededResult es (r c)

namespace Agrees

variable {r r' : Rule α} {f f' : α → Rule β}

theorem pure {a : α} : Agrees es n (pure a) (pure a) :=
  fun _ _ => ⟨le_rfl, rfl⟩

theorem le (h : Agrees es n r r') (hle : m ≤ n) : Agrees es m r r' :=
  fun c hc => h c (hc.trans hle)

theorem bind (hr : Agrees es n r r') (hf : ∀ a, Agrees es n (f a) (f' a)) :
    Agrees es n (r >>= f) (r' >>= f') := by
  intro c hc
  obtain ⟨hle, hsame⟩ := hr c hc
  rw [bind_apply, bind_apply, hsame]
  cases hrc : r c with
  | error e c' =>
      rw [hrc] at hle
      exact ⟨hle, rfl⟩
  | ok a c' =>
      rw [hrc] at hle
      obtain ⟨hle', hsame'⟩ := hf a c' (hle.trans hc)
      exact ⟨hle'.trans hle, hsame'⟩

end Agrees

theorem agrees_peek : Agrees es n peek peek := fun _ _ => ⟨le_rfl, rfl⟩

theorem agrees_sees (s : Symbol) : Agrees es n (sees s) (sees s) := fun _ _ => ⟨le_rfl, rfl⟩

theorem agrees_atEnd : Agrees es n atEnd atEnd := fun _ _ => ⟨le_rfl, rfl⟩

theorem agrees_fail (part : Part) : Agrees es n (fail part : Rule α) (fail part) :=
  fun _ _ => ⟨le_rfl, rfl⟩

theorem agrees_freshId : Agrees es n freshId freshId := fun _ _ => ⟨le_rfl, rfl⟩

theorem agrees_record (fault : Fault) (token : Token) :
    Agrees es n (record fault token) (record fault token) := by
  intro c _
  refine ⟨le_rfl, ?_⟩
  simp [record, precededResult, Cursor.preceded, Cursor.record]

theorem agrees_recordNext (fault : Fault) : Agrees es n (recordNext fault) (recordNext fault) := by
  intro c _
  refine ⟨le_rfl, ?_⟩
  simp [recordNext, precededResult, Cursor.preceded, Cursor.record, Cursor.next]

/-- What follows a token that is taken sees an input that is shorter by it. -/
theorem agrees_take_bind {f f' : Token → Rule α} (hf : ∀ t, Agrees es n (f t) (f' t)) :
    Agrees es (n + 1) (take >>= f) (take >>= f') := by
  intro c hc
  have hlen : c.rest.tail.length ≤ n := by
    rw [List.length_tail]
    omega
  obtain ⟨hle, hsame⟩ := hf c.next { c with rest := c.rest.tail } hlen
  have htail : c.rest.tail.length ≤ c.rest.length := by
    rw [List.length_tail]
    omega
  exact ⟨hle.trans htail, hsame⟩

theorem agrees_takeIf_bind {p : Terminal → Bool} {f f' : Option Token → Rule α}
    (hnone : Agrees es (n + 1) (f none) (f' none))
    (hsome : ∀ t, Agrees es n (f (some t)) (f' (some t))) :
    Agrees es (n + 1) (takeIf p >>= f) (takeIf p >>= f') := by
  intro c hc
  have hnone := hnone c hc
  rw [bind_apply, bind_apply]
  cases hrest : c.rest with
  | nil =>
      have htake : takeIf p c = .ok none c := by simp only [takeIf, hrest]
      have htake' : takeIf p (c.preceded es) = .ok none (c.preceded es) := by
        simp only [takeIf, Cursor.preceded, hrest]
      rw [htake, htake', ← hrest]
      exact hnone
  | cons t rest =>
      by_cases hp : p t.terminal = true
      · have hlen : rest.length ≤ n := by
          rw [hrest] at hc
          exact Nat.le_of_succ_le_succ hc
        obtain ⟨hle, hsame⟩ := hsome t { c with rest := rest } hlen
        simp only [takeIf, hrest, Cursor.preceded, if_pos hp]
        exact ⟨hle.trans (Nat.le_succ _), hsame⟩
      · simp only [takeIf, hrest, Cursor.preceded, if_neg hp]
        rw [← hrest]
        exact hnone

/-- Where nothing has to be shorter, it does not matter whether a token is taken. -/
theorem agrees_takeIf_bind' {p : Terminal → Bool} {f f' : Option Token → Rule α}
    (h : ∀ t?, Agrees es n (f t?) (f' t?)) : Agrees es n (takeIf p >>= f) (takeIf p >>= f') := by
  cases n with
  | zero =>
      intro c hc
      have hnil : c.rest = [] := List.length_eq_zero_iff.mp (by omega)
      have htake : takeIf p c = .ok none c := by simp only [takeIf, hnil]
      have htake' : takeIf p (c.preceded es) = .ok none (c.preceded es) := by
        simp only [takeIf, Cursor.preceded, hnil]
      rw [bind_apply, bind_apply, htake, htake']
      exact h none c hc
  | succ n =>
      apply agrees_takeIf_bind
      · exact h none
      · exact fun t => (h (some t)).le (Nat.le_succ n)

theorem agrees_expectTerminal (t : Terminal) (part : Part) :
    Agrees es n (expectTerminal t part) (expectTerminal t part) := by
  unfold expectTerminal
  apply agrees_takeIf_bind'
  intro t?
  cases t? with
  | none => exact agrees_fail part
  | some t => exact .pure

theorem agrees_collectUpTo {step step' : Nat → Rule (Option α)}
    (hstep : ∀ k, Agrees es n (step k) (step' k)) (rounds : Nat) :
    ∀ k, Agrees es n (collectUpTo step rounds k) (collectUpTo step' rounds k) := by
  induction rounds with
  | zero => exact fun k => .pure
  | succ rounds ih =>
      intro k
      apply (hstep k).bind
      intro a?
      cases a? with
      | none => exact .pure
      | some a => exact (ih (k + 1)).bind fun more => .pure

theorem agrees_collect {step step' : Nat → Rule (Option α)}
    (hstep : ∀ k, Agrees es n (step k) (step' k)) : Agrees es n (collect step) (collect step') :=
  fun c hc => agrees_collectUpTo hstep c.rest.length 0 c hc

theorem agrees_commaSeparated {item item' : Rule α} (tooMany : Fault) (h : Agrees es n item item') :
    Agrees es n (commaSeparated tooMany item) (commaSeparated tooMany item') := by
  have hnext : Agrees es n (do let next ← item; pure (some next))
      (do let next ← item'; pure (some next)) := h.bind fun _ => .pure
  unfold commaSeparated nextItem?
  apply h.bind
  intro first
  refine (agrees_collect fun count => ?_).bind fun more => .pure
  apply agrees_takeIf_bind'
  intro comma?
  cases comma? with
  | none => exact .pure
  | some comma =>
      dsimp only
      split
      · exact (agrees_recordNext tooMany).bind fun _ => hnext
      · exact hnext

/-! ## Expressions -/

section Expressions

variable {expression₁ expression₂ : Rule Expr}

theorem agrees_argumentList (h : Agrees es n expression₁ expression₂) :
    Agrees es n (argumentList expression₁) (argumentList expression₂) := by
  unfold argumentList
  apply (agrees_sees .rightParen).bind
  intro empty
  have hclose (arguments : List Expr) : Agrees es n
      (do let paren ← expect .rightParen .argumentsEnd; pure (Suffix.call paren arguments))
      (do let paren ← expect .rightParen .argumentsEnd; pure (Suffix.call paren arguments)) :=
    (agrees_expectTerminal _ _).bind fun _ => .pure
  cases empty with
  | true => exact hclose []
  | false => exact (agrees_commaSeparated _ h).bind hclose

theorem agrees_suffix? (h : Agrees es n expression₁ expression₂) :
    Agrees es (n + 1) (suffix? expression₁) (suffix? expression₂) := by
  unfold suffix?
  apply agrees_takeIf_bind
  · exact .pure
  · intro t
    dsimp only
    split
    · exact (agrees_expectTerminal _ _).bind fun _ => .pure
    · exact (agrees_argumentList h).bind fun _ => .pure

theorem agrees_primary (h : Agrees es n expression₁ expression₂) :
    Agrees es (n + 1) (primary expression₁) (primary expression₂) := by
  unfold primary
  apply agrees_peek.bind
  intro t
  split
  iterate 5
    · exact agrees_take_bind fun _ => .pure
  · exact agrees_take_bind fun _ => agrees_freshId.bind fun _ => .pure
  · refine agrees_take_bind fun keyword => (agrees_expectTerminal _ _).bind fun dot => ?_
    exact (agrees_expectTerminal _ _).bind fun method => agrees_freshId.bind fun _ => .pure
  · exact agrees_take_bind fun _ => agrees_freshId.bind fun _ => .pure
  · refine agrees_take_bind fun paren => h.bind fun inner => ?_
    exact (agrees_expectTerminal _ _).bind fun _ => .pure
  · exact agrees_fail .expression

theorem agrees_postfixed (h : Agrees es n expression₁ expression₂) :
    Agrees es (n + 1) (postfixed expression₁) (postfixed expression₂) := by
  unfold postfixed
  apply (agrees_primary h).bind
  exact fun base => (agrees_collect fun _ => agrees_suffix? h).bind fun _ => .pure

theorem agrees_binaryOver {unary unary' : Rule Expr} (h : Agrees es n unary unary')
    (ls : List Level) : Agrees es n (binaryOver unary ls) (binaryOver unary' ls) := by
  induction ls with
  | nil => exact h
  | cons level tighter ih =>
      apply ih.bind
      intro first
      refine (agrees_collect fun _ => ?_).bind fun _ => .pure
      apply agrees_takeIf_bind'
      intro operator?
      cases operator? with
      | none => exact .pure
      | some operator => exact ih.bind fun _ => .pure

variable {self self' : Nonterminal → Rule Expr}

theorem agrees_unaryRule (hself : ∀ x, Agrees es n (self x) (self' x)) :
    Agrees es (n + 1) (unaryRule self) (unaryRule self') := by
  unfold unaryRule
  apply agrees_takeIf_bind
  · exact agrees_postfixed (hself .expression)
  · exact fun operator => (hself .unary).bind fun _ => .pure

theorem agrees_conditionalRule (hself : ∀ x, Agrees es n (self x) (self' x)) :
    Agrees es (n + 1) (conditionalRule self) (conditionalRule self') := by
  unfold conditionalRule
  apply (agrees_binaryOver (agrees_unaryRule hself) levels).bind
  intro condition
  apply agrees_takeIf_bind
  · exact .pure
  · intro question
    apply (hself .conditional).bind
    intro thenBranch
    apply (agrees_expectTerminal _ _).bind
    exact fun colon => (hself .conditional).bind fun _ => .pure

theorem agrees_assignTo (target : Expr) (equals : Token) (value : Expr) :
    Agrees es n (assignTo target equals value) (assignTo target equals value) := by
  cases target with
  | var id name => exact agrees_freshId.bind fun _ => .pure
  | get object name => exact .pure
  | _ => exact (agrees_record _ equals).bind fun _ => .pure

theorem agrees_assignmentRule (hself : ∀ x, Agrees es n (self x) (self' x)) :
    Agrees es (n + 1) (assignmentRule self) (assignmentRule self') := by
  unfold assignmentRule
  apply (agrees_conditionalRule hself).bind
  intro target
  apply agrees_takeIf_bind
  · exact .pure
  · exact fun equals => (hself .expression).bind fun value => agrees_assignTo target equals value

end Expressions

section AtEnd

variable {c : Cursor} (self : Nonterminal → Rule Expr)

theorem unaryRule_at_end (hc : c.rest = []) :
    unaryRule self c = .error ⟨.missing .expression, c.next⟩ c := by
  have hnext : c.next = .endAt c.endLine := by simp [Cursor.next, hc]
  simp only [unaryRule, acceptAny, bind_apply, takeIf, hc, postfixed, primary, peek, hnext,
    Token.endAt, fail]

theorem conditionalRule_at_end (hc : c.rest = []) :
    conditionalRule self c = .error ⟨.missing .expression, c.next⟩ c := by
  have hbinary (ls : List Level) :
      binaryOver (unaryRule self) ls c = .error ⟨.missing .expression, c.next⟩ c := by
    induction ls with
    | nil => exact unaryRule_at_end self hc
    | cons level tighter ih => rw [binaryOver, leftAssociative, bind_apply, ih]
  rw [conditionalRule, bind_apply, hbinary]

theorem assignmentRule_at_end (hc : c.rest = []) :
    assignmentRule self c = .error ⟨.missing .expression, c.next⟩ c := by
  rw [assignmentRule, bind_apply, conditionalRule_at_end self hc]

/-- At the end of the input every bound gives the same failure. -/
theorem expressionUpTo_at_end (hc : c.rest = []) (n : Nat) (x : Nonterminal) :
    expressionUpTo n x c = .error ⟨.missing .expression, c.next⟩ c := by
  cases n with
  | zero => rfl
  | succ n =>
      cases x with
      | expression => exact assignmentRule_at_end _ hc
      | conditional => exact conditionalRule_at_end _ hc
      | unary => exact unaryRule_at_end _ hc

end AtEnd

theorem agrees_expressionUpTo (hle : n ≤ m) (x : Nonterminal) :
    Agrees es n (expressionUpTo n x) (expressionUpTo m x) := by
  induction n generalizing m x with
  | zero =>
      intro c hc
      have hnil : c.rest = [] := List.length_eq_zero_iff.mp (by omega)
      rw [expressionUpTo_at_end hnil, expressionUpTo_at_end (c := c.preceded es) hnil]
      exact ⟨le_rfl, rfl⟩
  | succ n ih =>
      obtain ⟨m, rfl⟩ : ∃ k, m = k + 1 := ⟨m - 1, by omega⟩
      have hself (x : Nonterminal) : Agrees es n (expressionUpTo n x) (expressionUpTo m x) :=
        ih (by omega) x
      cases x with
      | expression => exact agrees_assignmentRule hself
      | conditional => exact agrees_conditionalRule hself
      | unary => exact agrees_unaryRule hself

theorem agrees_expression : Agrees es n expression expression :=
  fun c _ => agrees_expressionUpTo le_rfl .expression c le_rfl

/-! ## Declarations -/

theorem agrees_recover {r r' : Rule α} (h : Agrees es n r r') :
    Agrees es n (recover r) (recover r') := by
  intro c hc
  obtain ⟨hle, hsame⟩ := h c hc
  unfold recover
  rw [hsame]
  cases hrc : r c with
  | ok a c' =>
      rw [hrc] at hle
      exact ⟨hle, rfl⟩
  | error e c' =>
      rw [hrc] at hle
      refine ⟨(synchronize_suffix _).length_le.trans hle, ?_⟩
      simp [precededResult, Cursor.preceded, Cursor.record]

theorem agrees_beforeBrace {r r' : Rule α} (h : Agrees es n r r') :
    Agrees es n (beforeBrace r) (beforeBrace r') := by
  apply (agrees_sees _).bind
  intro closed
  apply agrees_atEnd.bind
  intro ended
  split
  · exact .pure
  · exact h.bind fun _ => .pure

section Declarations

variable {declaration declaration' : Rule (Option Stmt)} {statement statement' : Rule Stmt}

theorem agrees_block (hd : Agrees es n declaration declaration') :
    Agrees es n (block declaration) (block declaration') := by
  have hbody : Agrees es n (declarations declaration) (declarations declaration') :=
    (agrees_collect fun _ => agrees_beforeBrace hd).bind fun _ => .pure
  exact hbody.bind fun body => (agrees_expectTerminal _ _).bind fun _ => .pure

theorem agrees_callable (hd : Agrees es n declaration declaration') (sort : Callable) :
    Agrees es n (callable declaration sort) (callable declaration' sort) := by
  have hbody (name : Token) (params : List Token) : Agrees es n
      (do
        let _ ← expect .rightParen .parametersEnd
        let _ ← expect .leftBrace (.bodyStart sort)
        let body ← block declaration
        pure (⟨name, params, body⟩ : FunctionDecl))
      (do
        let _ ← expect .rightParen .parametersEnd
        let _ ← expect .leftBrace (.bodyStart sort)
        let body ← block declaration'
        pure (⟨name, params, body⟩ : FunctionDecl)) := by
    apply (agrees_expectTerminal _ _).bind
    intro paren
    apply (agrees_expectTerminal _ _).bind
    exact fun brace => (agrees_block hd).bind fun _ => .pure
  unfold callable
  apply (agrees_expectTerminal _ _).bind
  intro name
  apply (agrees_expectTerminal _ _).bind
  intro paren
  apply (agrees_sees _).bind
  intro empty
  cases empty with
  | true => exact hbody name []
  | false => exact (agrees_commaSeparated _ (agrees_expectTerminal _ _)).bind (hbody name)

theorem agrees_superclass? : Agrees es n superclass? superclass? := by
  apply agrees_takeIf_bind'
  intro less?
  cases less? with
  | none => exact .pure
  | some less =>
      exact (agrees_expectTerminal _ _).bind fun name => agrees_freshId.bind fun _ => .pure

theorem agrees_classRule (hd : Agrees es n declaration declaration') :
    Agrees es n (classRule declaration) (classRule declaration') := by
  unfold classRule
  apply (agrees_expectTerminal _ _).bind
  intro name
  apply agrees_superclass?.bind
  intro superclass
  apply (agrees_expectTerminal _ _).bind
  intro brace
  apply (agrees_collect fun _ => agrees_beforeBrace (agrees_callable hd .method)).bind
  exact fun methods => (agrees_expectTerminal _ _).bind fun _ => .pure

theorem agrees_varRule : Agrees es n varRule varRule := by
  have hclose (name : Token) (initializer : Option Expr) : Agrees es n
      (do let _ ← expect .semicolon .variableEnd; pure (Stmt.var name initializer))
      (do let _ ← expect .semicolon .variableEnd; pure (Stmt.var name initializer)) :=
    (agrees_expectTerminal _ _).bind fun _ => .pure
  unfold varRule
  apply (agrees_expectTerminal _ _).bind
  intro name
  apply agrees_takeIf_bind'
  intro equals?
  cases equals? with
  | none => exact hclose name none
  | some equals => exact agrees_expression.bind fun value => hclose name (some value)

theorem agrees_expressionRule : Agrees es n expressionRule expressionRule :=
  agrees_expression.bind fun _ => (agrees_expectTerminal _ _).bind fun _ => .pure

theorem agrees_printRule : Agrees es n printRule printRule :=
  agrees_expression.bind fun _ => (agrees_expectTerminal _ _).bind fun _ => .pure

theorem agrees_expressionUnless (s : Symbol) :
    Agrees es n (expressionUnless s) (expressionUnless s) := by
  apply (agrees_sees s).bind
  intro absent
  cases absent with
  | true => exact .pure
  | false => exact agrees_expression.bind fun _ => .pure

theorem agrees_returnRule (keyword : Token) : Agrees es n (returnRule keyword) (returnRule keyword) :=
  (agrees_expressionUnless _).bind fun _ => (agrees_expectTerminal _ _).bind fun _ => .pure

theorem agrees_ifRule (hs : Agrees es n statement statement') :
    Agrees es n (ifRule statement) (ifRule statement') := by
  unfold ifRule
  apply (agrees_expectTerminal _ _).bind
  intro paren
  apply agrees_expression.bind
  intro condition
  apply (agrees_expectTerminal _ _).bind
  intro paren
  apply hs.bind
  intro thenBranch
  apply agrees_takeIf_bind'
  intro else?
  cases else? with
  | none => exact .pure
  | some _ => exact hs.bind fun _ => .pure

theorem agrees_whileRule (hs : Agrees es n statement statement') :
    Agrees es n (whileRule statement) (whileRule statement') := by
  unfold whileRule
  apply (agrees_expectTerminal _ _).bind
  intro paren
  apply agrees_expression.bind
  intro condition
  apply (agrees_expectTerminal _ _).bind
  exact fun paren => hs.bind fun _ => .pure

theorem agrees_forInitializer : Agrees es n forInitializer forInitializer := by
  apply agrees_takeIf_bind'
  intro t?
  cases t? with
  | none => exact agrees_expressionRule.bind fun _ => .pure
  | some t =>
      dsimp only
      split
      · exact .pure
      · exact agrees_varRule.bind fun _ => .pure

theorem agrees_forRule (hs : Agrees es n statement statement') :
    Agrees es n (forRule statement) (forRule statement') := by
  unfold forRule
  apply (agrees_expectTerminal _ _).bind
  intro paren
  apply agrees_forInitializer.bind
  intro initializer
  apply (agrees_expressionUnless _).bind
  intro condition
  apply (agrees_expectTerminal _ _).bind
  intro semicolon
  apply (agrees_expressionUnless _).bind
  intro increment
  apply (agrees_expectTerminal _ _).bind
  exact fun paren => hs.bind fun _ => .pure

theorem agrees_statementRule (hs : Agrees es n statement statement')
    (hd : Agrees es n declaration declaration') :
    Agrees es (n + 1) (statementRule statement declaration)
      (statementRule statement' declaration') := by
  unfold statementRule
  apply agrees_peek.bind
  intro t
  split
  · exact agrees_take_bind fun _ => agrees_forRule hs
  · exact agrees_take_bind fun _ => agrees_ifRule hs
  · exact agrees_take_bind fun _ => agrees_whileRule hs
  · exact agrees_take_bind fun keyword => agrees_returnRule keyword
  · exact agrees_take_bind fun _ => (agrees_block hd).bind fun _ => .pure
  · exact agrees_take_bind fun _ => agrees_printRule
  · exact agrees_expressionRule

theorem agrees_declarationRule (hs : Agrees es n statement statement')
    (hd : Agrees es n declaration declaration') :
    Agrees es (n + 1) (declarationRule statement declaration)
      (declarationRule statement' declaration') := by
  unfold declarationRule
  apply agrees_peek.bind
  intro t
  split
  · exact agrees_take_bind fun _ => agrees_classRule hd
  · exact agrees_take_bind fun _ => (agrees_callable hd .function).bind fun _ => .pure
  · exact agrees_take_bind fun _ => agrees_varRule
  · exact agrees_statementRule hs hd

end Declarations

theorem statementRule_at_end {c : Cursor} (hc : c.rest = []) (statement : Rule Stmt)
    (declaration : Rule (Option Stmt)) :
    statementRule statement declaration c = .error ⟨.missing .expression, c.next⟩ c := by
  have hnext : c.next = .endAt c.endLine := by simp [Cursor.next, hc]
  simp only [statementRule, bind_apply, peek, hnext, Token.endAt, expressionRule, expression,
    expressionUpTo_at_end hc]

theorem declarationRule_at_end {c : Cursor} (hc : c.rest = []) (statement : Rule Stmt)
    (declaration : Rule (Option Stmt)) :
    declarationRule statement declaration c = .error ⟨.missing .expression, c.next⟩ c := by
  have hnext : c.next = .endAt c.endLine := by simp [Cursor.next, hc]
  rw [← statementRule_at_end hc statement declaration]
  simp only [declarationRule, bind_apply, peek, hnext, Token.endAt]

theorem agrees_upTo (hle : n ≤ m) :
    Agrees es n (statementUpTo n) (statementUpTo m)
      ∧ Agrees es n (declarationUpTo n) (declarationUpTo m) := by
  induction n generalizing m with
  | zero =>
      have hfail {r : Rule Stmt}
          (hr : ∀ c : Cursor, c.rest = [] → r c = .error ⟨.missing .expression, c.next⟩ c) :
          Agrees es 0 (fail .expression) r := by
        intro c hc
        have hnil : c.rest = [] := List.length_eq_zero_iff.mp (by omega)
        rw [hr (c.preceded es) hnil]
        exact ⟨le_rfl, rfl⟩
      cases m with
      | zero => exact ⟨hfail fun _ _ => rfl, agrees_recover (hfail fun _ _ => rfl)⟩
      | succ m =>
          exact ⟨hfail fun _ hc => statementRule_at_end hc _ _,
            agrees_recover (hfail fun _ hc => declarationRule_at_end hc _ _)⟩
  | succ n ih =>
      obtain ⟨m, rfl⟩ : ∃ k, m = k + 1 := ⟨m - 1, by omega⟩
      obtain ⟨hs, hd⟩ := ih (m := m) (by omega)
      constructor
      · exact agrees_statementRule hs hd
      · exact agrees_recover (agrees_declarationRule hs hd)

end Lox.Grammar
