import Lox.Proofs.Grammar.Complete.Expressions

/-!
# Statements and programs are taken

Every word of a declaration is taken by its rule, unless it is open to an else that comes next, and
so is every word of a program.
-/

namespace Lox.Grammar

open Ebnf (name)

variable {α : Type} {w rest : List Terminal} {n : Nat} {declaration : Rule (Option Stmt)}
  {statement : Rule Stmt}

/-- On inputs of at most `n` terminals, the rule takes statements in which every else belongs to the
nearest if. An open one is not followed by an else. -/
def TakesStatements (n : Nat) (statement : Rule Stmt) : Prop :=
  ∀ d w rest, (w ++ rest).length ≤ n → Nearest d w → (d = true → Stops [.elseWord] rest) →
    Takes statement w rest fun _ => True

/-- On inputs of at most `n` terminals, the rule takes declarations that no else follows. -/
def TakesDeclarations (n : Nat) (declaration : Rule (Option Stmt)) : Prop :=
  ∀ w rest, (w ++ rest).length ≤ n → Derives (name .declaration) w → Stops [.elseWord] rest →
    Takes declaration w rest fun _ => True

theorem takes_recover {rule : Rule α} (h : Takes rule w rest fun _ => True) :
    Takes (recover rule) w rest fun _ => True := by
  intro c hc
  obtain ⟨a, c', hrun, hinput, herrors, -⟩ := h c hc
  refine ⟨some a, c', ?_, hinput, herrors, trivial⟩
  unfold recover
  rw [hrun]

theorem takes_beforeBrace_item {item : Rule α} (hw : w ≠ [])
    (hbrace : Stops [.rightBrace] (w ++ rest)) (h : Takes item w rest fun _ => True) :
    Takes (beforeBrace item) w rest fun a? => ∃ a, a? = some a := by
  have hinput : w ++ rest ≠ [] := List.append_ne_nil_of_left_ne_nil hw rest
  unfold beforeBrace
  refine .look (takes_sees_false hbrace) fun closed hclosed => ?_
  refine .look (takes_atEnd_false hinput) fun ended hended => ?_
  subst hclosed hended
  exact h.last fun a _ => .pure ⟨a, rfl⟩

theorem takes_beforeBrace_end (item : Rule α) :
    Takes (beforeBrace item) [] (.symbol .rightBrace :: rest) (· = none) := by
  unfold beforeBrace
  refine .look (takes_sees_self _) fun closed hclosed => ?_
  refine .look takes_atEnd fun ended _ => ?_
  subst hclosed
  exact .pure rfl

def beforeEnd (item : Rule α) : Rule (Option α) := do
  if ← atEnd then pure none
  else do
    let a ← item
    pure (some a)

theorem takes_beforeEnd_item {item : Rule α} (hw : w ≠ []) (h : Takes item w rest fun _ => True) :
    Takes (beforeEnd item) w rest fun a? => ∃ a, a? = some a := by
  have hinput : w ++ rest ≠ [] := List.append_ne_nil_of_left_ne_nil hw rest
  unfold beforeEnd
  refine .look (takes_atEnd_false hinput) fun ended hended => ?_
  subst hended
  exact h.last fun a _ => .pure ⟨a, rfl⟩

theorem takes_beforeEnd_end (item : Rule α) : Takes (beforeEnd item) [] [] (· = none) := by
  unfold beforeEnd
  refine takes_atEnd.look fun ended hended => ?_
  obtain rfl : ended = true := hended.mpr rfl
  exact .pure rfl

/-- Items up to a closing brace, each of which begins with something else. -/
theorem takes_collect_beforeBrace {item : Rule α} {ws : List (List Terminal)} {p : Terminal → Bool}
    (hp : p (.symbol .rightBrace) = false) (hws : ∀ v ∈ ws, Begins p v)
    (hitem : ∀ i v, ws[i]? = some v → Takes item v
      ((ws.drop (i + 1)).flatten ++ .symbol .rightBrace :: rest) fun _ => True) :
    Takes (collect fun _ => beforeBrace item) ws.flatten (.symbol .rightBrace :: rest)
      fun _ => True := by
  refine (takes_collect (Q := fun _ _ => True) ?_ ?_ (takes_beforeBrace_end item)).mono
    fun _ _ => trivial
  · intro v hv
    exact (hws v hv).ne_nil
  · intro i v hv
    have hv' := hws v (List.mem_of_getElem? hv)
    have hbrace : Stops [.rightBrace] (v ++ ((ws.drop (i + 1)).flatten
        ++ .symbol .rightBrace :: rest)) :=
      (hv'.append _).stops (by simpa using hp)
    exact (takes_beforeBrace_item hv'.ne_nil hbrace (hitem i v hv)).mono
      fun _ ⟨a, ha⟩ => ⟨a, ha, trivial⟩

/-- No else comes next where a declaration or a closing brace does. -/
theorem stops_else {ws : List (List Terminal)} (hws : ∀ v ∈ ws, Derives (name .declaration) v)
    (hrest : Stops [.elseWord] rest) : Stops [.elseWord] (ws.flatten ++ rest) := by
  cases ws with
  | nil => exact hrest
  | cons v ws =>
      rw [List.flatten_cons, List.append_assoc]
      exact ((begins_declaration (hws v List.mem_cons_self)).append _).stops (by decide)

/-- One of several declarations in a row. -/
theorem TakesDeclarations.item (hd : TakesDeclarations n declaration) {ws : List (List Terminal)}
    (hws : ∀ v ∈ ws, Derives (name .declaration) v) (hrest : Stops [.elseWord] rest)
    (hn : (ws.flatten ++ rest).length ≤ n) {i : Nat} (hw : ws[i]? = some w) :
    Takes declaration w ((ws.drop (i + 1)).flatten ++ rest) fun _ => True := by
  refine hd w _ ?_ (hws w (List.mem_of_getElem? hw))
    (stops_else (fun v hv => hws v (List.mem_of_mem_drop hv)) hrest)
  have hbound := length_drop_flatten hw
  simp only [List.length_append] at hbound hn ⊢
  omega

theorem takes_block (hd : TakesDeclarations n declaration)
    (hw : Derives (name .block) (.symbol .leftBrace :: w)) (hn : (w ++ rest).length ≤ n) :
    Takes (block declaration) w rest fun _ => True := by
  obtain ⟨ws, hw, hws⟩ := derives_block_iff.mp hw
  obtain ⟨-, rfl⟩ := List.cons.inj hw
  rw [List.append_assoc] at hn
  have hitems : Takes (declarations declaration) ws.flatten (.symbol .rightBrace :: rest)
      fun _ => True := by
    unfold declarations
    exact (takes_collect_beforeBrace (p := beginsDeclaration) (by decide)
      (fun v hv => begins_declaration (hws v hv))
      fun i v hv => hd.item hws (stops_symbol (by decide)) hn hv).last fun found _ => .pure trivial
  unfold block
  exact hitems.bind fun body _ => (takes_expect _ _).last fun brace _ => .pure trivial

theorem takes_callable (hd : TakesDeclarations n declaration) (sort : Callable)
    (hw : Derives (name .function) w) (hn : (w ++ rest).length ≤ n) :
    Takes (callable declaration sort) w rest fun _ => True := by
  obtain ⟨u, v, rfl, hu, hv⟩ := derives_function_iff.mp hw
  obtain ⟨ws, rfl, hws⟩ := derives_block_iff.mp hv
  unfold callable
  refine (takes_expectName _).cons fun f _ => ?_
  refine (takes_expect _ _).cons fun paren _ => ?_
  have hrest : ∀ params, Takes (do
      let _ ← expect .rightParen .parametersEnd
      let _ ← expect .leftBrace (.bodyStart sort)
      let body ← block declaration
      pure (FunctionDecl.mk f params body)) (.symbol .rightParen :: .symbol .leftBrace
        :: (ws.flatten ++ [.symbol .rightBrace])) rest fun _ => True := by
    intro params
    refine (takes_expect _ _).cons fun paren _ => ?_
    refine (takes_expect _ _).cons fun brace _ => ?_
    refine (takes_block hd hv ?_).last fun body _ => .pure trivial
    simp only [List.length_append, List.length_cons, List.length_nil] at hn ⊢
    omega
  rcases hu with rfl | hu
  · refine (takes_sees_self _).look fun empty hempty => ?_
    subst hempty
    exact Takes.look (P := fun _ => True) (.pure trivial) fun params _ => hrest params
  · obtain ⟨x, us, rfl, rfl, hlen, hus⟩ := derives_parameters_iff.mp hu
    have hstops : Stops [.rightParen] ([Terminal.identifier] ++ us.flatten ++ .symbol .rightParen
        :: .symbol .leftBrace :: (ws.flatten ++ [.symbol .rightBrace]) ++ rest) :=
      stops_cons (by simp)
    refine (takes_sees_false hstops).look fun empty hempty => ?_
    subst hempty
    refine Takes.bind (P := fun _ => True) (takes_commaSeparated .tooManyParameters ?_
      (stops_symbol (by decide)) (derives_parameters_iff.mp hu)) fun params _ => hrest params
    rintro _ rest' rfl - -
    exact takes_expectName _

theorem takes_superclass? (hw : w = [] ∨ w = [.symbol .less, .identifier])
    (hrest : Stops [.less] rest) : Takes superclass? w rest fun _ => True := by
  unfold superclass?
  rcases hw with rfl | rfl
  · refine (takes_accept_none hrest).look fun less? hless => ?_
    subst hless
    exact .pure trivial
  · refine (takes_accept _).cons fun less? hless => ?_
    obtain ⟨less, rfl⟩ := hless
    refine (takes_expectName _).last fun x _ => ?_
    exact takes_freshId.last fun id _ => .pure trivial

/-- One of several methods in a row. -/
theorem TakesDeclarations.method (hd : TakesDeclarations n declaration)
    {ws : List (List Terminal)} (hws : ∀ v ∈ ws, Derives (name .function) v)
    (hn : (ws.flatten ++ rest).length ≤ n) {i : Nat} (hw : ws[i]? = some w) :
    Takes (callable declaration .method) w ((ws.drop (i + 1)).flatten ++ rest) fun _ => True := by
  refine takes_callable hd .method (hws w (List.mem_of_getElem? hw)) ?_
  have hbound := length_drop_flatten hw
  simp only [List.length_append] at hbound hn ⊢
  omega

theorem takes_classRule (hd : TakesDeclarations n declaration)
    (hw : Derives (name .classDecl) (.symbol .classWord :: w)) (hn : (w ++ rest).length ≤ n) :
    Takes (classRule declaration) w rest fun _ => True := by
  obtain ⟨u, ws, hw, hu, hws⟩ := derives_classDecl_iff.mp hw
  obtain ⟨-, rfl⟩ := List.cons.inj hw
  have hlen : (ws.flatten ++ .symbol .rightBrace :: rest).length ≤ n := by
    simp only [List.length_append, List.length_cons, List.length_nil] at hn ⊢
    omega
  have hmethods : Takes (collect fun _ => beforeBrace (callable declaration .method)) ws.flatten
      (.symbol .rightBrace :: rest) fun _ => True :=
    takes_collect_beforeBrace (p := (· == .identifier)) rfl (fun v hv => begins_function (hws v hv))
      fun i v hv => hd.method hws hlen hv
  unfold classRule
  refine (takes_expectName _).cons fun x _ => ?_
  refine (takes_superclass? hu (stops_symbol (by decide))).bind fun superclass _ => ?_
  refine (takes_expect _ _).cons fun brace _ => ?_
  exact hmethods.bind fun methods _ => (takes_expect _ _).last fun brace _ => .pure trivial

theorem takes_varRule (hw : Derives (name .varDecl) (.symbol .varWord :: w)) :
    Takes varRule w rest fun _ => True := by
  obtain ⟨u, hw, hu⟩ := derives_varDecl_iff.mp hw
  obtain ⟨-, rfl⟩ := List.cons.inj hw
  unfold varRule
  refine (takes_expectName _).cons fun x _ => ?_
  have hrest : ∀ initializer, Takes (do
      let _ ← expect .semicolon .variableEnd
      pure (Stmt.var x initializer)) [.symbol .semicolon] rest fun _ => True :=
    fun initializer => (takes_expect _ _).last fun semicolon _ => .pure trivial
  rcases hu with rfl | ⟨v, rfl, hv⟩
  · refine (takes_accept_none (stops_symbol (by decide))).look fun equal? hequal => ?_
    subst hequal
    exact Takes.look (P := fun _ => True) (.pure trivial) fun initializer _ => hrest initializer
  · refine (takes_accept _).cons fun equal? hequal => ?_
    obtain ⟨equal, rfl⟩ := hequal
    refine (takes_expression hv (stops_symbol (by decide))).bind fun value _ => ?_
    exact Takes.look (P := fun _ => True) (.pure trivial) fun initializer _ => hrest initializer

/-! ## Statements -/

theorem takes_expressionRule (hw : Derives (name .exprStmt) w) :
    Takes expressionRule w rest fun _ => True := by
  obtain ⟨u, rfl, hu⟩ := derives_exprStmt_iff.mp hw
  unfold expressionRule
  refine (takes_expression hu (stops_symbol (by decide))).bind fun e _ => ?_
  exact (takes_expect _ _).last fun semicolon _ => .pure trivial

theorem takes_printRule (hw : Derives (name .printStmt) (.symbol .printWord :: w)) :
    Takes printRule w rest fun _ => True := by
  obtain ⟨u, hw, hu⟩ := derives_printStmt_iff.mp hw
  obtain ⟨-, rfl⟩ := List.cons.inj hw
  unfold printRule
  refine (takes_expression hu (stops_symbol (by decide))).bind fun e _ => ?_
  exact (takes_expect _ _).last fun semicolon _ => .pure trivial

theorem takes_expressionUnless {s : Symbol} (hw : w = [] ∨ Derives (name .expression) w)
    (hs : beginsExpression (.symbol s) = false) (hend : s ∉ Nonterminal.expression.continuing) :
    Takes (expressionUnless s) w (.symbol s :: rest) fun _ => True := by
  unfold expressionUnless
  rcases hw with rfl | hw
  · refine (takes_sees_self s).look fun missing hmissing => ?_
    subst hmissing
    exact .pure trivial
  · have hstops : Stops [s] (w ++ .symbol s :: rest) :=
      ((begins_expression hw).append _).stops (by simpa using hs)
    refine (takes_sees_false hstops).look fun missing hmissing => ?_
    subst hmissing
    exact (takes_expression hw (stops_symbol hend)).last fun e _ => .pure trivial

theorem takes_returnRule (keyword : Token)
    (hw : Derives (name .returnStmt) (.symbol .returnWord :: w)) :
    Takes (returnRule keyword) w rest fun _ => True := by
  obtain ⟨u, hw, hu⟩ := derives_returnStmt_iff.mp hw
  obtain ⟨-, rfl⟩ := List.cons.inj hw
  unfold returnRule
  refine (takes_expressionUnless hu (by decide) (by decide)).bind fun value _ => ?_
  exact (takes_expect _ _).last fun semicolon _ => .pure trivial

theorem takes_forInitializer (hw : Derives (name .varDecl) w ∨ Derives (name .exprStmt) w
      ∨ w = [.symbol .semicolon]) : Takes forInitializer w rest fun _ => True := by
  unfold forInitializer
  rcases hw with hw | hw | rfl
  · obtain ⟨u, rfl, hu⟩ := derives_varDecl_iff.mp hw
    refine (takes_acceptAny (s := .varWord) (by decide)).cons fun t? ht => ?_
    obtain ⟨t, rfl, hterminal⟩ := ht
    dsimp only
    rw [if_neg (by rw [hterminal]; decide)]
    exact (takes_varRule hw).last fun s _ => .pure trivial
  · obtain ⟨u, rfl, hu⟩ := derives_exprStmt_iff.mp hw
    have hstops : Stops [.semicolon, .varWord] ((u ++ [.symbol .semicolon]) ++ rest) := by
      rw [List.append_assoc]
      exact ((begins_expression hu).append _).stops (by decide)
    refine (takes_acceptAny_none hstops).look fun t? ht => ?_
    subst ht
    exact (takes_expressionRule hw).last fun s _ => .pure trivial
  · refine (takes_acceptAny (s := .semicolon) (by decide)).cons fun t? ht => ?_
    obtain ⟨t, rfl, hterminal⟩ := ht
    dsimp only
    rw [if_pos (by rw [hterminal]; decide)]
    exact .pure trivial

theorem takes_whileRule {e v : List Terminal} (he : Derives (name .expression) e)
    (hv : Takes statement v rest fun _ => True) :
    Takes (whileRule statement) (.symbol .leftParen :: (e ++ .symbol .rightParen :: v)) rest
      fun _ => True := by
  unfold whileRule
  refine (takes_expect _ _).cons fun paren _ => ?_
  refine (takes_expression he (stops_symbol (by decide))).bind fun condition _ => ?_
  refine (takes_expect _ _).cons fun paren _ => ?_
  exact hv.last fun body _ => .pure trivial

theorem takes_forRule {i c e v : List Terminal}
    (hi : Derives (name .varDecl) i ∨ Derives (name .exprStmt) i ∨ i = [.symbol .semicolon])
    (hc : c = [] ∨ Derives (name .expression) c) (he : e = [] ∨ Derives (name .expression) e)
    (hv : Takes statement v rest fun _ => True) :
    Takes (forRule statement) (.symbol .leftParen
      :: (i ++ (c ++ .symbol .semicolon :: (e ++ .symbol .rightParen :: v)))) rest
      fun _ => True := by
  unfold forRule
  refine (takes_expect _ _).cons fun paren _ => ?_
  refine (takes_forInitializer hi).bind fun initializer _ => ?_
  refine (takes_expressionUnless hc (by decide) (by decide)).bind fun condition _ => ?_
  refine (takes_expect _ _).cons fun semicolon _ => ?_
  refine (takes_expressionUnless he (by decide) (by decide)).bind fun increment _ => ?_
  refine (takes_expect _ _).cons fun paren _ => ?_
  exact hv.last fun body _ => .pure trivial

theorem takes_ifRule {e u v : List Terminal} (he : Derives (name .expression) e)
    (hu : Takes statement u (v ++ rest) fun _ => True)
    (hv : v = [] ∧ Stops [.elseWord] rest
      ∨ ∃ v', v = .symbol .elseWord :: v' ∧ Takes statement v' rest fun _ => True) :
    Takes (ifRule statement) (.symbol .leftParen :: (e ++ .symbol .rightParen :: (u ++ v))) rest
      fun _ => True := by
  unfold ifRule
  refine (takes_expect _ _).cons fun paren _ => ?_
  refine (takes_expression he (stops_symbol (by decide))).bind fun condition _ => ?_
  refine (takes_expect _ _).cons fun paren _ => ?_
  refine hu.bind fun thenBranch _ => ?_
  rcases hv with ⟨rfl, hrest⟩ | ⟨v', rfl, hv'⟩
  · refine (takes_accept_none hrest).look fun else? helse => ?_
    subst helse
    exact .pure trivial
  · refine (takes_accept _).cons fun else? helse => ?_
    obtain ⟨word, rfl⟩ := helse
    exact hv'.last fun elseBranch _ => .pure trivial

theorem takes_statementRule {d : Bool} (hs : TakesStatements n statement)
    (hd : TakesDeclarations n declaration) (hw : Nearest d w) (hn : (w ++ rest).length ≤ n + 1)
    (hrest : d = true → Stops [.elseWord] rest) :
    Takes (statementRule statement declaration) w rest fun _ => True := by
  unfold statementRule
  cases hw with
  | simple h =>
      rcases h with h | h | h | h
      · obtain ⟨u, rfl, hu⟩ := derives_exprStmt_iff.mp h
        obtain ⟨t, v, rfl, ht⟩ := begins_expression hu
        refine takes_peek_bind fun tok htok => ?_
        rw [← htok] at ht
        split
        iterate 6
          · next hkind => cases terminal_of_kind ht hkind
        · exact takes_expressionRule h
      · obtain ⟨u, rfl, -⟩ := derives_printStmt_iff.mp h
        refine takes_peek_bind fun tok htok => ?_
        simp only [kind_of_symbol htok]
        exact takes_take_bind fun _ => takes_printRule h
      · obtain ⟨u, rfl, -⟩ := derives_returnStmt_iff.mp h
        refine takes_peek_bind fun tok htok => ?_
        simp only [kind_of_symbol htok]
        exact takes_take_bind fun keyword => takes_returnRule keyword h
      · obtain ⟨ws, rfl, -⟩ := derives_block_iff.mp h
        refine takes_peek_bind fun tok htok => ?_
        simp only [kind_of_symbol htok]
        refine takes_take_bind fun _ => (takes_block hd h ?_).last fun body _ => .pure trivial
        simpa using hn
  | @loop _ u v hu hv =>
      have hbody : u ≠ [] → Takes statement v rest fun _ => True := by
        intro hne
        have hpos := List.length_pos_iff.mpr hne
        refine hs d v rest ?_ hv hrest
        simp only [List.length_append] at hn ⊢
        omega
      rcases hu with ⟨e, rfl, he⟩ | ⟨i, c, e, rfl, hi, hc, he⟩
      · have hrule := takes_whileRule he (hbody (List.cons_ne_nil _ _))
        refine takes_peek_bind fun tok htok => ?_
        simp only [kind_of_symbol htok]
        exact takes_take_bind fun _ => by simpa using hrule
      · have hrule := takes_forRule hi hc he (hbody (List.cons_ne_nil _ _))
        refine takes_peek_bind fun tok htok => ?_
        simp only [kind_of_symbol htok]
        exact takes_take_bind fun _ => by simpa using hrule
  | @ifThen d' e u he hu =>
      have hthen : Takes statement u ([] ++ rest) fun _ => True := by
        refine hs d' u rest ?_ hu fun _ => hrest rfl
        simp only [List.length_append, List.length_cons] at hn ⊢
        omega
      have hrule := takes_ifRule he hthen (.inl ⟨rfl, hrest rfl⟩)
      refine takes_peek_bind fun tok htok => ?_
      simp only [kind_of_symbol htok]
      exact takes_take_bind fun _ => by simpa using hrule
  | @ifElse _ e u v he hu hv =>
      have hthen : Takes statement u (.symbol .elseWord :: v ++ rest) fun _ => True := by
        -- In front of its else, a branch is not open to one.
        refine hs false u _ ?_ hu nofun
        simp only [List.length_append, List.length_cons] at hn ⊢
        omega
      have helse : Takes statement v rest fun _ => True := by
        refine hs d v rest ?_ hv hrest
        simp only [List.length_append, List.length_cons] at hn ⊢
        omega
      have hrule := takes_ifRule he hthen (.inr ⟨v, rfl, helse⟩)
      refine takes_peek_bind fun tok htok => ?_
      simp only [kind_of_symbol htok]
      exact takes_take_bind fun _ => hrule

theorem takes_declarationRule (hs : TakesStatements n statement)
    (hd : TakesDeclarations n declaration) (hw : Derives (name .declaration) w)
    (hn : (w ++ rest).length ≤ n + 1) (hrest : Stops [.elseWord] rest) :
    Takes (declarationRule statement declaration) w rest fun _ => True := by
  unfold declarationRule
  rcases derives_declaration_iff.mp hw with h | h | h | h
  · obtain ⟨u, ws, rfl, -⟩ := derives_classDecl_iff.mp h
    refine takes_peek_bind fun tok htok => ?_
    simp only [kind_of_symbol htok]
    exact takes_take_bind fun _ => takes_classRule hd h (by simpa using hn)
  · obtain ⟨u, rfl, hu⟩ := derives_funDecl_iff.mp h
    refine takes_peek_bind fun tok htok => ?_
    simp only [kind_of_symbol htok]
    refine takes_take_bind fun _ => ?_
    exact (takes_callable hd .function hu (by simpa using hn)).last fun decl _ => .pure trivial
  · obtain ⟨u, rfl, -⟩ := derives_varDecl_iff.mp h
    refine takes_peek_bind fun tok htok => ?_
    simp only [kind_of_symbol htok]
    exact takes_take_bind fun _ => takes_varRule h
  · obtain ⟨d, hnearest⟩ := exists_nearest h
    have hrule := takes_statementRule hs hd hnearest hn fun _ => hrest
    obtain ⟨t, v, rfl, ht⟩ := begins_statement h
    refine takes_peek_bind fun tok htok => ?_
    rw [← htok] at ht
    split
    iterate 3
      · next hkind => cases terminal_of_kind ht hkind
    · exact hrule

theorem takes_upTo (n : Nat) :
    TakesStatements n (statementUpTo n) ∧ TakesDeclarations n (declarationUpTo n) := by
  induction n with
  | zero =>
      refine ⟨fun d w rest hn hw _ => ?_, fun w rest hn hw _ => ?_⟩
      · obtain ⟨t, v, rfl, -⟩ := begins_statement hw.derives
        simp at hn
      · obtain ⟨t, v, rfl, -⟩ := begins_declaration hw
        simp at hn
  | succ n ih =>
      obtain ⟨hs, hd⟩ := ih
      refine ⟨fun d w rest hn hw hrest => ?_, fun w rest hn hw hrest => ?_⟩
      · exact takes_statementRule hs hd hw hn hrest
      · exact takes_recover (takes_declarationRule hs hd hw hn hrest)

theorem takes_programUpTo {ws : List (List Terminal)}
    (hws : ∀ v ∈ ws, Derives (name .declaration) v) (hn : ws.flatten.length ≤ n) :
    Takes (programUpTo n) ws.flatten [] fun _ => True := by
  have hne : ∀ v ∈ ws, v ≠ [] := fun v hv => (begins_declaration (hws v hv)).ne_nil
  have hitems : Takes (collect fun _ => beforeEnd (declarationUpTo n)) ws.flatten []
      (List.Forall₂ (fun _ _ => True) ws) := by
    refine takes_collect hne (fun i v hv => ?_) (takes_beforeEnd_end _)
    have hend : Stops [.elseWord] ([] : List Terminal) := nofun
    have hitem := (takes_upTo n).2.item hws hend (by rwa [List.append_nil]) hv
    exact (takes_beforeEnd_item (hne v (List.mem_of_getElem? hv)) hitem).mono
      fun _ ⟨d, hd⟩ => ⟨d, hd, trivial⟩
  unfold programUpTo
  exact hitems.last fun found _ => .pure trivial

end Lox.Grammar
