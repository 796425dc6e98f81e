import Lox.Proofs.Grammar.Sound.Expressions
import Lox.Proofs.Grammar.Takes

/-!
# Expressions are taken

Every word of an expression is taken by its rule, as long as what comes next cannot continue the
expression.
-/

namespace Lox.Grammar

open Ebnf (name)

variable {u v w rest : List Terminal} {n : Nat} {self : Nonterminal → Rule Expr}

/-- The symbols that can continue an expression. -/
def Nonterminal.continuing : Nonterminal → List Symbol
  | .expression => .equal :: .question :: Grammar.continuing levels
  | .conditional => .question :: Grammar.continuing levels
  | .unary => suffixSymbols

/-- On inputs of at most `n` terminals, the rules take the words of their names. -/
def TakesUpTo (n : Nat) (self : Nonterminal → Rule Expr) : Prop :=
  ∀ x w rest, (w ++ rest).length ≤ n → Derives (name x.name) w → Stops x.continuing rest →
    Takes (self x) w rest fun _ => True

theorem Begins.stops {p : Terminal → Bool} (h : Begins p w) {symbols : List Symbol}
    (hp : ∀ s ∈ symbols, p (.symbol s) = false) : Stops symbols w := by
  obtain ⟨t, v, rfl, ht⟩ := h
  refine stops_cons fun s hs heq => ?_
  rw [heq, hp s hs] at ht
  cases ht

theorem takes_argumentList (hself : TakesUpTo n self)
    (hw : w = [] ∨ Derives (name .arguments) w)
    (hn : (w ++ .symbol .rightParen :: rest).length ≤ n) :
    Takes (argumentList (self .expression)) (w ++ [.symbol .rightParen]) rest fun s =>
      ∀ property, s ≠ .get property := by
  have hclose : ∀ arguments, Takes (do
      let paren ← expect .rightParen .argumentsEnd
      pure (Suffix.call paren arguments)) [.symbol .rightParen] rest fun s =>
        ∀ property, s ≠ .get property :=
    fun arguments => (takes_expect _ _).last fun paren _ => .pure nofun
  unfold argumentList
  rcases hw with rfl | hw
  · refine (takes_sees_self .rightParen).look fun empty hempty => ?_
    subst hempty
    exact Takes.look (P := fun _ => True) (.pure trivial) fun arguments _ => hclose arguments
  · have hstops : Stops [.rightParen] ((w ++ [.symbol .rightParen]) ++ rest) := by
      rw [List.append_assoc]
      exact ((begins_arguments hw).append _).stops (by decide)
    refine (takes_sees_false hstops).look fun empty hempty => ?_
    subst hempty
    refine Takes.bind (P := fun _ => True) (takes_commaSeparated .tooManyArguments ?_
      (stops_symbol (by decide)) (derives_arguments_iff.mp hw)) fun arguments _ => hclose arguments
    intro e rest' he hrest' hlen
    apply hself .expression e rest' (hlen.trans hn) he
    rcases hrest' with rfl | ⟨v, rfl⟩
    · exact stops_symbol (by decide)
    · exact stops_symbol (by decide)

/-- From the name of a property comes its access. -/
def Accesses (w : List Terminal) (s : Suffix) : Prop :=
  w = [.symbol .dot, .identifier] → ∃ property, s = .get property

theorem takes_suffix? (hself : TakesUpTo n self) (hw : IsSuffix w)
    (hn : (w ++ rest).length ≤ n + 1) : Takes (suffix? (self .expression)) w rest fun s? =>
      ∃ s, s? = some s ∧ Accesses w s := by
  unfold suffix?
  rcases hw with ⟨u, rfl, hu⟩ | rfl
  · refine (takes_acceptAny (s := .leftParen) (by decide)).cons fun t? ht => ?_
    obtain ⟨t, rfl, hterminal⟩ := ht
    dsimp only
    rw [if_neg (by rw [hterminal]; decide)]
    refine (takes_argumentList hself hu (by simpa using hn)).last fun call _ => ?_
    exact .pure ⟨call, rfl, by simp [Accesses]⟩
  · refine (takes_acceptAny (s := .dot) (by decide)).cons fun t? ht => ?_
    obtain ⟨t, rfl, hterminal⟩ := ht
    dsimp only
    rw [if_pos (by rw [hterminal]; decide)]
    refine (takes_expectName .propertyName).last fun property _ => ?_
    exact .pure ⟨_, rfl, fun _ => ⟨property, rfl⟩⟩

theorem takes_suffix?_none {expr : Rule Expr} (hrest : Stops suffixSymbols rest) :
    Takes (suffix? expr) [] rest (· = none) := by
  unfold suffix?
  refine (takes_acceptAny_none hrest).look fun t? ht => ?_
  subst ht
  exact .pure rfl

/-- A name alone is a target. -/
theorem takes_primary (hself : TakesUpTo n self) (hw : Derives (name .primary) w)
    (hn : (w ++ rest).length ≤ n + 1) : Takes (primary (self .expression)) w rest fun e =>
      w = [.identifier] → isTarget e = true := by
  have hliteral : ∀ {t value}, t ≠ .identifier → Takes (do
      let _ ← take
      pure (Expr.literal value)) [t] rest fun e => [t] = [.identifier] → isTarget e = true :=
    fun ht => takes_take_bind fun _ => .pure fun heq => absurd (List.cons.inj heq).1 ht
  rw [derives_primary_iff] at hw
  unfold primary
  rcases hw with rfl | rfl | rfl | rfl | rfl | rfl | rfl | ⟨u, rfl, hu⟩ | rfl
  · refine takes_peek_bind fun t ht => ?_
    obtain ⟨x, hkind⟩ := kind_of_number ht
    simp only [hkind]
    exact hliteral nofun
  · refine takes_peek_bind fun t ht => ?_
    obtain ⟨text, hkind⟩ := kind_of_string ht
    simp only [hkind]
    exact hliteral nofun
  · refine takes_peek_bind fun t ht => ?_
    simp only [kind_of_symbol ht]
    exact hliteral nofun
  · refine takes_peek_bind fun t ht => ?_
    simp only [kind_of_symbol ht]
    exact hliteral nofun
  · refine takes_peek_bind fun t ht => ?_
    simp only [kind_of_symbol ht]
    exact hliteral nofun
  · refine takes_peek_bind fun t ht => ?_
    simp only [kind_of_symbol ht]
    exact takes_take_bind fun keyword => takes_freshId.last fun id _ => .pure (by simp)
  · refine takes_peek_bind fun t ht => ?_
    simp only [kind_of_identifier ht]
    exact takes_take_bind fun x => takes_freshId.last fun id _ => .pure fun _ => rfl
  · refine takes_peek_bind fun t ht => ?_
    simp only [kind_of_symbol ht]
    have hinner : Takes (self .expression) u (.symbol .rightParen :: rest) fun _ => True := by
      refine hself .expression u _ ?_ hu (stops_symbol (by decide))
      simpa using hn
    refine takes_take_bind fun paren => hinner.bind fun inner _ => ?_
    exact (takes_expect _ _).last fun paren _ => .pure (by simp)
  · refine takes_peek_bind fun t ht => ?_
    simp only [kind_of_symbol ht]
    refine takes_take_bind fun keyword => (takes_expect _ _).cons fun dot _ => ?_
    refine (takes_expectName _).last fun method _ => ?_
    exact takes_freshId.last fun id _ => .pure nofun

theorem takes_suffixes (hself : TakesUpTo n self) {ws : List (List Terminal)}
    (hws : ∀ v ∈ ws, IsSuffix v) (hrest : Stops suffixSymbols rest)
    (hn : (ws.flatten ++ rest).length ≤ n + 1) :
    Takes (collect fun _ => suffix? (self .expression)) ws.flatten rest
      (List.Forall₂ Accesses ws) := by
  apply takes_collect
  · intro v hv
    rcases hws v hv with ⟨u, rfl, -⟩ | rfl
    · exact List.cons_ne_nil _ _
    · exact List.cons_ne_nil _ _
  · intro i v hv
    apply takes_suffix? hself (hws v (List.mem_of_getElem? hv))
    have hbound := length_drop_flatten hv
    simp only [List.length_append] at hbound hn ⊢
    omega
  · exact takes_suffix?_none hrest

/-- Where the last suffix is the name of a property, the whole is a target. -/
theorem isTarget_foldl_apply {ws : List (List Terminal)} {suffixes : List Suffix}
    (h : List.Forall₂ Accesses (ws ++ [[.symbol .dot, .identifier]]) suffixes) :
    ∀ base, isTarget (suffixes.foldl Suffix.apply base) = true := by
  induction ws generalizing suffixes with
  | nil =>
      intro base
      cases h with
      | cons hlast hnil =>
          cases hnil
          obtain ⟨property, rfl⟩ := hlast rfl
          rfl
  | cons v ws ih =>
      intro base
      cases h with
      | cons _ hrest => exact ih hrest _

theorem takes_postfixed (hself : TakesUpTo n self) (hw : Derives (name .call) w)
    (hrest : Stops suffixSymbols rest) (hn : (w ++ rest).length ≤ n + 1) :
    Takes (postfixed (self .expression)) w rest fun _ => True := by
  obtain ⟨u, ws, rfl, hu, hws⟩ := derives_call_iff.mp hw
  unfold postfixed
  refine (takes_primary hself hu (by simpa using hn)).bind fun base _ => ?_
  refine (takes_suffixes hself hws hrest ?_).last fun suffixes _ => .pure trivial
  simp only [List.length_append] at hn ⊢
  omega

/-- The words that can be assigned to give trees that can. -/
theorem takes_postfixed_target (hself : TakesUpTo n self) (hw : IsTarget w)
    (hrest : Stops suffixSymbols rest) (hn : (w ++ rest).length ≤ n + 1) :
    Takes (postfixed (self .expression)) w rest fun e => isTarget e = true := by
  unfold postfixed
  rcases hw with rfl | ⟨w, rfl, hw⟩
  · have hu : Derives (name .primary) [.identifier] := by simp [derives_primary_iff]
    refine (takes_primary hself hu hn).last fun base hbase => ?_
    have hnone : Takes (suffix? (self .expression)) [] rest (· = none) :=
      takes_suffix?_none hrest
    refine (takes_collect_nil hnone).last fun suffixes hs => ?_
    subst hs
    exact .pure (hbase rfl)
  · obtain ⟨u, ws, rfl, hu, hws⟩ := derives_call_iff.mp hw
    have hlast : ∀ v ∈ ws ++ [[.symbol .dot, .identifier]], IsSuffix v := by
      intro v hv
      rcases List.mem_append.mp hv with hv | hv
      · exact hws v hv
      · rw [List.mem_singleton.mp hv]
        exact .inr rfl
    have hflatten : u ++ ws.flatten ++ [.symbol .dot, .identifier]
        = u ++ (ws ++ [[Terminal.symbol .dot, .identifier]]).flatten := by simp
    rw [hflatten] at hn ⊢
    refine (takes_primary hself hu (by simpa using hn)).bind fun base _ => ?_
    refine (takes_suffixes hself hlast hrest ?_).last fun suffixes hs => .pure ?_
    · simp only [List.length_append] at hn ⊢
      omega
    · exact isTarget_foldl_apply hs base

/-! ## Operators -/

theorem takes_unaryRule (hself : TakesUpTo n self) (hw : Derives (name .unary) w)
    (hrest : Stops suffixSymbols rest) (hn : (w ++ rest).length ≤ n + 1) :
    Takes (unaryRule self) w rest fun _ => True := by
  unfold unaryRule
  rcases derives_unary_iff.mp hw with ⟨s, u, rfl, hs, hu⟩ | hw
  · refine (takes_acceptAny hs).cons fun t? ht => ?_
    obtain ⟨t, rfl, -⟩ := ht
    refine (hself .unary u rest ?_ hu hrest).last fun operand _ => .pure trivial
    simpa using hn
  · have hstops : Stops [.bang, .minus] (w ++ rest) :=
      ((begins_call hw).append rest).stops (by decide)
    refine (takes_acceptAny_none hstops).look fun t? ht => ?_
    subst ht
    exact takes_postfixed hself hw hrest hn

theorem takes_unaryRule_target (hself : TakesUpTo n self) (hw : IsTarget w)
    (hrest : Stops suffixSymbols rest) (hn : (w ++ rest).length ≤ n + 1) :
    Takes (unaryRule self) w rest fun e => isTarget e = true := by
  unfold unaryRule
  have hstops : Stops [.bang, .minus] (w ++ rest) := (hw.begins.append rest).stops (by decide)
  refine (takes_acceptAny_none hstops).look fun t? ht => ?_
  subst ht
  exact takes_postfixed_target hself hw hrest hn

theorem Stops.operators {level : Level} {tighter : List Level}
    (h : Stops (continuing (level :: tighter)) rest) : Stops level.operators rest :=
  h.mono fun s hs => by simp [continuing, hs]

theorem Stops.tighter {level : Level} {tighter : List Level}
    (h : Stops (continuing (level :: tighter)) rest) : Stops (continuing tighter) rest := by
  refine h.mono fun s hs => ?_
  simp only [continuing, List.flatMap_cons, List.append_assoc, List.mem_append] at hs ⊢
  exact .inr hs

theorem takes_rightOperand?_none {level : Level} {operand : Rule Expr}
    (hrest : Stops level.operators rest) :
    Takes (rightOperand? level operand) [] rest (· = none) := by
  unfold rightOperand?
  refine (takes_acceptAny_none hrest).look fun t? ht => ?_
  subst ht
  exact .pure rfl

/-- Operands are joined as long as an operator of the level follows. -/
theorem takes_leftAssociative {level : Level} {tighter : List Level} {x y : Name}
    {operand : Rule Expr} (hjoins : Joins x level.operators y)
    (hnew : ∀ s ∈ level.operators, s ∉ continuing tighter)
    (ho : ∀ u rest', (u ++ rest').length ≤ n → Derives (name y) u →
      Stops (continuing tighter) rest' → Takes operand u rest' fun _ => True)
    (hw : Derives (name x) w) (hrest : Stops (continuing (level :: tighter)) rest)
    (hn : (w ++ rest).length ≤ n) :
    Takes (leftAssociative level operand) w rest fun _ => True := by
  obtain ⟨u, ws, rfl, hu, hws⟩ := (hjoins w).mp hw
  have hfollow : ∀ ws' : List (List Terminal), (∀ v ∈ ws', v ∈ ws) →
      Stops (continuing tighter) (ws'.flatten ++ rest) := by
    intro ws' hsub
    cases ws' with
    | nil => exact hrest.tighter
    | cons v ws' =>
        obtain ⟨s, v', rfl, hs, -⟩ := hws v (hsub v List.mem_cons_self)
        exact stops_symbol (hnew s hs)
  unfold leftAssociative
  refine (ho u _ (by simpa using hn) hu (hfollow ws fun _ h => h)).bind fun first _ => ?_
  refine (takes_collect (Q := fun _ _ => True) ?_ ?_ ?_).last fun more _ => .pure trivial
  · intro v hv
    obtain ⟨s, v', rfl, -⟩ := hws v hv
    exact List.cons_ne_nil _ _
  · intro i v hv
    obtain ⟨s, v', rfl, hs, hv'⟩ := hws v (List.mem_of_getElem? hv)
    have hbound := length_drop_flatten hv
    unfold rightOperand?
    refine (takes_acceptAny hs).cons fun t? ht => ?_
    obtain ⟨t, rfl, -⟩ := ht
    have hoperand := ho v' ((ws.drop (i + 1)).flatten ++ rest) ?_ hv'
      (hfollow _ fun _ h => List.mem_of_mem_drop h)
    · exact hoperand.last fun right _ => .pure ⟨_, rfl, trivial⟩
    · simp only [List.length_append, List.length_cons] at hbound hn ⊢
      omega
  · exact takes_rightOperand?_none hrest.operators

theorem Tower.takes_binaryOver {x : Name} {ls : List Level} {unary : Rule Expr} (h : Tower x ls)
    (hu : ∀ w rest, (w ++ rest).length ≤ n → Derives (name .unary) w → Stops suffixSymbols rest →
      Takes unary w rest fun _ => True) :
    ∀ w rest, (w ++ rest).length ≤ n → Derives (name x) w → Stops (continuing ls) rest →
      Takes (binaryOver unary ls) w rest fun _ => True := by
  induction h with
  | unary => exact hu
  | level hjoins _ hnew _ ih =>
      intro w rest hn hw hrest
      exact takes_leftAssociative hjoins hnew ih hw hrest hn

/-- A unary expression that no operator follows stands for itself on all levels. -/
theorem takes_binaryOver_unary {unary : Rule Expr} {P : Expr → Prop}
    (hu : Takes unary w rest P) {ls : List Level} (hrest : Stops (continuing ls) rest) :
    Takes (binaryOver unary ls) w rest P := by
  induction ls with
  | nil => exact hu
  | cons level tighter ih =>
      rw [binaryOver, leftAssociative]
      refine (ih hrest.tighter).last fun first hfirst => ?_
      refine (takes_collect_nil (takes_rightOperand?_none hrest.operators)).last
        fun more hmore => ?_
      subst hmore
      exact .pure hfirst

/-! ## Rules that contain themselves -/

theorem takes_conditionalRule (hself : TakesUpTo n self) (hw : Derives (name .ternary) w)
    (hrest : Stops Nonterminal.conditional.continuing rest) (hn : (w ++ rest).length ≤ n + 1) :
    Takes (conditionalRule self) w rest fun _ => True := by
  have hunary : ∀ w rest, (w ++ rest).length ≤ n + 1 → Derives (name .unary) w →
      Stops suffixSymbols rest → Takes (unaryRule self) w rest fun _ => True :=
    fun w rest hn hw hrest => takes_unaryRule hself hw hrest hn
  have hcondition := tower_logicOr.takes_binaryOver hunary
  obtain ⟨u, v, rfl, hu, hv⟩ := derives_ternary_iff.mp hw
  unfold conditionalRule
  rcases hv with rfl | ⟨v₁, v₂, rfl, hv₁, hv₂⟩
  · have hquestion : Stops [.question] rest := hrest.mono (by decide)
    have hoperators : Stops (continuing levels) rest :=
      hrest.mono fun s hs => List.mem_cons_of_mem _ hs
    rw [List.append_nil] at hn ⊢
    refine (hcondition u rest hn hu hoperators).last fun condition _ => ?_
    refine (takes_accept_none hquestion).look fun t? ht => ?_
    subst ht
    exact .pure trivial
  · have hn₁ : (v₁ ++ .symbol .colon :: (v₂ ++ rest)).length ≤ n := by
      simp only [List.length_append, List.length_cons] at hn ⊢
      omega
    have hn₂ : (v₂ ++ rest).length ≤ n := by
      simp only [List.length_append, List.length_cons] at hn ⊢
      omega
    refine (hcondition u _ (by simpa using hn) hu (stops_symbol (by decide))).bind
      fun condition _ => ?_
    refine (takes_accept _).cons fun t? ht => ?_
    obtain ⟨t, rfl⟩ := ht
    refine (hself .conditional v₁ _ ?_ hv₁ (stops_symbol (by decide))).bind fun thenBranch _ => ?_
    · simpa using hn₁
    refine (takes_expect _ _).cons fun colon _ => ?_
    exact (hself .conditional v₂ rest hn₂ hv₂ hrest).last fun elseBranch _ => .pure trivial

theorem takes_conditionalRule_target (hself : TakesUpTo n self) (hw : IsTarget w)
    (hrest : Stops Nonterminal.conditional.continuing rest) (hn : (w ++ rest).length ≤ n + 1) :
    Takes (conditionalRule self) w rest fun e => isTarget e = true := by
  have hquestion : Stops [.question] rest := hrest.mono (by decide)
  have hoperators : Stops (continuing levels) rest :=
    hrest.mono fun s hs => List.mem_cons_of_mem _ hs
  have hsuffixes : Stops suffixSymbols rest := hrest.mono (by decide)
  unfold conditionalRule
  refine (takes_binaryOver_unary (takes_unaryRule_target hself hw hsuffixes hn) hoperators).last
    fun target ht => ?_
  refine (takes_accept_none hquestion).look fun t? ht? => ?_
  subst ht?
  exact .pure ht

theorem takes_assignTo {target : Expr} (ht : isTarget target = true) (equals : Token)
    (value : Expr) : Takes (assignTo target equals value) [] rest fun _ => True := by
  unfold assignTo
  cases target with
  | var id x => exact takes_freshId.last fun id _ => .pure trivial
  | get object x => exact .pure trivial
  | _ => cases ht

theorem takes_assignmentRule (hself : TakesUpTo n self) (hw : Derives (name .expression) w)
    (hrest : Stops Nonterminal.expression.continuing rest) (hn : (w ++ rest).length ≤ n + 1) :
    Takes (assignmentRule self) w rest fun _ => True := by
  unfold assignmentRule
  rcases derives_expression_iff.mp hw with ⟨u, v, rfl, hu, hv⟩ | hw
  · have hnv : (v ++ rest).length ≤ n := by
      simp only [List.length_append, List.length_cons] at hn ⊢
      omega
    refine (takes_conditionalRule_target hself hu (stops_symbol (by decide))
      (by simpa using hn)).bind fun target ht => ?_
    refine (takes_accept _).cons fun t? ht? => ?_
    obtain ⟨equals, rfl⟩ := ht?
    exact (hself .expression v rest hnv hv hrest).last fun value _ =>
      takes_assignTo ht equals value
  · have hequal : Stops [.equal] rest := hrest.mono (by decide)
    have hconditional : Stops Nonterminal.conditional.continuing rest :=
      hrest.mono fun s hs => List.mem_cons_of_mem _ hs
    refine (takes_conditionalRule hself hw hconditional hn).last fun target _ => ?_
    refine (takes_accept_none hequal).look fun t? ht? => ?_
    subst ht?
    exact .pure trivial

theorem Nonterminal.begins (x : Nonterminal) (hw : Derives (Ebnf.name x.name) w) :
    Begins beginsExpression w := by
  cases x with
  | expression => exact begins_expression hw
  | conditional => exact begins_ternary hw
  | unary => exact begins_unary hw

theorem takes_expressionUpTo (n : Nat) : TakesUpTo n (expressionUpTo n) := by
  induction n with
  | zero =>
      intro x w rest hn hw _
      obtain ⟨t, v, rfl, -⟩ := x.begins hw
      simp at hn
  | succ n ih =>
      intro x w rest hn hw hrest
      cases x with
      | expression => exact takes_assignmentRule ih hw hrest hn
      | conditional => exact takes_conditionalRule ih hw hrest hn
      | unary => exact takes_unaryRule ih hw hrest hn

theorem takes_expression (hw : Derives (name .expression) w)
    (hrest : Stops Nonterminal.expression.continuing rest) :
    Takes expression w rest fun _ => True := by
  intro c hc
  refine takes_expressionUpTo c.rest.length .expression w rest ?_ hw hrest c hc
  rw [Cursor.length_rest hc]

end Lox.Grammar
