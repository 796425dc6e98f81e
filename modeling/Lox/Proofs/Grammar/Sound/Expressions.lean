import Lox.Proofs.Grammar.Reads

/-!
# Words of a parse without errors

Where the rule of a nonterminal records no error, the word that it takes is derived from the
grammar. For expressions, a tree that can be assigned to also shows that the word is a target.
-/

namespace Lox.Grammar

open Ebnf (name)

variable {w : List Terminal} {expression : Rule Expr}

/-- The word is derived from the name, and if the tree can be assigned to, then so can the word. -/
structure Shaped (x : Name) (e : Expr) (w : List Terminal) : Prop where
  derives : Derives (name x) w
  target : isTarget e = true → IsTarget w

theorem Shaped.of_node {x : Name} {e : Expr} (h : Derives (name x) w) (he : isTarget e = false) :
    Shaped x e w :=
  ⟨h, fun ht => absurd ht (by simp [he])⟩

structure Suffixed (s : Suffix) (w : List Terminal) : Prop where
  word : IsSuffix w
  get : ∀ property, s = .get property → w = [.symbol .dot, .identifier]

theorem reads_argumentList (he : Reads expression fun _ w => Derives (name .expression) w) :
    Reads (argumentList expression) fun s w =>
      Suffixed s (.symbol .leftParen :: w) := by
  have hclose : ∀ arguments u, Reads (do
        let paren ← expect .rightParen .argumentsEnd
        pure (Suffix.call paren arguments)) fun s v => u = [] ∨ Derives (name .arguments) u →
      Suffixed s (.symbol .leftParen :: (u ++ v)) := by
    intro arguments u
    refine (reads_expect .rightParen .argumentsEnd).bind fun paren v => .pure fun hv hu => ?_
    rw [hv, List.append_nil]
    exact ⟨.inl ⟨u, rfl, hu⟩, nofun⟩
  unfold argumentList
  refine (reads_sees .rightParen).bind fun empty u => ?_
  split
  · refine Reads.bind (P := fun _ v => v = []) (.pure rfl) fun arguments v => ?_
    refine (hclose arguments (u ++ v)).mono fun s w' h hv hu => ?_
    rw [← List.append_assoc]
    exact h (.inl (by rw [hu, hv]; rfl))
  · refine (reads_commaSeparated .tooManyArguments he).bind fun arguments v => ?_
    refine (hclose arguments v).mono fun s w' h hv hu => ?_
    rw [hu]
    exact h (.inr (derives_arguments_iff.mpr hv))

theorem reads_suffix? (he : Reads expression fun _ w => Derives (name .expression) w) :
    Reads (suffix? expression) (IfSome Suffixed) := by
  unfold suffix?
  refine (reads_acceptAny [.leftParen, .dot]).bind fun t? u => ?_
  cases t? with
  | none =>
      refine .pure fun hu => ?_
      rw [hu]
      rfl
  | some t =>
      dsimp only
      split
      · next hdot =>
        refine (reads_expectName .propertyName).bind fun property v => .pure fun hv hu => ?_
        obtain ⟨rfl, -⟩ := hu
        rw [beq_iff_eq.mp hdot, hv]
        exact ⟨.inr rfl, fun _ _ => rfl⟩
      · next hdot =>
        refine (reads_argumentList he).bind fun call v => .pure fun hv hu => ?_
        obtain ⟨rfl, hterminal⟩ := hu
        have hparen : t.terminal = .symbol .leftParen := by simp_all
        rw [hparen, List.append_nil]
        exact hv

theorem Shaped.apply {e : Expr} {s : Suffix} {u v : List Terminal} (h : Shaped .call e u)
    (hs : Suffixed s v) : Shaped .call (s.apply e) (u ++ v) := by
  obtain ⟨p, ws, hu, hp, hws⟩ := derives_call_iff.mp h.derives
  refine ⟨derives_call_iff.mpr ⟨p, ws ++ [v], by simp [hu], hp, fun v' hv' => ?_⟩, fun ht => ?_⟩
  · rcases List.mem_append.mp hv' with hv' | hv'
    · exact hws v' hv'
    · rw [List.mem_singleton.mp hv']
      exact hs.word
  · cases s with
    | call paren arguments => cases ht
    | get property =>
        rw [hs.get property rfl]
        exact .inr ⟨u, rfl, h.derives⟩

theorem Shaped.foldl_apply {suffixes : List Suffix} {k : Nat} {v : List Terminal} :
    ∀ {e : Expr} {u : List Terminal}, Shaped .call e u →
      Rounds (fun _ => Suffixed) k suffixes v →
      Shaped .call (suffixes.foldl Suffix.apply e) (u ++ v) := by
  induction suffixes generalizing k v with
  | nil =>
      rintro e u h rfl
      rwa [List.append_nil]
  | cons s suffixes ih =>
      rintro e u h ⟨v₁, v₂, rfl, hs, hrest⟩
      rw [← List.append_assoc]
      exact ih (h.apply hs) hrest

theorem shaped_of_primary {e : Expr} (h : Shaped .primary e w) : Shaped .call e w :=
  ⟨derives_call_iff.mpr ⟨w, [], by simp, h.derives, by simp⟩, h.target⟩

theorem readsAt_literal {t : Token} {kind : Token.Kind} (value : Literal) (hkind : t.kind = kind)
    (h : kind.terminal ∈ [.number, .string, .symbol .trueWord, .symbol .falseWord,
      .symbol .nilWord]) :
    ReadsAt t (do let _ ← take; pure (.literal value)) (Shaped .primary) := by
  refine readsAt_take_bind fun _ => .pure (.of_node ?_ rfl)
  rw [Token.terminal, hkind, derives_primary_iff]
  generalize kind.terminal = terminal at h
  simp only [List.mem_cons, List.not_mem_nil, or_false] at h
  rcases h with rfl | rfl | rfl | rfl | rfl <;> simp

theorem reads_primary (he : Reads expression fun _ w => Derives (name .expression) w) :
    Reads (primary expression) (Shaped .primary) := by
  unfold primary
  refine reads_peek_bind (fun line => reads_fail _) fun t => ?_
  split
  · next hkind => exact readsAt_literal _ hkind (by simp [Token.Kind.terminal])
  · next hkind => exact readsAt_literal _ hkind (by simp [Token.Kind.terminal])
  · next hkind => exact readsAt_literal _ hkind (by simp [Token.Kind.terminal])
  · next hkind => exact readsAt_literal _ hkind (by simp [Token.Kind.terminal])
  · next hkind => exact readsAt_literal _ hkind (by simp [Token.Kind.terminal])
  · next hkind =>
    refine readsAt_symbol_bind hkind fun keyword => reads_freshId.bind fun id u =>
      .pure fun hu => ?_
    subst hu
    exact .of_node (by simp [derives_primary_iff]) rfl
  · next hkind =>
    refine readsAt_symbol_bind hkind fun keyword => (reads_expect _ _).bind fun dot u => ?_
    refine (reads_expectName .superMethodName).bind fun method v => ?_
    refine reads_freshId.bind fun id v' => .pure fun hv' hv hu => ?_
    subst hv' hv hu
    exact .of_node (by simp [derives_primary_iff]) rfl
  · next hkind =>
    have hterminal : t.terminal = .identifier := congrArg Token.Kind.terminal hkind
    refine readsAt_take_bind fun keyword => reads_freshId.bind fun id u => .pure fun hu => ?_
    subst hu
    rw [hterminal]
    exact ⟨by simp [derives_primary_iff], fun _ => .inl rfl⟩
  · next hkind =>
    refine readsAt_symbol_bind hkind fun paren => he.bind fun inner u => ?_
    refine (reads_expect .rightParen .groupEnd).bind fun paren v => .pure fun hv hu => ?_
    subst hv
    exact .of_node (by simp [derives_primary_iff, hu]) rfl
  · exact (reads_fail _).at

theorem reads_postfixed (he : Reads expression fun _ w => Derives (name .expression) w) :
    Reads (postfixed expression) (Shaped .call) := by
  unfold postfixed
  refine (reads_primary he).bind fun base u => ?_
  refine (reads_collect (P := fun _ => Suffixed) fun _ => reads_suffix? he).bind
    fun suffixes v => .pure fun hsuffixes hbase => ?_
  rw [List.append_nil]
  exact (shaped_of_primary hbase).foldl_apply hsuffixes

variable {self : Nonterminal → Rule Expr} {operand unary : Rule Expr}

/-- Joining further operands gives no target. -/
theorem isTarget_foldl {level : Level} (hnode : ∀ l t r, isTarget (level.node l t r) = false)
    {more : List (Token × Expr)} (hmore : more ≠ []) :
    ∀ first, isTarget (more.foldl (fun left p => level.node left p.1 p.2) first) = false := by
  induction more with
  | nil => exact absurd rfl hmore
  | cons p more ih =>
      intro first
      rw [List.foldl_cons]
      by_cases hnil : more = []
      · subst hnil
        exact hnode _ _ _
      · exact ih hnil _

theorem reads_rightOperand? {level : Level} {y : Name}
    (ho : Reads operand (Shaped y)) :
    Reads (rightOperand? level operand) (IfSome fun _ w => ∃ s v, w = .symbol s :: v
      ∧ s ∈ level.operators ∧ Derives (name y) v) := by
  unfold rightOperand?
  refine (reads_acceptAny _).bind fun t? u => ?_
  cases t? with
  | none =>
      refine .pure fun hu => ?_
      rw [hu]
      rfl
  | some operator =>
      refine ho.bind fun right v => .pure fun hv hu => ?_
      obtain ⟨rfl, s, hs, hterminal⟩ := hu
      exact ⟨s, v, by rw [hterminal]; simp, hs, hv.derives⟩

theorem reads_leftAssociative {level : Level} {x y : Name} (hjoins : Joins x level.operators y)
    (hnode : ∀ l t r, isTarget (level.node l t r) = false) (ho : Reads operand (Shaped y)) :
    Reads (leftAssociative level operand) (Shaped x) := by
  unfold leftAssociative
  refine ho.bind fun first u => ?_
  refine (reads_collect fun _ => reads_rightOperand? ho).bind fun more v =>
    .pure fun hmore hfirst => ?_
  obtain ⟨ws, rfl, hlen, hws⟩ := hmore.exists_words
  rw [List.append_nil]
  refine ⟨(hjoins _).mpr ⟨u, ws, rfl, hfirst.derives, fun v hv => ?_⟩, fun ht => ?_⟩
  · obtain ⟨_, _, h⟩ := hws v hv
    exact h
  · by_cases hnil : more = []
    · subst hnil
      obtain rfl : ws = [] := List.length_eq_zero_iff.mp hlen
      rw [List.flatten_nil, List.append_nil]
      exact hfirst.target ht
    · rw [isTarget_foldl hnode hnil] at ht
      cases ht

theorem Tower.reads_binaryOver {x : Name} {ls : List Level} (h : Tower x ls)
    (hu : Reads unary (Shaped .unary)) : Reads (binaryOver unary ls) (Shaped x) := by
  induction h with
  | unary => exact hu
  | level hjoins hnode _ _ ih => exact reads_leftAssociative hjoins hnode ih

/-- The name in the grammar. -/
def Nonterminal.name : Nonterminal → Name
  | .expression => .expression
  | .conditional => .ternary
  | .unary => .unary

theorem reads_unaryRule (hself : ∀ x, Reads (self x) fun _ w => Derives (name x.name) w) :
    Reads (unaryRule self) (Shaped .unary) := by
  unfold unaryRule
  refine (reads_acceptAny _).bind fun t? u => ?_
  cases t? with
  | none =>
      refine (reads_postfixed (hself .expression)).mono fun e w hw hu => ?_
      rw [hu]
      exact ⟨derives_unary_iff.mpr (.inr hw.derives), hw.target⟩
  | some operator =>
      refine (hself .unary).bind fun operand v => .pure fun hv hu => ?_
      obtain ⟨rfl, s, hs, hterminal⟩ := hu
      rw [hterminal, List.append_nil]
      exact .of_node (derives_unary_iff.mpr (.inl ⟨s, v, rfl, hs, hv⟩)) rfl

theorem reads_conditionalRule (hself : ∀ x, Reads (self x) fun _ w => Derives (name x.name) w) :
    Reads (conditionalRule self) (Shaped .ternary) := by
  unfold conditionalRule
  refine (tower_logicOr.reads_binaryOver (reads_unaryRule hself)).bind fun condition u => ?_
  refine (reads_accept .question).bind fun t? q => ?_
  cases t? with
  | none =>
      refine .pure fun hq hu => ?_
      rw [hq, List.append_nil, List.append_nil]
      exact ⟨derives_ternary_iff.mpr ⟨u, [], by simp, hu.derives, .inl rfl⟩, hu.target⟩
  | some question =>
      refine (hself .conditional).bind fun thenBranch v => ?_
      refine (reads_expect .colon .conditionalColon).bind fun colon c => ?_
      refine (hself .conditional).bind fun elseBranch v' => .pure fun hv' hc hv hq hu => ?_
      obtain ⟨rfl, hterminal⟩ := hq
      rw [hterminal, hc, List.append_nil]
      exact .of_node (derives_ternary_iff.mpr
        ⟨u, _, rfl, hu.derives, .inr ⟨v, v', by simp, hv, hv'⟩⟩) rfl

/-- Without a new error, what is assigned to is a target. -/
theorem reads_assignTo (target : Expr) (equals : Token) (value : Expr) :
    Reads (assignTo target equals value) fun _ w => w = [] ∧ isTarget target = true := by
  unfold assignTo
  split
  · exact reads_freshId.bind fun id u => .pure fun hu => ⟨by rw [hu]; rfl, rfl⟩
  · exact .pure ⟨rfl, rfl⟩
  · exact (reads_record _ _).bind fun _ u => .pure fun hfalse => hfalse.elim

theorem reads_assignmentRule (hself : ∀ x, Reads (self x) fun _ w => Derives (name x.name) w) :
    Reads (assignmentRule self) fun _ w => Derives (name .expression) w := by
  unfold assignmentRule
  refine (reads_conditionalRule hself).bind fun target u => ?_
  refine (reads_accept .equal).bind fun t? q => ?_
  cases t? with
  | none =>
      refine .pure fun hq hu => ?_
      rw [hq, List.append_nil, List.append_nil]
      exact derives_expression_iff.mpr (.inr hu.derives)
  | some equals =>
      refine (hself .expression).bind fun value v => ?_
      refine (reads_assignTo target equals value).mono fun e w hw hv hq hu => ?_
      obtain ⟨rfl, htarget⟩ := hw
      obtain ⟨rfl, hterminal⟩ := hq
      rw [hterminal, List.append_nil]
      exact derives_expression_iff.mpr (.inl ⟨u, v, rfl, hu.target htarget, hv⟩)

theorem reads_expressionUpTo (n : Nat) :
    ∀ x, Reads (expressionUpTo n x) fun _ w => Derives (name x.name) w := by
  induction n with
  | zero =>
      intro x
      exact reads_fail .expression
  | succ n ih =>
      intro x
      cases x with
      | expression => exact reads_assignmentRule ih
      | conditional => exact (reads_conditionalRule ih).mono fun _ _ h => h.derives
      | unary => exact (reads_unaryRule ih).mono fun _ _ h => h.derives

theorem reads_expression : Reads Grammar.expression fun _ w => Derives (name .expression) w :=
  fun c => reads_expressionUpTo c.rest.length .expression c

end Lox.Grammar
