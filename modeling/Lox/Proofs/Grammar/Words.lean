import Lox.Proofs.Grammar.Ebnf

/-!
# Words of the grammar

How the words of a name begin, how the levels of binary operators stand over one another, and the
one reading of a statement that a parser can find without looking ahead: an else belongs to the
nearest if.
-/

namespace Lox.Grammar

open Ebnf (name)

variable {u v w : List Terminal}

/-- The terminal can begin a primary expression. -/
def beginsPrimary : Terminal → Bool
  | .number | .string | .identifier => true
  | .symbol s =>
      [Symbol.trueWord, .falseWord, .nilWord, .thisWord, .leftParen, .superWord].contains s
  | .endOfInput => false

def beginsExpression (t : Terminal) : Bool :=
  beginsPrimary t || [Symbol.bang, .minus].any fun s => t == .symbol s

def beginsStmt (t : Terminal) : Bool :=
  beginsExpression t || [Symbol.forWord, .ifWord, .printWord, .returnWord, .whileWord,
    .leftBrace].any fun s => t == .symbol s

def beginsDeclaration (t : Terminal) : Bool :=
  beginsStmt t || [Symbol.classWord, .funWord, .varWord].any fun s => t == .symbol s

/-- The word begins with such a terminal. -/
def Begins (p : Terminal → Bool) (w : List Terminal) : Prop :=
  ∃ t v, w = t :: v ∧ p t = true

theorem Begins.append {p : Terminal → Bool} (h : Begins p u) (v : List Terminal) :
    Begins p (u ++ v) := by
  obtain ⟨t, u', rfl, ht⟩ := h
  exact ⟨t, u' ++ v, rfl, ht⟩

theorem Begins.mono {p q : Terminal → Bool} (h : Begins p w) (hpq : ∀ t, p t = true → q t = true) :
    Begins q w := by
  obtain ⟨t, v, rfl, ht⟩ := h
  exact ⟨t, v, rfl, hpq t ht⟩

theorem Begins.ne_nil {p : Terminal → Bool} (h : Begins p w) : w ≠ [] := by
  obtain ⟨t, v, rfl, -⟩ := h
  exact List.cons_ne_nil t v

theorem length_le_flatten {α : Type} {ws : List (List α)} (hne : ∀ u ∈ ws, u ≠ []) :
    ws.length ≤ ws.flatten.length := by
  induction ws with
  | nil => exact Nat.le_refl _
  | cons u ws ih =>
      have hu := List.length_pos_iff.mpr (hne u List.mem_cons_self)
      have hws := ih fun v hv => hne v (List.mem_cons_of_mem u hv)
      rw [List.flatten_cons, List.length_append, List.length_cons]
      omega

theorem begins_primary (h : Derives (name .primary) w) : Begins beginsPrimary w := by
  rw [derives_primary_iff] at h
  rcases h with rfl | rfl | rfl | rfl | rfl | rfl | rfl | ⟨u, rfl, -⟩ | rfl <;>
    exact ⟨_, _, rfl, rfl⟩

theorem begins_call (h : Derives (name .call) w) : Begins beginsPrimary w := by
  rw [derives_call_iff] at h
  obtain ⟨u, ws, rfl, hu, -⟩ := h
  exact (begins_primary hu).append _

theorem beginsExpression_of_beginsPrimary (t : Terminal) (h : beginsPrimary t = true) :
    beginsExpression t = true := by
  simp [beginsExpression, h]

theorem begins_unary (h : Derives (name .unary) w) : Begins beginsExpression w := by
  rw [derives_unary_iff] at h
  rcases h with ⟨s, u, rfl, hs, -⟩ | h
  · have hsymbols : ∀ s ∈ [Symbol.bang, .minus], beginsExpression (.symbol s) = true := by decide
    exact ⟨_, _, rfl, hsymbols s hs⟩
  · exact (begins_call h).mono beginsExpression_of_beginsPrimary

def isTarget : Expr → Bool
  | .var _ _ => true
  | .get _ _ => true
  | _ => false

def suffixSymbols : List Symbol :=
  [.leftParen, .dot]

/-- The symbols that can continue an operand of these levels. -/
def continuing (ls : List Level) : List Symbol :=
  ls.flatMap Level.operators ++ suffixSymbols

/-- The levels give the words of the name, over those of unary expressions. An operator continues
no operand of its own level, and its node is no target. -/
inductive Tower : Name → List Level → Prop
  | unary : Tower .unary []
  | level {x y : Name} {level : Level} {tighter : List Level} (hjoins : Joins x level.operators y)
      (hnode : ∀ l t r, isTarget (level.node l t r) = false)
      (hnew : ∀ s ∈ level.operators, s ∉ continuing tighter) (h : Tower y tighter) :
      Tower x (level :: tighter)

theorem tower_logicOr : Tower .logicOr levels := by
  have hlogical : ∀ l t r, isTarget (Expr.logical l t r) = false := fun _ _ _ => rfl
  have hbinary : ∀ l t r, isTarget (Expr.binary l t r) = false := fun _ _ _ => rfl
  refine .level joins_logicOr hlogical (by decide) ?_
  refine .level joins_logicAnd hlogical (by decide) ?_
  refine .level joins_equality hbinary (by decide) ?_
  refine .level joins_comparison hbinary (by decide) ?_
  refine .level joins_term hbinary (by decide) ?_
  exact .level joins_factor hbinary (by decide) .unary

theorem Tower.begins {x : Name} {ls : List Level} (h : Tower x ls) :
    ∀ {w}, Derives (name x) w → Begins beginsExpression w := by
  induction h with
  | unary => exact begins_unary
  | level hjoins _ _ _ ih =>
      intro w hw
      obtain ⟨u, ws, rfl, hu, -⟩ := (hjoins w).mp hw
      exact (ih hu).append _

theorem begins_ternary (h : Derives (name .ternary) w) : Begins beginsExpression w := by
  rw [derives_ternary_iff] at h
  obtain ⟨u, v, rfl, hu, -⟩ := h
  exact (tower_logicOr.begins hu).append v

theorem IsTarget.begins (h : IsTarget w) : Begins beginsPrimary w := by
  rcases h with rfl | ⟨u, rfl, hu⟩
  · exact ⟨_, _, rfl, rfl⟩
  · exact (begins_call hu).append _

theorem begins_expression (h : Derives (name .expression) w) : Begins beginsExpression w := by
  rw [derives_expression_iff] at h
  rcases h with ⟨u, v, rfl, hu, -⟩ | h
  · exact (hu.begins.mono beginsExpression_of_beginsPrimary).append _
  · exact begins_ternary h

theorem begins_arguments (h : Derives (name .arguments) w) : Begins beginsExpression w := by
  rw [derives_arguments_iff] at h
  obtain ⟨u, ws, rfl, hu, -⟩ := h
  exact (begins_expression hu).append _

theorem begins_statement (h : Derives (name .statement) w) : Begins beginsStmt w := by
  rw [derives_statement_iff] at h
  rcases h with h | h | h | h | h | h | h
  · obtain ⟨u, rfl, hu⟩ := derives_exprStmt_iff.mp h
    refine ((begins_expression hu).mono fun t ht => ?_).append _
    simp [beginsStmt, ht]
  · obtain ⟨_, _, _, _, rfl, -⟩ := derives_forStmt_iff.mp h
    exact ⟨_, _, rfl, rfl⟩
  · obtain ⟨_, _, _, rfl, -⟩ := derives_ifStmt_iff.mp h
    exact ⟨_, _, rfl, rfl⟩
  · obtain ⟨_, rfl, -⟩ := derives_printStmt_iff.mp h
    exact ⟨_, _, rfl, rfl⟩
  · obtain ⟨_, rfl, -⟩ := derives_returnStmt_iff.mp h
    exact ⟨_, _, rfl, rfl⟩
  · obtain ⟨_, _, rfl, -⟩ := derives_whileStmt_iff.mp h
    exact ⟨_, _, rfl, rfl⟩
  · obtain ⟨_, rfl, -⟩ := derives_block_iff.mp h
    exact ⟨_, _, rfl, rfl⟩

theorem begins_declaration (h : Derives (name .declaration) w) : Begins beginsDeclaration w := by
  rw [derives_declaration_iff] at h
  rcases h with h | h | h | h
  · obtain ⟨_, _, rfl, -⟩ := derives_classDecl_iff.mp h
    exact ⟨_, _, rfl, rfl⟩
  · obtain ⟨_, rfl, -⟩ := derives_funDecl_iff.mp h
    exact ⟨_, _, rfl, rfl⟩
  · obtain ⟨_, rfl, -⟩ := derives_varDecl_iff.mp h
    exact ⟨_, _, rfl, rfl⟩
  · refine (begins_statement h).mono fun t ht => ?_
    simp [beginsDeclaration, ht]

theorem begins_function (h : Derives (name .function) w) : Begins (· == .identifier) w := by
  obtain ⟨_, _, rfl, -⟩ := derives_function_iff.mp h
  exact ⟨_, _, rfl, rfl⟩

/-- What stands before the body of a while or a for statement. -/
def IsLoopHead (w : List Terminal) : Prop :=
  (∃ e, w = .symbol .whileWord :: .symbol .leftParen :: (e ++ [.symbol .rightParen])
      ∧ Derives (name .expression) e)
    ∨ ∃ i c e, w = .symbol .forWord :: .symbol .leftParen
        :: (i ++ (c ++ .symbol .semicolon :: (e ++ [.symbol .rightParen])))
      ∧ (Derives (name .varDecl) i ∨ Derives (name .exprStmt) i ∨ i = [.symbol .semicolon])
      ∧ (c = [] ∨ Derives (name .expression) c) ∧ (e = [] ∨ Derives (name .expression) e)

/-- The words of statements in which every else belongs to the nearest if. They may be open to an
else that follows. -/
inductive Nearest : Bool → List Terminal → Prop
  | simple {w : List Terminal} (h : Derives (name .exprStmt) w ∨ Derives (name .printStmt) w
      ∨ Derives (name .returnStmt) w ∨ Derives (name .block) w) : Nearest false w
  | loop {d : Bool} {u v : List Terminal} (hu : IsLoopHead u) (hv : Nearest d v) :
      Nearest d (u ++ v)
  | ifThen {d : Bool} {e u : List Terminal} (he : Derives (name .expression) e)
      (hu : Nearest d u) :
      Nearest true (.symbol .ifWord :: .symbol .leftParen :: (e ++ .symbol .rightParen :: u))
  | ifElse {d : Bool} {e u v : List Terminal} (he : Derives (name .expression) e)
      (hu : Nearest false u) (hv : Nearest d v) :
      Nearest d (.symbol .ifWord :: .symbol .leftParen
        :: (e ++ .symbol .rightParen :: (u ++ .symbol .elseWord :: v)))

/-- An else after an open statement goes to the last if that is open in it. -/
theorem Nearest.append_else {d : Bool} (hu : Nearest true u) (hv : Nearest d v) :
    ∃ d', Nearest d' (u ++ .symbol .elseWord :: v) := by
  generalize hopen : true = b at hu
  induction hu with
  | simple => cases hopen
  | loop hu' _ ih =>
      obtain ⟨d', hd'⟩ := ih hopen
      refine ⟨d', ?_⟩
      rw [List.append_assoc]
      exact .loop hu' hd'
  | @ifThen d'' e u he hu' ih =>
      cases d'' with
      | false => exact ⟨d, by simpa using Nearest.ifElse he hu' hv⟩
      | true =>
          obtain ⟨d', hd'⟩ := ih rfl
          exact ⟨true, by simpa using Nearest.ifThen he hd'⟩
  | ifElse he hu' _ _ ih =>
      obtain ⟨d', hd'⟩ := ih hopen
      exact ⟨d', by simpa using Nearest.ifElse he hu' hd'⟩

/-- Every statement can be read so that each else belongs to the nearest if. -/
theorem exists_nearest (h : Derives (name .statement) w) : ∃ d, Nearest d w := by
  induction hn : w.length using Nat.strongRecOn generalizing w with
  | ind n ih =>
      subst hn
      rw [derives_statement_iff] at h
      rcases h with h | h | h | h | h | h | h
      · exact ⟨false, .simple (.inl h)⟩
      · obtain ⟨i, c, e, u, rfl, hi, hc, he, hu⟩ := derives_forStmt_iff.mp h
        obtain ⟨d, hd⟩ := ih u.length (by simp; omega) hu rfl
        refine ⟨d, ?_⟩
        simpa using Nearest.loop (.inr ⟨i, c, e, rfl, hi, hc, he⟩) hd
      · obtain ⟨e, u, v, rfl, he, hu, hv⟩ := derives_ifStmt_iff.mp h
        obtain ⟨d, hd⟩ := ih u.length (by simp; omega) hu rfl
        rcases hv with rfl | ⟨v', rfl, hv'⟩
        · exact ⟨true, by simpa using Nearest.ifThen he hd⟩
        · obtain ⟨d', hd'⟩ := ih v'.length (by simp; omega) hv' rfl
          cases d with
          | false => exact ⟨d', .ifElse he hd hd'⟩
          | true =>
              obtain ⟨d'', hd''⟩ := hd.append_else hd'
              exact ⟨true, .ifThen he hd''⟩
      · exact ⟨false, .simple (.inr (.inl h))⟩
      · exact ⟨false, .simple (.inr (.inr (.inl h)))⟩
      · obtain ⟨e, u, rfl, he, hu⟩ := derives_whileStmt_iff.mp h
        obtain ⟨d, hd⟩ := ih u.length (by simp; omega) hu rfl
        refine ⟨d, ?_⟩
        simpa using Nearest.loop (.inl ⟨e, rfl, he⟩) hd
      · exact ⟨false, .simple (.inr (.inr (.inr h)))⟩

/-- In such a reading a statement is still a word of the grammar. -/
theorem Nearest.derives {d : Bool} (h : Nearest d w) : Derives (name .statement) w := by
  induction h with
  | simple h =>
      rw [derives_statement_iff]
      rcases h with h | h | h | h
      · exact .inl h
      · exact .inr (.inr (.inr (.inl h)))
      · exact .inr (.inr (.inr (.inr (.inl h))))
      · exact .inr (.inr (.inr (.inr (.inr (.inr h)))))
  | @loop _ u v hu _ ih =>
      rw [derives_statement_iff]
      rcases hu with ⟨e, rfl, he⟩ | ⟨i, c, e, rfl, hi, hc, he⟩
      · refine .inr (.inr (.inr (.inr (.inr (.inl ?_)))))
        exact derives_whileStmt_iff.mpr ⟨e, v, by simp, he, ih⟩
      · refine .inr (.inl ?_)
        exact derives_forStmt_iff.mpr ⟨i, c, e, v, by simp, hi, hc, he, ih⟩
  | @ifThen _ e u he _ ih =>
      refine derives_statement_iff.mpr (.inr (.inr (.inl ?_)))
      exact derives_ifStmt_iff.mpr ⟨e, u, [], by simp, he, ih, .inl rfl⟩
  | @ifElse _ e u v he _ _ ihu ihv =>
      refine derives_statement_iff.mpr (.inr (.inr (.inl ?_)))
      exact derives_ifStmt_iff.mpr
        ⟨e, u, .symbol .elseWord :: v, rfl, he, ihu, .inr ⟨v, rfl, ihv⟩⟩

end Lox.Grammar
