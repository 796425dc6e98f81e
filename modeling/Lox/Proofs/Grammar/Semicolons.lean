import Lox.Proofs.Grammar.Weights

/-!
# Semicolons that end statements

A semicolon in a declaration ends a statement in it, unless it stands between the parentheses of a
for statement. The statements, blocks and functions around it say what stands before and behind it.
-/

namespace Lox.Grammar

open Ebnf (name)

variable {t : Terminal} {a b d p q u v w : List Terminal}

theorem split_append (h : a ++ b = p ++ t :: q) :
    (∃ q', a = p ++ t :: q' ∧ q = q' ++ b) ∨ ∃ p', p = a ++ p' ∧ b = p' ++ t :: q := by
  rcases List.append_eq_append_iff.mp h with ⟨p', hp, hb⟩ | ⟨q', ha, hq⟩
  · exact .inr ⟨p', hp, hb⟩
  · cases q' with
    | nil => exact .inr ⟨[], by simpa using ha.symm, by simpa using hq.symm⟩
    | cons t' q' =>
        obtain ⟨rfl, rfl⟩ := List.cons_eq_cons.mp hq
        exact .inl ⟨q', ha, rfl⟩

/-- A terminal that is not in the first part of a word is in the second. -/
theorem split_behind (ht : t ∉ a) (h : a ++ b = p ++ t :: q) :
    ∃ p', p = a ++ p' ∧ b = p' ++ t :: q := by
  rcases split_append h with ⟨q', rfl, -⟩ | h
  · exact absurd (List.mem_append_right p List.mem_cons_self) ht
  · exact h

theorem split_cons_ne {t' : Terminal} (ht : t ≠ t') (h : t' :: b = p ++ t :: q) :
    ∃ p', p = t' :: p' ∧ b = p' ++ t :: q :=
  split_behind (a := [t']) (by simpa using ht) h

theorem split_last (ht : t ∉ a) (h : a ++ [t] = p ++ t :: q) : p = a ∧ q = [] := by
  obtain ⟨p', rfl, hlast⟩ := split_behind ht h
  cases p' with
  | nil => exact ⟨List.append_nil a, (List.cons_eq_cons.mp hlast).2.symm⟩
  | cons t' p' => simp at hlast

theorem split_cons (h : t :: b = p ++ t :: q) :
    (p = [] ∧ b = q) ∨ ∃ p', p = t :: p' ∧ b = p' ++ t :: q := by
  cases p with
  | nil => exact .inl ⟨rfl, (List.cons_eq_cons.mp h).2⟩
  | cons t' p' =>
      obtain ⟨rfl, hb⟩ := List.cons_eq_cons.mp h
      exact .inr ⟨p', rfl, hb⟩

/-- A terminal in a sequence of words is in one of them or behind them. -/
theorem split_flatten {ws : List (List Terminal)} (h : ws.flatten ++ b = p ++ t :: q) :
    (∃ ws₁ ws₂ p' q', ws = ws₁ ++ (p' ++ t :: q') :: ws₂ ∧ p = ws₁.flatten ++ p'
        ∧ q = q' ++ (ws₂.flatten ++ b))
      ∨ ∃ p', p = ws.flatten ++ p' ∧ b = p' ++ t :: q := by
  induction ws generalizing p with
  | nil => exact .inr ⟨p, rfl, h⟩
  | cons w ws ih =>
      rw [List.flatten_cons, List.append_assoc] at h
      rcases split_append h with ⟨q', rfl, rfl⟩ | ⟨p', rfl, hrest⟩
      · exact .inl ⟨[], ws, p, q', rfl, rfl, rfl⟩
      · rcases ih hrest with ⟨ws₁, ws₂, p'', q', rfl, rfl, rfl⟩ | ⟨p'', rfl, rfl⟩
        · exact .inl ⟨w :: ws₁, ws₂, p'', q', rfl, by simp, rfl⟩
        · exact .inr ⟨p'', by simp, rfl⟩

/-- What a semicolon stands in. A statement may be open to an else. -/
inductive Place
  | statement (d : Bool)
  | block
  | function
  | declaration

/-- What stands before and behind a semicolon that ends a statement. -/
inductive Marked : Place → List Terminal → List Terminal → Prop
  | simple {u : List Terminal} (h : Derives (name .exprStmt) (u ++ [.symbol .semicolon])
      ∨ Derives (name .printStmt) (u ++ [.symbol .semicolon])
      ∨ Derives (name .returnStmt) (u ++ [.symbol .semicolon])) : Marked (.statement false) u []
  | braces {u v : List Terminal} (h : Marked .block u v) : Marked (.statement false) u v
  | loop {d : Bool} {head u v : List Terminal} (hhead : IsLoopHead head)
      (h : Marked (.statement d) u v) : Marked (.statement d) (head ++ u) v
  | ifThen {d : Bool} {e u v : List Terminal} (he : Derives (name .expression) e)
      (h : Marked (.statement d) u v) : Marked (.statement true)
        (.symbol .ifWord :: .symbol .leftParen :: (e ++ .symbol .rightParen :: u)) v
  | thenBranch {d : Bool} {e u v w : List Terminal} (he : Derives (name .expression) e)
      (h : Marked (.statement false) u v) (hw : Nearest d w) : Marked (.statement d)
        (.symbol .ifWord :: .symbol .leftParen :: (e ++ .symbol .rightParen :: u))
        (v ++ .symbol .elseWord :: w)
  | elseBranch {d : Bool} {e u v w : List Terminal} (he : Derives (name .expression) e)
      (hw : Nearest false w) (h : Marked (.statement d) u v) : Marked (.statement d)
        (.symbol .ifWord :: .symbol .leftParen
          :: (e ++ .symbol .rightParen :: (w ++ .symbol .elseWord :: u))) v
  | block {ws₁ ws₂ : List (List Terminal)} {u v : List Terminal}
      (h₁ : ∀ w ∈ ws₁, Derives (name .declaration) w) (h : Marked .declaration u v)
      (h₂ : ∀ w ∈ ws₂, Derives (name .declaration) w) : Marked .block
        (.symbol .leftBrace :: (ws₁.flatten ++ u)) (v ++ (ws₂.flatten ++ [.symbol .rightBrace]))
  | function {params u v : List Terminal}
      (hparams : params = [] ∨ Derives (name .parameters) params) (h : Marked .block u v) :
      Marked .function (.identifier :: .symbol .leftParen :: (params ++ .symbol .rightParen :: u)) v
  | statement {d : Bool} {u v : List Terminal} (h : Marked (.statement d) u v) :
      Marked .declaration u v
  | varDecl {u : List Terminal} (h : Derives (name .varDecl) (u ++ [.symbol .semicolon])) :
      Marked .declaration u []
  | funDecl {u v : List Terminal} (h : Marked .function u v) :
      Marked .declaration (.symbol .funWord :: u) v
  | classDecl {superclass : List Terminal} {ws₁ ws₂ : List (List Terminal)} {u v : List Terminal}
      (hsuperclass : superclass = [] ∨ superclass = [.symbol .less, .identifier])
      (h₁ : ∀ w ∈ ws₁, Derives (name .function) w) (h : Marked .function u v)
      (h₂ : ∀ w ∈ ws₂, Derives (name .function) w) : Marked .declaration
        (.symbol .classWord :: .identifier
          :: (superclass ++ .symbol .leftBrace :: (ws₁.flatten ++ u)))
        (v ++ (ws₂.flatten ++ [.symbol .rightBrace]))

/-- What a place begins with. -/
def Place.beginning : Place → Terminal → Bool
  | .statement _ => beginsStmt
  | .block => (· == .symbol .leftBrace)
  | .function => (· == .identifier)
  | .declaration => beginsDeclaration

theorem beginsDeclaration_of_beginsStmt (t : Terminal) (h : beginsStmt t = true) :
    beginsDeclaration t = true := by
  simp [beginsDeclaration, h]

theorem Marked.begins {place : Place} (h : Marked place u v) : Begins place.beginning u := by
  induction h with
  | @simple u h =>
      rcases h with h | h | h
      · obtain ⟨e, heq, he⟩ := derives_exprStmt_iff.mp h
        rw [List.append_cancel_right heq]
        refine (begins_expression he).mono fun t ht => ?_
        simp [Place.beginning, beginsStmt, ht]
      · obtain ⟨e, heq, -⟩ := derives_printStmt_iff.mp h
        obtain rfl : u = .symbol .printWord :: e := List.append_cancel_right heq
        exact ⟨_, _, rfl, rfl⟩
      · obtain ⟨e, heq, -⟩ := derives_returnStmt_iff.mp h
        obtain rfl : u = .symbol .returnWord :: e := List.append_cancel_right heq
        exact ⟨_, _, rfl, rfl⟩
  | braces _ ih =>
      refine ih.mono fun t ht => ?_
      rw [beq_iff_eq.mp ht]
      rfl
  | loop hhead _ _ =>
      rcases hhead with ⟨e, rfl, -⟩ | ⟨i, c, e, rfl, -⟩
      · exact ⟨_, _, rfl, rfl⟩
      · exact ⟨_, _, rfl, rfl⟩
  | ifThen _ _ _ => exact ⟨_, _, rfl, rfl⟩
  | thenBranch _ _ _ _ => exact ⟨_, _, rfl, rfl⟩
  | elseBranch _ _ _ _ => exact ⟨_, _, rfl, rfl⟩
  | block _ _ _ _ => exact ⟨_, _, rfl, rfl⟩
  | function _ _ _ => exact ⟨_, _, rfl, rfl⟩
  | statement _ ih => exact ih.mono beginsDeclaration_of_beginsStmt
  | @varDecl u h =>
      obtain ⟨v, heq, -⟩ := derives_varDecl_iff.mp h
      obtain rfl : u = .symbol .varWord :: .identifier :: v := List.append_cancel_right heq
      exact ⟨_, _, rfl, rfl⟩
  | funDecl _ _ => exact ⟨_, _, rfl, rfl⟩
  | classDecl _ _ _ _ _ => exact ⟨_, _, rfl, rfl⟩

/-! ## Every semicolon outside of parentheses -/

theorem semicolon_notMem {x : Name} (h : Derives (name x) w)
    (hx : boundaries.expected x = some 0) : .symbol .semicolon ∉ w :=
  fun hmem => absurd (isBoundary_of_mem h hx _ hmem) (by decide)

theorem word_flatten_parentheses {x : Name} {ws : List (List Terminal)}
    (h : ∀ w ∈ ws, Derives (name x) w) : parentheses.word ws.flatten = 0 :=
  Weighing.word_flatten fun w hw => word_parentheses (h w hw)

@[simp] theorem terminal_parentheses (t : Terminal) : parentheses.terminal t
    = if t = .symbol .leftParen then 1 else if t = .symbol .rightParen then -1 else 0 :=
  rfl

@[simp] theorem word_parentheses_nil : parentheses.word [] = 0 :=
  rfl

@[simp] theorem word_parentheses_cons (t : Terminal) (w : List Terminal) :
    parentheses.word (t :: w) = parentheses.terminal t + parentheses.word w :=
  rfl

@[simp] theorem word_parentheses_append (u v : List Terminal) :
    parentheses.word (u ++ v) = parentheses.word u + parentheses.word v :=
  parentheses.word_append u v

/-- A simple statement has no other semicolon than the one that ends it. -/
theorem exists_before_semicolon {x : Name} (hx : x ∈ [.varDecl, .exprStmt, .printStmt, .returnStmt])
    (h : Derives (name x) w) : ∃ u, w = u ++ [.symbol .semicolon] ∧ .symbol .semicolon ∉ u := by
  simp only [List.mem_cons, List.not_mem_nil, or_false] at hx
  rcases hx with rfl | rfl | rfl | rfl
  · obtain ⟨u, rfl, hu⟩ := derives_varDecl_iff.mp h
    refine ⟨.symbol .varWord :: .identifier :: u, by simp, ?_⟩
    rcases hu with rfl | ⟨e, rfl, he⟩
    · decide
    · simpa using semicolon_notMem he rfl
  · obtain ⟨e, rfl, he⟩ := derives_exprStmt_iff.mp h
    exact ⟨e, rfl, semicolon_notMem he rfl⟩
  · obtain ⟨e, rfl, he⟩ := derives_printStmt_iff.mp h
    exact ⟨.symbol .printWord :: e, rfl, by simpa using semicolon_notMem he rfl⟩
  · obtain ⟨e, rfl, he⟩ := derives_returnStmt_iff.mp h
    refine ⟨.symbol .returnWord :: e, rfl, ?_⟩
    rcases he with rfl | he
    · decide
    · simpa using semicolon_notMem he rfl

theorem nil_behind_semicolon {x : Name} (hx : x ∈ [.varDecl, .exprStmt, .printStmt, .returnStmt])
    (h : Derives (name x) (p ++ .symbol .semicolon :: q)) : q = [] := by
  obtain ⟨u, heq, hu⟩ := exists_before_semicolon hx h
  exact (split_last hu heq.symm).2

theorem word_before_semicolon {x : Name} (h : Derives (name x) (u ++ [.symbol .semicolon])) :
    parentheses.word u = 0 := by
  have hword := word_parentheses h
  simpa using hword

/-- A first clause of a for statement. -/
theorem exists_clause (h : Derives (name .varDecl) w ∨ Derives (name .exprStmt) w
      ∨ w = [.symbol .semicolon]) :
    ∃ u, w = u ++ [.symbol .semicolon] ∧ .symbol .semicolon ∉ u ∧ parentheses.word u = 0 := by
  rcases h with h | h | rfl
  · obtain ⟨u, rfl, hu⟩ := exists_before_semicolon (by decide) h
    exact ⟨u, rfl, hu, word_before_semicolon h⟩
  · obtain ⟨u, rfl, hu⟩ := exists_before_semicolon (by decide) h
    exact ⟨u, rfl, hu, word_before_semicolon h⟩
  · exact ⟨[], rfl, by decide, rfl⟩

theorem optional_parentheses {x : Name} (h : w = [] ∨ Derives (name x) w) :
    parentheses.word w = 0 := by
  rcases h with rfl | h
  · rfl
  · exact word_parentheses h

theorem semicolon_notMem_optional {x : Name} (h : w = [] ∨ Derives (name x) w)
    (hx : boundaries.expected x = some 0) : .symbol .semicolon ∉ w := by
  rcases h with rfl | h
  · exact List.not_mem_nil
  · exact semicolon_notMem h hx

theorem word_loopHead (h : IsLoopHead w) : parentheses.word w = 0 := by
  rcases h with ⟨e, rfl, he⟩ | ⟨i, c, e, rfl, hi, hc, he⟩
  · simp [word_parentheses he]
  · obtain ⟨i', rfl, -, hword⟩ := exists_clause hi
    simp [hword, optional_parentheses hc, optional_parentheses he]

/-- A semicolon outside of parentheses is behind the head of a loop. -/
theorem split_loopHead {head body : List Terminal} (hhead : IsLoopHead head)
    (h : head ++ body = p ++ .symbol .semicolon :: q) (hp : parentheses.word p = 0) :
    ∃ p', p = head ++ p' ∧ body = p' ++ .symbol .semicolon :: q := by
  rcases hhead with ⟨e, rfl, he⟩ | ⟨i, c, e, rfl, hi, hc, he⟩
  · refine split_behind ?_ h
    simpa using semicolon_notMem he rfl
  · obtain ⟨i', rfl, hi', hword⟩ := exists_clause hi
    have hfirst : .symbol .semicolon ∉ (.symbol .forWord :: .symbol .leftParen :: i') := by
      simpa using hi'
    -- Between the parentheses of the head, a semicolon has an open one before it.
    simp only [List.cons_append, List.append_assoc, List.nil_append] at h
    rw [← List.cons_append, ← List.cons_append] at h
    obtain ⟨p₁, rfl, h₁⟩ := split_behind hfirst h
    rcases split_cons h₁ with ⟨rfl, -⟩ | ⟨p₂, rfl, h₂⟩
    · simp [hword] at hp
    obtain ⟨p₃, rfl, h₃⟩ := split_behind (semicolon_notMem_optional hc rfl) h₂
    rcases split_cons h₃ with ⟨rfl, -⟩ | ⟨p₄, rfl, h₄⟩
    · simp [hword, optional_parentheses hc] at hp
    obtain ⟨p₅, rfl, h₅⟩ := split_behind (semicolon_notMem_optional he rfl) h₄
    obtain ⟨p', rfl, hbody⟩ := split_cons_ne (by decide) h₅
    exact ⟨p', by simp, hbody⟩

/-- What stands before the first branch of an if statement. -/
theorem split_ifHead {e body : List Terminal} (he : Derives (name .expression) e)
    (h : .symbol .ifWord :: .symbol .leftParen :: (e ++ .symbol .rightParen :: body)
      = p ++ .symbol .semicolon :: q) :
    ∃ p', p = .symbol .ifWord :: .symbol .leftParen :: (e ++ .symbol .rightParen :: p')
      ∧ body = p' ++ .symbol .semicolon :: q ∧ parentheses.word p = parentheses.word p' := by
  have hhead : .symbol .semicolon
      ∉ .symbol .ifWord :: .symbol .leftParen :: (e ++ [.symbol .rightParen]) := by
    simpa using semicolon_notMem he rfl
  obtain ⟨p', rfl, hbody⟩ := split_behind hhead (by simpa using h)
  have hword : parentheses.word (.symbol .ifWord :: .symbol .leftParen
      :: (e ++ [.symbol .rightParen])) = 0 := by
    simp [word_parentheses he]
  refine ⟨p', by simp, hbody, ?_⟩
  rw [word_parentheses_append, hword, Int.zero_add]

/-- On words of at most `n` terminals, a semicolon outside of parentheses ends a statement. -/
def MarkedUpTo (n : Nat) (x : Name) (place : Place) : Prop :=
  ∀ p q, Derives (name x) (p ++ .symbol .semicolon :: q) →
    (p ++ .symbol .semicolon :: q).length ≤ n → parentheses.word p = 0 → Marked place p q

theorem Nearest.marked {d : Bool} {n : Nat} (hblock : MarkedUpTo n .block .block)
    (hw : Nearest d w) (h : w = p ++ .symbol .semicolon :: q) (hn : w.length ≤ n)
    (hp : parentheses.word p = 0) : Marked (.statement d) p q := by
  induction hw generalizing p q with
  | simple hw =>
      subst h
      rcases hw with hw | hw | hw | hw
      · obtain rfl := nil_behind_semicolon (by decide) hw
        exact .simple (.inl hw)
      · obtain rfl := nil_behind_semicolon (by decide) hw
        exact .simple (.inr (.inl hw))
      · obtain rfl := nil_behind_semicolon (by decide) hw
        exact .simple (.inr (.inr hw))
      · exact .braces (hblock p q hw hn hp)
  | @loop d head body hhead hbody ih =>
      obtain ⟨p', rfl, h'⟩ := split_loopHead hhead h hp
      rw [word_parentheses_append, word_loopHead hhead, Int.zero_add] at hp
      rw [List.length_append] at hn
      exact .loop hhead (ih h' (by omega) hp)
  | @ifThen d e u he hu ih =>
      obtain ⟨p', rfl, h', hword⟩ := split_ifHead he h
      simp only [List.length_append, List.length_cons] at hn
      exact .ifThen he (ih h' (by omega) (by omega))
  | @ifElse d e u v he hu hv ihu ihv =>
      obtain ⟨p', rfl, h', hword⟩ := split_ifHead he h
      simp only [List.length_append, List.length_cons] at hn
      rcases split_append h' with ⟨q', rfl, rfl⟩ | ⟨p'', rfl, h''⟩
      · exact .thenBranch he (ihu rfl (by omega) (by omega)) hv
      · obtain ⟨p₃, rfl, h₃⟩ := split_cons_ne (by decide) h''
        have hthen := word_parentheses hu.derives
        have helse : parentheses.word (.symbol .elseWord :: p₃) = parentheses.word p₃ := by simp
        rw [word_parentheses_append, helse] at hword
        exact .elseBranch he hu (ihv h₃ (by omega) (by omega))

theorem marked_block {n : Nat} (hdeclaration : MarkedUpTo n .declaration .declaration) :
    MarkedUpTo (n + 1) .block .block := by
  intro p q h hn hp
  obtain ⟨ws, hw, hws⟩ := derives_block_iff.mp h
  obtain ⟨p₁, rfl, hrest⟩ := split_cons_ne (by decide) hw.symm
  rcases split_flatten hrest with ⟨ws₁, ws₂, p', q', rfl, rfl, rfl⟩ | ⟨p', -, hlast⟩
  · have h₁ : ∀ w ∈ ws₁, Derives (name .declaration) w :=
      fun w hw => hws w (List.mem_append_left _ hw)
    have h₂ : ∀ w ∈ ws₂, Derives (name .declaration) w :=
      fun w hw => hws w (List.mem_append_right _ (List.mem_cons_of_mem _ hw))
    have hmarked : Marked .declaration p' q' := by
      refine hdeclaration p' q' (hws _ (List.mem_append_right _ List.mem_cons_self)) ?_ ?_
      · simp only [List.length_append, List.length_cons] at hn ⊢
        omega
      · simpa [word_flatten_parentheses h₁] using hp
    exact .block h₁ hmarked h₂
  · have hmem := congrArg (Terminal.symbol .semicolon ∈ ·) hlast
    simp at hmem

theorem marked_function {n : Nat} (hblock : MarkedUpTo n .block .block) :
    MarkedUpTo n .function .function := by
  intro p q h hn hp
  obtain ⟨params, body, hw, hparams, hbody⟩ := derives_function_iff.mp h
  have hhead : .symbol .semicolon
      ∉ .identifier :: .symbol .leftParen :: (params ++ [.symbol .rightParen]) := by
    simpa using semicolon_notMem_optional hparams rfl
  obtain ⟨p', rfl, rfl⟩ := split_behind hhead (by simpa using hw.symm)
  have hblock' : Marked .block p' q := by
    refine hblock p' q hbody ?_ ?_
    · simp only [List.length_append, List.length_cons] at hn ⊢
      omega
    · simp [optional_parentheses hparams] at hp
      omega
  simpa using Marked.function hparams hblock'

theorem marked_declaration {n : Nat} (hblock : MarkedUpTo n .block .block) :
    MarkedUpTo n .declaration .declaration := by
  intro p q h hn hp
  rcases derives_declaration_iff.mp h with h | h | h | h
  · obtain ⟨superclass, ws, hw, hsuperclass, hws⟩ := derives_classDecl_iff.mp h
    have hhead : .symbol .semicolon
        ∉ .symbol .classWord :: .identifier :: (superclass ++ [.symbol .leftBrace]) := by
      rcases hsuperclass with rfl | rfl <;> decide
    have hword : parentheses.word superclass = 0 := by
      rcases hsuperclass with rfl | rfl <;> rfl
    obtain ⟨p₁, rfl, hrest⟩ := split_behind hhead (by simpa using hw.symm)
    rcases split_flatten hrest with ⟨ws₁, ws₂, p', q', rfl, rfl, rfl⟩ | ⟨p', -, hlast⟩
    · have h₁ : ∀ w ∈ ws₁, Derives (name .function) w :=
        fun w hw => hws w (List.mem_append_left _ hw)
      have h₂ : ∀ w ∈ ws₂, Derives (name .function) w :=
        fun w hw => hws w (List.mem_append_right _ (List.mem_cons_of_mem _ hw))
      have hmarked : Marked .function p' q' := by
        refine marked_function hblock p' q'
          (hws _ (List.mem_append_right _ List.mem_cons_self)) ?_ ?_
        · simp only [List.length_append, List.length_cons] at hn ⊢
          omega
        · simpa [word_flatten_parentheses h₁, hword] using hp
      simpa using Marked.classDecl hsuperclass h₁ hmarked h₂
    · have hmem := congrArg (Terminal.symbol .semicolon ∈ ·) hlast
      simp at hmem
  · obtain ⟨u, hw, hu⟩ := derives_funDecl_iff.mp h
    obtain ⟨p', rfl, rfl⟩ := split_cons_ne (by decide) hw.symm
    refine .funDecl (marked_function hblock p' q hu ?_ ?_)
    · simp only [List.length_append, List.length_cons] at hn ⊢
      omega
    · simpa using hp
  · obtain rfl := nil_behind_semicolon (by decide) h
    exact .varDecl h
  · obtain ⟨d, hnearest⟩ := exists_nearest h
    exact .statement (hnearest.marked hblock rfl hn hp)

theorem marked_upTo (n : Nat) :
    MarkedUpTo n .block .block ∧ MarkedUpTo n .declaration .declaration := by
  induction n with
  | zero =>
      refine ⟨fun p q _ hn _ => ?_, fun p q _ hn _ => ?_⟩
      · simp at hn
      · simp at hn
  | succ n ih =>
      have hblock := marked_block ih.2
      exact ⟨hblock, marked_declaration hblock⟩

/-- A semicolon outside of the parentheses of a declaration ends a statement in it. -/
theorem marked_of_derives (h : Derives (name .declaration) (p ++ .symbol .semicolon :: q))
    (hp : parentheses.word p = 0) : Marked .declaration p q :=
  (marked_upTo _).2 p q h (Nat.le_refl _) hp

/-! ## What comes next -/

/-- A declaration comes next, or else nothing but an else or a closing brace can. -/
def Boundary (w : List Terminal) : Prop :=
  (∃ u v, w = u ++ v ∧ Derives (name .declaration) u)
    ∨ ∀ t, w.head? = some t → t = .symbol .elseWord ∨ t = .symbol .rightBrace

theorem boundary_flatten {ws : List (List Terminal)} {rest : List Terminal}
    (hws : ∀ w ∈ ws, Derives (name .declaration) w) (hrest : Boundary rest) :
    Boundary (ws.flatten ++ rest) := by
  cases ws with
  | nil => exact hrest
  | cons w ws => exact .inl ⟨w, _, List.append_assoc .., hws w List.mem_cons_self⟩

theorem boundary_cons {s : Symbol} (hs : s = .elseWord ∨ s = .rightBrace) (w : List Terminal) :
    Boundary (.symbol s :: w) := by
  refine .inr fun t ht => ?_
  rw [← Option.some.inj ht]
  exact hs.imp (congrArg _) (congrArg _)

/-- The place may end with the semicolon. -/
def Place.isStatement : Place → Bool
  | .statement _ => true
  | .declaration => true
  | .block => false
  | .function => false

/-- Behind a semicolon that ends a statement comes a boundary of statements. -/
theorem Marked.boundary {place : Place} (h : Marked place u v) {rest : List Terminal}
    (hrest : place.isStatement = true → Boundary rest) : Boundary (v ++ rest) := by
  induction h generalizing rest with
  | simple _ => exact hrest rfl
  | braces _ ih => exact ih nofun
  | loop _ _ ih => exact ih fun _ => hrest rfl
  | ifThen _ _ ih => exact ih fun _ => hrest rfl
  | thenBranch _ _ _ ih =>
      rw [List.append_assoc]
      exact ih fun _ => boundary_cons (.inl rfl) _
  | elseBranch _ _ _ ih => exact ih fun _ => hrest rfl
  | block _ _ h₂ ih =>
      rw [List.append_assoc, List.append_assoc]
      exact ih fun _ => boundary_flatten h₂ (boundary_cons (.inr rfl) _)
  | function _ _ ih => exact ih nofun
  | statement _ ih => exact ih fun _ => hrest rfl
  | varDecl _ => exact hrest rfl
  | funDecl _ ih => exact ih nofun
  | classDecl _ _ _ _ ih =>
      rw [List.append_assoc]
      exact ih nofun

/-- A declaration that begins like an expression is one with a semicolon behind it. -/
theorem exists_expression_of_begins (h : Derives (name .declaration) (t :: w))
    (ht : beginsExpression t = true) :
    ∃ e, t :: w = e ++ [.symbol .semicolon] ∧ Derives (name .expression) e := by
  have hkeyword {s : Symbol} {v : List Terminal} (heq : t :: w = .symbol s :: v)
      (hs : beginsExpression (.symbol s) = false) : False := by
    rw [(List.cons_eq_cons.mp heq).1, hs] at ht
    cases ht
  rcases derives_declaration_iff.mp h with h | h | h | h
  · obtain ⟨_, _, heq, -⟩ := derives_classDecl_iff.mp h
    exact (hkeyword heq (by decide)).elim
  · obtain ⟨_, heq, -⟩ := derives_funDecl_iff.mp h
    exact (hkeyword heq (by decide)).elim
  · obtain ⟨_, heq, -⟩ := derives_varDecl_iff.mp h
    exact (hkeyword heq (by decide)).elim
  rcases derives_statement_iff.mp h with h | h | h | h | h | h | h
  · exact derives_exprStmt_iff.mp h
  · obtain ⟨_, _, _, _, heq, -⟩ := derives_forStmt_iff.mp h
    exact (hkeyword heq (by decide)).elim
  · obtain ⟨_, _, _, heq, -⟩ := derives_ifStmt_iff.mp h
    exact (hkeyword heq (by decide)).elim
  · obtain ⟨_, heq, -⟩ := derives_printStmt_iff.mp h
    exact (hkeyword heq (by decide)).elim
  · obtain ⟨_, heq, -⟩ := derives_returnStmt_iff.mp h
    exact (hkeyword heq (by decide)).elim
  · obtain ⟨_, _, heq, -⟩ := derives_whileStmt_iff.mp h
    exact (hkeyword heq (by decide)).elim
  · obtain ⟨_, heq, -⟩ := derives_block_iff.mp h
    exact (hkeyword heq (by decide)).elim

/-- At a boundary comes an expression with a semicolon behind it, or nothing that begins one. -/
theorem Boundary.expression (h : Boundary w) :
    (∃ e v, w = e ++ .symbol .semicolon :: v ∧ Derives (name .expression) e)
      ∨ ∀ t, w.head? = some t → beginsExpression t = false := by
  rcases h with ⟨u, v, rfl, hu⟩ | h
  · obtain ⟨t, u, rfl, -⟩ := begins_declaration hu
    cases ht : beginsExpression t with
    | true =>
        obtain ⟨e, heq, he⟩ := exists_expression_of_begins hu ht
        exact .inl ⟨e, v, by rw [heq]; simp, he⟩
    | false =>
        refine .inr fun t' ht' => ?_
        rw [← Option.some.inj ht', ht]
  · refine .inr fun t ht => ?_
    rcases h t ht with rfl | rfl <;> decide

end Lox.Grammar
