import Lox.Proofs.Grammar.Words

/-!
# Weights of words

Each terminal gets a weight, and a word the sum of them. Where every production agrees with the
weight that is expected of its name, all words of the name have that weight. So the parentheses of a
word match in number, and no expression has a terminal with which statements begin or end.
-/

namespace Lox.Grammar

open Ebnf (name)

/-- The weights of terminals, and those that are expected of the words of a name. -/
structure Weighing where
  terminal : Terminal → Int
  expected : Name → Option Int

namespace Weighing

variable (μ : Weighing)

def word : List Terminal → Int
  | [] => 0
  | t :: w => μ.terminal t + word w

theorem word_append (u v : List Terminal) : μ.word (u ++ v) = μ.word u + μ.word v := by
  induction u with
  | nil => exact (Int.zero_add _).symm
  | cons t u ih =>
      rw [List.cons_append, word, word, ih, Int.add_assoc]

mutual

/-- The weight of all words of the right of a production, if they are seen to have the same. -/
def ebnf? : Ebnf → Option Int
  | .terminal t => some (μ.terminal t)
  | .name x => μ.expected x
  | .seq parts => seq? parts
  | .alt choices => alt? choices
  | .opt a => if ebnf? a = some 0 then some 0 else none
  | .star a => if ebnf? a = some 0 then some 0 else none
  | .upTo _ a => if ebnf? a = some 0 then some 0 else none

def seq? : List Ebnf → Option Int
  | [] => some 0
  | a :: parts =>
      match ebnf? a, seq? parts with
      | some k, some l => some (k + l)
      | _, _ => none

def alt? : List Ebnf → Option Int
  | [] => none
  | [a] => ebnf? a
  | a :: choices => if ebnf? a = alt? choices then ebnf? a else none

end

/-- The productions of the names of which a weight is expected have that weight. -/
def Agrees : Prop :=
  ∀ x k, μ.expected x = some k → μ.ebnf? (production x) = some k

variable {μ} {a : Ebnf} {w : List Terminal} {k : Int}

theorem ebnf?_of_mem {choices : List Ebnf} (ha : a ∈ choices) (h : μ.alt? choices = some k) :
    μ.ebnf? a = some k := by
  induction choices with
  | nil => cases ha
  | cons b choices ih =>
      cases choices with
      | nil =>
          obtain rfl := List.mem_singleton.mp ha
          exact h
      | cons b' choices =>
          rw [alt?] at h
          · split at h
            · next heq =>
              rcases List.mem_cons.mp ha with rfl | ha
              · exact h
              · exact ih ha (heq ▸ h)
            · cases h
          · simp

theorem word_flatten {ws : List (List Terminal)} (h : ∀ v ∈ ws, μ.word v = 0) :
    μ.word ws.flatten = 0 := by
  induction ws with
  | nil => rfl
  | cons v ws ih =>
      rw [List.flatten_cons, word_append, h v List.mem_cons_self,
        ih fun v hv => h v (List.mem_cons_of_mem _ hv)]
      rfl

theorem eq_zero_of_repeats {b : Ebnf} (h : (if μ.ebnf? b = some 0 then some 0 else none) = some k) :
    μ.ebnf? b = some 0 ∧ k = 0 := by
  split at h
  · next hb => exact ⟨hb, (Option.some.inj h).symm⟩
  · cases h

mutual

/-- The words that are derived from the right of a production have the weight of it. -/
theorem Agrees.word_ebnf (h : μ.Agrees) {a : Ebnf} {w : List Terminal} {k : Int}
    (hw : Derives a w) (hk : μ.ebnf? a = some k) : μ.word w = k := by
  match a, w, hw with
  | _, _, .terminal t =>
      rw [ebnf?, Option.some.injEq] at hk
      simpa [word] using hk
  | _, _, .name hx => exact h.word_ebnf hx (h _ k hk)
  | _, _, .seq hparts => exact h.word_seq hparts hk
  | _, _, .alt ha hb => exact h.word_ebnf hb (ebnf?_of_mem ha hk)
  | _, _, .optNone b => exact (eq_zero_of_repeats hk).2.symm
  | _, _, .optSome hb =>
      obtain ⟨hb0, rfl⟩ := eq_zero_of_repeats hk
      exact h.word_ebnf hb hb0
  | _, _, .star hws =>
      obtain ⟨hb0, rfl⟩ := eq_zero_of_repeats hk
      exact word_flatten fun v hv => h.word_ebnf (hws v hv) hb0
  | _, _, .upTo _ hws =>
      obtain ⟨hb0, rfl⟩ := eq_zero_of_repeats hk
      exact word_flatten fun v hv => h.word_ebnf (hws v hv) hb0

/-- The words that are derived from parts in order have the weight of the parts. -/
theorem Agrees.word_seq (h : μ.Agrees) {parts : List Ebnf} {w : List Terminal} {k : Int}
    (hw : DerivesSeq parts w) (hk : μ.seq? parts = some k) : μ.word w = k := by
  match parts, w, hw with
  | _, _, .nil => exact Option.some.inj hk
  | _, _, .cons ha hparts =>
      rw [seq?] at hk
      split at hk
      · next k l hka hkl =>
        rw [word_append, h.word_ebnf ha hka, h.word_seq hparts hkl]
        exact Option.some.inj hk
      · cases hk

end

theorem Agrees.word_name (h : μ.Agrees) {x : Name} (hw : Derives (name x) w)
    (hk : μ.expected x = some k) : μ.word w = k :=
  h.word_ebnf hw hk

/-- Where no weight is negative, a word without weight has only terminals without. -/
theorem terminal_eq_zero_of_mem (hpos : ∀ t, 0 ≤ μ.terminal t) (hw : μ.word w = 0) :
    ∀ t ∈ w, μ.terminal t = 0 := by
  have hsum (v : List Terminal) : 0 ≤ μ.word v := by
    induction v with
    | nil => exact Int.le_refl 0
    | cons t v ih => exact Int.add_nonneg (hpos t) ih
  induction w with
  | nil => simp
  | cons t w ih =>
      have hsplit : μ.terminal t + μ.word w = 0 := hw
      have ht := hpos t
      have htail := hsum w
      rw [List.forall_mem_cons]
      exact ⟨by omega, ih (by omega)⟩

end Weighing

/-- An opening parenthesis weighs as much as a closing one takes away. -/
def parentheses : Weighing where
  terminal t := if t = .symbol .leftParen then 1 else if t = .symbol .rightParen then -1 else 0
  expected _ := some 0

theorem agrees_parentheses : parentheses.Agrees := by
  rintro x k ⟨⟩
  cases x <;> rfl

/-- In the words of a name there are as many opening parentheses as closing ones. -/
theorem word_parentheses {x : Name} {w : List Terminal} (h : Derives (name x) w) :
    parentheses.word w = 0 :=
  agrees_parentheses.word_name h rfl

theorem word_parentheses_eq (w : List Terminal) : parentheses.word w
    = w.count (.symbol .leftParen) - w.count (.symbol .rightParen) := by
  induction w with
  | nil => rfl
  | cons t w ih =>
      have hcons : parentheses.word (t :: w) = parentheses.terminal t + parentheses.word w := rfl
      rw [hcons, ih, List.count_cons, List.count_cons]
      by_cases hopen : t = .symbol .leftParen
      · subst hopen
        simp [parentheses]
        omega
      by_cases hclose : t = .symbol .rightParen
      · subst hclose
        simp [parentheses]
        omega
      · simp [parentheses, hopen, hclose]

/-- The terminal ends a statement, or begins one whatever stands before it. -/
def isBoundary : Terminal → Bool
  | .symbol s =>
      [Symbol.semicolon, .classWord, .funWord, .varWord, .forWord, .ifWord, .whileWord,
        .printWord, .returnWord].contains s
  | _ => false

/-- A boundary of statements weighs one, and no weight is expected of the names of expressions and
parameters. -/
def boundaries : Weighing where
  terminal t := if isBoundary t then 1 else 0
  expected
    | .expression | .assignment | .ternary | .logicOr | .logicAnd | .equality | .comparison
    | .term | .factor | .unary | .call | .arguments | .primary | .parameters => some 0
    | _ => none

theorem agrees_boundaries : boundaries.Agrees := by
  intro x k hk
  cases x <;> cases hk <;> rfl

theorem isBoundary_of_mem {x : Name} {w : List Terminal} (h : Derives (name x) w)
    (hx : boundaries.expected x = some 0) : ∀ t ∈ w, isBoundary t = false := by
  intro t ht
  have hpos (t : Terminal) : 0 ≤ boundaries.terminal t := by
    unfold boundaries
    dsimp only
    split <;> decide
  have hzero := Weighing.terminal_eq_zero_of_mem hpos (agrees_boundaries.word_name h hx) t ht
  unfold boundaries at hzero
  simpa using hzero

end Lox.Grammar
