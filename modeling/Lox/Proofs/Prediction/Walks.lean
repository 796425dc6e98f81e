import Lox.Proofs.Prediction.Choices

/-!
# Walks along productions

A production is followed along an input by its next terminal. The walk either passes, and leaves what
stands behind a word, or it stops at a terminal that no word goes on with. It never looks further than
at the terminal it ends at.
-/

namespace Lox.Grammar

open Ebnf (name seq alt opt star)

/-- How a walk ends. -/
inductive Verdict
  | passed
  | stopped

/-- Along the input, the production is followed up to the rest. -/
inductive Walk : Ebnf → List Terminal → Verdict → List Terminal → Prop
  | take (t : Terminal) (w : List Terminal) : Walk (.terminal t) (t :: w) .passed w
  | miss {t : Terminal} {w : List Terminal} (h : w.head? ≠ some t) :
      Walk (.terminal t) w .stopped w
  | name {x : Name} {w rest : List Terminal} {k : Verdict} (h : Walk (relaxed x) w k rest) :
      Walk (.name x) w k rest
  | seqNil (w : List Terminal) : Walk (.seq []) w .passed w
  | seqStop {a : Ebnf} {parts : List Ebnf} {w rest : List Terminal}
      (ha : Walk a w .stopped rest) : Walk (.seq (a :: parts)) w .stopped rest
  | seqCons {a : Ebnf} {parts : List Ebnf} {w u rest : List Terminal} {k : Verdict}
      (ha : Walk a w .passed u) (h : Walk (.seq parts) u k rest) :
      Walk (.seq (a :: parts)) w k rest
  | alt {choices : List Ebnf} {a : Ebnf} {w rest : List Terminal} {k : Verdict}
      (hfind : choices.find? (·.predicts w.head?) = some a) (h : Walk a w k rest) :
      Walk (.alt choices) w k rest
  | altNone {choices : List Ebnf} {w : List Terminal}
      (hfind : choices.find? (·.predicts w.head?) = none) : Walk (.alt choices) w .stopped w
  | optNone {a : Ebnf} {w : List Terminal} (ha : a.predicts w.head? = false) :
      Walk (.opt a) w .passed w
  | optSome {a : Ebnf} {w rest : List Terminal} {k : Verdict} (ha : a.predicts w.head? = true)
      (h : Walk a w k rest) : Walk (.opt a) w k rest
  | starNone {a : Ebnf} {w : List Terminal} (ha : a.predicts w.head? = false) :
      Walk (.star a) w .passed w
  | starStop {a : Ebnf} {w rest : List Terminal} (ha : a.predicts w.head? = true)
      (h : Walk a w .stopped rest) : Walk (.star a) w .stopped rest
  | starMore {a : Ebnf} {w u rest : List Terminal} {k : Verdict}
      (ha : a.predicts w.head? = true) (hu : Walk a w .passed u)
      (h : Walk (.star a) u k rest) : Walk (.star a) w k rest

variable {a : Ebnf} {parts choices : List Ebnf} {x : Name} {t : Terminal} {k k' : Verdict}
  {u v w s s' rest rest' : List Terminal}

namespace Walk

/-- There is one walk along an input. -/
theorem unique (h : Walk a w k rest) (h' : Walk a w k' rest') : k = k' ∧ rest = rest' := by
  -- The next terminal picks the constructor, and it is the same for both walks.
  induction h generalizing k' rest' with
  | take t w =>
      cases h' with
      | take => exact ⟨rfl, rfl⟩
      | miss hmiss => exact absurd rfl hmiss
  | miss hmiss =>
      cases h' with
      | take => exact absurd rfl hmiss
      | miss => exact ⟨rfl, rfl⟩
  | name _ ih =>
      cases h' with
      | name h' => exact ih h'
  | seqNil w =>
      cases h' with
      | seqNil => exact ⟨rfl, rfl⟩
  | seqStop _ ih =>
      cases h' with
      | seqStop h' => exact ih h'
      | seqCons h' _ => cases (ih h').1
  | seqCons _ _ iha ih =>
      cases h' with
      | seqStop h' => cases (iha h').1
      | seqCons ha' h' =>
          obtain rfl := (iha ha').2
          exact ih h'
  | alt hfind _ ih =>
      cases h' with
      | alt hfind' h' =>
          cases hfind.symm.trans hfind'
          exact ih h'
      | altNone hfind' => cases hfind.symm.trans hfind'
  | altNone hfind =>
      cases h' with
      | alt hfind' _ => cases hfind.symm.trans hfind'
      | altNone => exact ⟨rfl, rfl⟩
  | optNone ha =>
      cases h' with
      | optNone => exact ⟨rfl, rfl⟩
      | optSome ha' _ => cases ha.symm.trans ha'
  | optSome ha _ ih =>
      cases h' with
      | optNone ha' => cases ha.symm.trans ha'
      | optSome _ h' => exact ih h'
  | starNone ha =>
      cases h' with
      | starNone => exact ⟨rfl, rfl⟩
      | starStop ha' _ => cases ha.symm.trans ha'
      | starMore ha' _ _ => cases ha.symm.trans ha'
  | starStop ha _ ih =>
      cases h' with
      | starNone ha' => cases ha.symm.trans ha'
      | starStop _ h' => exact ih h'
      | starMore _ hu' _ => cases (ih hu').1
  | starMore ha _ _ ihu ih =>
      cases h' with
      | starNone ha' => cases ha.symm.trans ha'
      | starStop _ h' => cases (ihu h').1
      | starMore _ hu' h' =>
          obtain rfl := (ihu hu').2
          exact ih h'

/-- Of what it leaves, a walk has seen the next terminal only. -/
theorem exchange (h : Walk a w k rest) (hrest : rest = v ++ s) (hhead : s.head? = s'.head?) :
    ∃ u, w = u ++ s ∧ Walk a (u ++ s') k (v ++ s') := by
  have hsame (u : List Terminal) : (u ++ s').head? = (u ++ s).head? := by
    rw [List.head?_append, List.head?_append, hhead]
  induction h generalizing v with
  | take t w =>
      subst hrest
      exact ⟨t :: v, rfl, .take t _⟩
  | miss hmiss =>
      subst hrest
      exact ⟨v, rfl, .miss (by rwa [hsame])⟩
  | name _ ih =>
      obtain ⟨u, hu, h⟩ := ih hrest
      exact ⟨u, hu, .name h⟩
  | seqNil w =>
      subst hrest
      exact ⟨v, rfl, .seqNil _⟩
  | seqStop _ ih =>
      obtain ⟨u, hu, h⟩ := ih hrest
      exact ⟨u, hu, .seqStop h⟩
  | seqCons _ _ iha ih =>
      obtain ⟨m, hm, h⟩ := ih hrest
      obtain ⟨u, hu, ha⟩ := iha hm
      exact ⟨u, hu, .seqCons ha h⟩
  | alt hfind _ ih =>
      obtain ⟨u, rfl, h⟩ := ih hrest
      exact ⟨u, rfl, .alt (by rwa [hsame]) h⟩
  | altNone hfind =>
      subst hrest
      exact ⟨v, rfl, .altNone (by rwa [hsame])⟩
  | optNone ha =>
      subst hrest
      exact ⟨v, rfl, .optNone (by rwa [hsame])⟩
  | optSome ha _ ih =>
      obtain ⟨u, rfl, h⟩ := ih hrest
      exact ⟨u, rfl, .optSome (by rwa [hsame]) h⟩
  | starNone ha =>
      subst hrest
      exact ⟨v, rfl, .starNone (by rwa [hsame])⟩
  | starStop ha _ ih =>
      obtain ⟨u, rfl, h⟩ := ih hrest
      exact ⟨u, rfl, .starStop (by rwa [hsame]) h⟩
  | starMore ha _ _ ihu ih =>
      obtain ⟨m, hm, h⟩ := ih hrest
      obtain ⟨u, rfl, hu⟩ := ihu hm
      exact ⟨u, rfl, .starMore (by rwa [hsame]) hu h⟩

end Walk

/-! ## Predictions -/

theorem Ebnf.predicts_eq_false {t? : Option Terminal} :
    a.predicts t? = false ↔ ∀ t ∈ t?, t ∉ a.firsts := by
  cases t? <;> simp [predicts]

theorem Ebnf.predicts_mono {b : Ebnf} {t? : Option Terminal} (hsub : b.firsts ⊆ a.firsts)
    (h : a.predicts t? = false) : b.predicts t? = false := by
  rw [predicts_eq_false] at h ⊢
  exact fun t ht hb => h t ht (hsub hb)

theorem firsts_subset_firstsAlt (ha : a ∈ choices) : a.firsts ⊆ Ebnf.firstsAlt choices := by
  induction choices with
  | nil => cases ha
  | cons b choices ih =>
      rw [Ebnf.firstsAlt]
      rcases List.mem_cons.mp ha with rfl | ha
      · exact List.subset_append_left _ _
      · exact List.Subset.trans (ih ha) (List.subset_append_right _ _)

theorem firsts_subset_of_nullable (ha : a.nullable = true) :
    (seq parts).firsts ⊆ (seq (a :: parts)).firsts := by
  simp only [Ebnf.firsts, Ebnf.firstsSeq, ha, if_true]
  exact List.subset_append_right _ _

/-- Where nothing can begin, a walk ends at once, and passes only what may be empty. -/
theorem Walk.of_not_predicts (h : Walk a w k rest) (ha : a.predicts w.head? = false) :
    rest = w ∧ (k = .passed ↔ a.nullable = true) := by
  induction h with
  | take t w => simp [Ebnf.predicts, Ebnf.firsts] at ha
  | miss => simp [Ebnf.nullable]
  | @name x w _ _ _ ih =>
      have hx : (relaxed x).predicts w.head? = false :=
        Ebnf.predicts_mono (a := .name x) (firsts_relaxed_subset x) ha
      obtain ⟨hrest, hk⟩ := ih hx
      rw [nullable_relaxed] at hk
      exact ⟨hrest, hk⟩
  | seqNil w => simp [Ebnf.nullable, Ebnf.nullableSeq]
  | seqStop _ ih =>
      obtain ⟨hrest, hk⟩ := ih (Ebnf.predicts_mono (List.subset_append_left _ _) ha)
      simp only [reduceCtorEq, false_iff, Bool.not_eq_true] at hk
      simp [Ebnf.nullable, Ebnf.nullableSeq, hk, hrest]
  | seqCons _ _ iha ih =>
      -- The first part has passed without a terminal, so that the others could begin here as well.
      obtain ⟨rfl, hk⟩ := iha (Ebnf.predicts_mono (List.subset_append_left _ _) ha)
      have hnullable := hk.mp rfl
      obtain ⟨hrest, hk⟩ := ih (Ebnf.predicts_mono (firsts_subset_of_nullable hnullable) ha)
      refine ⟨hrest, hk.trans ?_⟩
      simp [Ebnf.nullable, Ebnf.nullableSeq, hnullable]
  | alt hfind _ _ =>
      have hpredicts := List.find?_some hfind
      rw [Ebnf.predicts_mono (firsts_subset_firstsAlt (List.mem_of_find?_eq_some hfind)) ha]
        at hpredicts
      cases hpredicts
  | altNone => simp [Ebnf.nullable]
  | optNone => simp [Ebnf.nullable]
  | optSome hpredicts _ _ => cases ha.symm.trans hpredicts
  | starNone => simp [Ebnf.nullable]
  | starStop hpredicts _ _ => cases ha.symm.trans hpredicts
  | starMore hpredicts _ _ _ _ => cases ha.symm.trans hpredicts

/-- A repetition passes where no further round is predicted. -/
theorem Walk.not_predicts_of_star (h : Walk (star a) w .passed rest) :
    a.predicts rest.head? = false := by
  generalize hb : star a = b at h
  generalize hk : Verdict.passed = k at h
  induction h with
  | starNone ha =>
      cases hb
      exact ha
  | starMore _ _ _ _ ih => exact ih hb hk
  | _ => cases hb <;> cases hk

theorem Walk.single (h : Walk a w k rest) : Walk (seq [a]) w k rest := by
  cases k with
  | passed => exact .seqCons h (.seqNil rest)
  | stopped => exact .seqStop h

theorem Walk.of_single (h : Walk (seq [a]) w k rest) : Walk a w k rest := by
  cases h with
  | seqStop h => exact h
  | seqCons h hnil =>
      cases hnil with
      | seqNil => exact h

/-- Parts may be taken together. -/
theorem Walk.group {first : List Ebnf} (h : Walk (seq (first ++ parts)) w k rest) :
    Walk (seq (seq first :: parts)) w k rest := by
  induction first generalizing w with
  | nil => exact .seqCons (.seqNil w) h
  | cons a first ih =>
      cases h with
      | seqStop ha => exact .seqStop (.seqStop ha)
      | seqCons ha h =>
          cases ih h with
          | seqStop h => exact .seqStop (.seqCons ha h)
          | seqCons h h' => exact .seqCons (.seqCons ha h) h'

theorem Walk.stops_at_once (h : Walk a w k rest) (ha : a.predicts w.head? = false)
    (hne : a.nullable = false) : k = .stopped ∧ rest = w := by
  obtain ⟨hrest, hk⟩ := h.of_not_predicts ha
  cases k with
  | passed => cases hne.symm.trans (hk.mp rfl)
  | stopped => exact ⟨rfl, hrest⟩

theorem Walk.opt_of_predicts (h : Walk (seq (a :: parts)) w k rest)
    (ha : a.predicts w.head? = true) : Walk (seq (opt a :: parts)) w k rest := by
  cases h with
  | seqStop h => exact .seqStop (.optSome ha h)
  | seqCons h h' => exact .seqCons (.optSome ha h) h'

/-- In front of a symbol it makes no difference whether an optional part is tried at some other
terminal. -/
theorem Walk.opt_before {s : Symbol} (h : Walk (seq (a :: symbol s :: parts)) w k rest)
    (hne : a.nullable = false) (hhead : w.head? ≠ some (.symbol s)) :
    Walk (seq (opt a :: symbol s :: parts)) w k rest := by
  cases ha : a.predicts w.head? with
  | true => exact h.opt_of_predicts ha
  | false =>
      have hpredicts : (seq (a :: symbol s :: parts)).predicts w.head? = false :=
        Ebnf.predicts_mono (by simp [Ebnf.firsts, Ebnf.firstsSeq, hne]) ha
      have hnullable : (seq (a :: symbol s :: parts)).nullable = false := by
        simp [Ebnf.nullable, Ebnf.nullableSeq, hne]
      obtain ⟨rfl, rfl⟩ := h.stops_at_once hpredicts hnullable
      exact .seqCons (.optNone ha) (.seqStop (.miss hhead))

/-- A choice may be tried where no other one is predicted. -/
theorem Walk.alt_of_others (before : List Ebnf) {after : List Ebnf} (h : Walk a w k rest)
    (hne : a.nullable = false) (hbefore : ∀ b ∈ before, b.predicts w.head? = false)
    (hafter : ∀ b ∈ after, b.predicts w.head? = false) :
    Walk (.alt (before ++ a :: after)) w k rest := by
  have hnone (bs : List Ebnf) (hbs : ∀ b ∈ bs, b.predicts w.head? = false) :
      bs.find? (·.predicts w.head?) = none := by
    rw [List.find?_eq_none]
    intro b hb
    simp [hbs b hb]
  cases ha : a.predicts w.head? with
  | true =>
      refine .alt ?_ h
      rw [List.find?_append, hnone before hbefore, Option.none_or]
      exact List.find?_cons_of_pos ha
  | false =>
      obtain ⟨rfl, rfl⟩ := h.stops_at_once ha hne
      refine .altNone ?_
      rw [List.find?_append, hnone before hbefore, Option.none_or,
        List.find?_cons_of_neg (by simp [ha])]
      exact hnone after hafter

theorem firsts_anyOf (symbols : List Symbol) :
    (anyOf symbols).firsts = symbols.map .symbol := by
  rw [anyOf, Ebnf.firsts]
  induction symbols with
  | nil => rfl
  | cons s symbols ih =>
      rw [List.map_cons, List.map_cons, Ebnf.firstsAlt, ih]
      rfl

theorem walk_anyOf {symbols : List Symbol} {s : Symbol} (hs : s ∈ symbols) (w : List Terminal) :
    Walk (anyOf symbols) (.symbol s :: w) .passed w := by
  refine .alt (a := symbol s) ?_ (.take _ w)
  induction symbols with
  | nil => cases hs
  | cons t symbols ih =>
      rw [List.map_cons]
      by_cases ht : s = t
      · subst ht
        exact List.find?_cons_of_pos (by simp [Ebnf.predicts, Ebnf.firsts])
      · rw [List.find?_cons_of_neg (by simp [Ebnf.predicts, Ebnf.firsts, ht])]
        exact ih ((List.mem_cons.mp hs).resolve_left ht)

namespace Decided

theorem of_seq_cons (h : Decided (.seq (a :: parts))) : Decided a ∧ Decided (.seq parts) := by
  cases h with
  | seqLast ha => exact ⟨ha, .seqNil⟩
  | seqElse ha => exact ⟨ha, .seqLast .elsePart⟩
  | seqCons ha _ _ h => exact ⟨ha, h⟩

theorem of_mem (h : Decided (.alt choices)) (ha : a ∈ choices) :
    Decided a ∧ a.nullable = false := by
  induction choices with
  | nil => cases ha
  | cons b choices ih =>
      rcases List.mem_cons.mp ha with rfl | ha
      · cases h with
        | altLast hb hne => exact ⟨hb, hne⟩
        | altCons hb hne _ _ => exact ⟨hb, hne⟩
      · cases h with
        | altLast _ _ => cases ha
        | altCons _ _ _ h => exact ih h ha

theorem of_opt (h : Decided (.opt a)) : Decided a ∧ a.nullable = false := by
  cases h with
  | elsePart =>
      refine ⟨.seqCons (.terminal _) ?_ ?_ (.seqLast (.name _)), rfl⟩ <;> decide
  | opt ha hne _ => exact ⟨ha, hne⟩

theorem of_star (h : Decided (.star a)) : Decided a ∧ a.nullable = false := by
  cases h with
  | star ha hne _ _ => exact ⟨ha, hne⟩

end Decided

/-! ## Words -/

mutual

/-- A word is derived, if words are derived from the known names. -/
def Ebnf.productive (known : Name → Bool) : Ebnf → Bool
  | .terminal _ | .opt _ | .star _ | .upTo _ _ => true
  | .name x => known x
  | .seq parts => productiveSeq known parts
  | .alt choices => productiveAlt known choices

def Ebnf.productiveSeq (known : Name → Bool) : List Ebnf → Bool
  | [] => true
  | a :: parts => a.productive known && productiveSeq known parts

def Ebnf.productiveAlt (known : Name → Bool) : List Ebnf → Bool
  | [] => false
  | a :: choices => a.productive known || productiveAlt known choices

end

/-- A word of the name is derived in so many steps. -/
def Name.productiveIn : Nat → Name → Bool
  | 0, _ => false
  | n + 1, x => (relaxed x).productive (productiveIn n)

section Productive

variable {known : Name → Bool}

/-- Words are derived from all known names. -/
def HasWords (known : Name → Bool) : Prop :=
  ∀ x, known x = true → ∃ w, DerivesBy relaxed (name x) w

mutual

theorem exists_word_of_productive (hknown : HasWords known) : ∀ a : Ebnf,
    a.productive known = true → ∃ w, DerivesBy relaxed a w
  | .terminal t, _ => ⟨[t], .terminal t⟩
  | .opt a, _ => ⟨[], .optNone a⟩
  | .star a, _ => ⟨[], .starNil a⟩
  | .upTo n a, _ => ⟨[], .upToNil n a⟩
  | .name x, h => hknown x h
  | .seq parts, h => exists_word_of_productiveSeq hknown parts h
  | .alt choices, h => by
      obtain ⟨a, ha, w, hw⟩ := exists_word_of_productiveAlt hknown choices h
      exact ⟨w, .alt ha hw⟩

theorem exists_word_of_productiveSeq (hknown : HasWords known) : ∀ parts : List Ebnf,
    Ebnf.productiveSeq known parts = true → ∃ w, DerivesBy relaxed (seq parts) w
  | [], _ => ⟨[], .seqNil⟩
  | a :: parts, h => by
      obtain ⟨ha, h⟩ := Bool.and_eq_true_iff.mp h
      obtain ⟨u, hu⟩ := exists_word_of_productive hknown a ha
      obtain ⟨v, hv⟩ := exists_word_of_productiveSeq hknown parts h
      exact ⟨u ++ v, .seqCons hu hv⟩

theorem exists_word_of_productiveAlt (hknown : HasWords known) : ∀ choices : List Ebnf,
    Ebnf.productiveAlt known choices = true → ∃ a ∈ choices, ∃ w, DerivesBy relaxed a w
  | [], h => by cases h
  | a :: choices, h => by
      rcases Bool.or_eq_true_iff.mp h with ha | h
      · exact ⟨a, List.mem_cons_self, exists_word_of_productive hknown a ha⟩
      · obtain ⟨b, hb, hw⟩ := exists_word_of_productiveAlt hknown choices h
        exact ⟨b, List.mem_cons_of_mem a hb, hw⟩

end

end Productive

/-- Every name has words. -/
theorem Name.exists_word (x : Name) : ∃ w, DerivesBy relaxed (name x) w := by
  have hsteps (n : Nat) : HasWords (Name.productiveIn n) := by
    induction n with
    | zero => exact fun x h => by cases h
    | succ n ih =>
        intro x h
        obtain ⟨w, hw⟩ := exists_word_of_productive ih _ h
        exact ⟨w, .name hw⟩
  apply hsteps 15
  cases x <;> decide

theorem Decided.exists_word (h : Decided a) : ∃ w, DerivesBy relaxed a w := by
  induction h with
  | terminal t => exact ⟨[t], .terminal t⟩
  | name x => exact x.exists_word
  | seqNil => exact ⟨[], .seqNil⟩
  | seqLast _ iha =>
      obtain ⟨u, hu⟩ := iha
      exact ⟨u ++ [], .seqCons hu .seqNil⟩
  | seqElse _ iha =>
      obtain ⟨u, hu⟩ := iha
      exact ⟨u ++ ([] ++ []), .seqCons hu (.seqCons (.optNone _) .seqNil)⟩
  | seqCons _ _ _ _ iha ih =>
      obtain ⟨u, hu⟩ := iha
      obtain ⟨v, hv⟩ := ih
      exact ⟨u ++ v, .seqCons hu hv⟩
  | altLast _ _ iha | altCons _ _ _ _ iha _ =>
      obtain ⟨u, hu⟩ := iha
      exact ⟨u, .alt List.mem_cons_self hu⟩
  | elsePart => exact ⟨[], .optNone _⟩
  | @opt a => exact ⟨[], .optNone a⟩
  | @star a => exact ⟨[], .starNil a⟩

/-- What has been read up to the end of a walk is a word, or can be extended to one. -/
def Verdict.Reads (a : Ebnf) (u : List Terminal) : Verdict → Prop
  | .passed => DerivesBy relaxed a u
  | .stopped => ∃ v, DerivesBy relaxed a (u ++ v)

theorem Verdict.Reads.imp {b : Ebnf} (h : k.Reads a u)
    (hwords : ∀ w, DerivesBy relaxed a (u ++ w) → DerivesBy relaxed b (v ++ w)) :
    k.Reads b v := by
  cases k with
  | passed =>
      have hv := hwords [] (by rwa [List.append_nil])
      rwa [List.append_nil] at hv
  | stopped =>
      obtain ⟨w, hw⟩ := h
      exact ⟨w, hwords w hw⟩

/-- A walk leaves a rest of the input, and what it has read is a word or can be extended to one. -/
theorem Walk.exists_read (h : Walk a w k rest) (hdecided : Decided a) :
    ∃ u, w = u ++ rest ∧ k.Reads a u := by
  induction h with
  | take t w => exact ⟨[t], rfl, .terminal t⟩
  | @miss t => exact ⟨[], rfl, [t], .terminal t⟩
  | @name x _ _ _ _ ih =>
      obtain ⟨u, hu, hread⟩ := ih (decided_relaxed x)
      exact ⟨u, hu, hread.imp fun _ => .name⟩
  | seqNil w => exact ⟨[], rfl, .seqNil⟩
  | seqStop _ iha =>
      obtain ⟨ha, hparts⟩ := hdecided.of_seq_cons
      obtain ⟨u, hu, v, hv⟩ := iha ha
      obtain ⟨v', hv'⟩ := hparts.exists_word
      refine ⟨u, hu, v ++ v', ?_⟩
      rw [← List.append_assoc]
      exact .seqCons hv hv'
  | seqCons _ _ iha ih =>
      obtain ⟨ha, hparts⟩ := hdecided.of_seq_cons
      obtain ⟨u, rfl, hu⟩ := iha ha
      obtain ⟨v, rfl, hread⟩ := ih hparts
      refine ⟨u ++ v, (List.append_assoc ..).symm, hread.imp fun w hw => ?_⟩
      rw [List.append_assoc]
      exact .seqCons hu hw
  | alt hfind _ ih =>
      have ha := List.mem_of_find?_eq_some hfind
      obtain ⟨u, hu, hread⟩ := ih (hdecided.of_mem ha).1
      exact ⟨u, hu, hread.imp fun _ => .alt ha⟩
  | altNone => exact ⟨[], rfl, hdecided.exists_word⟩
  | @optNone a => exact ⟨[], rfl, .optNone a⟩
  | optSome _ _ ih =>
      obtain ⟨u, hu, hread⟩ := ih hdecided.of_opt.1
      exact ⟨u, hu, hread.imp fun _ => .optSome⟩
  | @starNone a => exact ⟨[], rfl, .starNil a⟩
  | @starStop a _ _ _ _ ih =>
      obtain ⟨u, hu, v, hv⟩ := ih hdecided.of_star.1
      refine ⟨u, hu, v, ?_⟩
      rw [← List.append_nil (u ++ v)]
      exact .starCons hv (.starNil a)
  | starMore _ _ _ ihu ih =>
      obtain ⟨u, rfl, hu⟩ := ihu hdecided.of_star.1
      obtain ⟨v, rfl, hread⟩ := ih hdecided
      refine ⟨u ++ v, (List.append_assoc ..).symm, hread.imp fun w hw => ?_⟩
      rw [List.append_assoc]
      exact .starCons hu hw

end Lox.Grammar
