import Lox.Proofs.Prediction.Walks

/-!
# Words are walked along

A walk along an input that begins with a word passes, if what comes next cannot continue the word. An
else may come next where it belongs to an if statement further out, and the walk takes it for the
nearest one.
-/

namespace Lox.Grammar

open Ebnf (name seq alt opt star)

variable {a : Ebnf} {parts choices : List Ebnf} {u v w : List Terminal}
  {es : List (List Terminal)}

/-- Only a nullable production has the empty word, and a word begins with a first terminal. -/
theorem head_of_derives (h : DerivesBy relaxed a w) (hdecided : Decided a) :
    (w = [] → a.nullable = true) ∧ ∀ t ∈ w.head?, t ∈ a.firsts := by
  induction h with
  | terminal t => simp [Ebnf.firsts]
  | @name x w _ ih =>
      obtain ⟨hnil, hhead⟩ := ih (decided_relaxed x)
      rw [nullable_relaxed] at hnil
      exact ⟨fun hw => (by cases hnil hw), fun t ht => firsts_relaxed_subset x (hhead t ht)⟩
  | seqNil => simp [Ebnf.nullable, Ebnf.nullableSeq]
  | @seqCons a parts u v _ _ iha ih =>
      obtain ⟨hanil, hahead⟩ := iha hdecided.of_seq_cons.1
      obtain ⟨hnil, hhead⟩ := ih hdecided.of_seq_cons.2
      cases u with
      | nil =>
          have ha := hanil rfl
          refine ⟨fun hv => ?_, fun t ht => firsts_subset_of_nullable ha (hhead t ht)⟩
          have hparts := hnil hv
          rw [Ebnf.nullable] at hparts
          simp [Ebnf.nullable, Ebnf.nullableSeq, ha, hparts]
      | cons t u =>
          refine ⟨fun hu => (by cases hu), fun t' ht' => ?_⟩
          exact List.mem_append_left _ (hahead t' ht')
  | alt ha _ ih =>
      obtain ⟨ha', hne⟩ := hdecided.of_mem ha
      obtain ⟨hnil, hhead⟩ := ih ha'
      rw [hne] at hnil
      exact ⟨fun hw => (by cases hnil hw), fun t ht => firsts_subset_firstsAlt ha (hhead t ht)⟩
  | optNone => simp [Ebnf.nullable]
  | optSome _ ih => exact ⟨fun _ => rfl, (ih hdecided.of_opt.1).2⟩
  | starNil => simp [Ebnf.nullable]
  | @starCons a u v _ _ iha ih =>
      refine ⟨fun _ => rfl, fun t ht => ?_⟩
      obtain ⟨hdecided', hne⟩ := hdecided.of_star
      obtain ⟨hnil, hhead⟩ := iha hdecided'
      cases u with
      | nil => rw [hnil rfl] at hne; cases hne
      | cons t' u => exact hhead t ht
  | upToNil | upToCons => cases hdecided

/-- A word of a production that has not the empty one is predicted. -/
theorem predicts_of_derives (h : DerivesBy relaxed a u) (hdecided : Decided a)
    (hne : a.nullable = false) (v : List Terminal) : a.predicts (u ++ v).head? = true := by
  obtain ⟨hnil, hhead⟩ := head_of_derives h hdecided
  cases u with
  | nil => rw [hnil rfl] at hne; cases hne
  | cons t u => exact decide_eq_true (hhead t rfl)

/-- Among several choices the one is found that a word is of. -/
theorem find?_of_derives (h : DerivesBy relaxed a u) (ha : a ∈ choices)
    (hdecided : Decided (.alt choices)) (v : List Terminal) :
    choices.find? (·.predicts (u ++ v).head?) = some a := by
  have hpredicts : a.predicts (u ++ v).head? = true :=
    predicts_of_derives h (hdecided.of_mem ha).1 (hdecided.of_mem ha).2 v
  induction choices with
  | nil => cases ha
  | cons b choices ih =>
      rcases List.mem_cons.mp ha with rfl | ha
      · exact List.find?_cons_of_pos hpredicts
      · cases hdecided with
        | altLast => cases ha
        | altCons _ _ hfirsts hdecided =>
            rw [List.find?_cons_of_neg]
            · exact ih ha hdecided
            · cases hhead : (u ++ v).head? with
              | none => simp [Ebnf.predicts]
              | some t =>
                  rw [hhead] at hpredicts
                  have ht : t ∈ a.firsts := by simpa [Ebnf.predicts] using hpredicts
                  have hb : t ∉ b.firsts := fun hb =>
                    hfirsts t hb (firsts_subset_firstsAlt ha ht)
                  simpa [Ebnf.predicts] using hb

/-- An else with its statement. -/
def IsElseClause (w : List Terminal) : Prop :=
  ∃ u, w = .symbol .elseWord :: u ∧ DerivesBy relaxed (name .statement) u

theorem derives_elsePart_iff : DerivesBy relaxed elsePart w ↔ w = [] ∨ IsElseClause w := by
  simp [elsePart, IsElseClause]

theorem head?_flatten_append (hes : ∀ e ∈ es, IsElseClause e) (v : List Terminal) :
    es = [] ∨ (es.flatten ++ v).head? = some (.symbol .elseWord) := by
  cases es with
  | nil => exact .inl rfl
  | cons e es =>
      obtain ⟨u, rfl, -⟩ := hes e List.mem_cons_self
      exact .inr rfl

/-- What the last part of an if statement derives comes first among the clauses behind. -/
theorem exists_clauses (h : DerivesBy relaxed elsePart u) (hes : ∀ e ∈ es, IsElseClause e) :
    ∃ ds : List (List Terminal), (∀ e ∈ ds, IsElseClause e) ∧ ds.flatten = u ++ es.flatten
      ∧ ∀ cs, cs <:+ ds → cs.tail <:+ es := by
  rcases derives_elsePart_iff.mp h with rfl | hu
  · exact ⟨es, hes, rfl, fun cs hcs => (List.tail_suffix cs).trans hcs⟩
  · refine ⟨u :: es, List.forall_mem_cons.mpr ⟨hu, hes⟩, rfl, fun cs hcs => ?_⟩
    rcases List.suffix_cons_iff.mp hcs with rfl | hcs
    · exact List.suffix_rfl
    · exact (List.tail_suffix cs).trans hcs

/-- Words of the production with at most `n` terminals, clauses behind them counted, are passed
together with some of these clauses. -/
def PassedUpTo (n : Nat) (a : Ebnf) (u : List Terminal) : Prop :=
  ∀ (es : List (List Terminal)) (v : List Terminal), (∀ e ∈ es, IsElseClause e) →
    (u ++ es.flatten).length ≤ n → (∀ t ∈ v.head?, t ∉ a.continuing) →
    ∃ cs, cs <:+ es ∧ Walk a (u ++ (es.flatten ++ v)) .passed (cs.flatten ++ v)

/-- Nothing is predicted at clauses if no word begins with an else. -/
theorem not_predicts_clauses (hes : ∀ e ∈ es, IsElseClause e)
    (helse : .symbol .elseWord ∉ a.firsts) (hv : ∀ t ∈ v.head?, t ∉ a.firsts) :
    a.predicts (es.flatten ++ v).head? = false := by
  rw [Ebnf.predicts_eq_false]
  rcases head?_flatten_append hes v with rfl | hhead
  · exact hv
  · rw [hhead]
    rintro t ⟨⟩
    exact helse

theorem continuing_subset_continuingAlt (ha : a ∈ choices) :
    a.continuing ⊆ Ebnf.continuingAlt choices := by
  induction choices with
  | nil => cases ha
  | cons b choices ih =>
      rw [Ebnf.continuingAlt]
      rcases List.mem_cons.mp ha with rfl | ha
      · exact List.subset_append_left _ _
      · exact List.Subset.trans (ih ha) (List.subset_append_right _ _)

theorem continuing_subset_of_nullable (hparts : (seq parts).nullable = true) :
    a.continuing ⊆ (seq (a :: parts)).continuing := by
  rw [Ebnf.nullable] at hparts
  simp only [Ebnf.continuing, Ebnf.continuingSeq, hparts, if_true]
  exact List.subset_append_right _ _

/-- The last part of an if statement takes the first clause. -/
theorem walk_elsePart {n : Nat}
    (ih : ∀ m < n, ∀ u, DerivesBy relaxed (name .statement) u → PassedUpTo m (name .statement) u)
    (hes : ∀ e ∈ es, IsElseClause e) (hn : es.flatten.length ≤ n)
    (hv : ∀ t ∈ v.head?, t ∉ elsePart.continuing) :
    ∃ cs, cs <:+ es.tail ∧ Walk elsePart (es.flatten ++ v) .passed (cs.flatten ++ v) := by
  have hstatement : ∀ t ∈ v.head?, t ∉ (name .statement).continuing := by
    have hsub : (name .statement).continuing ⊆ elsePart.continuing := by decide
    exact fun t ht hcontinuing => hv t ht (hsub hcontinuing)
  cases es with
  | nil =>
      refine ⟨[], List.suffix_rfl, .optNone ?_⟩
      rw [Ebnf.predicts_eq_false]
      exact hstatement
  | cons e es =>
      obtain ⟨⟨u, rfl, hu⟩, hes'⟩ := List.forall_mem_cons.mp hes
      have hlt : (u ++ es.flatten).length < n := hn
      obtain ⟨cs, hcs, hwalk⟩ := ih _ hlt u hu es v hes' (Nat.le_refl _) hstatement
      rw [← List.append_assoc] at hwalk
      exact ⟨cs, hcs, .optSome rfl (.seqCons (.take _ _) (.seqCons hwalk (.seqNil _)))⟩

theorem passedUpTo_elsePart {n : Nat}
    (ih : ∀ m < n, ∀ u, DerivesBy relaxed (name .statement) u → PassedUpTo m (name .statement) u)
    (h : DerivesBy relaxed elsePart u) : PassedUpTo n elsePart u := by
  intro es v hes hn hv
  obtain ⟨ds, hds, hflatten, htail⟩ := exists_clauses h hes
  obtain ⟨cs, hcs, hwalk⟩ := walk_elsePart ih hds (by rwa [hflatten]) hv
  rw [hflatten, List.append_assoc] at hwalk
  exact ⟨cs, hcs.trans (htail ds List.suffix_rfl), hwalk⟩

namespace PassedUpTo

variable {n : Nat}

/-- The clauses that a statement leaves are left to the last part. -/
theorem seqElse (ha : PassedUpTo n a u)
    (ih : ∀ m < n, ∀ u, DerivesBy relaxed (name .statement) u → PassedUpTo m (name .statement) u)
    (h : DerivesBy relaxed elsePart w) : PassedUpTo n (seq [a, elsePart]) (u ++ w) := by
  intro es v hes hn hv
  obtain ⟨ds, hds, hflatten, htail⟩ := exists_clauses h hes
  have hlen : (u ++ ds.flatten).length ≤ n := by rwa [hflatten, ← List.append_assoc]
  obtain ⟨cs, hcs, hwalk⟩ := ha ds v hds hlen fun t ht hcontinuing =>
    hv t ht (continuing_subset_of_nullable rfl hcontinuing)
  have hcslen : cs.flatten.length ≤ n := by
    obtain ⟨front, rfl⟩ := hcs
    simp only [List.length_append, List.flatten_append] at hlen
    omega
  obtain ⟨cs', hcs', hwalk'⟩ := walk_elsePart ih (fun e he => hds e (hcs.subset he)) hcslen
    fun t ht hcontinuing => hv t ht (List.mem_append_left _ (List.mem_append_right _ hcontinuing))
  refine ⟨cs', hcs'.trans (htail cs hcs), .seqCons ?_ (.seqCons hwalk' (.seqNil _))⟩
  simpa [hflatten] using hwalk

theorem seqLast (ha : PassedUpTo n a u) : PassedUpTo n (seq [a]) u := by
  intro es v hes hn hv
  obtain ⟨cs, hcs, hwalk⟩ := ha es v hes hn fun t ht hcontinuing =>
    hv t ht (continuing_subset_of_nullable rfl hcontinuing)
  exact ⟨cs, hcs, .seqCons hwalk (.seqNil _)⟩

/-- No clause behind the first part belongs to it. -/
theorem walk_first (ha : PassedUpTo n a u) (hn : u.length ≤ n)
    (hw : ∀ t ∈ w.head?, t ∉ a.continuing) : Walk a (u ++ w) .passed w := by
  obtain ⟨cs, hcs, hwalk⟩ := ha [] w (by simp) (by simpa using hn) hw
  rw [List.suffix_nil.mp hcs] at hwalk
  exact hwalk

theorem seqCons (ha : PassedUpTo n a u) (h : PassedUpTo n (seq parts) w)
    (hw : DerivesBy relaxed (seq parts) w) (hdecided : Decided (seq parts))
    (hcontinuing : Apart a.continuing (seq parts).firsts)
    (helse : (seq parts).nullable = true → .symbol .elseWord ∉ a.continuing) :
    PassedUpTo n (seq (a :: parts)) (u ++ w) := by
  intro es v hes hn hv
  obtain ⟨hnil, hhead⟩ := head_of_derives hw hdecided
  simp only [List.length_append] at hn
  have hnext : ∀ t ∈ (w ++ (es.flatten ++ v)).head?, t ∉ a.continuing := by
    cases w with
    | nil =>
        have hnullable := hnil rfl
        rcases head?_flatten_append hes v with rfl | hes
        · exact fun t ht hmore => hv t ht (continuing_subset_of_nullable hnullable hmore)
        · rw [List.nil_append, hes]
          rintro t ⟨⟩
          exact helse hnullable
    | cons t w =>
        rintro t' ⟨⟩ hmore
        exact hcontinuing t hmore (hhead t rfl)
  have hlen : (w ++ es.flatten).length ≤ n := by
    rw [List.length_append]
    omega
  obtain ⟨cs, hcs, hwalk⟩ := h es v hes hlen fun t ht hmore =>
    hv t ht (List.mem_append_left _ hmore)
  refine ⟨cs, hcs, .seqCons ?_ hwalk⟩
  rw [List.append_assoc]
  exact ha.walk_first (by omega) hnext

theorem starNil (hne : .symbol .elseWord ∉ a.firsts) : PassedUpTo n (star a) [] := by
  intro es v hes _ hv
  refine ⟨es, List.suffix_rfl, .starNone ?_⟩
  exact not_predicts_clauses hes hne fun t ht hfirst => hv t ht (List.mem_append_left _ hfirst)

theorem starCons (ha : PassedUpTo n a u) (h : PassedUpTo n (star a) w)
    (hu : DerivesBy relaxed a u) (hw : DerivesBy relaxed (star a) w)
    (hdecided : Decided (star a)) : PassedUpTo n (star a) (u ++ w) := by
  intro es v hes hn hv
  have ⟨ha', hne⟩ := hdecided.of_star
  have hpredicts := predicts_of_derives hu ha' hne
  have hhead := (head_of_derives hw hdecided).2
  cases hdecided with
  | star _ _ helse hcontinuing =>
      cases w with
      | nil =>
          rw [List.append_nil] at hn ⊢
          obtain ⟨cs, hcs, hwalk⟩ := ha es v hes hn fun t ht hmore =>
            hv t ht (List.mem_append_right _ hmore)
          refine ⟨cs, hcs, .starMore (hpredicts _) hwalk (.starNone ?_)⟩
          exact not_predicts_clauses (fun e he => hes e (hcs.subset he)) helse
            fun t ht hfirst => hv t ht (List.mem_append_left _ hfirst)
      | cons t w =>
          simp only [List.length_append] at hn
          have hlen : (t :: w ++ es.flatten).length ≤ n := by
            rw [List.length_append]
            omega
          obtain ⟨cs, hcs, hwalk⟩ := h es v hes hlen hv
          have hfirst : Walk a (u ++ (t :: w ++ (es.flatten ++ v))) .passed _ :=
            ha.walk_first (by omega) fun t' ht' hmore => by
              cases ht'
              exact hcontinuing t hmore (hhead t rfl)
          rw [List.append_assoc]
          exact ⟨cs, hcs, .starMore (hpredicts _) hfirst hwalk⟩

theorem optNone (hdecided : Decided (opt a))
    (ih : ∀ m < n, ∀ u, DerivesBy relaxed (name .statement) u →
      PassedUpTo m (name .statement) u) : PassedUpTo n (opt a) [] := by
  cases hdecided with
  | elsePart => exact passedUpTo_elsePart ih (.optNone _)
  | opt _ _ helse =>
      intro es v hes _ hv
      refine ⟨es, List.suffix_rfl, .optNone ?_⟩
      exact not_predicts_clauses hes helse fun t ht hfirst =>
        hv t ht (List.mem_append_left _ hfirst)

theorem optSome (ha : PassedUpTo n a u) (hu : DerivesBy relaxed a u)
    (hdecided : Decided (opt a)) : PassedUpTo n (opt a) u := by
  intro es v hes hn hv
  obtain ⟨ha', hne⟩ := hdecided.of_opt
  obtain ⟨cs, hcs, hwalk⟩ := ha es v hes hn fun t ht hmore =>
    hv t ht (List.mem_append_right _ hmore)
  exact ⟨cs, hcs, .optSome (predicts_of_derives hu ha' hne _) hwalk⟩

end PassedUpTo

theorem passedUpTo (n : Nat) {a : Ebnf} {u : List Terminal} (h : DerivesBy relaxed a u)
    (hdecided : Decided a) : PassedUpTo n a u := by
  -- An else that a word leaves begins a shorter statement, so that the outer induction is on the length.
  induction n using Nat.strongRecOn generalizing a u with
  | ind n ihn =>
      have hstatement (m : Nat) (hm : m < n) (u : List Terminal)
          (hu : DerivesBy relaxed (name .statement) u) : PassedUpTo m (name .statement) u :=
        ihn m hm hu (.name _)
      induction h with
      | terminal t => exact fun es v _ _ _ => ⟨es, List.suffix_rfl, .take t _⟩
      | @name x u _ ih =>
          intro es v hes hn hv
          obtain ⟨cs, hcs, hwalk⟩ := ih (decided_relaxed x) es v hes hn fun t ht hcontinuing =>
            hv t ht (continuing_relaxed_subset x hcontinuing)
          exact ⟨cs, hcs, .name hwalk⟩
      | seqNil => exact fun es v _ _ _ => ⟨es, List.suffix_rfl, .seqNil _⟩
      | @seqCons _ _ _ v _ h iha ih =>
          cases hdecided with
          | seqLast ha =>
              rw [derivesBy_seq_nil_iff.mp h, List.append_nil]
              exact (iha ha).seqLast
          | seqElse ha =>
              have h' : DerivesBy relaxed elsePart v := by simpa using h
              exact (iha ha).seqElse hstatement h'
          | seqCons ha hcontinuing helse hparts =>
              exact (iha ha).seqCons (ih hparts) h hparts hcontinuing helse
      | alt ha hu ih =>
          intro es v hes hn hv
          obtain ⟨cs, hcs, hwalk⟩ := ih (hdecided.of_mem ha).1 es v hes hn fun t ht hcontinuing =>
            hv t ht (continuing_subset_continuingAlt ha hcontinuing)
          exact ⟨cs, hcs, .alt (find?_of_derives hu ha hdecided _) hwalk⟩
      | optNone a => exact .optNone hdecided hstatement
      | optSome ha ih => exact (ih hdecided.of_opt.1).optSome ha hdecided
      | starNil a =>
          cases hdecided with
          | star _ _ helse _ => exact .starNil helse
      | starCons ha h iha ih =>
          exact (iha hdecided.of_star.1).starCons (ih hdecided) ha h hdecided
      | upToNil | upToCons => cases hdecided

/-- A walk passes a word that nothing behind it continues. -/
theorem walk_of_derives (h : DerivesBy relaxed a u) (hdecided : Decided a)
    (hv : ∀ t ∈ v.head?, t ∉ a.continuing) : Walk a (u ++ v) .passed v :=
  (passedUpTo u.length h hdecided).walk_first (Nat.le_refl _) hv

/-- Where the empty word may not stand, a walk that passes has taken a terminal. -/
theorem Walk.length_lt {rest : List Terminal} (h : Walk a w .passed rest) (hdecided : Decided a)
    (hne : a.nullable = false) : rest.length < w.length := by
  obtain ⟨u, rfl, hu⟩ := h.exists_read hdecided
  cases u with
  | nil =>
      rw [(head_of_derives hu hdecided).1 rfl] at hne
      cases hne
  | cons t u =>
      rw [List.cons_append, List.length_cons, List.length_append]
      omega

end Lox.Grammar
