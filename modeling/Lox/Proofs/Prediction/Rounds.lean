import Lox.Proofs.Grammar.Complete.Statements
import Lox.Proofs.Prediction.Rules

/-!
# Repetitions that pursue walks

A repetition goes on until its step finds no more, or until a closing token comes next. In the second
case it also tries what cannot begin a round, and misses it where the closing token is missing.
-/

namespace Lox.Grammar

open Ebnf (name seq alt opt star)

variable {α β : Type} {n : Nat} {a : Ebnf} {parts : List Ebnf} {w : List Terminal}
  {stop : List Terminal → Prop}

/-- One round, which is not begun where the repetition stops. -/
def Round (stop : List Terminal → Prop) (a : Ebnf) (w : List Terminal) :
    Option (Option α) → List Terminal → Prop
  | some (some _), rest => ¬ stop w ∧ Walk a w .passed rest
  | some none, rest => stop w ∧ rest = w
  | none, rest => ¬ stop w ∧ Walk a w .stopped rest

/-- All rounds, up to where the repetition stops. -/
def Until (stop : List Terminal → Prop) (a : Ebnf) (w : List Terminal) :
    Option α → List Terminal → Prop
  | some _, rest => Walk (star a) w .passed rest ∧ stop rest
  | none, rest => Walk (star a) w .stopped rest ∨ Walk (star a) w .passed rest ∧ ¬ stop rest

/-- The repetition stops where no round is predicted. -/
def StopsUnpredicted (stop : List Terminal → Prop) (a : Ebnf) : Prop :=
  stop [] ∧ ∀ w, stop w → a.predicts w.head? = false

section

variable {u rest : List Terminal}

theorem Until.of_stopped (h : Walk a w .stopped rest) (hne : a.nullable = false) (hw : ¬ stop w) :
    Until stop a w (none : Option α) rest := by
  cases ha : a.predicts w.head? with
  | true => exact .inl (.starStop ha h)
  | false =>
      obtain ⟨-, rfl⟩ := h.stops_at_once ha hne
      exact .inr ⟨.starNone ha, hw⟩

theorem Until.more {a? : Option α} (hu : Walk a w .passed u) (hne : a.nullable = false)
    (h : Until stop a u a? rest) : Until stop a w a? rest := by
  have ha : a.predicts w.head? = true := by
    rw [← Bool.not_eq_false]
    intro ha
    cases (hu.stops_at_once ha hne).1
  cases a? with
  | some _ => exact ⟨.starMore ha hu h.1, h.2⟩
  | none => exact h.imp (.starMore ha hu) fun h => ⟨.starMore ha hu h.1, h.2⟩

end

theorem Pursues.map_until {r : Rule α} {g : α → β} (h : Pursues n r (Until stop a)) :
    Pursues n (do let x ← r; Pure.pure (g x)) (Until stop a) :=
  h.map (fun _ _ h => h) fun _ _ _ h => h

/-- A repetition that has a round for every token. -/
theorem pursues_collectUpTo {step : Nat → Rule (Option α)} (hdecided : Decided a)
    (hne : a.nullable = false) (hstop : StopsUnpredicted stop a)
    (hstep : ∀ k, Pursues n (step k) (Round stop a)) {rounds k m : Nat} (hn : m ≤ n)
    (hm : m ≤ rounds) : Pursues m (collectUpTo step rounds k) (Until stop a) := by
  induction rounds generalizing k m with
  | zero =>
      refine ⟨fun _ => List.prefix_rfl, fun c hc => ?_⟩
      have hnil : c.rest = [] := List.length_eq_zero_iff.mp (by omega)
      refine .of_ok rfl rfl List.suffix_rfl ?_
      rw [hnil]
      exact ⟨.starNone rfl, hstop.1⟩
  | succ rounds ih =>
      refine ((hstep k).anti hn).bind (m := fun x? => x?.elim m fun _ => m - 1)
        (W := fun x? => x?.elim (fun w xs? rest => xs? = some [] ∧ rest = w) fun _ => Until stop a)
        ?_ ?_ ?_ ?_
      · intro x?
        cases x? with
        | none => exact .pure fun _ => ⟨rfl, rfl⟩
        | some x =>
            have hmore : Pursues (m - 1) (collectUpTo step rounds (k + 1)) (Until stop a) :=
              ih (by omega) (by omega)
            exact hmore.map_until
      · intro x? w rest h hle hw
        cases x? with
        | none => exact hle.trans hw
        | some x => exact Nat.le_sub_one_of_lt ((h.2.length_lt hdecided hne).trans_le hw)
      · exact fun w rest h => .of_stopped h.2 hne h.1
      · intro x? w u xs? rest h hmore
        cases x? with
        | none =>
            obtain ⟨hw, rfl⟩ := h
            obtain ⟨rfl, rfl⟩ := hmore
            exact ⟨.starNone (hstop.2 _ hw), hw⟩
        | some x => exact .more h.2 hne hmore

theorem pursues_collect {step : Nat → Rule (Option α)} (hdecided : Decided a)
    (hne : a.nullable = false) (hstop : StopsUnpredicted stop a)
    (hstep : ∀ k, Pursues n (step k) (Round stop a)) : Pursues n (collect step) (Until stop a) where
  keeps c :=
    (pursues_collectUpTo hdecided hne hstop hstep (Nat.zero_le n) (Nat.zero_le _)).keeps c
  arrives c hc := (pursues_collectUpTo hdecided hne hstop hstep hc le_rfl).arrives c le_rfl

/-- No round of the production is predicted. -/
def Unpredicted (a : Ebnf) (w : List Terminal) : Prop :=
  a.predicts w.head? = false

/-- A repetition that goes on while rounds are predicted walks along its production. -/
theorem pursues_collect_predicted {step : Nat → Rule (Option α)} (hdecided : Decided a)
    (hne : a.nullable = false) (hstep : ∀ k, Pursues n (step k) (Round (Unpredicted a) a)) :
    Pursues n (collect step) (Walks (star a)) := by
  have hstop : StopsUnpredicted (Unpredicted a) a := ⟨rfl, fun _ h => h⟩
  refine (pursues_collect hdecided hne hstop hstep).mono fun w as? rest h => ?_
  cases as? with
  | some as => exact h.1
  | none => exact h.elim id fun h => absurd h.1.not_predicts_of_star h.2

/-- A walk, where a rule finds something if it has a result. -/
def Finds (a : Ebnf) (w : List Terminal) (a? : Option (Option α)) (rest : List Terminal) : Prop :=
  a? ≠ some none ∧ Walk a w (.of a?) rest

theorem Pursues.finds {item : Rule α} {g : α → β} (h : Pursues n item (Walks a)) :
    Pursues n (do let x ← item; Pure.pure (some (g x))) (Finds a) :=
  h.map (fun _ _ h => ⟨by simp, h⟩) fun _ _ _ h => ⟨by simp, h⟩

/-- A rule finds nothing and takes nothing. -/
def FindsNothing (w : List Terminal) (a? : Option (Option α)) (rest : List Terminal) : Prop :=
  a? = some none ∧ rest = w

theorem pursues_pure_none : Pursues n (pure none : Rule (Option α)) FindsNothing :=
  .pure fun _ => ⟨rfl, rfl⟩

theorem Round.of_finds {a? : Option (Option α)} {rest : List Terminal} (hw : ¬ stop w)
    (h : Finds a w a? rest) : Round stop a w a? rest := by
  obtain ⟨hne, h⟩ := h
  rcases a? with _ | _ | x
  · exact ⟨hw, h⟩
  · exact absurd rfl hne
  · exact ⟨hw, h⟩

/-- A round that begins with one of several symbols. -/
theorem pursues_acceptAny_round {m : Nat} {symbols : List Symbol}
    {f : Option Token → Rule (Option α)}
    {W : Token → List Terminal → Option (Option α) → List Terminal → Prop} (hm : n ≤ m + 1)
    (hfirsts : a.firsts = symbols.map .symbol) (hnone : Pursues n (f none) FindsNothing)
    (hsome : ∀ t, Pursues m (f (some t)) (W t))
    (hW : ∀ t s w a? rest, t.terminal = .symbol s → s ∈ symbols → W t w a? rest →
      Finds a (.symbol s :: w) a? rest) :
    Pursues n (acceptAny symbols >>= f) (Round (Unpredicted a) a) := by
  refine pursues_acceptAny_bind hm hsome hnone ?_ ?_
  · intro t s w a? rest ht hs h
    refine .of_finds ?_ (hW t s w a? rest ht hs h)
    simp [Unpredicted, Ebnf.predicts, hfirsts, hs]
  · rintro w _ _ hw ⟨rfl, rfl⟩
    refine ⟨?_, rfl⟩
    rw [Unpredicted, Ebnf.predicts_eq_false, hfirsts]
    intro t ht hfirst
    obtain ⟨s, hs, rfl⟩ := List.mem_map.mp hfirst
    exact hw s hs ht

theorem pursues_commaSeparated {item : Rule α} {tooMany : Fault}
    (htooMany : ∀ token, Error.unwinds ⟨tooMany, token⟩ = false) (hdecided : Decided a)
    (hitem : Pursues n item (Walks a)) :
    Pursues n (commaSeparated tooMany item)
      (Walks (seq [a, star (seq [symbol .comma, a])])) := by
  have hround : Decided (seq [symbol .comma, a]) := by
    refine .seqCons (.terminal _) ?_ ?_ (.seqLast hdecided) <;> simp [Apart, Ebnf.continuing]
  have hnext : Pursues n (do let next ← item; pure (some next)) (Finds (seq [a])) :=
    hitem.finds.mono fun w next? rest h => ⟨h.1, h.2.single⟩
  unfold commaSeparated nextItem?
  refine hitem.seq fun first => ?_
  refine Pursues.seq ?_ fun more => .nil
  refine pursues_collect_predicted hround rfl fun count => ?_
  rw [accept_eq_acceptAny]
  refine pursues_acceptAny_round (W := fun _ => Finds (seq [a])) (Nat.le_succ n) rfl
    pursues_pure_none ?_ ?_
  · intro comma
    dsimp only
    split
    · exact (pursues_recordNext htooMany).skip fun _ => hnext
    · exact hnext
  · rintro t s w next? rest - hs ⟨hne, h⟩
    rw [List.mem_singleton.mp hs]
    exact ⟨hne, .seqCons (.take _ w) h⟩

/-- A closing brace comes next, or nothing. -/
def BraceOrEnd (w : List Terminal) : Prop :=
  w.head? = some (.symbol .rightBrace) ∨ w = []

/-- The end of a round, which finds nothing where the repetition stops. -/
theorem pursues_round {item : Rule α} (h : Pursues n item (Walks a)) (b : Bool) :
    Pursues n (if b then pure none else do let x ← item; pure (some x))
      (if b then FindsNothing else Finds a) := by
  cases b with
  | true => exact pursues_pure_none
  | false => exact h.finds

theorem Round.of_ended {b : Bool} {a? : Option (Option α)} {rest : List Terminal}
    (hb : b = true ↔ stop w) (h : (if b then FindsNothing else Finds a) w a? rest) :
    Round stop a w a? rest := by
  cases b with
  | true =>
      obtain ⟨rfl, rfl⟩ := h
      exact ⟨hb.mp rfl, rfl⟩
  | false => exact .of_finds (fun hw => Bool.noConfusion (hb.mpr hw)) h

theorem pursues_beforeBrace {item : Rule α} (h : Pursues n item (Walks a)) :
    Pursues n (beforeBrace item) (Round BraceOrEnd a) := by
  unfold beforeBrace
  refine pursues_sees_bind (U := fun closed w a? rest =>
    (closed = true ↔ w.head? = some (.symbol .rightBrace)) → Round BraceOrEnd a w a? rest) ?_
    fun _ _ _ _ hclosed hround => hround hclosed
  intro closed
  refine pursues_atEnd_bind (fun ended => pursues_round h (closed || ended)) ?_
  intro ended w a? rest hended hround hclosed
  refine .of_ended ?_ hround
  rw [Bool.or_eq_true, hclosed, hended, BraceOrEnd]

theorem pursues_beforeEnd {item : Rule α} (h : Pursues n item (Walks a)) :
    Pursues n (beforeEnd item) (Round (· = []) a) := by
  unfold beforeEnd
  refine pursues_atEnd_bind (fun ended => pursues_round h ended) ?_
  intro ended w a? rest hended hround
  exact .of_ended hended hround

end Lox.Grammar
