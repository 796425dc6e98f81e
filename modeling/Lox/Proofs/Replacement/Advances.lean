import Lox.Proofs.Grammar.Yields

/-!
# Rules that advance

A rule never makes the input longer and never forgets an error, whether it succeeds or fails. Where a
result comes without a new error, most rules have taken a token for it.
-/

namespace Lox.Grammar

variable {α β : Type} {T T' : α → Prop} {r : Rule α}

/-- From this cursor the rule makes the input no longer, and shorter for a result in `T` that comes
without an error, and it forgets no error. -/
structure AdvancesFrom (c : Cursor) (T : α → Prop) (r : Rule α) : Prop where
  ok : ∀ a d, r c = .ok a d → d.rest.length ≤ c.rest.length ∧ c.errors.length ≤ d.errors.length
    ∧ (T a → d.errors.length = c.errors.length → d.rest.length < c.rest.length)
  error : ∀ e d, r c = .error e d →
    d.rest.length ≤ c.rest.length ∧ c.errors.length ≤ d.errors.length

def Advances (T : α → Prop) (r : Rule α) : Prop :=
  ∀ c, AdvancesFrom c T r

theorem bind_eq_error {k : α → Rule β} {c d : Cursor} {e : Error}
    (h : (r >>= k) c = .error e d) :
    r c = .error e d ∨ ∃ a c', r c = .ok a c' ∧ k a c' = .error e d := by
  rw [bind_apply] at h
  split at h
  · next a c' hrc => exact .inr ⟨a, c', hrc, h⟩
  · next e' c' hrc =>
    cases h
    exact .inl hrc

/-- The outcome of a token that may be taken: it is taken, or it is not such a token. -/
theorem takeIf_cons {p : Terminal → Bool} {c : Cursor} {t : Token} {rest : List Token}
    (hrest : c.rest = t :: rest) :
    takeIf p c = if p t.terminal then .ok (some t) { c with rest := rest } else .ok none c := by
  simp only [takeIf, hrest]

theorem takeIf_nil {p : Terminal → Bool} {c : Cursor} (hrest : c.rest = []) :
    takeIf p c = .ok none c := by
  simp only [takeIf, hrest]

namespace Advances

theorem mono (h : Advances T r) (hT : ∀ a, T' a → T a) : Advances T' r := by
  intro c
  constructor
  · intro a d hrun
    obtain ⟨hrest, herrors, htaken⟩ := (h c).ok a d hrun
    exact ⟨hrest, herrors, fun ha => htaken (hT a ha)⟩
  · exact (h c).error

theorem any (h : Advances T r) : Advances (fun _ => False) r :=
  h.mono fun _ => False.elim

theorem of_ok (hr : ∀ c, ∃ a d, r c = .ok a d ∧ d.rest.length ≤ c.rest.length
    ∧ c.errors.length ≤ d.errors.length ∧ (T a → d.rest.length < c.rest.length)) :
    Advances T r := by
  intro c
  obtain ⟨a, d, hrun, hrest, herrors, htaken⟩ := hr c
  constructor
  · intro a' d' hrun'
    cases hrun.symm.trans hrun'
    exact ⟨hrest, herrors, fun ha _ => htaken ha⟩
  · intro e d' hrun'
    cases hrun.symm.trans hrun'

theorem pure {a : α} (ha : ¬ T a) : Advances T (pure a) :=
  of_ok fun c => ⟨a, c, rfl, le_rfl, le_rfl, fun h => absurd h ha⟩

theorem bind {k : α → Rule β} {U : α → β → Prop} {V : β → Prop} (hr : Advances T r)
    (hk : ∀ a, Advances (U a) (k a)) (hV : ∀ a x, V x → T a ∨ U a x) :
    Advances V (r >>= k) := by
  intro c
  constructor
  · intro x d hrun
    obtain ⟨a, e, hfirst, hsecond⟩ := bind_eq_ok hrun
    obtain ⟨hrest, herrors, htaken⟩ := (hr c).ok a e hfirst
    obtain ⟨hrest', herrors', htaken'⟩ := (hk a e).ok x d hsecond
    refine ⟨hrest'.trans hrest, herrors.trans herrors', fun hx hclean => ?_⟩
    rcases hV a x hx with ha | hx
    · exact lt_of_le_of_lt hrest' (htaken ha (by omega))
    · exact lt_of_lt_of_le (htaken' hx (by omega)) hrest
  · intro e d hrun
    obtain hfirst | ⟨a, c', hfirst, hsecond⟩ := bind_eq_error hrun
    · exact (hr c).error e d hfirst
    · obtain ⟨hrest, herrors, -⟩ := (hr c).ok a c' hfirst
      obtain ⟨hrest', herrors'⟩ := (hk a c').error e d hsecond
      exact ⟨hrest'.trans hrest, herrors.trans herrors'⟩

theorem any_bind {k : α → Rule β} (hr : Advances T r)
    (hk : ∀ a, Advances (fun _ => False) (k a)) : Advances (fun _ => False) (r >>= k) :=
  hr.bind (U := fun _ _ => False) hk fun _ _ => False.elim

end Advances

theorem advances_fail (part : Part) : Advances T (fail part) := by
  intro c
  constructor
  · nofun
  · rintro _ _ ⟨⟩
    exact ⟨le_rfl, le_rfl⟩

theorem advances_sees (s : Symbol) : Advances (fun _ => False) (sees s) :=
  .of_ok fun c => ⟨_, c, rfl, le_rfl, le_rfl, False.elim⟩

theorem advances_atEnd : Advances (fun _ => False) atEnd :=
  .of_ok fun c => ⟨_, c, rfl, le_rfl, le_rfl, False.elim⟩

theorem advances_freshId : Advances (fun _ => False) freshId :=
  .of_ok fun _ => ⟨_, _, rfl, le_rfl, le_rfl, False.elim⟩

theorem advances_record (fault : Fault) (token : Token) :
    Advances (fun _ => False) (record fault token) :=
  .of_ok fun c => ⟨(), _, rfl, le_rfl, by simp [Cursor.record], False.elim⟩

theorem advances_recordNext (fault : Fault) : Advances (fun _ => False) (recordNext fault) :=
  .of_ok fun c => ⟨(), _, rfl, le_rfl, by simp [Cursor.record], False.elim⟩

theorem advances_takeIf (p : Terminal → Bool) : Advances (fun t? => t?.isSome) (takeIf p) := by
  refine .of_ok fun c => ?_
  cases hc : c.rest with
  | nil => exact ⟨none, c, takeIf_nil hc, by rw [hc], le_rfl, fun h => by cases h⟩
  | cons t rest =>
      rw [takeIf_cons hc]
      split
      · exact ⟨some t, _, rfl, Nat.le_succ _, le_rfl, fun _ => Nat.lt_succ_self _⟩
      · exact ⟨none, c, rfl, by rw [hc], le_rfl, fun h => by cases h⟩

theorem advances_expectTerminal (t : Terminal) (part : Part) :
    Advances (fun _ => True) (expectTerminal t part) := by
  unfold expectTerminal
  refine (advances_takeIf _).bind (U := fun t? _ => ¬ t?.isSome) (fun t? => ?_)
    fun t? _ _ => Decidable.em _
  cases t? with
  | none => exact advances_fail part
  | some t => exact .pure (not_not_intro rfl)

theorem advances_collectUpTo {step : Nat → Rule (Option α)}
    (hstep : ∀ count, Advances (fun _ => False) (step count)) (n : Nat) :
    ∀ count, Advances (fun _ => False) (collectUpTo step n count) := by
  induction n with
  | zero => exact fun count => .pure id
  | succ n ih =>
      intro count
      refine (hstep count).any_bind fun a? => ?_
      cases a? with
      | none => exact .pure id
      | some a => exact (ih (count + 1)).any_bind fun _ => .pure id

end Lox.Grammar
