import Mathlib.Order.Nat
import Lox.Grammar.Rule

/-!
# What rules yield

A rule takes tokens only from its input and hands out identities only upwards, whether it succeeds
or fails. A statement about its result may speak of the identity that is next when it begins and of
the one that is next when it ends. Such statements compose along the sequence of a rule.
-/

namespace Lox.Grammar

variable {Q : Token → Prop} {α β : Type} {n : Nat}

/-- The tokens left at the cursor have the property, and the next identity is at least `n`. -/
structure Beyond (Q : Token → Prop) (n : Nat) (c : Cursor) : Prop where
  tokens : ∀ t ∈ c.rest, Q t
  le_nextId : n ≤ c.nextId

/-- On tokens with the property and with the next identity `n`, the rule keeps both, and its result
satisfies `P` together with the identity that is next when it ends. -/
def Yields (Q : Token → Prop) (n : Nat) (r : Rule α) (P : Nat → α → Prop) : Prop :=
  ∀ c, (∀ t ∈ c.rest, Q t) → c.nextId = n →
    match r c with
    | .ok a c' => Beyond Q n c' ∧ P c'.nextId a
    | .error _ c' => Beyond Q n c'

def YieldsAt (Q : Token → Prop) (n : Nat) (t : Token) (r : Rule α) (P : Nat → α → Prop) : Prop :=
  ∀ c, (∀ t ∈ c.rest, Q t) → c.nextId = n → c.rest.head? = some t →
    match r c with
    | .ok a c' => Beyond Q n c' ∧ P c'.nextId a
    | .error _ c' => Beyond Q n c'

theorem bind_apply (r : Rule α) (f : α → Rule β) (c : Cursor) :
    (r >>= f) c =
      match r c with
      | .ok a c' => f a c'
      | .error e c' => .error e c' := by
  change EStateM.bind r f c = _
  unfold EStateM.bind
  cases r c <;> rfl

theorem bind_eq_ok {r : Rule α} {f : α → Rule β} {c d : Cursor} {b : β}
    (h : (r >>= f) c = .ok b d) : ∃ a c', r c = .ok a c' ∧ f a c' = .ok b d := by
  rw [bind_apply] at h
  cases hrc : r c with
  | error e c' =>
      rw [hrc] at h
      cases h
  | ok a c' =>
      rw [hrc] at h
      exact ⟨a, c', rfl, h⟩

theorem Beyond.mono {m : Nat} {c : Cursor} (h : Beyond Q m c) (hnm : n ≤ m) : Beyond Q n c :=
  ⟨h.tokens, hnm.trans h.le_nextId⟩

namespace Yields

variable {r : Rule α} {f : α → Rule β} {P : Nat → α → Prop} {R : Nat → β → Prop}

theorem pure {a : α} (h : P n a) : Yields Q n (pure a) P := by
  intro c hQ hn
  exact ⟨⟨hQ, hn.ge⟩, hn ▸ h⟩

theorem bind (hr : Yields Q n r P) (hf : ∀ m a, n ≤ m → P m a → Yields Q m (f a) R) :
    Yields Q n (r >>= f) R := by
  intro c hQ hn
  have h := hr c hQ hn
  rw [bind_apply]
  cases hrc : r c with
  | error e c' =>
      rw [hrc] at h
      exact h
  | ok a c' =>
      rw [hrc] at h
      obtain ⟨hc', hP⟩ := h
      have h' := hf c'.nextId a hc'.le_nextId hP c' hc'.tokens rfl
      dsimp only
      cases hfc : f a c' with
      | error e d =>
          rw [hfc] at h'
          exact h'.mono hc'.le_nextId
      | ok b d =>
          rw [hfc] at h'
          exact ⟨h'.1.mono hc'.le_nextId, h'.2⟩

theorem mono {P' : Nat → α → Prop} (hr : Yields Q n r P)
    (hP : ∀ m a, n ≤ m → P m a → P' m a) : Yields Q n r P' := by
  intro c hQ hn
  have h := hr c hQ hn
  cases hrc : r c with
  | error e c' =>
      rw [hrc] at h
      exact h
  | ok a c' =>
      rw [hrc] at h
      exact ⟨h.1, hP _ _ h.1.le_nextId h.2⟩

end Yields

theorem yields_fail (part : Part) {P : Nat → α → Prop} : Yields Q n (fail part) P := by
  intro c hQ hn
  exact ⟨hQ, hn.ge⟩

theorem yields_sees (s : Symbol) : Yields Q n (sees s) fun m _ => m = n := by
  intro c hQ hn
  exact ⟨⟨hQ, hn.ge⟩, hn⟩

theorem yields_atEnd : Yields Q n atEnd fun m _ => m = n := by
  intro c hQ hn
  exact ⟨⟨hQ, hn.ge⟩, hn⟩

theorem yields_takeIf (p : Terminal → Bool) :
    Yields Q n (takeIf p) fun m t? => m = n ∧ ∀ t ∈ t?, Q t ∧ p t.terminal := by
  intro c hQ hn
  unfold takeIf
  cases hrest : c.rest with
  | nil => exact ⟨⟨hQ, hn.ge⟩, hn, by simp⟩
  | cons t rest =>
      have ht : Q t := hQ t (by simp [hrest])
      by_cases hp : p t.terminal = true
      · simp only [hp, if_true]
        refine ⟨⟨fun u hu => hQ u (by simp [hrest, hu]), hn.ge⟩, hn, ?_⟩
        rintro u ⟨⟩
        exact ⟨ht, hp⟩
      · simp only [hp]
        exact ⟨⟨hQ, hn.ge⟩, hn, by simp⟩

theorem yields_accept (s : Symbol) :
    Yields Q n (accept s) fun m t? => m = n ∧ ∀ t ∈ t?, Q t ∧ t.terminal = .symbol s :=
  (yields_takeIf _).mono fun _ _ _ h =>
    ⟨h.1, fun t ht => ⟨(h.2 t ht).1, beq_iff_eq.mp (h.2 t ht).2⟩⟩

theorem yields_acceptAny (symbols : List Symbol) :
    Yields Q n (acceptAny symbols) fun m _ => m = n :=
  (yields_takeIf _).mono fun _ _ _ h => h.1

theorem yields_expectTerminal (terminal : Terminal) (part : Part) :
    Yields Q n (expectTerminal terminal part) fun m t => m = n ∧ Q t ∧ t.terminal = terminal := by
  unfold expectTerminal
  refine (yields_takeIf _).bind fun m t? _ ht => ?_
  obtain ⟨rfl, ht⟩ := ht
  cases t? with
  | none => exact yields_fail part
  | some t =>
      obtain ⟨hQ, hterminal⟩ := ht t rfl
      exact .pure ⟨rfl, hQ, beq_iff_eq.mp hterminal⟩

theorem yields_expect (s : Symbol) (part : Part) :
    Yields Q n (expect s part) fun m t => m = n ∧ Q t ∧ t.terminal = .symbol s :=
  yields_expectTerminal _ part

theorem yields_expectName (part : Part) :
    Yields Q n (expectName part) fun m t => m = n ∧ Q t ∧ t.terminal = .identifier :=
  yields_expectTerminal _ part

theorem yields_peek_bind {f : Token → Rule α} {P : Nat → α → Prop}
    (hend : ∀ line, Yields Q n (f (.endAt line)) P)
    (hnext : ∀ t, Q t → YieldsAt Q n t (f t) P) : Yields Q n (peek >>= f) P := by
  intro c hQ hn
  rw [bind_apply]
  change match f c.next c with
    | .ok a c' => _
    | .error _ c' => _
  cases hrest : c.rest with
  | nil =>
      have hend := hend c.endLine c hQ hn
      rwa [show c.next = .endAt c.endLine by simp [Cursor.next, hrest]]
  | cons t rest =>
      have ht : Q t := hQ t (by simp [hrest])
      have hnext := hnext t ht c hQ hn (by simp [hrest])
      rwa [show c.next = t by simp [Cursor.next, hrest]]

theorem yieldsAt_take_bind {t : Token} {f : Token → Rule α} {P : Nat → α → Prop}
    (hf : Yields Q n (f t) P) : YieldsAt Q n t (take >>= f) P := by
  intro c hQ hn ht
  have hnext : c.next = t := by
    cases hrest : c.rest <;> simp_all [Cursor.next]
  rw [bind_apply]
  simp only [take, hnext]
  exact hf _ (fun u hu => hQ u (List.mem_of_mem_tail hu)) hn

theorem Yields.at {t : Token} {r : Rule α} {P : Nat → α → Prop} (h : Yields Q n r P) :
    YieldsAt Q n t r P :=
  fun c hQ hn _ => h c hQ hn

theorem yields_freshId : Yields Q n freshId fun m id => id = n ∧ m = n + 1 := by
  intro c hQ hn
  refine ⟨⟨hQ, ?_⟩, hn, congrArg (· + 1) hn⟩
  change n ≤ c.nextId + 1
  omega

theorem yields_record (fault : Fault) (token : Token) :
    Yields Q n (record fault token) fun m _ => m = n := by
  intro c hQ hn
  exact ⟨⟨hQ, hn.ge⟩, hn⟩

theorem yields_recordNext (fault : Fault) : Yields Q n (recordNext fault) fun m _ => m = n := by
  intro c hQ hn
  exact ⟨⟨hQ, hn.ge⟩, hn⟩

/-- A statement about lists that holds of the empty one and is kept by adding, in front of what
later rounds yield, what one round yields, holds of a repetition. -/
theorem yields_collectUpTo {step : Nat → Rule (Option α)} {P : Nat → Nat → α → Prop}
    {R : Nat → Nat → List α → Prop}
    (hstep : ∀ n count, Yields Q n (step count) fun m a? => ∀ a ∈ a?, P n m a)
    (hnil : ∀ n m, n ≤ m → R n m [])
    (hcons : ∀ {n m k a as}, n ≤ m → m ≤ k → P n m a → R m k as → R n k (a :: as))
    (rounds : Nat) : ∀ n count, Yields Q n (collectUpTo step rounds count) (R n) := by
  induction rounds with
  | zero =>
      intro n count
      exact .pure (hnil n n le_rfl)
  | succ rounds ih =>
      intro n count
      refine (hstep n count).bind fun m a? hnm ha => ?_
      cases a? with
      | none => exact .pure (hnil n m hnm)
      | some a =>
          refine (ih m (count + 1)).bind fun k as hmk has => ?_
          exact .pure (hcons hnm hmk (ha a rfl) has)

theorem yields_collect {step : Nat → Rule (Option α)} {P : Nat → Nat → α → Prop}
    {R : Nat → Nat → List α → Prop}
    (hstep : ∀ n count, Yields Q n (step count) fun m a? => ∀ a ∈ a?, P n m a)
    (hnil : ∀ n m, n ≤ m → R n m [])
    (hcons : ∀ {n m k a as}, n ≤ m → m ≤ k → P n m a → R m k as → R n k (a :: as)) (n : Nat) :
    Yields Q n (collect step) (R n) :=
  fun c => yields_collectUpTo hstep hnil hcons c.rest.length n 0 c

theorem yields_commaSeparated {item : Rule α} {tooMany : Fault} {P : Nat → Nat → α → Prop}
    {R : Nat → Nat → List α → Prop} (hitem : ∀ n, Yields Q n item (P n))
    (hnil : ∀ n m, n ≤ m → R n m [])
    (hcons : ∀ {n m k a as}, n ≤ m → m ≤ k → P n m a → R m k as → R n k (a :: as)) (n : Nat) :
    Yields Q n (commaSeparated tooMany item) (R n) := by
  unfold commaSeparated nextItem?
  refine (hitem n).bind fun m first hnm hfirst => ?_
  refine Yields.bind (yields_collect (P := P) (R := R) ?_ hnil hcons m) fun k more hmk hmore => ?_
  · intro n count
    refine (yields_accept .comma).bind fun m comma? _ hcomma => ?_
    obtain ⟨rfl, -⟩ := hcomma
    cases comma? with
    | none => exact .pure (by simp)
    | some comma =>
        have hnext : Yields Q m (do let next ← item; pure (some next)) fun k a? =>
            ∀ a ∈ a?, P m k a :=
          (hitem m).bind fun k next _ hk => .pure (by rintro a ⟨⟩; exact hk)
        dsimp only
        split
        · refine (yields_recordNext tooMany).bind fun k _ _ hk => ?_
          exact hk ▸ hnext
        · exact hnext
  · exact .pure (hcons hnm hmk hfirst hmore)

end Lox.Grammar
