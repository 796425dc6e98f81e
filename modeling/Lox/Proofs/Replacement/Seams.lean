import Lox.Proofs.Relabelling.Trees
import Lox.Proofs.Replacement.Advances

/-!
# Inputs that differ from some place on

Two inputs are the same up to a seam. A rule that succeeds on the first one in front of the seam does
the same on the second one. At the seam the inputs may go on in different ways, and behind it they may
be the same again. How far a rule may go into the first input is limited by a floor: only results that
leave at least so many tokens have to be found again.
-/

namespace Lox.Grammar

variable {α β γ δ : Type}

/-- What two inputs are from the seam on, and how many tokens of the first one a result has to leave. -/
structure Seam where
  first : List Token
  second : List Token
  floor : Nat

namespace Seam

variable {S : Seam} {l l' k k' : List Token}

/-- The inputs are the same up to the seam, or they are behind it and the same. -/
def Meets (S : Seam) (l l' : List Token) : Prop :=
  (∃ u, l = u ++ S.first ∧ l' = u ++ S.second)
    ∨ l = l' ∧ l.length < S.first.length ∧ l.length < S.second.length

/-- The seam for rules that are followed by one that takes a token. -/
def raised (S : Seam) : Seam :=
  { S with floor := S.floor + 1 }

theorem meets_seam (S : Seam) : S.Meets S.first S.second :=
  .inl ⟨[], rfl, rfl⟩

/-- Both inputs begin with the same token, or they are at the seam, or both are at their ends. -/
theorem Meets.cases (h : S.Meets l l') :
    (∃ t k k', l = t :: k ∧ l' = t :: k' ∧ S.Meets k k') ∨ (l = S.first ∧ l' = S.second)
      ∨ (l = [] ∧ l' = []) := by
  rcases h with ⟨u, rfl, rfl⟩ | ⟨rfl, hfirst, hsecond⟩
  · cases u with
    | nil => exact .inr (.inl ⟨rfl, rfl⟩)
    | cons t u => exact .inl ⟨t, _, _, rfl, rfl, .inl ⟨u, rfl, rfl⟩⟩
  · cases l with
    | nil => exact .inr (.inr ⟨rfl, rfl⟩)
    | cons t l =>
        simp only [List.length_cons] at hfirst hsecond
        exact .inl ⟨t, l, l, rfl, rfl, .inr ⟨rfl, by omega, by omega⟩⟩

/-- What is taken from the first input is taken from the second one. -/
theorem Meets.length_le (h : S.Meets l l') (h' : S.Meets k k') (hle : k.length ≤ l.length) :
    k'.length ≤ l'.length := by
  rcases h with ⟨u, rfl, rfl⟩ | ⟨rfl, hfirst, hsecond⟩
  · rcases h' with ⟨v, rfl, rfl⟩ | ⟨rfl, -, hsecond⟩
    · simp only [List.length_append] at hle ⊢
      omega
    · simp only [List.length_append]
      omega
  · rcases h' with ⟨v, rfl, rfl⟩ | ⟨rfl, -, -⟩
    · simp only [List.length_append] at hle
      omega
    · exact hle

theorem Meets.length_lt (h : S.Meets l l') (h' : S.Meets k k') (hlt : k.length < l.length) :
    k'.length < l'.length := by
  rcases h with ⟨u, rfl, rfl⟩ | ⟨rfl, hfirst, hsecond⟩
  · rcases h' with ⟨v, rfl, rfl⟩ | ⟨rfl, -, hsecond⟩
    · simp only [List.length_append] at hlt ⊢
      omega
    · simp only [List.length_append]
      omega
  · rcases h' with ⟨v, rfl, rfl⟩ | ⟨rfl, -, -⟩
    · simp only [List.length_append] at hlt
      omega
    · exact hlt

/-- Where a result may go beyond the seam, a for statement begins there in the first input, and a
block or a while statement in the second one. -/
structure Fair (S : Seam) : Prop where
  first : S.floor < S.first.length → ∃ t k, S.first = t :: k ∧ t.terminal = .symbol .forWord
  second : S.floor < S.first.length → ∃ t k s, S.second = t :: k ∧ t.terminal = .symbol s
    ∧ s ∈ [Symbol.leftBrace, .whileWord]

/-- A test that fails at the seam of the first input fails in the second one. -/
def Quiet (S : Seam) (p : Terminal → Bool) : Prop :=
  S.floor ≤ S.first.length → ∀ t k, S.second = t :: k → p t.terminal = true →
    ∃ u l, S.first = u :: l ∧ p u.terminal = true

theorem Fair.raised (h : S.Fair) : S.raised.Fair where
  first hlt := h.first (Nat.lt_of_succ_lt hlt)
  second hlt := h.second (Nat.lt_of_succ_lt hlt)

/-- Above the floor, a test has to fail only for the two symbols with which the second input may go
on. -/
theorem Fair.quiet_raised (h : S.Fair) {p : Terminal → Bool}
    (hp : ∀ s ∈ [Symbol.leftBrace, .whileWord], p (.symbol s) = false) : S.raised.Quiet p := by
  intro hle t k hsecond ht
  obtain ⟨u, l, s, hu, hterminal, hs⟩ := h.second hle
  obtain ⟨rfl, -⟩ := List.cons.inj (hsecond.symm.trans hu)
  rw [hterminal, hp s hs] at ht
  cases ht

end Seam

/-- What the first rule finds in the first input without an error, the second one finds in the second
input, up to `f`. The second rule is for inputs of at most `m` tokens. -/
structure Tracks (S : Seam) (m : Nat) (T : α → Prop) (f : α → γ) (r r' : Rule α) : Prop where
  advances : Advances T r
  found : ∀ c a d, r c = .ok a d → d.errors.length = c.errors.length → S.floor ≤ d.rest.length →
    ∀ c' : Cursor, S.Meets c.rest c'.rest → c'.rest.length ≤ m →
      ∃ b d', r' c' = .ok b d' ∧ d'.errors = c'.errors ∧ S.Meets d.rest d'.rest ∧ f b = f a

/-- A rule that takes a token for every result. -/
abbrev TracksTaken (S : Seam) (m : Nat) (f : α → γ) (r r' : Rule α) : Prop :=
  Tracks S m (fun _ => True) f r r'

/-- A rule that may take nothing. -/
abbrev TracksAny (S : Seam) (m : Nat) (f : α → γ) (r r' : Rule α) : Prop :=
  Tracks S m (fun _ => False) f r r'

variable {S : Seam} {m : Nat} {T T' : α → Prop} {f : α → γ} {g : β → δ}

namespace Tracks

variable {r r' : Rule α} {k k' : α → Rule β} {U : α → β → Prop} {V : β → Prop}

theorem mono (h : Tracks S m T f r r') (hT : ∀ a, T' a → T a) : Tracks S m T' f r r' where
  advances := h.advances.mono hT
  found := h.found

theorem any (h : Tracks S m T f r r') : TracksAny S m f r r' :=
  h.mono fun _ => False.elim

theorem le {n : Nat} (h : Tracks S m T f r r') (hle : n ≤ m) : Tracks S n T f r r' where
  advances := h.advances
  found c a d hrun hclean hfloor c' hmeets hlen :=
    h.found c a d hrun hclean hfloor c' hmeets (hlen.trans hle)

/-- What is found above a floor is found above a higher one. -/
theorem raise (h : Tracks S m T f r r') : Tracks S.raised m T f r r' where
  advances := h.advances
  found c a d hrun hclean hfloor := h.found c a d hrun hclean (Nat.le_of_succ_le hfloor)

theorem pure {a b : α} (ha : ¬ T a) (h : f b = f a) : Tracks S m T f (pure a) (pure b) where
  advances := .pure ha
  found := by
    rintro _ _ _ ⟨⟩ - - c' hmeets -
    exact ⟨b, c', rfl, rfl, hmeets, h⟩

/-- One rule after the other, where the first one ends above its own floor. -/
theorem found_bind {n : Nat} (hr : Tracks { S with floor := n } m T f r r')
    (hk : ∀ a b, f b = f a → Tracks S m (U a) g (k a) (k' b)) {c d : Cursor} {x : β}
    (hrun : (r >>= k) c = .ok x d) (hclean : d.errors.length = c.errors.length)
    (hfloor : S.floor ≤ d.rest.length)
    (hn : ∀ a e, k a e = .ok x d → d.errors.length = e.errors.length → n ≤ e.rest.length)
    (c' : Cursor)
    (hmeets : S.Meets c.rest c'.rest) (hlen : c'.rest.length ≤ m) :
    ∃ y d', (r' >>= k') c' = .ok y d' ∧ d'.errors = c'.errors ∧ S.Meets d.rest d'.rest
      ∧ g y = g x := by
  obtain ⟨a, e, hfirst, hsecond⟩ := bind_eq_ok hrun
  obtain ⟨hrest, herrors, -⟩ := (hr.advances c).ok a e hfirst
  obtain ⟨-, herrors', -⟩ := ((hk a a rfl).advances e).ok x d hsecond
  obtain ⟨b, e', hrun', hsame, hmeets', hb⟩ := hr.found c a e hfirst (by omega)
    (hn a e hsecond (by omega)) c' hmeets hlen
  have hlen' : e'.rest.length ≤ m :=
    (Seam.Meets.length_le hmeets hmeets' hrest).trans hlen
  obtain ⟨y, d', hrun'', hsame', hmeets'', hy⟩ := (hk a b hb).found e x d hsecond (by omega) hfloor
    e' hmeets' hlen'
  refine ⟨y, d', ?_, hsame'.trans hsame, hmeets'', hy⟩
  rw [bind_apply, hrun']
  exact hrun''

/-- One rule after the other. -/
theorem bind (hr : Tracks S m T f r r')
    (hk : ∀ a b, f b = f a → Tracks S m (U a) g (k a) (k' b)) (hV : ∀ a x, V x → T a ∨ U a x) :
    Tracks S m V g (r >>= k) (r' >>= k') where
  advances := Advances.bind hr.advances (fun a => (hk a a rfl).advances) hV
  found _ x d hrun hclean hfloor := found_bind hr hk hrun hclean hfloor fun a e hsecond _ =>
    hfloor.trans (((hk a a rfl).advances e).ok x d hsecond).1

/-- Where the second rule takes a token, the first one ends above the floor. -/
theorem bind_taken (hr : Tracks S.raised m T f r r')
    (hk : ∀ a b, f b = f a → TracksTaken S m g (k a) (k' b)) :
    TracksTaken S m g (r >>= k) (r' >>= k') where
  advances := Advances.bind hr.advances (fun a => (hk a a rfl).advances) fun _ _ => .inr
  found _ x d hrun hclean hfloor := found_bind hr hk hrun hclean hfloor fun a e hsecond hclean' =>
    lt_of_le_of_lt hfloor ((((hk a a rfl).advances e).ok x d hsecond).2.2 trivial hclean')

/-- Where the first rule takes a token, so do both together. -/
theorem taken_bind (hr : TracksTaken S m f r r')
    (hk : ∀ a b, f b = f a → TracksAny S m g (k a) (k' b)) :
    TracksTaken S m g (r >>= k) (r' >>= k') :=
  hr.bind hk fun _ _ _ => .inl trivial

theorem any_bind (hr : Tracks S m T f r r')
    (hk : ∀ a b, f b = f a → TracksAny S m g (k a) (k' b)) :
    TracksAny S m g (r >>= k) (r' >>= k') :=
  hr.bind hk fun _ _ => False.elim

/-- What the last rule takes is taken by all together. -/
theorem bind_last {T' : β → Prop} (hr : Tracks S m T f r r')
    (hk : ∀ a b, f b = f a → Tracks S m T' g (k a) (k' b)) :
    Tracks S m T' g (r >>= k) (r' >>= k') :=
  hr.bind hk fun _ _ => .inr

/-- What is found is made into something else. -/
theorem bind_pure {h h' : α → β} (hr : Tracks S m T f r r')
    (hh : ∀ a b, f b = f a → g (h' b) = g (h a)) :
    TracksAny S m g (r >>= fun a => Pure.pure (h a)) (r' >>= fun a => Pure.pure (h' a)) :=
  hr.any_bind fun a b hab => .pure id (hh a b hab)

theorem taken_pure {h h' : α → β} (hr : TracksTaken S m f r r')
    (hh : ∀ a b, f b = f a → g (h' b) = g (h a)) :
    TracksTaken S m g (r >>= fun a => Pure.pure (h a)) (r' >>= fun a => Pure.pure (h' a)) :=
  hr.taken_bind fun a b hab => .pure id (hh a b hab)

end Tracks

/-! ## Tokens -/

theorem tracks_fail (part : Part) {r' : Rule α} : Tracks S m T f (fail part) r' where
  advances := advances_fail part
  found := nofun

theorem tracks_freshId : TracksAny S m (fun _ => ()) freshId freshId where
  advances := advances_freshId
  found := by
    rintro _ _ _ ⟨⟩ - - c' hmeets -
    exact ⟨_, _, rfl, rfl, hmeets, rfl⟩

/-- Nothing has to be found where an error is recorded. -/
theorem tracks_record_bind (fault : Fault) (token : Token) {k : Unit → Rule α} {r' : Rule α}
    (hk : Advances (fun _ => False) (k ())) :
    TracksAny S m f (record fault token >>= k) r' where
  advances := (advances_record fault token).any_bind fun _ => hk
  found c a d hrun hclean := by
    obtain ⟨_, _, ⟨⟩, hrun⟩ := bind_eq_ok hrun
    obtain ⟨-, herrors, -⟩ := (hk _).ok a d hrun
    simp only [Cursor.record, List.length_append, List.length_singleton] at herrors
    omega

theorem tracks_recordNext {f : Unit → γ} (fault : Fault) :
    TracksAny S m f (recordNext fault) (recordNext fault) where
  advances := advances_recordNext fault
  found := by
    rintro c a d ⟨⟩ hclean
    simp [Cursor.record] at hclean

/-- What may be taken is not the beginning of a for statement, and where nothing is taken at the seam,
nothing is taken in the second input. -/
theorem tracks_takeIf {p : Terminal → Bool} (hS : S.Fair) (hfor : p (.symbol .forWord) = false)
    (hp : S.Quiet p) : Tracks S m (fun t? => t?.isSome) id (takeIf p) (takeIf p) where
  advances := advances_takeIf p
  found c t? d hrun _ hfloor c' hmeets _ := by
    obtain ⟨t, k, k', hk, hk', htail⟩ | ⟨hc, hc'⟩ | ⟨hc, hc'⟩ := hmeets.cases
    · rw [takeIf_cons hk] at hrun
      rw [takeIf_cons hk']
      split at hrun
      · next ht =>
        cases hrun
        exact ⟨some t, _, if_pos ht, rfl, htail, rfl⟩
      · next ht =>
        cases hrun
        exact ⟨none, c', if_neg ht, rfl, hmeets, rfl⟩
    · by_cases htaken : ∃ t k, S.first = t :: k ∧ p t.terminal = true
      · obtain ⟨t, k, hfirst, ht⟩ := htaken
        rw [takeIf_cons (hc.trans hfirst), if_pos ht] at hrun
        cases hrun
        have hlt : S.floor < S.first.length := by
          rw [hfirst]
          exact Nat.lt_succ_of_le hfloor
        obtain ⟨u, l, hu, hterminal⟩ := hS.first hlt
        obtain ⟨rfl, -⟩ := List.cons.inj (hfirst.symm.trans hu)
        rw [hterminal, hfor] at ht
        cases ht
      · have hnone {e : Cursor} (h : ∀ t k, e.rest = t :: k → ¬ p t.terminal = true) :
            takeIf p e = .ok none e := by
          cases he : e.rest with
          | nil => exact takeIf_nil he
          | cons t k => rw [takeIf_cons he, if_neg (h t k he)]
        rw [hnone fun t k ht hpt => htaken ⟨t, k, hc.symm.trans ht, hpt⟩] at hrun
        cases hrun
        have hle : S.floor ≤ S.first.length := by rwa [hc] at hfloor
        exact ⟨none, c', hnone fun t k ht hpt => htaken (hp hle t k (hc'.symm.trans ht) hpt), rfl,
          hmeets, rfl⟩
    · rw [takeIf_nil hc] at hrun
      cases hrun
      exact ⟨none, c', takeIf_nil hc', rfl, hmeets, rfl⟩

/-- What follows a token that was taken sees an input that is shorter by it. -/
theorem tracks_takeIf_bind {p : Terminal → Bool} {k k' : Option Token → Rule α} (hS : S.Fair)
    (hfor : p (.symbol .forWord) = false) (hp : S.Quiet p)
    (hnone : Tracks S (m + 1) T f (k none) (k' none))
    (hsome : ∀ t, TracksAny S m f (k (some t)) (k' (some t))) :
    Tracks S (m + 1) T f (takeIf p >>= k) (takeIf p >>= k') where
  advances := by
    apply Advances.bind (advances_takeIf p) (U := fun t? a => t? = none ∧ T a)
    · intro t?
      cases t? with
      | none => exact (hnone.mono fun a h => h.2).advances
      | some t => exact (hsome t).advances.mono fun a h => by cases h.1
    · intro t? a ha
      cases t? with
      | none => exact .inr ⟨rfl, ha⟩
      | some t => exact .inl rfl
  found c a d hrun hclean hfloor c' hmeets hlen := by
    obtain ⟨t?, e, hfirst, hsecond⟩ := bind_eq_ok hrun
    obtain ⟨hrest, herrors, htaken⟩ := (advances_takeIf p c).ok t? e hfirst
    have hnext : Advances (fun _ => False) (k t?) := by
      cases t? with
      | none => exact hnone.any.advances
      | some t => exact (hsome t).advances
    obtain ⟨hrest', herrors', -⟩ := (hnext e).ok a d hsecond
    -- No error is forgotten, so that both parts are without one.
    obtain ⟨b, e', hrun', hsame, hmeets', hb⟩ := (tracks_takeIf hS hfor hp).found c t? e hfirst
      (by omega) (hfloor.trans hrest') c' hmeets hlen
    obtain rfl : b = t? := hb
    rw [bind_apply, hrun', ← hsame]
    cases b with
    | none =>
        exact hnone.found e a d hsecond (by omega) hfloor e' hmeets'
          ((hmeets.length_le hmeets' hrest).trans hlen)
    | some t =>
        have hlt := hmeets.length_lt hmeets' (htaken rfl (by omega))
        exact (hsome t).found e a d hsecond (by omega) hfloor e' hmeets' (by omega)

theorem expectTerminal_eq_ok {t : Terminal} {part : Part} {c d : Cursor} {a : Token} :
    expectTerminal t part c = .ok a d
      ↔ c.rest = a :: d.rest ∧ a.terminal = t ∧ d = { c with rest := d.rest } := by
  unfold expectTerminal
  rw [bind_apply]
  cases hrest : c.rest with
  | nil =>
      rw [takeIf_nil hrest]
      simp [fail]
  | cons u rest =>
      rw [takeIf_cons hrest]
      by_cases hu : u.terminal = t
      · rw [if_pos (beq_iff_eq.mpr hu)]
        constructor
        · rintro ⟨⟩
          exact ⟨rfl, hu, rfl⟩
        · rintro ⟨hcons, ha, hd⟩
          obtain ⟨rfl, rfl⟩ := List.cons.inj hcons
          rw [hd]
          rfl
      · rw [if_neg (by simpa using hu)]
        constructor
        · rintro ⟨⟩
        · rintro ⟨hcons, ha, -⟩
          obtain ⟨rfl, -⟩ := List.cons.inj hcons
          exact absurd ha hu

theorem tracks_expectTerminal (hS : S.Fair) {t : Terminal} (ht : t ≠ .symbol .forWord)
    (part : Part) : TracksTaken S m id (expectTerminal t part) (expectTerminal t part) where
  advances := advances_expectTerminal t part
  found c a d hrun _ hfloor c' hmeets _ := by
    obtain ⟨hrest, ha, hd⟩ := expectTerminal_eq_ok.mp hrun
    obtain ⟨u, k, k', hk, hk', htail⟩ | ⟨hc, -⟩ | ⟨hc, -⟩ := hmeets.cases
    · obtain ⟨rfl, rfl⟩ := List.cons.inj (hrest.symm.trans hk)
      exact ⟨a, { c' with rest := k' }, expectTerminal_eq_ok.mpr ⟨hk', ha, rfl⟩, rfl, htail, rfl⟩
    · have hlt : S.floor < S.first.length := by
        rw [← hc, hrest]
        exact Nat.lt_succ_of_le hfloor
      obtain ⟨u, l, hu, hterminal⟩ := hS.first hlt
      obtain ⟨rfl, -⟩ := List.cons.inj (hrest.symm.trans (hc.trans hu))
      exact absurd (ha.symm.trans hterminal) ht
    · rw [hc] at hrest
      cases hrest

theorem tracks_expect (hS : S.Fair) {s : Symbol} (hs : s ≠ .forWord) (part : Part) :
    TracksTaken S m id (expect s part) (expect s part) :=
  tracks_expectTerminal hS (fun h => hs (Terminal.symbol.inj h)) part

theorem tracks_expectName (hS : S.Fair) (part : Part) :
    TracksTaken S m id (expectName part) (expectName part) :=
  tracks_expectTerminal hS Terminal.noConfusion part

/-- The inputs are compared only above the floor, where the first one does not begin with the symbol at
the seam, and neither does the second one. -/
theorem tracks_sees (hS : S.Fair) {s : Symbol} (hfor : s ≠ .forWord)
    (hs : s ∉ [Symbol.leftBrace, .whileWord]) : TracksAny S.raised m id (sees s) (sees s) where
  advances := advances_sees s
  found := by
    rintro c _ _ ⟨⟩ - hfloor c' hmeets -
    refine ⟨_, c', rfl, rfl, hmeets, ?_⟩
    obtain ⟨t, k, k', hk, hk', -⟩ | ⟨hc, hc'⟩ | ⟨hc, hc'⟩ := hmeets.cases
    · simp only [Cursor.next, hk, hk', List.headD_cons]
    · rw [hc] at hfloor
      obtain ⟨t, k, hfirst, ht⟩ := hS.first hfloor
      obtain ⟨u, l, s', hsecond, hu, hs'⟩ := hS.second hfloor
      have hne : s' ≠ s := fun h => hs (h ▸ hs')
      rw [Cursor.next, Cursor.next, hc, hc']
      change ((S.second.headD _).terminal == _) = ((S.first.headD _).terminal == _)
      rw [hfirst, hsecond, List.headD_cons, List.headD_cons, ht, hu]
      simp [hne, hfor.symm]
    · rw [hc] at hfloor
      exact absurd hfloor (Nat.not_succ_le_zero _)

theorem tracks_atEnd (hfirst : S.floor ≤ S.first.length → S.first ≠ [])
    (hsecond : S.floor ≤ S.first.length → S.second ≠ []) :
    TracksAny S m id atEnd atEnd where
  advances := advances_atEnd
  found := by
    rintro c _ _ ⟨⟩ - hfloor c' hmeets -
    refine ⟨_, c', rfl, rfl, hmeets, ?_⟩
    obtain ⟨t, k, k', hk, hk', -⟩ | ⟨hc, hc'⟩ | ⟨hc, hc'⟩ := hmeets.cases
    · rw [hk, hk']
      rfl
    · rw [hc] at hfloor
      rw [hc, hc']
      simp only [id, List.isEmpty_eq_false_iff.mpr (hfirst hfloor),
        List.isEmpty_eq_false_iff.mpr (hsecond hfloor)]
    · rw [hc, hc']

structure TracksAt (S : Seam) (m : Nat) (t : Token) (T : α → Prop) (f : α → γ) (r r' : Rule α) :
    Prop where
  advances : ∀ c l, c.rest = t :: l → AdvancesFrom c T r
  found : ∀ c a d, r c = .ok a d → d.errors.length = c.errors.length → S.floor ≤ d.rest.length →
    ∀ (c' : Cursor) (l l' : List Token), c.rest = t :: l → c'.rest = t :: l' → S.Meets l l' →
      S.Meets c.rest c'.rest → c'.rest.length ≤ m →
        ∃ b d', r' c' = .ok b d' ∧ d'.errors = c'.errors ∧ S.Meets d.rest d'.rest ∧ f b = f a

theorem Tracks.at {r r' : Rule α} {t : Token} (h : Tracks S m T f r r') :
    TracksAt S m t T f r r' where
  advances c _ _ := h.advances c
  found c a d hrun hclean hfloor c' _ _ _ _ _ hmeets := h.found c a d hrun hclean hfloor c' hmeets

/-- Behind a token that is taken the input is shorter. -/
theorem tracksAt_take_bind {t : Token} {k k' : Token → Rule α}
    (hk : TracksAny S m f (k t) (k' t)) :
    TracksAt S (m + 1) t T f (take >>= k) (take >>= k') where
  advances c l hc := by
    have hnext : c.next = t := by rw [Cursor.next, hc, List.headD_cons]
    have hlt : c.rest.tail.length < c.rest.length := by simp [hc]
    constructor
    · intro a d hrun
      obtain ⟨_, _, ⟨⟩, hrest⟩ := bind_eq_ok hrun
      rw [hnext] at hrest
      obtain ⟨hlen, herrors, -⟩ := (hk.advances _).ok a d hrest
      exact ⟨hlen.trans hlt.le, herrors, fun _ _ => lt_of_le_of_lt hlen hlt⟩
    · intro e d hrun
      obtain ⟨⟨⟩⟩ | ⟨_, _, ⟨⟩, hrest⟩ := bind_eq_error hrun
      rw [hnext] at hrest
      obtain ⟨hlen, herrors⟩ := (hk.advances _).error e d hrest
      exact ⟨hlen.trans hlt.le, herrors⟩
  found c a d hrun hclean hfloor c' l l' hc hc' hmeets _ hlen := by
    have hnext : c.next = t := by rw [Cursor.next, hc, List.headD_cons]
    have hnext' : c'.next = t := by rw [Cursor.next, hc', List.headD_cons]
    obtain ⟨_, _, ⟨⟩, hrest⟩ := bind_eq_ok hrun
    rw [hnext] at hrest
    rw [hc', List.length_cons] at hlen
    obtain ⟨b, d', hrun', h⟩ := hk.found _ a d hrest hclean hfloor
      { c' with rest := c'.rest.tail } (by simpa [hc, hc'] using hmeets)
      (by simpa [hc'] using hlen)
    refine ⟨b, d', ?_, h⟩
    rw [bind_apply, take, hnext']
    exact hrun'

/-- Where the next token is looked at, both rules see the same one, unless they are at the seam or at
the ends. A rule that takes a token does not succeed there, but for the beginning of a for
statement. -/
theorem tracks_peek_bind {k k' : Token → Rule α}
    (hend : ∀ line, Advances (fun _ => True) (k (.endAt line)))
    (hnext : ∀ t, TracksAt S m t (fun _ => True) f (k t) (k' t))
    (hseam : ∀ c a d, (peek >>= k) c = .ok a d → d.errors.length = c.errors.length →
      c.rest = S.first → S.floor ≤ d.rest.length → S.floor < S.first.length →
        ∀ c' : Cursor, c'.rest = S.second → c'.rest.length ≤ m →
          ∃ b d', (peek >>= k') c' = .ok b d' ∧ d'.errors = c'.errors ∧ S.Meets d.rest d'.rest
            ∧ f b = f a) :
    TracksTaken S m f (peek >>= k) (peek >>= k') := by
  have hadvances : Advances (fun _ => True) (peek >>= k) := by
    intro c
    have hrun : (peek >>= k) c = k c.next c := rfl
    have hnext : AdvancesFrom c (fun _ => True) (k c.next) := by
      cases hc : c.rest with
      | nil =>
          rw [Cursor.next, hc, List.headD_nil]
          exact hend c.endLine c
      | cons t l =>
          rw [Cursor.next, hc, List.headD_cons]
          exact (hnext t).advances c l hc
    constructor
    · rw [hrun]
      exact hnext.ok
    · rw [hrun]
      exact hnext.error
  constructor
  · exact hadvances
  · intro c a d hrun hclean hfloor c' hmeets hlen
    have hlt := ((hadvances c).ok a d hrun).2.2 trivial hclean
    obtain ⟨t, l, l', hc, hc', htail⟩ | ⟨hc, hc'⟩ | ⟨hc, hc'⟩ := hmeets.cases
    · obtain ⟨_, _, ⟨⟩, hrun⟩ := bind_eq_ok hrun
      rw [Cursor.next, hc, List.headD_cons] at hrun
      obtain ⟨b, d', hrun', h⟩ := (hnext t).found c a d hrun hclean hfloor c' l l' hc hc' htail
        hmeets hlen
      refine ⟨b, d', ?_, h⟩
      rw [bind_apply, peek, Cursor.next, hc', List.headD_cons]
      exact hrun'
    · have hlt' : S.floor < S.first.length := by
        rw [hc] at hlt
        exact lt_of_le_of_lt hfloor hlt
      exact hseam c a d hrun hclean hc hfloor hlt' c' hc' hlen
    · rw [hc] at hlt
      exact absurd hlt (Nat.not_lt_zero _)

/-! ## Repetition -/

/-- A repetition ends where its step finds nothing, and if it has no rounds left at the end. -/
theorem collectUpTo_of_none {step : Nat → Rule (Option α)}
    (hend : ∀ k c, c.rest = [] → step k c = .ok none c) {n k : Nat} {c d : Cursor}
    (hn : c.rest.length ≤ n) (hrun : step k c = .ok none d) :
    collectUpTo step n k c = .ok [] d := by
  cases n with
  | zero =>
      have hc : c.rest = [] := List.length_eq_zero_iff.mp (Nat.le_zero.mp hn)
      rw [hend k c hc] at hrun
      cases hrun
      rfl
  | succ n =>
      rw [collectUpTo, bind_apply, hrun]
      rfl

/-- Above the floor the second input ends where the first one does. -/
theorem Seam.Meets.eq_nil {l : List Token} (h : S.Meets [] l) (hopen : S.first = [] → 0 < S.floor)
    (hfloor : S.floor ≤ 0) : l = [] := by
  obtain ⟨t, k, k', hk, -⟩ | ⟨hfirst, -⟩ | ⟨-, hl⟩ := h.cases
  · cases hk
  · exact absurd (hopen hfirst.symm) (Nat.not_lt.mpr hfloor)
  · exact hl

/-- The second rule has at least as many rounds as tokens. -/
theorem found_collectUpTo {step step' : Nat → Rule (Option α)} (hopen : S.first = [] → 0 < S.floor)
    (hstep : ∀ k, Tracks S m (fun a? => a?.isSome) (Option.map f) (step k) (step' k))
    (hend : ∀ k c, c.rest = [] → step' k c = .ok none c) (n : Nat) :
    ∀ k c as d, collectUpTo step n k c = .ok as d → d.errors.length = c.errors.length →
      S.floor ≤ d.rest.length → c.rest.length ≤ n → ∀ (c' : Cursor) (n' : Nat),
        S.Meets c.rest c'.rest → c'.rest.length ≤ m → c'.rest.length ≤ n' →
          ∃ bs d', collectUpTo step' n' k c' = .ok bs d' ∧ d'.errors = c'.errors
            ∧ S.Meets d.rest d'.rest ∧ bs.map f = as.map f := by
  induction n with
  | zero =>
      rintro k c _ _ ⟨⟩ - hfloor hlen c' n' hmeets - hn'
      have hc : c.rest = [] := List.length_eq_zero_iff.mp (Nat.le_zero.mp hlen)
      have hc' : c'.rest = [] := by
        rw [hc] at hmeets hfloor
        exact hmeets.eq_nil hopen hfloor
      exact ⟨[], c', collectUpTo_of_none hend hn' (hend k c' hc'), rfl, hmeets, rfl⟩
  | succ n ih =>
      intro k c as d hrun hclean hfloor hlen c' n' hmeets hm hn'
      rw [collectUpTo] at hrun
      obtain ⟨a?, e, hfirst, hsecond⟩ := bind_eq_ok hrun
      obtain ⟨hrest, herrors, htaken⟩ := ((hstep k).advances c).ok a? e hfirst
      cases a? with
      | none =>
          cases hsecond
          obtain ⟨b?, e', hrun', hsame, hmeets', hb⟩ := (hstep k).found c none _ hfirst hclean hfloor
            c' hmeets hm
          obtain rfl := Option.map_eq_none_iff.mp hb
          exact ⟨[], e', collectUpTo_of_none hend hn' hrun', hsame, hmeets', rfl⟩
      | some a =>
          obtain ⟨more, e₁, hmore, hdone⟩ := bind_eq_ok hsecond
          cases hdone
          have hsteps := advances_collectUpTo (fun k => (hstep k).advances.any) n (k + 1)
          obtain ⟨hrest', herrors', -⟩ := (hsteps e).ok more d hmore
          have hlt := htaken rfl (by omega)
          obtain ⟨b?, e', hrun', hsame, hmeets', hb⟩ := (hstep k).found c _ e hfirst (by omega)
            (hfloor.trans hrest') c' hmeets hm
          have hlt' := hmeets.length_lt hmeets' hlt
          obtain ⟨b, rfl, hhead⟩ := Option.map_eq_some_iff.mp hb
          cases n' with
          | zero => omega
          | succ n' =>
              obtain ⟨bs, d', hmore', hsame', hmeets'', hbs⟩ := ih (k + 1) e more d hmore (by omega)
                hfloor (by omega) e' n' hmeets' (by omega) (by omega)
              refine ⟨b :: bs, d', ?_, hsame'.trans hsame, hmeets'', ?_⟩
              · rw [collectUpTo, bind_apply, hrun']
                change (collectUpTo step' n' (k + 1) >>= _) e' = _
                rw [bind_apply, hmore']
                rfl
              · rw [List.map_cons, List.map_cons, hhead, hbs]

theorem tracks_collect {step step' : Nat → Rule (Option α)} (hopen : S.first = [] → 0 < S.floor)
    (hstep : ∀ k, Tracks S m (fun a? => a?.isSome) (Option.map f) (step k) (step' k))
    (hend : ∀ k c, c.rest = [] → step' k c = .ok none c) :
    TracksAny S m (List.map f) (collect step) (collect step') where
  advances c := by
    have h := advances_collectUpTo (fun k => (hstep k).advances.any) c.rest.length 0 c
    exact ⟨h.ok, h.error⟩
  found c as d hrun hclean hfloor c' hmeets hlen :=
    found_collectUpTo hopen hstep hend c.rest.length 0 c as d hrun hclean hfloor le_rfl c'
      c'.rest.length hmeets hlen le_rfl

theorem tracks_commaSeparated {item item' : Rule α} (tooMany : Fault) (hS : S.Fair)
    (hopen : S.first = [] → 0 < S.floor) (hcomma : S.Quiet (· == .symbol .comma))
    (hitem : TracksTaken S m f item item') :
    TracksTaken S m (List.map f) (commaSeparated tooMany item) (commaSeparated tooMany item') := by
  apply hitem.taken_bind
  intro first first' hfirst
  refine Tracks.bind_pure (tracks_collect (f := f) hopen (fun k => ?_) ?_)
    fun more more' hmore => by simp [hfirst, hmore]
  · refine Tracks.le ?_ (Nat.le_succ m)
    refine tracks_takeIf_bind hS rfl hcomma (.pure Bool.false_ne_true rfl) fun t => ?_
    have hnext : TracksAny S m (Option.map f) (do let next ← item; pure (some next))
        (do let next ← item'; pure (some next)) :=
      hitem.bind_pure fun a b hab => congrArg some hab
    dsimp only
    split
    · exact (tracks_recordNext (f := id) tooMany).any_bind fun _ _ _ => hnext
    · exact hnext
  · intro k c hc
    rw [nextItem?, bind_apply, accept, takeIf_nil hc]
    rfl

end Lox.Grammar
