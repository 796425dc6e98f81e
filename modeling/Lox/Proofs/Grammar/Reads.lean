import Lox.Proofs.Grammar.Words
import Lox.Proofs.Grammar.Yields

/-!
# What rules read

A rule that succeeds without a new error has taken a word of terminals. A statement about this word
may also speak of the result. Errors are never forgotten, so that a sequence without a new error has
only parts without one, and such statements compose along it.
-/

namespace Lox.Grammar

variable {α β : Type}

/-- The terminals that are not taken yet. -/
def Cursor.input (c : Cursor) : List Terminal :=
  c.rest.map Token.terminal

/-- The rule forgets no error, and if it succeeds without a new one, then it has taken a word that
satisfies `P` together with the result. -/
def Reads (r : Rule α) (P : α → List Terminal → Prop) : Prop :=
  ∀ c, match r c with
    | .ok a c' => c.errors.length ≤ c'.errors.length
        ∧ (c'.errors.length = c.errors.length → ∃ w, c.input = w ++ c'.input ∧ P a w)
    | .error _ c' => c.errors.length ≤ c'.errors.length

/-- As `Reads`, where the given token is the next one. -/
def ReadsAt (t : Token) (r : Rule α) (P : α → List Terminal → Prop) : Prop :=
  ∀ c, c.rest.head? = some t → match r c with
    | .ok a c' => c.errors.length ≤ c'.errors.length
        ∧ (c'.errors.length = c.errors.length → ∃ w, c.input = w ++ c'.input ∧ P a w)
    | .error _ c' => c.errors.length ≤ c'.errors.length

namespace Reads

variable {r : Rule α} {f : α → Rule β} {P P' : α → List Terminal → Prop}
  {R : β → List Terminal → Prop}

theorem pure {a : α} (h : P a []) : Reads (pure a) P :=
  fun _ => ⟨le_rfl, fun _ => ⟨[], rfl, h⟩⟩

/-- What follows may rely on what has been read only where no error is recorded. -/
theorem bind (hr : Reads r P) (hf : ∀ a u, Reads (f a) fun b v => P a u → R b (u ++ v)) :
    Reads (r >>= f) R := by
  intro c
  have h := hr c
  rw [bind_apply]
  cases hrc : r c with
  | error e c' =>
      rw [hrc] at h
      exact h
  | ok a c' =>
      rw [hrc] at h
      obtain ⟨hle, hread⟩ := h
      have hgrows := hf a [] c'
      dsimp only
      cases hfc : f a c' with
      | error e d =>
          rw [hfc] at hgrows
          exact hle.trans hgrows
      | ok b d =>
          rw [hfc] at hgrows
          refine ⟨hle.trans hgrows.1, fun hclean => ?_⟩
          obtain ⟨u, hu, hPu⟩ := hread (le_antisymm (hgrows.1.trans hclean.le) hle)
          have hv := hf a u c'
          rw [hfc] at hv
          obtain ⟨v, hv, hRv⟩ := hv.2 (le_antisymm (hclean.le.trans hle) hgrows.1)
          exact ⟨u ++ v, by rw [hu, hv, List.append_assoc], hRv hPu⟩

theorem mono (hr : Reads r P) (hP : ∀ a w, P a w → P' a w) : Reads r P' := by
  intro c
  have h := hr c
  cases hrc : r c with
  | error e c' =>
      rw [hrc] at h
      exact h
  | ok a c' =>
      rw [hrc] at h
      refine ⟨h.1, fun hclean => ?_⟩
      obtain ⟨w, hw, hPw⟩ := h.2 hclean
      exact ⟨w, hw, hP a w hPw⟩

end Reads

theorem Reads.at {t : Token} {r : Rule α} {P : α → List Terminal → Prop} (h : Reads r P) :
    ReadsAt t r P :=
  fun c _ => h c

theorem reads_fail (part : Part) {P : α → List Terminal → Prop} : Reads (fail part) P :=
  fun _ => le_rfl

theorem reads_sees (s : Symbol) : Reads (sees s) fun _ w => w = [] :=
  fun _ => ⟨le_rfl, fun _ => ⟨[], rfl, rfl⟩⟩

theorem reads_atEnd : Reads atEnd fun _ w => w = [] :=
  fun _ => ⟨le_rfl, fun _ => ⟨[], rfl, rfl⟩⟩

theorem reads_freshId : Reads freshId fun _ w => w = [] :=
  fun _ => ⟨le_rfl, fun _ => ⟨[], rfl, rfl⟩⟩

/-- A rule that records a fault does not succeed without a new error. -/
theorem reads_record (fault : Fault) (token : Token) :
    Reads (record fault token) fun _ _ => False := by
  intro c
  simp [record, Cursor.record]

theorem reads_recordNext (fault : Fault) : Reads (recordNext fault) fun _ _ => False := by
  intro c
  simp [recordNext, Cursor.record]

/-- The word of something that may be missing. -/
def IfSome (P : α → List Terminal → Prop) : Option α → List Terminal → Prop
  | none, w => w = []
  | some a, w => P a w

/-- The word of a token that may be taken. -/
abbrev TakenIf (p : Terminal → Prop) : Option Token → List Terminal → Prop :=
  IfSome fun t w => w = [t.terminal] ∧ p t.terminal

theorem reads_takeIf (p : Terminal → Bool) : Reads (takeIf p) (TakenIf fun t => p t = true) := by
  intro c
  unfold takeIf
  cases hrest : c.rest with
  | nil => exact ⟨le_rfl, fun _ => ⟨[], rfl, rfl⟩⟩
  | cons t rest =>
      by_cases hp : p t.terminal = true
      · simp only [hp, if_true]
        exact ⟨le_rfl, fun _ => ⟨[t.terminal], by simp [Cursor.input, hrest], rfl, hp⟩⟩
      · simp only [hp]
        exact ⟨le_rfl, fun _ => ⟨[], rfl, rfl⟩⟩

theorem reads_accept (s : Symbol) : Reads (accept s) (TakenIf (· = .symbol s)) :=
  (reads_takeIf _).mono fun t? w h => by
    cases t? with
    | none => exact h
    | some t => exact ⟨h.1, beq_iff_eq.mp h.2⟩

theorem reads_acceptAny (symbols : List Symbol) :
    Reads (acceptAny symbols) (TakenIf fun t => ∃ s ∈ symbols, t = .symbol s) :=
  (reads_takeIf _).mono fun t? w h => by
    cases t? with
    | none => exact h
    | some t =>
        obtain ⟨hw, ht⟩ := h
        refine ⟨hw, ?_⟩
        split at ht
        · next s hs => exact ⟨s, by simpa using ht, hs⟩
        · cases ht

theorem reads_expectTerminal (terminal : Terminal) (part : Part) :
    Reads (expectTerminal terminal part) fun _ w => w = [terminal] := by
  unfold expectTerminal
  refine (reads_takeIf _).bind fun t? u => ?_
  cases t? with
  | none => exact reads_fail part
  | some t =>
      refine .pure fun h => ?_
      obtain ⟨rfl, ht⟩ := h
      rw [beq_iff_eq.mp ht, List.append_nil]

theorem reads_expect (s : Symbol) (part : Part) :
    Reads (expect s part) fun _ w => w = [.symbol s] :=
  reads_expectTerminal _ part

theorem reads_expectName (part : Part) : Reads (expectName part) fun _ w => w = [.identifier] :=
  reads_expectTerminal _ part

theorem reads_peek_bind {f : Token → Rule α} {P : α → List Terminal → Prop}
    (hend : ∀ line, Reads (f (.endAt line)) P) (hnext : ∀ t, ReadsAt t (f t) P) :
    Reads (peek >>= f) P := by
  intro c
  rw [bind_apply]
  change match f c.next c with
    | .ok a c' => _
    | .error _ c' => _
  cases hrest : c.rest with
  | nil =>
      have hend := hend c.endLine c
      rwa [show c.next = .endAt c.endLine by simp [Cursor.next, hrest]]
  | cons t rest =>
      have hnext := hnext t c (by simp [hrest])
      rwa [show c.next = t by simp [Cursor.next, hrest]]

/-- Taking the next token puts its terminal in front of what is read after it. -/
theorem readsAt_take_bind {t : Token} {f : Token → Rule α} {P : α → List Terminal → Prop}
    (hf : ∀ t', Reads (f t') fun a w => P a (t.terminal :: w)) : ReadsAt t (take >>= f) P := by
  intro c ht
  obtain ⟨rest, hrest⟩ : ∃ rest, c.rest = t :: rest := by
    cases hrest : c.rest with
    | nil => simp [hrest] at ht
    | cons u rest => exact ⟨rest, by simp_all⟩
  have h := hf c.next { c with rest := rest }
  rw [bind_apply]
  simp only [take, hrest, List.tail_cons]
  cases hfc : f c.next { c with rest := rest } with
  | error e d =>
      rw [hfc] at h
      exact h
  | ok a d =>
      rw [hfc] at h
      refine ⟨h.1, fun hclean => ?_⟩
      obtain ⟨w, hw, hP⟩ := h.2 hclean
      refine ⟨t.terminal :: w, ?_, hP⟩
      simpa [Cursor.input, hrest] using hw

theorem readsAt_symbol_bind {t : Token} {s : Symbol} (hkind : t.kind = .symbol s)
    {f : Token → Rule α} {P : α → List Terminal → Prop}
    (hf : ∀ t', Reads (f t') fun a w => P a (.symbol s :: w)) : ReadsAt t (take >>= f) P := by
  have hterminal : t.terminal = .symbol s := congrArg Token.Kind.terminal hkind
  rw [← hterminal] at hf
  exact readsAt_take_bind hf

/-- The word consists of one word for each result, in order. The results are counted. -/
def Rounds (P : Nat → α → List Terminal → Prop) : Nat → List α → List Terminal → Prop
  | _, [], w => w = []
  | k, a :: as, w => ∃ u v, w = u ++ v ∧ P k a u ∧ Rounds P (k + 1) as v

theorem reads_collectUpTo {step : Nat → Rule (Option α)} {P : Nat → α → List Terminal → Prop}
    (hstep : ∀ k, Reads (step k) (IfSome (P k))) (rounds : Nat) :
    ∀ k, Reads (collectUpTo step rounds k) (Rounds P k) := by
  induction rounds with
  | zero =>
      intro k
      exact .pure rfl
  | succ rounds ih =>
      intro k
      refine (hstep k).bind fun a? u => ?_
      cases a? with
      | none =>
          refine .pure fun hu => ?_
          rw [hu]
          rfl
      | some a =>
          refine (ih (k + 1)).bind fun as v => ?_
          refine .pure fun has ha => ?_
          rw [List.append_nil]
          exact ⟨u, v, rfl, ha, has⟩

theorem reads_collect {step : Nat → Rule (Option α)} {P : Nat → α → List Terminal → Prop}
    (hstep : ∀ k, Reads (step k) (IfSome (P k))) : Reads (collect step) (Rounds P 0) :=
  fun c => reads_collectUpTo hstep c.rest.length 0 c

theorem Rounds.exists_words {P : Nat → α → List Terminal → Prop} {as : List α} :
    ∀ {k : Nat} {w : List Terminal}, Rounds P k as w → ∃ ws : List (List Terminal),
      w = ws.flatten ∧ ws.length = as.length ∧ ∀ v ∈ ws, ∃ i a, P i a v := by
  induction as with
  | nil =>
      rintro k w rfl
      exact ⟨[], rfl, rfl, by simp⟩
  | cons a as ih =>
      rintro k w ⟨u, v, rfl, ha, has⟩
      obtain ⟨ws, rfl, hlen, hws⟩ := ih has
      refine ⟨u :: ws, rfl, by simp [hlen], fun v hv => ?_⟩
      rcases List.mem_cons.mp hv with rfl | hv
      · exact ⟨k, a, ha⟩
      · exact hws v hv

/-- Rounds that each need a count below a bound are no more than the bound. -/
theorem Rounds.length_le {P : Nat → α → List Terminal → Prop} {bound : Nat}
    (hP : ∀ k a u, P k a u → k < bound) {as : List α} :
    ∀ {k : Nat} {w : List Terminal}, k ≤ bound → Rounds P k as w → k + as.length ≤ bound := by
  induction as with
  | nil =>
      intro k w hk _
      exact hk
  | cons a as ih =>
      rintro k w - ⟨u, v, -, ha, has⟩
      have hrest := ih (hP k a u ha) has
      rw [List.length_cons]
      omega

theorem reads_commaSeparated {item : Rule α} (tooMany : Fault) {P : List Terminal → Prop}
    (hitem : Reads item fun _ w => P w) :
    Reads (commaSeparated tooMany item) fun _ w => Listed P w := by
  unfold commaSeparated nextItem?
  refine hitem.bind fun first u => ?_
  refine (reads_collect (P := fun k _ v =>
    k < maxArity - 1 ∧ ∃ v', v = .symbol .comma :: v' ∧ P v') fun k => ?_).bind fun more v => ?_
  · refine (reads_accept .comma).bind fun comma? w => ?_
    cases comma? with
    | none =>
        refine .pure fun hw => ?_
        rw [List.append_nil]
        exact hw
    | some comma =>
        have hnext : Reads (do let next ← item; pure (some next)) fun a? v =>
            ∃ a, a? = some a ∧ P v :=
          hitem.bind fun next v => .pure fun hv => ⟨next, rfl, by rwa [List.append_nil]⟩
        dsimp only
        split
        · refine (reads_recordNext tooMany).bind fun _ v => ?_
          exact hnext.mono fun _ _ _ hfalse => hfalse.elim
        · next hcount =>
          refine hnext.mono fun a? v hv hcomma => ?_
          obtain ⟨a, rfl, hv⟩ := hv
          obtain ⟨rfl, hterminal⟩ := hcomma
          exact ⟨by omega, v, by rw [hterminal]; rfl, hv⟩
  · refine .pure fun hmore hfirst => ?_
    obtain ⟨ws, rfl, hlen, hws⟩ := hmore.exists_words
    have hbound := Rounds.length_le (fun _ _ _ h => h.1) (Nat.zero_le _) hmore
    refine ⟨u, ws, by rw [List.append_nil], hfirst, by omega, fun v hv => ?_⟩
    obtain ⟨i, a, -, hv⟩ := hws v hv
    exact hv

end Lox.Grammar
