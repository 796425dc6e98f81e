import Lox.Grammar.Rule
import Lox.Proofs.Grammar.Yields

/-!
# Inputs with more tokens behind them

A rule that leaves a token of its input has not seen what stands behind the input, and does the same
when more tokens stand there. Results after which a rule never looks at a further token are as
independent of what follows, even if they leave nothing. Since a longer input is also parsed with
larger bounds, the tokens that a rule takes are counted along.
-/

namespace Lox.Grammar

variable {α β : Type}

/-- What stands behind an input: more tokens, and the line on which these end. -/
structure Tail where
  tokens : List Token
  endLine : Nat

/-- The cursor on the input with more tokens behind it. -/
def Cursor.extend (c : Cursor) (τ : Tail) : Cursor :=
  { c with rest := c.rest ++ τ.tokens, endLine := τ.endLine }

/-- The first result, of a parse from `c`, has taken tokens of the input, at least one if it is in
`T`. If it leaves a token or is in `F`, then the second one is the same with more tokens behind. -/
def Follows (τ : Tail) (T F : α → Prop) (c : Cursor) (r r' : EStateM.Result Error Cursor α) :
    Prop :=
  match r with
  | .ok a c' => c'.rest.length ≤ c.rest.length ∧ (T a → c'.rest.length < c.rest.length)
      ∧ (c'.rest ≠ [] ∨ F a → r' = .ok a (c'.extend τ))
  | .error e c' => c'.rest.length ≤ c.rest.length
      ∧ (c'.rest ≠ [] → r' = .error e (c'.extend τ))

/-- On every input of at most `n` tokens the first rule takes tokens, at least one for a result in
`T`; with more tokens behind the input, the second rule does the same, if that leaves a token of the
input or the result is in `F`. -/
def Extends (τ : Tail) (n : Nat) (T F : α → Prop) (r r' : Rule α) : Prop :=
  ∀ c, c.rest.length ≤ n → Follows τ T F c (r c) (r' (c.extend τ))

/-- The rule may have looked at the token behind what it took. -/
abbrev Open (τ : Tail) (n : Nat) (r r' : Rule α) : Prop :=
  Extends τ n (fun _ => False) (fun _ => False) r r'

/-- The rule takes a token and never looks at the token behind what it took. -/
abbrev Closed (τ : Tail) (n : Nat) (r r' : Rule α) : Prop :=
  Extends τ n (fun _ => True) (fun _ => True) r r'

/-- As `Extends`, where the given token is the next one. -/
def ExtendsAt (τ : Tail) (n : Nat) (t : Token) (T F : α → Prop) (r r' : Rule α) : Prop :=
  ∀ c, c.rest.length ≤ n → c.rest.head? = some t → Follows τ T F c (r c) (r' (c.extend τ))

variable {τ : Tail} {n : Nat} {T F T' F' : α → Prop}

theorem Cursor.next_extend {c : Cursor} (h : c.rest ≠ []) : (c.extend τ).next = c.next := by
  obtain ⟨t, rest, hrest⟩ := List.exists_cons_of_ne_nil h
  simp [Cursor.next, Cursor.extend, hrest]

namespace Follows

variable {c : Cursor} {x x' : EStateM.Result Error Cursor α}

theorem mono (h : Follows τ T F c x x') (hT : ∀ a, T' a → T a) (hF : ∀ a, F' a → F a) :
    Follows τ T' F' c x x' := by
  cases x with
  | error e c' => exact h
  | ok a c' => exact ⟨h.1, fun ha => h.2.1 (hT a ha), fun ha => h.2.2 (ha.imp_right (hF a))⟩

theorem taken (h : Follows τ T F c x x')
    (hlt : ∀ a c', x = .ok a c' → c'.rest.length < c.rest.length) :
    Follows τ (fun _ => True) F c x x' := by
  cases x with
  | error e c' => exact h
  | ok a c' => exact ⟨h.1, fun _ => hlt a c' rfl, h.2.2⟩

/-- Every result of what is done behind a taken token has taken that token. -/
theorem behind {d : Cursor} (h : Follows τ T' F d x x') (hlt : d.rest.length < c.rest.length) :
    Follows τ T F c x x' := by
  cases x with
  | error e c' => exact ⟨h.1.trans hlt.le, h.2⟩
  | ok a c' => exact ⟨h.1.trans hlt.le, fun _ => lt_of_le_of_lt h.1 hlt, h.2.2⟩

/-- Without tokens in the input, only results in `F` have to be the same. -/
theorem at_end {y' : EStateM.Result Error Cursor α} (h : Follows τ T F c x x')
    (hc : c.rest = []) (hy : ∀ a c', x = .ok a c' → F a → y' = x') : Follows τ T F c x y' := by
  have hnil {c' : Cursor} (hle : c'.rest.length ≤ c.rest.length) : c'.rest = [] := by
    rw [hc, List.length_nil] at hle
    exact List.length_eq_zero_iff.mp (by omega)
  cases x with
  | error e c' => exact ⟨h.1, fun hne => absurd (hnil h.1) hne⟩
  | ok a c' =>
      refine ⟨h.1, h.2.1, fun ha => ?_⟩
      rw [hy a c' rfl (ha.resolve_left (not_not.mpr (hnil h.1)))]
      exact h.2.2 ha

/-- One rule after the other. A result of the whole that is in `G` follows one in `F` or takes a
token itself, so that in both cases the first rule did not see what stands behind. -/
theorem bind {r r' : Rule α} {f f' : α → Rule β} {U : α → β → Prop} {V G : β → Prop}
    (hr : Follows τ T F c (r c) (r' (c.extend τ)))
    (hf : ∀ a c', r c = .ok a c' → c'.rest.length ≤ c.rest.length →
      (T a → c'.rest.length < c.rest.length) →
      Follows τ (U a) G c' (f a c') (f' a (c'.extend τ)))
    (hV : ∀ a b, V b → T a ∨ U a b) (hG : ∀ a b, G b → F a ∨ U a b) :
    Follows τ V G c ((r >>= f) c) ((r' >>= f') (c.extend τ)) := by
  rw [bind_apply, bind_apply]
  cases hrc : r c with
  | error e c' =>
      rw [hrc] at hr
      obtain ⟨hle, hsame⟩ := hr
      refine ⟨hle, fun hne => ?_⟩
      rw [hsame hne]
  | ok a c' =>
      rw [hrc] at hr
      obtain ⟨hle, hlt, hsame⟩ := hr
      have hf := hf a c' hrc hle hlt
      dsimp only
      cases hfc : f a c' with
      | error e d =>
          rw [hfc] at hf
          obtain ⟨hle', hsame'⟩ := hf
          refine ⟨hle'.trans hle, fun hne => ?_⟩
          have hne' : c'.rest ≠ [] := by
            rw [← List.length_pos_iff] at hne ⊢
            omega
          rw [hsame (.inl hne')]
          exact hsame' hne
      | ok b d =>
          rw [hfc] at hf
          obtain ⟨hle', hlt', hsame'⟩ := hf
          refine ⟨hle'.trans hle, fun hb => ?_, fun hb => ?_⟩
          · rcases hV a b hb with ha | hb
            · exact lt_of_le_of_lt hle' (hlt ha)
            · exact lt_of_lt_of_le (hlt' hb) hle
          · have ha : c'.rest ≠ [] ∨ F a := by
              rw [← List.length_pos_iff]
              rcases hb with hne | hb
              · rw [← List.length_pos_iff] at hne
                exact .inl (by omega)
              · rcases hG a b hb with ha | hb
                · exact .inr ha
                · have := hlt' hb
                  exact .inl (by omega)
            rw [hsame ha]
            exact hsame' hb

end Follows

namespace Extends

variable {r r' : Rule α} {f f' : α → Rule β}

theorem mono (h : Extends τ n T F r r') (hT : ∀ a, T' a → T a) (hF : ∀ a, F' a → F a) :
    Extends τ n T' F' r r' :=
  fun c hc => (h c hc).mono hT hF

theorem le {m : Nat} (h : Extends τ n T F r r') (hle : m ≤ n) : Extends τ m T F r r' :=
  fun c hc => h c (hc.trans hle)

theorem opened (h : Extends τ n T F r r') : Open τ n r r' :=
  h.mono (fun _ => False.elim) fun _ => False.elim

theorem «at» {t : Token} (h : Extends τ n T F r r') : ExtendsAt τ n t T F r r' :=
  fun c hc _ => h c hc

theorem pure {a : α} (h : ¬ T a) : Extends τ n T F (pure a) (pure a) :=
  fun _ _ => ⟨le_rfl, fun ha => absurd ha h, fun _ => rfl⟩

theorem bind {U : α → β → Prop} {V G : β → Prop} (hr : Extends τ n T F r r')
    (hf : ∀ a, Extends τ n (U a) G (f a) (f' a)) (hV : ∀ a b, V b → T a ∨ U a b)
    (hG : ∀ a b, G b → F a ∨ U a b) : Extends τ n V G (r >>= f) (r' >>= f') :=
  fun c hc => (hr c hc).bind (fun a c' _ hle _ => hf a c' (hle.trans hc)) hV hG

/-- Nothing is asked of what may have looked ahead. -/
theorem bind_open (hr : Extends τ n T F r r') (hf : ∀ a, Open τ n (f a) (f' a)) :
    Open τ n (r >>= f) (r' >>= f') :=
  hr.bind hf (fun _ _ => False.elim) fun _ _ => False.elim

theorem bind_closed (hr : Extends τ n T F r r') (hf : ∀ a, Closed τ n (f a) (f' a)) :
    Closed τ n (r >>= f) (r' >>= f') :=
  hr.bind hf (fun _ _ => .inr) fun _ _ => .inr

theorem closed_bind {U : α → β → Prop} (hr : Closed τ n r r')
    (hf : ∀ a, Extends τ n (U a) (fun _ => True) (f a) (f' a)) :
    Closed τ n (r >>= f) (r' >>= f') :=
  hr.bind hf (fun _ _ => .inl) fun _ _ => .inl

theorem closed_pure {g : α → β} (hr : Closed τ n r r') :
    Closed τ n (do let a ← r; Pure.pure (g a)) (do let a ← r'; Pure.pure (g a)) :=
  hr.closed_bind (U := fun _ _ => False) fun _ => .pure id

theorem open_pure {g : α → β} (hr : Extends τ n T F r r') :
    Open τ n (do let a ← r; Pure.pure (g a)) (do let a ← r'; Pure.pure (g a)) :=
  hr.bind_open fun _ => .pure id

end Extends

/-- A round that yields nothing has nothing to take. -/
theorem extends_none {F : Option α → Prop} :
    Extends τ n (fun a? => a?.isSome) F (pure none) (pure none) :=
  .pure Bool.false_ne_true

/-! ## Tokens -/

theorem extends_fail (part : Part) : Extends τ n T F (fail part) (fail part) := by
  intro c _
  refine ⟨le_rfl, fun hne => ?_⟩
  rw [fail, Cursor.next_extend hne]

theorem open_sees (s : Symbol) : Open τ n (sees s) (sees s) := by
  intro c _
  refine ⟨le_rfl, False.elim, fun hne => ?_⟩
  rw [sees, Cursor.next_extend (hne.resolve_right id)]

theorem extends_freshId {F : NodeId → Prop} :
    Extends τ n (fun _ => False) F freshId freshId :=
  fun _ _ => ⟨le_rfl, False.elim, fun _ => rfl⟩

theorem extends_record (fault : Fault) (token : Token) {F : Unit → Prop} :
    Extends τ n (fun _ => False) F (record fault token) (record fault token) :=
  fun _ _ => ⟨le_rfl, False.elim, fun _ => rfl⟩

theorem open_recordNext (fault : Fault) : Open τ n (recordNext fault) (recordNext fault) := by
  intro c _
  refine ⟨le_rfl, False.elim, fun hne => ?_⟩
  have hnext : (c.extend τ).next = c.next := Cursor.next_extend (hne.resolve_right id)
  simp only [recordNext, hnext]
  rfl

theorem open_takeIf {p : Terminal → Bool} : Open τ n (takeIf p) (takeIf p) := by
  intro c _
  cases hrest : c.rest with
  | nil =>
      simp only [takeIf, hrest]
      exact ⟨le_rfl, False.elim, fun hne => absurd hrest (hne.resolve_right id)⟩
  | cons t rest =>
      simp only [takeIf, Cursor.extend, hrest, List.cons_append]
      split
      · exact ⟨by simp [hrest], False.elim, fun _ => rfl⟩
      · exact ⟨le_rfl, False.elim, fun _ => by simp [Cursor.extend, hrest]⟩

/-- What follows a token that was taken sees an input that is shorter by it. Where none was taken,
the next token behind the input must not be such a token either. -/
theorem extends_takeIf_bind {p : Terminal → Bool} {f f' : Option Token → Rule α}
    (hnone : Extends τ (n + 1) T F (f none) (f' none))
    (hsome : ∀ t, Extends τ n (fun _ => False) F (f (some t)) (f' (some t)))
    (hF : ∀ a, F a → ∀ t, τ.tokens.head? = some t → p t.terminal = false) :
    Extends τ (n + 1) T F (takeIf p >>= f) (takeIf p >>= f') := by
  intro c hc
  have hnone := hnone c hc
  rw [bind_apply, bind_apply]
  cases hrest : c.rest with
  | nil =>
      have htake : takeIf p c = .ok none c := by simp only [takeIf, hrest]
      rw [htake]
      refine hnone.at_end hrest fun a _ _ ha => ?_
      have hbehind : takeIf p (c.extend τ) = .ok none (c.extend τ) := by
        simp only [takeIf, Cursor.extend, hrest, List.nil_append]
        cases htail : τ.tokens with
        | nil => rfl
        | cons t rest => simp only [hF a ha t (by simp [htail]), Bool.false_eq_true, if_false]
      rw [hbehind]
  | cons t rest =>
      by_cases hp : p t.terminal = true
      · have hlen : rest.length < c.rest.length := by simp [hrest]
        have hsome := hsome t { c with rest := rest } (by simpa [hrest] using hc)
        simp only [takeIf, hrest, Cursor.extend, List.cons_append, if_pos hp]
        exact hsome.behind hlen
      · simp only [takeIf, hrest, Cursor.extend, List.cons_append, if_neg hp]
        simpa only [Cursor.extend, hrest, List.cons_append] using hnone

theorem open_takeIf_bind {p : Terminal → Bool} {f f' : Option Token → Rule α}
    (hnone : Extends τ (n + 1) T (fun _ => False) (f none) (f' none))
    (hsome : ∀ t, Open τ n (f (some t)) (f' (some t))) :
    Extends τ (n + 1) T (fun _ => False) (takeIf p >>= f) (takeIf p >>= f') :=
  extends_takeIf_bind hnone hsome fun _ => False.elim

theorem closed_expectTerminal (t : Terminal) (part : Part) :
    Closed τ n (expectTerminal t part) (expectTerminal t part) := by
  intro c _
  unfold expectTerminal
  rw [bind_apply, bind_apply]
  cases hrest : c.rest with
  | nil =>
      simp only [takeIf, hrest, fail]
      exact ⟨le_rfl, fun hne => absurd hrest hne⟩
  | cons u rest =>
      have hnext : (c.extend τ).next = c.next := Cursor.next_extend (by simp [hrest])
      by_cases hu : (u.terminal == t) = true
      · simp only [takeIf, hrest, Cursor.extend, List.cons_append, if_pos hu]
        exact ⟨by simp [hrest], fun _ => by simp [hrest], fun _ => rfl⟩
      · simp only [takeIf, hrest, Cursor.extend, List.cons_append, if_neg hu, fail]
        simp only [Cursor.extend, hrest, List.cons_append] at hnext
        exact ⟨le_rfl, fun _ => by simp [hnext, hrest, Cursor.extend]⟩

theorem closed_expect (s : Symbol) (part : Part) : Closed τ n (expect s part) (expect s part) :=
  closed_expectTerminal _ part

theorem closed_expectName (part : Part) : Closed τ n (expectName part) (expectName part) :=
  closed_expectTerminal _ part

theorem extends_peek_bind {f f' : Token → Rule α}
    (hend : ∀ line, Extends τ n T F (f (.endAt line)) (f' (.endAt line)))
    (hF : ∀ a, F a → T a) (hnext : ∀ t, ExtendsAt τ n t T F (f t) (f' t)) :
    Extends τ n T F (peek >>= f) (peek >>= f') := by
  intro c hc
  rw [bind_apply, bind_apply]
  cases hrest : c.rest with
  | nil =>
      have hend := hend c.endLine c hc
      have hpeek : peek c = .ok (.endAt c.endLine) c := by simp [peek, Cursor.next, hrest]
      rw [hpeek]
      refine hend.at_end hrest fun a c' hok ha => ?_
      have hlt : c'.rest.length < c.rest.length := by
        rw [show f (.endAt c.endLine) c = .ok a c' from hok] at hend
        exact hend.2.1 (hF a ha)
      simp [hrest] at hlt
  | cons t rest =>
      have hnext := hnext t c hc (by simp [hrest])
      have hpeek : peek c = .ok t c := by simp [peek, Cursor.next, hrest]
      have hpeek' : peek (c.extend τ) = .ok t (c.extend τ) := by
        simp [peek, Cursor.next, Cursor.extend, hrest]
      rw [hpeek, hpeek']
      exact hnext

theorem extendsAt_take_bind {t : Token} {f f' : Token → Rule α}
    (hf : ∀ t, Extends τ n T' F (f t) (f' t)) :
    ExtendsAt τ (n + 1) t T F (take >>= f) (take >>= f') := by
  intro c hc ht
  obtain ⟨rest, hrest⟩ : ∃ rest, c.rest = t :: rest := by
    cases hrest : c.rest with
    | nil => simp [hrest] at ht
    | cons u rest => exact ⟨rest, by simp_all⟩
  have hlen : rest.length < c.rest.length := by simp [hrest]
  have hnext : c.next = t := by simp [Cursor.next, hrest]
  have hf := hf t { c with rest := rest } (by simpa [hrest] using hc)
  rw [bind_apply, bind_apply]
  have htake : take c = .ok t { c with rest := rest } := by simp [take, hnext, hrest]
  have htake' : take (c.extend τ) = .ok t (({ c with rest := rest } : Cursor).extend τ) := by
    rw [take, Cursor.next_extend (by simp [hrest]), hnext]
    simp [Cursor.extend, hrest]
  rw [htake, htake']
  exact hf.behind hlen

/-! ## Repetition -/

theorem follows_collectUpTo {step step' : Nat → Rule (Option α)}
    (hstep : ∀ k, Extends τ n (fun a? => a?.isSome) (fun _ => False) (step k) (step' k))
    (rounds : Nat) : ∀ (rounds' k : Nat) (c : Cursor), c.rest.length ≤ n →
      c.rest.length ≤ rounds → (c.extend τ).rest.length ≤ rounds' →
      Follows τ (fun _ => False) (fun _ => False) c (collectUpTo step rounds k c)
        (collectUpTo step' rounds' k (c.extend τ)) := by
  induction rounds with
  | zero =>
      intro rounds' k c hn hc _
      have hnil : c.rest = [] := List.length_eq_zero_iff.mp (by omega)
      exact ⟨le_rfl, False.elim, fun h => absurd hnil (h.resolve_right id)⟩
  | succ rounds ih =>
      have hround (rounds' k : Nat) (c : Cursor) (hn : c.rest.length ≤ n)
          (hc : c.rest.length ≤ rounds + 1) (hc' : (c.extend τ).rest.length ≤ rounds' + 1) :
          Follows τ (fun _ => False) (fun _ => False) c (collectUpTo step (rounds + 1) k c)
            (collectUpTo step' (rounds' + 1) k (c.extend τ)) := by
        refine Follows.bind (hstep k c hn) (fun a? d _ hle hlt => ?_)
          (U := fun _ _ => False) (fun _ _ => False.elim) fun _ _ => False.elim
        cases a? with
        | none => exact ⟨le_rfl, False.elim, fun _ => rfl⟩
        | some a =>
            have hlt := hlt rfl
            have hd' : (d.extend τ).rest.length ≤ rounds' := by
              simp only [Cursor.extend, List.length_append] at hc' ⊢
              omega
            exact (ih rounds' (k + 1) d (by omega) (by omega) hd').bind
              (U := fun _ _ => False) (fun more e _ _ _ => ⟨le_rfl, False.elim, fun _ => rfl⟩)
              (fun _ _ => False.elim) fun _ _ => False.elim
      intro rounds' k c hn hc hc'
      cases rounds' with
      | zero =>
          have hnil : c.rest = [] := by
            simp only [Cursor.extend, List.length_append] at hc'
            exact List.length_eq_zero_iff.mp (by omega)
          exact (hround 0 k c hn hc (by omega)).at_end hnil fun _ _ _ => False.elim
      | succ rounds' => exact hround rounds' k c hn hc hc'

/-- A repetition whose rounds each take a token goes on as long as before. -/
theorem open_collect {step step' : Nat → Rule (Option α)}
    (hstep : ∀ k, Extends τ n (fun a? => a?.isSome) (fun _ => False) (step k) (step' k)) :
    Open τ n (collect step) (collect step') :=
  fun c hc => follows_collectUpTo hstep _ _ 0 c hc le_rfl le_rfl

theorem open_commaSeparated {item item' : Rule α} (tooMany : Fault) (hitem : Open τ n item item') :
    Open τ n (commaSeparated tooMany item) (commaSeparated tooMany item') := by
  have hnext : Open τ n (do let next ← item; pure (some next))
      (do let next ← item'; pure (some next)) := hitem.open_pure
  unfold commaSeparated nextItem?
  refine hitem.bind_open fun first => (open_collect fun count => ?_).open_pure
  refine Extends.le (open_takeIf_bind ?_ fun comma => ?_) (Nat.le_succ n)
  · exact extends_none
  · dsimp only
    split
    · exact (open_recordNext tooMany).bind_open fun _ => hnext
    · exact hnext

end Lox.Grammar
