import Lox.Proofs.Grammar.Programs

/-!
# Rules that keep the order of tokens

A rule takes tokens one after another from its input, and records each error at one of them or at
the token that is next when it ends. The errors so come in the order of the tokens, with one
exception: that the target of an assignment is invalid is recorded at the equals sign, but behind
what is recorded in the value. Statements about the result of a rule may speak of the tokens that it
has taken, and compose along its sequence.
-/

namespace Lox

/-- The tokens are one, or the first one stands before the second one. -/
def Before (tokens : List Token) (s t : Token) : Prop :=
  s = t ∨ [s, t].Sublist tokens

variable {tokens more : List Token} {s t : Token}

theorem Before.mono (h : Before tokens s t) (hsub : tokens.Sublist more) : Before more s t :=
  h.imp_right fun hst => hst.trans hsub

theorem before_append (hs : s ∈ tokens) (ht : t ∈ more) : Before (tokens ++ more) s t :=
  .inr ((List.singleton_sublist.mpr hs).append (List.singleton_sublist.mpr ht))

namespace Grammar

variable {α β : Type}

/-- Faults that are recorded inside of expressions. -/
def Fault.IsInner (fault : Fault) : Prop :=
  fault = .invalidTarget ∨ fault = .tooManyArguments

/-- The second error is an assignment to an invalid target, and the first one was recorded behind
its equals sign, with no semicolon in between. -/
def RecordedLate (tokens : List Token) (e f : Error) : Prop :=
  f.fault = .invalidTarget ∧ e.fault.IsInner ∧ ∃ between,
    (f.token :: between ++ [e.token]) <:+: tokens ∧ ∀ t ∈ between, t.terminal ≠ .symbol .semicolon

/-- The errors are in the order of the tokens, or the second one is recorded late. -/
def Precedes (tokens : List Token) (e f : Error) : Prop :=
  Before tokens e.token f.token ∨ RecordedLate tokens e f

theorem Precedes.mono {e f : Error} (h : Precedes tokens e f) (hsub : tokens <:+: more) :
    Precedes more e f := by
  rcases h with h | ⟨hf, he, between, hbetween, hno⟩
  · exact .inl (h.mono hsub.sublist)
  · exact .inr ⟨hf, he, between, hbetween.trans hsub, hno⟩

/-- What the tokens that a rule takes and the faults that it records are like. -/
structure Manner where
  takes : Token → Prop
  records : Fault → Prop

def Manner.inner : Manner :=
  ⟨fun t => t.terminal ≠ .symbol .semicolon, Fault.IsInner⟩

def Manner.any : Manner :=
  ⟨fun _ => True, fun _ => True⟩

variable {M : Manner} {c c' d : Cursor} {u v taken rest : List Token} {es fs : List Error}

theorem Cursor.next_eq (hrest : c.rest = t :: rest) : c.next = t := by
  rw [Cursor.next, hrest]
  rfl

/-- From the first cursor to the second one these tokens are taken and these errors recorded. -/
structure Passes (M : Manner) (c d : Cursor) (taken : List Token) (es : List Error) : Prop where
  rest : c.rest = taken ++ d.rest
  endLine : d.endLine = c.endLine
  errors : d.errors = c.errors ++ es
  takes : ∀ t ∈ taken, M.takes t
  records : ∀ e ∈ es, M.records e.fault
  within : ∀ e ∈ es, e.token ∈ taken ++ [d.next]
  pairwise : es.Pairwise (Precedes (taken ++ [d.next]))

namespace Passes

/-- Nothing is recorded. -/
theorem silent (hrest : c.rest = taken ++ d.rest) (hend : d.endLine = c.endLine)
    (herrors : d.errors = c.errors) (htakes : ∀ t ∈ taken, M.takes t) : Passes M c d taken [] where
  rest := hrest
  endLine := hend
  errors := by rw [herrors, List.append_nil]
  takes := htakes
  records := List.forall_mem_nil _
  within := List.forall_mem_nil _
  pairwise := .nil

theorem refl (c : Cursor) : Passes M c c [] [] :=
  silent rfl rfl rfl (List.forall_mem_nil _)

theorem take (hrest : c.rest = t :: rest) (ht : M.takes t) :
    Passes M c { c with rest := rest } [t] [] :=
  silent hrest rfl rfl (by simpa using ht)

theorem record {e : Error} (htoken : e.token = c.next) (he : M.records e.fault) :
    Passes M c (c.record e) [] [e] where
  rest := rfl
  endLine := rfl
  errors := rfl
  takes := List.forall_mem_nil _
  records := by simpa using he
  within := by simp [htoken, Cursor.record, Cursor.next]
  pairwise := List.pairwise_singleton _ _

/-- The token that is next at the beginning is the first one that is taken, or still next. -/
theorem eq_next_cons (h : Passes M c d taken es) : ∃ w, taken ++ [d.next] = c.next :: w := by
  have hrest := h.rest
  cases taken with
  | nil =>
      have hnext : d.next = c.next := by
        rw [Cursor.next, Cursor.next, hrest, h.endLine]
        rfl
      exact ⟨[], by rw [hnext]; rfl⟩
  | cons t taken => exact ⟨taken ++ [d.next], by rw [Cursor.next_eq hrest]; rfl⟩

theorem trans {e : Cursor} (h : Passes M c d u es) (h' : Passes M d e v fs) :
    Passes M c e (u ++ v) (es ++ fs) := by
  obtain ⟨w, hw⟩ := h'.eq_next_cons
  have hfirst : (u ++ [d.next]) <:+: (u ++ v ++ [e.next]) := by
    rw [List.append_assoc, hw]
    exact ⟨[], w, by simp⟩
  have hsecond : (v ++ [e.next]) <:+: (u ++ v ++ [e.next]) := by
    rw [List.append_assoc]
    exact (List.suffix_append u _).isInfix
  refine ⟨?_, h'.endLine.trans h.endLine, ?_, ?_, ?_, ?_, ?_⟩
  · rw [h.rest, h'.rest, List.append_assoc]
  · rw [h'.errors, h.errors, List.append_assoc]
  · exact List.forall_mem_append.mpr ⟨h.takes, h'.takes⟩
  · exact List.forall_mem_append.mpr ⟨h.records, h'.records⟩
  · refine List.forall_mem_append.mpr ⟨fun x hx => ?_, fun y hy => ?_⟩
    · exact hfirst.subset (h.within x hx)
    · exact hsecond.subset (h'.within y hy)
  · refine List.pairwise_append.mpr ⟨?_, ?_, fun x hx y hy => .inl ?_⟩
    · exact h.pairwise.imp fun hxy => hxy.mono hfirst
    · exact h'.pairwise.imp fun hxy => hxy.mono hsecond
    · have hxmem := h.within x hx
      have hymem := h'.within y hy
      rw [List.append_assoc]
      rcases List.mem_append.mp hxmem with hxmem | hxmem
      · exact before_append hxmem hymem
      · rw [List.mem_singleton.mp hxmem]
        rw [hw] at hymem ⊢
        rcases List.mem_cons.mp hymem with hymem | hymem
        · exact .inl hymem.symm
        · refine Before.mono (before_append (List.mem_singleton_self d.next) hymem) ?_
          exact List.sublist_append_right u _

/-- Behind an equals sign and the value that follows it, an invalid target may be recorded. -/
theorem record_late (h : Passes .inner c d u es) (ht : Manner.inner.takes t) :
    Passes .inner { c with rest := t :: c.rest } (d.record ⟨.invalidTarget, t⟩) (t :: u)
      (es ++ [⟨.invalidTarget, t⟩]) := by
  have hall : Passes .inner { c with rest := t :: c.rest } d (t :: u) es := (take rfl ht).trans h
  have hlate : ∀ e ∈ es, RecordedLate (t :: u ++ [d.next]) e ⟨.invalidTarget, t⟩ := by
    intro e he
    obtain ⟨between, after, hsplit⟩ := List.append_of_mem (h.within e he)
    have hbetween : between <+: u := by
      refine List.prefix_of_prefix_length_le ?_ (List.prefix_append u [d.next]) ?_
      · exact hsplit ▸ List.prefix_append between _
      · have hlen := congrArg List.length hsplit
        simp only [List.length_append, List.length_cons, List.length_nil] at hlen
        omega
    refine ⟨rfl, h.records e he, between, ?_, fun x hx => h.takes x (hbetween.subset hx)⟩
    have htokens : t :: u ++ [d.next] = t :: (between ++ [e.token]) ++ after := by
      rw [List.cons_append, hsplit, List.append_cons, List.cons_append]
    rw [htokens]
    exact (List.prefix_append _ after).isInfix
  refine ⟨hall.rest, hall.endLine, ?_, hall.takes, ?_, ?_, ?_⟩
  · rw [Cursor.record, hall.errors, List.append_assoc]
  · exact List.forall_mem_append.mpr ⟨hall.records, by simp [Manner.inner, Fault.IsInner]⟩
  · exact List.forall_mem_append.mpr ⟨hall.within, by simp⟩
  · refine List.pairwise_append.mpr ⟨hall.pairwise, by simp, fun e he f hf => .inr ?_⟩
    rw [List.mem_singleton.mp hf]
    exact hlate e he

theorem any (h : Passes M c d taken es) : Passes .any c d taken es :=
  { h with takes := fun _ _ => trivial, records := fun _ _ => trivial }

end Passes

/-! ## Rules -/

/-- A run of a rule that began at the cursor. Its result satisfies `P` together with the tokens that
are taken, and its failure is about the next token. -/
def Concludes (M : Manner) (c : Cursor) (P : List Token → α → Prop) :
    EStateM.Result Error Cursor α → Prop
  | .ok a d => ∃ taken es, Passes M c d taken es ∧ P taken a
  | .error e d => ∃ taken es, Passes M c d taken es ∧ e.token = d.next

/-- Every run of the rule is as described. -/
def Lays (M : Manner) (r : Rule α) (P : List Token → α → Prop) : Prop :=
  ∀ c, Concludes M c P (r c)

def LaysAt (M : Manner) (t : Token) (r : Rule α) (P : List Token → α → Prop) : Prop :=
  ∀ c, c.rest.head? = some t → Concludes M c P (r c)

/-- As `Lays`, where the given token has been taken and counts as taken by the rule. -/
def LaysBehind (M : Manner) (t : Token) (r : Rule α) (P : List Token → α → Prop) : Prop :=
  ∀ c, Concludes M { c with rest := t :: c.rest } P (r c)

variable {r : Rule α} {f : α → Rule β} {P P' : List Token → α → Prop} {R : List Token → β → Prop}

namespace Concludes

variable {result : EStateM.Result Error Cursor α}

/-- What was taken and recorded before the run counts as well. -/
theorem behind (h : Concludes M c (fun v a => P (u ++ v) a) result) (hfirst : Passes M c' c u es) :
    Concludes M c' P result := by
  cases result with
  | error e d =>
      obtain ⟨v, fs, hpass, htoken⟩ := h
      exact ⟨u ++ v, es ++ fs, hfirst.trans hpass, htoken⟩
  | ok a d =>
      obtain ⟨v, fs, hpass, ha⟩ := h
      exact ⟨u ++ v, es ++ fs, hfirst.trans hpass, ha⟩

theorem bind (h : Concludes M c P (r c'))
    (hf : ∀ u a, P u a → Lays M (f a) fun v b => R (u ++ v) b) : Concludes M c R ((r >>= f) c') := by
  rw [bind_apply]
  cases hrun : r c' with
  | error e d =>
      rw [hrun] at h
      exact h
  | ok a d =>
      rw [hrun] at h
      obtain ⟨u, es, hpass, ha⟩ := h
      exact (hf u a ha d).behind hpass

theorem mono (h : Concludes M c P result) (hP : ∀ u a, P u a → P' u a) :
    Concludes M c P' result := by
  cases result with
  | error e d => exact h
  | ok a d =>
      obtain ⟨taken, es, hpass, ha⟩ := h
      exact ⟨taken, es, hpass, hP taken a ha⟩

theorem any (h : Concludes M c P result) : Concludes .any c P result := by
  cases result with
  | error e d =>
      obtain ⟨taken, es, hpass, htoken⟩ := h
      exact ⟨taken, es, hpass.any, htoken⟩
  | ok a d =>
      obtain ⟨taken, es, hpass, ha⟩ := h
      exact ⟨taken, es, hpass.any, ha⟩

end Concludes

namespace Lays

theorem pure {a : α} (h : P [] a) : Lays M (pure a) P :=
  fun c => ⟨[], [], .refl c, h⟩

theorem bind (h : Lays M r P) (hf : ∀ u a, P u a → Lays M (f a) fun v b => R (u ++ v) b) :
    Lays M (r >>= f) R :=
  fun c => (h c).bind hf

theorem mono (h : Lays M r P) (hP : ∀ u a, P u a → P' u a) : Lays M r P' :=
  fun c => (h c).mono hP

theorem any (h : Lays M r P) : Lays .any r P :=
  fun c => (h c).any

theorem «at» (h : Lays M r P) : LaysAt M t r P :=
  fun c _ => h c

theorem behind (h : Lays M r fun u a => P (t :: u) a) (ht : M.takes t) : LaysBehind M t r P := by
  intro c
  have hfirst : Passes M { c with rest := t :: c.rest } c [t] [] := .take rfl ht
  exact (h c).behind hfirst

end Lays

theorem lays_fail (part : Part) : Lays M (fail part) P :=
  fun c => ⟨[], [], .refl c, rfl⟩

theorem lays_sees (s : Symbol) : Lays M (sees s) fun u _ => u = [] :=
  fun c => ⟨[], [], .refl c, rfl⟩

theorem lays_atEnd : Lays M atEnd fun u _ => u = [] :=
  fun c => ⟨[], [], .refl c, rfl⟩

theorem lays_freshId : Lays M freshId fun u _ => u = [] :=
  fun _ => ⟨[], [], .silent rfl rfl rfl (List.forall_mem_nil _), rfl⟩

theorem lays_recordNext {fault : Fault} (hfault : M.records fault) :
    Lays M (recordNext fault) fun u _ => u = [] :=
  fun c => ⟨[], [⟨fault, c.next⟩], .record rfl hfault, rfl⟩

theorem lays_takeIf_bind {p : Terminal → Bool} {f : Option Token → Rule α}
    (hnone : Lays M (f none) P) (hsome : ∀ t, p t.terminal = true → LaysBehind M t (f (some t)) P) :
    Lays M (takeIf p >>= f) P := by
  intro c
  rw [bind_apply]
  unfold takeIf
  cases hrest : c.rest with
  | nil => exact hnone c
  | cons t rest =>
      by_cases hp : p t.terminal = true
      · simp only [hp, if_true]
        have hc : c = { c with rest := t :: rest } := by rw [← hrest]
        rw [hc]
        exact hsome t hp { c with rest := rest }
      · simp only [hp]
        exact hnone c

theorem lays_accept_bind {s : Symbol} {f : Option Token → Rule α} (hnone : Lays M (f none) P)
    (hsome : ∀ t, t.terminal = .symbol s → LaysBehind M t (f (some t)) P) :
    Lays M (accept s >>= f) P :=
  lays_takeIf_bind hnone fun t ht => hsome t (beq_iff_eq.mp ht)

theorem lays_acceptAny_bind {symbols : List Symbol} {f : Option Token → Rule α}
    (hnone : Lays M (f none) P)
    (hsome : ∀ t, ∀ s ∈ symbols, t.terminal = .symbol s → LaysBehind M t (f (some t)) P) :
    Lays M (acceptAny symbols >>= f) P := by
  refine lays_takeIf_bind hnone fun t ht => ?_
  split at ht
  · next s hs => exact hsome t s (by simpa using ht) hs
  · cases ht

theorem lays_expectTerminal {terminal : Terminal} (part : Part)
    (htakes : ∀ t, t.terminal = terminal → M.takes t) :
    Lays M (expectTerminal terminal part) fun u t => u = [t] := by
  unfold expectTerminal
  refine lays_takeIf_bind (lays_fail part) fun t ht => ?_
  exact Lays.behind (.pure rfl) (htakes t (beq_iff_eq.mp ht))

theorem lays_expect {s : Symbol} (part : Part) (htakes : ∀ t, t.terminal = .symbol s → M.takes t) :
    Lays M (expect s part) fun u t => u = [t] :=
  lays_expectTerminal part htakes

theorem lays_expectName (part : Part) (htakes : ∀ t, t.terminal = .identifier → M.takes t) :
    Lays M (expectName part) fun u t => u = [t] :=
  lays_expectTerminal part htakes

theorem lays_peek_bind {f : Token → Rule α} (hend : ∀ line, Lays M (f (.endAt line)) P)
    (hnext : ∀ t, LaysAt M t (f t) P) : Lays M (peek >>= f) P := by
  intro c
  rw [bind_apply]
  change Concludes M c P (f c.next c)
  cases hrest : c.rest with
  | nil =>
      rw [show c.next = .endAt c.endLine by simp [Cursor.next, hrest]]
      exact hend c.endLine c
  | cons t rest =>
      rw [Cursor.next_eq hrest]
      exact hnext t c (by rw [hrest]; rfl)

theorem laysAt_take_bind {f : Token → Rule α} (hf : LaysBehind M t (f t) P) :
    LaysAt M t (take >>= f) P := by
  intro c ht
  obtain ⟨rest, hrest⟩ := List.head?_eq_some_iff.mp ht
  have hc : c = { c with rest := t :: rest } := by rw [← hrest]
  rw [bind_apply]
  simp only [take, Cursor.next_eq hrest]
  rw [hc]
  exact hf { c with rest := rest }

/-- Behind an equals sign a rule may record at that sign that the target is invalid. -/
theorem Lays.record_behind (h : Lays .inner r P) (ht : Manner.inner.takes t) {b : β}
    (hP : ∀ u a, P u a → R (t :: u) b) :
    LaysBehind .inner t (do
      let _ ← r
      record .invalidTarget t
      Pure.pure b) R := by
  intro c
  have h := h c
  rw [bind_apply]
  cases hrun : r c with
  | error e d =>
      rw [hrun] at h
      obtain ⟨u, es, hpass, htoken⟩ := h
      exact ⟨t :: u, es, (Passes.take rfl ht).trans hpass, htoken⟩
  | ok a d =>
      rw [hrun] at h
      obtain ⟨u, es, hpass, ha⟩ := h
      exact ⟨t :: u, _, hpass.record_late ht, hP u a ha⟩

/-! ## Repetition and recovery -/

/-- A statement about lists that holds of the empty one and is kept by adding, in front of what
later rounds yield, what one round yields, holds of a repetition. -/
theorem lays_collectUpTo {step : Nat → Rule (Option α)} {R : List Token → List α → Prop}
    (hstep : ∀ count, Lays M (step count) fun u a? => ∀ a ∈ a?, P u a) (hnil : ∀ u, R u [])
    (hcons : ∀ {u v a as}, P u a → R v as → R (u ++ v) (a :: as)) (rounds : Nat) :
    ∀ count, Lays M (collectUpTo step rounds count) R := by
  induction rounds with
  | zero =>
      intro count
      exact .pure (hnil [])
  | succ rounds ih =>
      intro count
      refine (hstep count).bind fun u a? ha => ?_
      cases a? with
      | none => exact .pure (hnil _)
      | some a =>
          refine (ih (count + 1)).bind fun v as has => .pure ?_
          rw [List.append_nil]
          exact hcons (ha a rfl) has

theorem lays_collect {step : Nat → Rule (Option α)} {R : List Token → List α → Prop}
    (hstep : ∀ count, Lays M (step count) fun u a? => ∀ a ∈ a?, P u a) (hnil : ∀ u, R u [])
    (hcons : ∀ {u v a as}, P u a → R v as → R (u ++ v) (a :: as)) : Lays M (collect step) R :=
  fun c => lays_collectUpTo hstep hnil hcons c.rest.length 0 c

theorem lays_commaSeparated {item : Rule α} {tooMany : Fault} {R : List Token → List α → Prop}
    (htooMany : M.records tooMany) (hcomma : ∀ t, t.terminal = .symbol .comma → M.takes t)
    (hitem : Lays M item P) (hwiden : ∀ {t u a}, P u a → P (t :: u) a) (hnil : ∀ u, R u [])
    (hcons : ∀ {u v a as}, P u a → R v as → R (u ++ v) (a :: as)) :
    Lays M (commaSeparated tooMany item) R := by
  unfold commaSeparated nextItem?
  refine hitem.bind fun u first hfirst => ?_
  have hnext (t : Token) : Lays M (do let next ← item; pure (some next)) fun v a? =>
      ∀ a ∈ a?, P (t :: v) a := by
    refine hitem.bind fun v next hnext => .pure ?_
    rintro a ⟨⟩
    rw [List.append_nil]
    exact hwiden hnext
  refine Lays.bind (lays_collect (P := P) (R := R) (fun count => ?_) hnil hcons)
    fun v more hmore => ?_
  · refine lays_accept_bind (.pure (by simp)) fun comma ht => Lays.behind ?_ (hcomma comma ht)
    dsimp only
    split
    · refine (lays_recordNext htooMany).bind fun w _ hw => ?_
      subst hw
      exact hnext comma
    · exact hnext comma
  · refine .pure ?_
    rw [List.append_nil]
    exact hcons hfirst hmore

theorem Passes.skip (h : rest <:+ c.rest) :
    ∃ skipped, Passes .any c { c with rest := rest } skipped [] := by
  obtain ⟨skipped, hskipped⟩ := h
  exact ⟨skipped, .silent hskipped.symm rfl rfl fun _ _ => trivial⟩

/-- A failure is recorded at the token that is next when the rule ends. -/
theorem lays_recover (h : Lays .any r P) :
    Lays .any (recover r) fun u a? => ∀ a ∈ a?, P u a := by
  intro c
  have h := h c
  unfold recover
  cases hrun : r c with
  | ok a d =>
      rw [hrun] at h
      obtain ⟨taken, es, hpass, ha⟩ := h
      refine ⟨taken, es, hpass, ?_⟩
      rintro b ⟨⟩
      exact ha
  | error e d =>
      rw [hrun] at h
      obtain ⟨taken, es, hpass, htoken⟩ := h
      obtain ⟨skipped, hskip⟩ : ∃ skipped, Passes .any (d.record e)
          { d.record e with rest := synchronize d.rest } skipped [] :=
        Passes.skip (synchronize_suffix d.rest)
      have hpass' := (hpass.trans (.record htoken trivial)).trans hskip
      exact ⟨_, _, hpass', nofun⟩

end Grammar

end Lox
