import Lox.Proofs.Grammar.Yields
import Lox.Proofs.Prediction.Complete

/-!
# Rules that pursue walks

A rule pursues a walk if it ends where the walk does, and with the walk's verdict, as far as its first
missing part: where the walk passes, the rule succeeds, and where it stops, the first missing part is
recorded or raised at the terminal that the walk stops at. What a rule does after a recorded missing
part does not matter, for errors are never taken back.
-/

namespace Lox.Grammar

open Ebnf (name seq alt opt star)

variable {α β : Type} {n : Nat} {a : Ebnf} {parts : List Ebnf} {w : List Terminal}

/-- The error makes a rule fail. -/
def Error.unwinds (e : Error) : Bool :=
  match e.fault with
  | .missing _ => true
  | .invalidTarget | .tooManyParameters | .tooManyArguments => false

/-- All errors after a run, those recorded and the one that it fails with. -/
def reports : EStateM.Result Error Cursor α → List Error
  | .ok _ c => c.errors
  | .error e c => c.errors ++ [e]

/-- The first missing part that is new in a run from the cursor. -/
def firstUnwinding (c : Cursor) (r : EStateM.Result Error Cursor α) : Option Error :=
  ((reports r).drop c.errors.length).find? Error.unwinds

/-- The run from the cursor ends as described: it succeeds without a missing part, or the first
missing part is at the next token of what is left. -/
inductive Arrives (c : Cursor) (V : Option α → List Terminal → Prop) :
    EStateM.Result Error Cursor α → Prop
  | passed {a : α} {d : Cursor} (hfirst : firstUnwinding c (.ok a d) = none)
      (hline : d.endLine = c.endLine) (hrest : d.rest <:+ c.rest)
      (hV : V (some a) (d.rest.map Token.terminal)) : Arrives c V (.ok a d)
  | stopped {r : EStateM.Result Error Cursor α} {e : Error} {ts : List Token}
      (hfirst : firstUnwinding c r = some e) (hrest : ts <:+ c.rest)
      (htoken : e.token = ts.headD (.endAt c.endLine)) (hV : V none (ts.map Token.terminal)) :
      Arrives c V r

/-- The rule forgets no error, and on inputs of at most `n` tokens it ends as described. -/
structure Pursues (n : Nat) (r : Rule α) (V : List Terminal → Option α → List Terminal → Prop) :
    Prop where
  keeps : ∀ c, c.errors <+: reports (r c)
  arrives : ∀ c : Cursor, c.rest.length ≤ n →
    Arrives c (V (c.rest.map Token.terminal)) (r c)

/-- As `Pursues`, where the next token is given, if there is one. -/
structure PursuesAt (n : Nat) (t? : Option Token) (r : Rule α)
    (V : List Terminal → Option α → List Terminal → Prop) : Prop where
  keeps : ∀ c, c.errors <+: reports (r c)
  arrives : ∀ c : Cursor, c.rest.length ≤ n → c.rest.head? = t? →
    Arrives c (V (c.rest.map Token.terminal)) (r c)

/-- A rule that has a result has passed. -/
def Verdict.of : Option α → Verdict
  | some _ => .passed
  | none => .stopped

/-- A walk along the production, where a rule has this result. -/
def Walks (a : Ebnf) (w : List Terminal) (a? : Option α) (rest : List Terminal) : Prop :=
  Walk a w (.of a?) rest

theorem Arrives.mono {c : Cursor} {r : EStateM.Result Error Cursor α}
    {V W : Option α → List Terminal → Prop} (h : Arrives c V r)
    (hVW : ∀ a? rest, V a? rest → W a? rest) : Arrives c W r := by
  cases h with
  | passed hfirst hline hrest hV => exact .passed hfirst hline hrest (hVW _ _ hV)
  | stopped hfirst hrest htoken hV => exact .stopped hfirst hrest htoken (hVW _ _ hV)

/-- What has run before did not miss a part. -/
theorem Arrives.behind {c d : Cursor} {r : EStateM.Result Error Cursor α}
    {V : Option α → List Terminal → Prop} (h : Arrives d V r) (hline : d.endLine = c.endLine)
    (hrest : d.rest <:+ c.rest) (hfirst : firstUnwinding c r = firstUnwinding d r) :
    Arrives c V r := by
  cases h with
  | passed hfirst' hline' hrest' hV =>
      exact .passed (hfirst.trans hfirst') (hline'.trans hline) (hrest'.trans hrest) hV
  | stopped hfirst' hrest' htoken hV =>
      exact .stopped (hfirst.trans hfirst') (hrest'.trans hrest) (by rw [htoken, hline]) hV

/-- A result without a new error. -/
theorem Arrives.of_ok {c d : Cursor} {a : α} {V : Option α → List Terminal → Prop}
    (herrors : d.errors = c.errors) (hline : d.endLine = c.endLine) (hrest : d.rest <:+ c.rest)
    (hV : V (some a) (d.rest.map Token.terminal)) : Arrives c V (.ok a d) := by
  refine .passed ?_ hline hrest hV
  simp [firstUnwinding, reports, herrors]

/-- A rule succeeds and takes nothing. -/
def Skips (w : List Terminal) (a? : Option α) (rest : List Terminal) : Prop :=
  a?.isSome = true ∧ rest = w

theorem Skips.take {a? : Option α} {rest : List Terminal} (h : Skips w a? rest) (t : Terminal) :
    Walks (.terminal t) (t :: w) a? rest := by
  obtain ⟨hsome, rfl⟩ := h
  cases a? with
  | none => cases hsome
  | some a => exact .take t _

theorem PursuesAt.mono {t? : Option Token} {r : Rule α}
    {V V' : List Terminal → Option α → List Terminal → Prop} (h : PursuesAt n t? r V)
    (hV : ∀ w a? rest, w.head? = t?.map Token.terminal → V w a? rest → V' w a? rest) :
    PursuesAt n t? r V' := by
  refine ⟨h.keeps, fun c hc hhead => (h.arrives c hc hhead).mono fun a? rest => hV _ a? rest ?_⟩
  rw [List.head?_map, hhead]

/-! ## Sequences -/

theorem firstUnwinding_append {c d : Cursor} {a : α} {r : EStateM.Result Error Cursor β}
    (hd : c.errors <+: d.errors) (hr : d.errors <+: reports r) :
    firstUnwinding c r = (firstUnwinding c (.ok a d)).or (firstUnwinding d r) := by
  obtain ⟨es, hes⟩ := hd
  obtain ⟨fs, hfs⟩ := hr
  unfold firstUnwinding
  rw [← hfs, List.drop_left, reports, ← hes, List.drop_left, List.append_assoc, List.drop_left,
    List.find?_append]

namespace Pursues

variable {r : Rule α} {f : α → Rule β} {V V' : List Terminal → Option α → List Terminal → Prop}
  {W : α → List Terminal → Option β → List Terminal → Prop}
  {U : List Terminal → Option β → List Terminal → Prop}

theorem mono (h : Pursues n r V) (hV : ∀ w a? rest, V w a? rest → V' w a? rest) :
    Pursues n r V' :=
  ⟨h.keeps, fun c hc => (h.arrives c hc).mono (hV _)⟩

theorem anti {m : Nat} (h : Pursues n r V) (hm : m ≤ n) : Pursues m r V :=
  ⟨h.keeps, fun c hc => h.arrives c (hc.trans hm)⟩

theorem «at» (h : Pursues n r V) (t? : Option Token) : PursuesAt n t? r V :=
  ⟨h.keeps, fun c hc _ => h.arrives c hc⟩

theorem pure {a : α} (hV : ∀ w, V w (some a) w) : Pursues n (pure a) V :=
  ⟨fun _ => List.prefix_rfl, fun _ _ => .of_ok rfl rfl List.suffix_rfl (hV _)⟩

/-- One rule after the other, which may know a smaller bound. -/
theorem bind {m : α → Nat} (hr : Pursues n r V) (hf : ∀ a, Pursues (m a) (f a) (W a))
    (hm : ∀ a w rest, V w (some a) rest → rest.length ≤ w.length → w.length ≤ n →
      rest.length ≤ m a)
    (hstop : ∀ w rest, V w none rest → U w none rest)
    (hpass : ∀ a w u b? rest, V w (some a) u → W a u b? rest → U w b? rest) :
    Pursues n (r >>= f) U := by
  constructor
  · intro c
    have hkeeps := hr.keeps c
    rw [bind_apply]
    cases hrc : r c with
    | ok a d =>
        rw [hrc] at hkeeps
        exact hkeeps.trans ((hf a).keeps d)
    | error e d =>
        rw [hrc] at hkeeps
        exact hkeeps
  · intro c hc
    have hkeeps := hr.keeps c
    have harrives := hr.arrives c hc
    rw [bind_apply]
    cases hrc : r c with
    | error e d =>
        rw [hrc] at harrives
        cases harrives with
        | stopped hfirst hrest htoken hV => exact .stopped hfirst hrest htoken (hstop _ _ hV)
    | ok a d =>
        rw [hrc] at hkeeps harrives
        have hfirst := firstUnwinding_append (a := a) hkeeps ((hf a).keeps d)
        cases harrives with
        | stopped hfirst' hrest htoken hV =>
            rw [hfirst'] at hfirst
            exact .stopped hfirst hrest htoken (hstop _ _ hV)
        | passed hfirst' hline hrest hV =>
            rw [hfirst', Option.none_or] at hfirst
            have hlen := hm a _ _ hV (by simpa using hrest.length_le) (by simpa using hc)
            have hnext := (hf a).arrives d (by simpa using hlen)
            exact (hnext.behind hline hrest hfirst).mono fun _ _ hW => hpass _ _ _ _ _ hV hW

/-- One rule after the other with the same bound. -/
theorem next (hr : Pursues n r V) (hf : ∀ a, Pursues n (f a) (W a))
    (hstop : ∀ w rest, V w none rest → U w none rest)
    (hpass : ∀ a w u b? rest, V w (some a) u → W a u b? rest → U w b? rest) :
    Pursues n (r >>= f) U :=
  hr.bind hf (fun _ _ _ _ hle hn => hle.trans hn) hstop hpass

/-- A rule that takes nothing makes no difference. -/
theorem skip (hr : Pursues n r Skips) (hf : ∀ a, Pursues n (f a) U) : Pursues n (r >>= f) U := by
  refine hr.next hf ?_ ?_
  · rintro w rest ⟨⟨⟩, -⟩
  · rintro a w _ b? rest ⟨-, rfl⟩ h
    exact h

/-- A rule whose result is only changed. -/
theorem map {g : α → β} (hr : Pursues n r V) (hstop : ∀ w rest, V w none rest → U w none rest)
    (hpass : ∀ a w rest, V w (some a) rest → U w (some (g a)) rest) :
    Pursues n (do let a ← r; Pure.pure (g a)) U := by
  refine hr.next (W := fun a w b? rest => b? = some (g a) ∧ rest = w) ?_ hstop ?_
  · exact fun a => .pure fun _ => ⟨rfl, rfl⟩
  · rintro a w _ _ u h ⟨rfl, rfl⟩
    exact hpass a w _ h

theorem map_walks {g : α → β} (h : Pursues n r (Walks a)) :
    Pursues n (do let x ← r; Pure.pure (g x)) (Walks a) :=
  h.map (fun _ _ h => h) fun _ _ _ h => h

/-- One rule after the other along the parts of a production. -/
theorem seq (hr : Pursues n r (Walks a)) (hf : ∀ x, Pursues n (f x) (Walks (.seq parts))) :
    Pursues n (r >>= f) (Walks (.seq (a :: parts))) :=
  hr.next hf (fun _ _ h => .seqStop h) fun _ _ _ _ _ hu h => .seqCons hu h

theorem nil {a : α} : Pursues n (Pure.pure a) (Walks (.seq [])) :=
  .pure .seqNil

/-- The rule of a name is one of its production. -/
theorem name {x : Name} (h : Pursues n r (Walks (relaxed x))) :
    Pursues n r (Walks (.name x)) :=
  h.mono fun _ _ _ => .name

theorem recover (h : Pursues n r (Walks a)) : Pursues n (recover r) (Walks a) := by
  constructor
  · intro c
    have hkeeps := h.keeps c
    unfold Grammar.recover
    split
    · next hrc =>
      rw [hrc] at hkeeps
      exact hkeeps
    · next hrc =>
      rw [hrc] at hkeeps
      exact hkeeps
  · intro c hc
    have harrives := h.arrives c hc
    unfold Grammar.recover
    split
    · next hrc =>
      rw [hrc] at harrives
      cases harrives with
      | passed hfirst hline hrest hV => exact .passed hfirst hline hrest hV
      | stopped hfirst hrest htoken hV => exact .stopped hfirst hrest htoken hV
    · next hrc =>
      rw [hrc] at harrives
      cases harrives with
      | stopped hfirst hrest htoken hV => exact .stopped hfirst hrest htoken hV

end Pursues

/-! ## Tokens -/

section Tokens

variable {m : Nat} {p : Terminal → Bool} {s : Symbol} {t : Terminal} {f : Option Token → Rule α}
  {V : List Terminal → Option α → List Terminal → Prop}

theorem pursues_fail (part : Part) (hV : ∀ w, V w none w) : Pursues n (fail part) V := by
  constructor
  · exact fun c => List.prefix_append _ _
  · intro c _
    have hfirst : firstUnwinding c (fail part c : EStateM.Result Error Cursor α)
        = some ⟨.missing part, c.next⟩ := by
      simp [firstUnwinding, reports, fail, Error.unwinds]
    exact .stopped hfirst List.suffix_rfl rfl (hV _)

theorem pursues_fail_of_nil (part : Part) (h : Walk a [] .stopped []) :
    Pursues 0 (fail part : Rule α) (Walks a) := by
  have hfail : Pursues 0 (fail part : Rule α) fun w a? rest => a? = none ∧ rest = w :=
    pursues_fail part fun _ => ⟨rfl, rfl⟩
  refine ⟨hfail.keeps, fun c hc => (hfail.arrives c hc).mono ?_⟩
  rintro _ _ ⟨rfl, rfl⟩
  rw [List.length_eq_zero_iff.mp (Nat.le_zero.mp hc)]
  exact h

theorem pursues_freshId : Pursues n freshId Skips :=
  ⟨fun _ => List.prefix_rfl, fun _ _ => .of_ok rfl rfl List.suffix_rfl ⟨rfl, rfl⟩⟩

/-- A fault that is no missing part makes no difference. -/
theorem pursues_record {fault : Fault} {token : Token}
    (h : Error.unwinds ⟨fault, token⟩ = false) : Pursues n (record fault token) Skips := by
  constructor
  · exact fun c => List.prefix_append _ _
  · intro c _
    refine .passed ?_ rfl List.suffix_rfl ⟨rfl, rfl⟩
    simp [firstUnwinding, reports, Cursor.record, h]

theorem pursues_recordNext {fault : Fault} (h : ∀ token, Error.unwinds ⟨fault, token⟩ = false) :
    Pursues n (recordNext fault) Skips :=
  ⟨fun c => (pursues_record (n := n) (h c.next)).keeps c,
    fun c hc => (pursues_record (h c.next)).arrives c hc⟩

/-- The next terminal is taken if it satisfies `p`. -/
def Heads (p : Terminal → Bool) (w : List Terminal) : Option (Option Token) →
    List Terminal → Prop
  | some (some t), rest => p t.terminal = true ∧ w = t.terminal :: rest
  | some none, rest => rest = w ∧ ∀ t ∈ w.head?, p t = false
  | none, _ => False

theorem pursues_takeIf : Pursues n (takeIf p) (Heads p) := by
  constructor
  · intro c
    unfold takeIf
    split
    · exact List.prefix_rfl
    · split <;> exact List.prefix_rfl
  · intro c _
    unfold takeIf
    split
    · next hrest => exact .of_ok rfl rfl List.suffix_rfl ⟨rfl, by simp [hrest]⟩
    · next t rest hrest =>
      split
      · next hp =>
        refine .of_ok rfl rfl (by simp [hrest]) ⟨hp, ?_⟩
        rw [hrest]
        rfl
      · next hp => exact .of_ok rfl rfl List.suffix_rfl ⟨rfl, by simpa [hrest] using hp⟩

/-- What comes behind a taken token has one token less. -/
theorem pursues_takeIf_bind {W : Token → List Terminal → Option α → List Terminal → Prop}
    {U : List Terminal → Option α → List Terminal → Prop} (hm : n ≤ m + 1)
    (hsome : ∀ t, Pursues m (f (some t)) (W t)) (hnone : Pursues n (f none) V)
    (htaken : ∀ t w a? rest, p t.terminal = true → W t w a? rest → U (t.terminal :: w) a? rest)
    (hmissing : ∀ w a? rest, (∀ t ∈ w.head?, p t = false) → V w a? rest → U w a? rest) :
    Pursues n (takeIf p >>= f) U := by
  refine pursues_takeIf.bind (m := fun t? => t?.elim n fun _ => m)
    (W := fun t? => t?.elim V W) ?_ ?_ ?_ ?_
  · intro t?
    cases t? with
    | none => exact hnone
    | some t => exact hsome t
  · intro t? w rest h hle hn
    cases t? with
    | none => exact hle.trans hn
    | some t =>
        obtain ⟨-, rfl⟩ := h
        exact Nat.le_of_succ_le_succ (hn.trans hm)
  · exact fun _ _ h => h.elim
  · intro t? w u a? rest h hW
    cases t? with
    | none =>
        obtain ⟨rfl, hp⟩ := h
        exact hmissing _ _ _ hp hW
    | some t =>
        obtain ⟨hp, rfl⟩ := h
        exact htaken t _ _ _ hp hW

/-- As `pursues_takeIf_bind`, for one of several symbols. -/
theorem pursues_acceptAny_bind {symbols : List Symbol}
    {W : Token → List Terminal → Option α → List Terminal → Prop}
    {U : List Terminal → Option α → List Terminal → Prop} (hm : n ≤ m + 1)
    (hsome : ∀ t, Pursues m (f (some t)) (W t)) (hnone : Pursues n (f none) V)
    (htaken : ∀ t s w a? rest, t.terminal = .symbol s → s ∈ symbols → W t w a? rest →
      U (.symbol s :: w) a? rest)
    (hmissing : ∀ w a? rest, (∀ s ∈ symbols, w.head? ≠ some (.symbol s)) → V w a? rest →
      U w a? rest) :
    Pursues n (acceptAny symbols >>= f) U := by
  refine pursues_takeIf_bind hm hsome hnone ?_ ?_
  · intro t w a? rest ht h
    cases hterminal : t.terminal with
    | symbol s =>
        rw [hterminal] at ht
        exact htaken t s w a? rest hterminal (by simpa using ht) h
    | _ =>
        rw [hterminal] at ht
        cases ht
  · intro w a? rest hw h
    refine hmissing w a? rest (fun s hs hhead => ?_) h
    have hne := hw _ hhead
    simp [hs] at hne

theorem accept_eq_acceptAny (s : Symbol) : accept s = acceptAny [s] := by
  unfold accept acceptAny
  congr 1
  funext t
  rw [Bool.eq_iff_iff]
  cases t <;> simp

theorem pursues_expectTerminal (t : Terminal) (part : Part) :
    Pursues n (expectTerminal t part) (Walks (.terminal t)) := by
  unfold expectTerminal
  refine pursues_takeIf.next (W := fun t? => t?.elim (fun w a? rest => a? = none ∧ rest = w)
    fun _ => Skips) ?_ ?_ ?_
  · intro t?
    cases t? with
    | none => exact pursues_fail part fun _ => ⟨rfl, rfl⟩
    | some tok => exact .pure fun _ => ⟨rfl, rfl⟩
  · exact fun _ _ h => h.elim
  · intro t? w u a? rest h hnext
    cases t? with
    | none =>
        obtain ⟨rfl, hw⟩ := h
        obtain ⟨rfl, rfl⟩ := hnext
        exact .miss fun hhead => beq_eq_false_iff_ne.mp (hw t hhead) rfl
    | some tok =>
        obtain ⟨htok, rfl⟩ := h
        rw [beq_iff_eq.mp htok]
        exact hnext.take t

theorem pursues_expect (s : Symbol) (part : Part) :
    Pursues n (expect s part) (Walks (symbol s)) :=
  pursues_expectTerminal _ part

theorem pursues_expectName (part : Part) : Pursues n (expectName part) (Walks ident) :=
  pursues_expectTerminal _ part

/-- An optional part that begins with a symbol. -/
theorem pursues_accept_bind {l : List Ebnf} (hm : n ≤ m + 1)
    (hsome : ∀ t, Pursues m (f (some t)) (Walks (.seq (l ++ parts))))
    (hnone : Pursues n (f none) (Walks (.seq parts))) :
    Pursues n (accept s >>= f) (Walks (.seq (opt (.seq (symbol s :: l)) :: parts))) := by
  rw [accept_eq_acceptAny]
  refine pursues_acceptAny_bind hm hsome hnone ?_ ?_
  · intro t s' w a? rest _ hs h
    rw [List.mem_singleton.mp hs]
    have hpredicts : (Ebnf.seq (symbol s :: l)).predicts (some (.symbol s)) = true := by
      simp [Ebnf.predicts, Ebnf.firsts, Ebnf.firstsSeq]
    have hgroup : Walk (.seq (.seq (symbol s :: l) :: parts)) (.symbol s :: w) (.of a?) rest :=
      .group (.seqCons (.take _ w) h)
    exact hgroup.opt_of_predicts hpredicts
  · intro w a? rest hw h
    refine .seqCons (.optNone ?_) h
    rw [Ebnf.predicts_eq_false]
    intro t ht hfirst
    have hts : t = .symbol s := by
      simpa [Ebnf.firsts, Ebnf.firstsSeq, Ebnf.nullable] using hfirst
    exact hw s List.mem_cons_self (hts ▸ ht)

end Tokens

section Looking

variable {f : Token → Rule α} {V W : List Terminal → Option α → List Terminal → Prop}

theorem pursues_peek_bind (hnext : ∀ t, PursuesAt n (some t) (f t) V)
    (hend : ∀ line, PursuesAt n none (f (.endAt line)) V) : Pursues n (peek >>= f) V := by
  constructor
  · rintro ⟨rest, line, id, errors⟩
    cases rest with
    | nil => exact (hend line).keeps _
    | cons t rest => exact (hnext t).keeps _
  · rintro ⟨rest, line, id, errors⟩ hc
    cases rest with
    | nil => exact (hend line).arrives _ hc rfl
    | cons t rest => exact (hnext t).arrives _ hc rfl

theorem pursuesAt_take_bind {t : Token} (hf : ∀ t', Pursues n (f t') W)
    (hV : ∀ w a? rest, W w a? rest → V (t.terminal :: w) a? rest) :
    PursuesAt (n + 1) (some t) (take >>= f) V := by
  have htake (c : Cursor) : (take >>= f) c = f c.next { c with rest := c.rest.tail } := rfl
  constructor
  · intro c
    rw [htake]
    exact (hf c.next).keeps { c with rest := c.rest.tail }
  · intro c hc hhead
    obtain ⟨rest, hrest⟩ : ∃ rest, c.rest = t :: rest := by
      cases hrest : c.rest with
      | nil => simp [hrest] at hhead
      | cons t' rest =>
          rw [hrest] at hhead
          cases hhead
          exact ⟨rest, rfl⟩
    rw [htake, hrest]
    have harrives := (hf c.next).arrives { c with rest := rest } (by simpa [hrest] using hc)
    exact (harrives.mono fun a? rest h => hV _ a? rest h).behind rfl (by simp [hrest]) rfl

/-- The rule of a symbol that comes next, and of what stands behind it. -/
theorem pursuesAt_symbol {t : Token} {s : Symbol} (ht : t.terminal = .symbol s)
    (hf : ∀ t', Pursues n (f t') (Walks (.seq parts))) :
    PursuesAt (n + 1) (some t) (take >>= f) (Walks (.seq (symbol s :: parts))) := by
  refine pursuesAt_take_bind hf fun w a? rest h => ?_
  rw [ht]
  exact .seqCons (.take _ w) h

/-- The rule of a choice that the next token decides for. -/
theorem PursuesAt.choice {t : Token} {s : Terminal} {r : Rule α} {x : Name} {choices : List Ebnf}
    (h : PursuesAt n (some t) r (Walks a)) (ht : t.terminal = s) (hx : relaxed x = alt choices)
    (hfind : choices.find? (·.predicts (some s)) = some a) :
    PursuesAt n (some t) r (Walks (name x)) := by
  refine h.mono fun w a? rest hhead hw => .name ?_
  rw [hx]
  refine .alt ?_ hw
  rw [hhead, Option.map_some, ht]
  exact hfind

theorem pursuesAt_fail {t? : Option Token} {part : Part} {x : Name} {choices : List Ebnf}
    (hx : relaxed x = alt choices)
    (hfind : choices.find? (·.predicts (t?.map Token.terminal)) = none) :
    PursuesAt n t? (fail part : Rule α) (Walks (name x)) := by
  have hfail : Pursues n (fail part : Rule α) fun w a? rest => a? = none ∧ rest = w :=
    pursues_fail part fun _ => ⟨rfl, rfl⟩
  refine (hfail.at t?).mono ?_
  rintro w _ _ hhead ⟨rfl, rfl⟩
  apply Walk.name
  rw [hx]
  refine .altNone ?_
  rw [hhead]
  exact hfind

/-- The rule of a choice that is taken when no other one begins with the next token. -/
theorem PursuesAt.otherwise {t? : Option Token} {r : Rule α} {x : Name}
    (before : List Ebnf) {after : List Ebnf} (h : PursuesAt n t? r (Walks a))
    (hx : relaxed x = alt (before ++ a :: after)) (hne : a.nullable = false)
    (hothers : ∀ b ∈ before ++ after, b.predicts (t?.map Token.terminal) = false) :
    PursuesAt n t? r (Walks (name x)) := by
  refine h.mono fun w a? rest hhead hw => .name ?_
  rw [← hhead] at hothers
  rw [hx]
  exact hw.alt_of_others before hne (fun b hb => hothers b (List.mem_append_left _ hb))
    fun b hb => hothers b (List.mem_append_right _ hb)

theorem pursues_sees_bind {f : Bool → Rule α} {s : Symbol}
    {U : Bool → List Terminal → Option α → List Terminal → Prop}
    (hf : ∀ b, Pursues n (f b) (U b))
    (hV : ∀ b w a? rest, (b = true ↔ w.head? = some (.symbol s)) → U b w a? rest → V w a? rest) :
    Pursues n (sees s >>= f) V := by
  refine ⟨fun c => (hf _).keeps c, fun c hc => ((hf _).arrives c hc).mono fun a? rest h => ?_⟩
  refine hV _ _ a? rest ?_ h
  rw [beq_iff_eq, Cursor.next]
  cases c.rest with
  | nil => simp [Token.endAt, Token.terminal, Token.Kind.terminal]
  | cons t rest => simp

theorem pursues_atEnd_bind {f : Bool → Rule α}
    {U : Bool → List Terminal → Option α → List Terminal → Prop}
    (hf : ∀ b, Pursues n (f b) (U b))
    (hV : ∀ b w a? rest, (b = true ↔ w = []) → U b w a? rest → V w a? rest) :
    Pursues n (atEnd >>= f) V := by
  refine ⟨fun c => (hf _).keeps c, fun c hc => ((hf _).arrives c hc).mono fun a? rest h => ?_⟩
  exact hV _ _ a? rest (by simp) h

/-- What may be missing before a symbol is looked for unless the symbol comes next. -/
theorem pursues_unless_bind {f : Bool → Rule α} {s : Symbol} (hs : .symbol s ∉ a.firsts)
    (hne : a.nullable = false) (hmissing : Pursues n (f true) (Walks (.seq (symbol s :: parts))))
    (hfound : Pursues n (f false) (Walks (.seq (a :: symbol s :: parts)))) :
    Pursues n (sees s >>= f) (Walks (.seq (opt a :: symbol s :: parts))) := by
  refine pursues_sees_bind (U := fun b => Walks (.seq
    (if b then symbol s :: parts else a :: symbol s :: parts))) ?_ ?_
  · intro b
    cases b with
    | true => exact hmissing
    | false => exact hfound
  · intro b w a? rest hb h
    cases b with
    | true =>
        refine .seqCons (.optNone ?_) h
        rw [hb.mp rfl]
        exact decide_eq_false hs
    | false =>
        have hhead : w.head? ≠ some (.symbol s) := fun hhead => Bool.noConfusion (hb.mpr hhead)
        exact h.opt_before hne hhead

end Looking

end Lox.Grammar
