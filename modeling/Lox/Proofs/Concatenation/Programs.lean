import Lox.Proofs.Concatenation.Lexing
import Lox.Proofs.Concatenation.Statements
import Lox.Proofs.Grammar.Complete.Statements
import Lox.Proofs.Grammar.Sound.Statements

/-!
# Programs in a row

Two programs that each parse without an error, with the identities of the second one going on from
those of the first, parse as one program if their tokens stand in a row: its statements are those of
the first and then those of the second.
-/

namespace Lox.Grammar

open Ebnf (name)

variable {τ : Tail} {n m : Nat} {c c' : Cursor}

/-- One round of a program: a declaration, unless all tokens are taken. -/
def programRound (n : Nat) : Rule (Option (Option Stmt)) := do
  if ← atEnd then pure none
  else do
    let d ← declarationUpTo n
    pure (some d)

theorem programUpTo_eq (n : Nat) :
    programUpTo n = (do
      let found ← collect fun _ => programRound n
      pure (found.filterMap id)) :=
  rfl

theorem programRound_nil (h : c.rest = []) : programRound n c = .ok none c := by
  simp [programRound, bind_apply, atEnd, h]
  rfl

theorem programRound_ne_nil (h : c.rest ≠ []) :
    programRound n c = (do let d ← declarationUpTo n; pure (some d)) c := by
  have hempty : c.rest.isEmpty = false := by simpa using h
  simp only [programRound, bind_apply, atEnd, hempty, Bool.false_eq_true, if_false]

theorem collectUpTo_nil (h : c.rest = []) (rounds k : Nat) :
    collectUpTo (fun _ => programRound n) rounds k c = .ok [] c := by
  cases rounds with
  | zero => rfl
  | succ rounds => rw [collectUpTo, bind_apply, programRound_nil h]; rfl

/-- A failure that is recovered from is recorded. -/
theorem errors_lt_of_recover {α : Type} {rule : Rule α} {P : α → List Terminal → Prop}
    (hr : Reads rule P) (h : recover rule c = .ok none c') :
    c.errors.length < c'.errors.length := by
  have hc := hr c
  unfold recover at h
  cases hrc : rule c with
  | ok a d =>
      rw [hrc] at h
      cases h
  | error e d =>
      rw [hrc] at h hc
      cases h
      simp only [Cursor.record, List.length_append, List.length_singleton]
      omega

theorem isSome_of_clean {d : Option Stmt} (h : declarationUpTo n c = .ok d c')
    (hclean : c'.errors.length = c.errors.length) : d.isSome := by
  cases d with
  | some s => rfl
  | none =>
      have hlt : c.errors.length < c'.errors.length := by
        cases n with
        | zero => exact errors_lt_of_recover (reads_fail (P := fun _ _ => True) _) h
        | succ n =>
            obtain ⟨hs, hd⟩ := reads_upTo n
            exact errors_lt_of_recover (reads_declarationRule hs hd) h
      omega

theorem reads_programRound (n : Nat) :
    Reads (programRound n) (IfSome fun _ w => Derives (name .declaration) w) := by
  refine reads_atEnd.bind fun ended u => ?_
  split
  · exact .pure fun hu => by rw [hu]; rfl
  · refine (reads_upTo n).2.bind fun d v => .pure fun hv hu => ?_
    rw [hu, List.append_nil]
    exact hv

/-- The rounds from `c` to `c'` take all tokens. With more tokens behind them, the same rounds come
first, and then those for the other tokens. -/
def PassesOver (τ : Tail) (m : Nat) (found : List (Option Stmt)) (c c' : Cursor) : Prop :=
  c'.rest = [] ∧ ∀ rounds k, (c.extend τ).rest.length ≤ rounds →
    ∃ left k', τ.tokens.length ≤ left ∧
      collectUpTo (fun _ => programRound m) rounds k (c.extend τ)
        = (do
            let more ← collectUpTo (fun _ => programRound m) left k'
            pure (found ++ more)) (c'.extend τ)

theorem passesOver_nil (h : c.rest = []) : PassesOver τ m [] c c := by
  refine ⟨h, fun rounds k hlen => ⟨rounds, k, ?_, ?_⟩⟩
  · simpa [Cursor.extend, h] using hlen
  · rw [bind_apply]
    cases collectUpTo (fun _ => programRound m) rounds k (c.extend τ) <;> rfl

theorem PassesOver.cons {d : Option Stmt} {found : List (Option Stmt)} {e : Cursor}
    (hc : c.rest ≠ []) (hround : declarationUpTo m (c.extend τ) = .ok d (c'.extend τ))
    (hlt : c'.rest.length < c.rest.length) (h : PassesOver τ m found c' e) :
    PassesOver τ m (d :: found) c e := by
  refine ⟨h.1, fun rounds k hlen => ?_⟩
  simp only [Cursor.extend, List.length_append] at hlen
  obtain ⟨rounds, rfl⟩ : ∃ r, rounds = r + 1 := ⟨rounds - 1, by omega⟩
  obtain ⟨left, k', hleft, hsame⟩ := h.2 rounds (k + 1) (by
    simp only [Cursor.extend, List.length_append]
    omega)
  refine ⟨left, k', hleft, ?_⟩
  have hne : (c.extend τ).rest ≠ [] := by simp [Cursor.extend, hc]
  have hfirst : programRound m (c.extend τ) = .ok (some d) (c'.extend τ) := by
    rw [programRound_ne_nil hne, bind_apply, hround]
    rfl
  rw [collectUpTo, bind_apply, hfirst]
  dsimp only
  rw [bind_apply, hsame, bind_apply, bind_apply]
  cases collectUpTo (fun _ => programRound m) left k' (e.extend τ) <;> rfl

/-- The rounds of a program that is parsed without a new error pass over its tokens. -/
theorem passesOver_of_clean (hτ : τ.NoElse) (hnm : n ≤ m) (rounds : Nat) :
    ∀ {k : Nat} {c c' : Cursor} {found : List (Option Stmt)}, c.rest.length ≤ n →
      c.rest.length ≤ rounds →
      collectUpTo (fun _ => programRound n) rounds k c = .ok found c' →
      c'.errors.length = c.errors.length → PassesOver τ m found c c' := by
  induction rounds with
  | zero =>
      intro k c c' found _ hrounds hok _
      have hnil : c.rest = [] := List.length_eq_zero_iff.mp (by omega)
      cases hok
      exact passesOver_nil hnil
  | succ rounds ih =>
      intro k c c' found hn hrounds hok hclean
      by_cases hne : c.rest = []
      · rw [collectUpTo_nil hne] at hok
        cases hok
        exact passesOver_nil hne
      · obtain ⟨d?, d, hround, hmore⟩ := bind_eq_ok hok
        replace hround : programRound n c = .ok d? d := hround
        rw [programRound_ne_nil hne] at hround
        obtain ⟨s?, e, hs, ⟨⟩⟩ := bind_eq_ok hround
        obtain ⟨more, e', hmore, ⟨⟩⟩ := bind_eq_ok hmore
        -- No error is recorded before or after, since none is forgotten.
        have hfirst := (reads_upTo n).2 c
        have hrest := reads_collectUpTo (fun _ => reads_programRound n) rounds (k + 1) d
        rw [hs] at hfirst
        rw [hmore] at hrest
        have hsome : s?.isSome := isSome_of_clean hs (by omega)
        obtain ⟨-, hresumes⟩ := closed_upTo hτ hnm
        have hlt := hresumes.shorter c s? d hn hne hs
        have hsame := hresumes.same c hn
        rw [hs] at hsame
        have hmore := ih (by omega) (by omega) hmore (by omega)
        exact hmore.cons hne (hsame.2.2 (.inr hsome)) hlt

/-- A parse without errors is made of rounds without errors. -/
theorem rounds_of_clean {tokens : List Token} {firstId : NodeId}
    (h : (parseProgram tokens firstId).errors = []) :
    ∃ found c', collectUpTo (fun _ => programRound (Cursor.ofTokens tokens firstId).rest.length)
        (Cursor.ofTokens tokens firstId).rest.length 0 (.ofTokens tokens firstId) = .ok found c'
      ∧ c'.errors = [] ∧ (parseProgram tokens firstId).result = found.filterMap id
      ∧ (parseProgram tokens firstId).nextId = c'.nextId := by
  unfold parseProgram at h ⊢
  dsimp only at h ⊢
  split at h
  · next statements c hrun =>
    obtain ⟨found, d, hfound, ⟨⟩⟩ := bind_eq_ok hrun
    exact ⟨found, _, hfound, h, rfl, rfl⟩
  · simp at h

/-- Tokens that parse without an error do not begin with an else. -/
theorem noElse_of_clean {tokens : List Token} {firstId : NodeId} {line : Nat}
    (h : (parseProgram tokens firstId).errors = []) :
    Tail.NoElse ⟨(Cursor.ofTokens tokens firstId).rest, line⟩ := by
  unfold parseProgram at h
  dsimp only at h
  split at h
  · next statements c hrun =>
    have hclean : c.errors.length = (Cursor.ofTokens tokens firstId).errors.length :=
      congrArg List.length h
    obtain ⟨ws, hinput, hws⟩ := derives_of_programUpTo hrun hclean
    have hstops : Stops [.elseWord] (Cursor.ofTokens tokens firstId).input := by
      rw [hinput, ← List.append_nil ws.flatten]
      exact stops_else hws (by simp [Stops])
    intro t ht
    rw [Bool.eq_false_iff, ne_eq, beq_iff_eq]
    intro helse
    apply hstops .elseWord (by simp)
    rw [Cursor.input, List.head?_map, ht, Option.map_some, helse]
  · simp at h

/-- The rounds of two programs in a row are the rounds of the first and then those of the second. -/
theorem collectUpTo_of_passesOver {more : List Token} {line rounds : Nat}
    {found found' : List (Option Stmt)} {d d' : Cursor}
    (h : PassesOver ⟨more, line⟩ m found c c') (h' : PassesOver ⟨[], line⟩ m found' d d')
    (hd : c'.extend ⟨more, line⟩ = d.extend ⟨[], line⟩)
    (hlen : (c.extend ⟨more, line⟩).rest.length ≤ rounds) :
    collectUpTo (fun _ => programRound m) rounds 0 (c.extend ⟨more, line⟩)
      = .ok (found ++ found') (d'.extend ⟨[], line⟩) := by
  obtain ⟨left, k, hleft, hfirst⟩ := h.2 rounds 0 hlen
  have hrest : (d.extend ⟨[], line⟩).rest = more := by
    rw [← hd, Cursor.extend, h.1, List.nil_append]
  obtain ⟨left', k', -, hsecond⟩ := h'.2 left k (by rwa [hrest])
  have hnil : (d'.extend ⟨[], line⟩).rest = [] := by simp [Cursor.extend, h'.1]
  rw [hfirst, bind_apply, hd, hsecond, bind_apply, collectUpTo_nil hnil]
  simp only [List.append_nil]
  rfl

/-- A parse of tokens in a row begins as that of the first ones, with the others behind them. -/
theorem exists_extend_ofTokens {body : List Token} (hbody : ∀ t ∈ body, isEnd t = false)
    (last : Nat) (tokens : List Token) (firstId k : NodeId) :
    ∃ line, Cursor.ofTokens (body ++ tokens) firstId
      = (Cursor.ofTokens (body ++ [.endAt last]) firstId).extend
          ⟨(Cursor.ofTokens tokens k).rest, line⟩ := by
  refine ⟨(Cursor.ofTokens (body ++ tokens) firstId).endLine, ?_⟩
  rw [Cursor.extend, Cursor.rest_ofTokens_endAt hbody]
  exact congrArg (fun rest => (⟨rest, _, _, _⟩ : Cursor))
    (Cursor.rest_ofTokens_append hbody tokens firstId)

/-- Tokens of two programs in a row, with one end of input behind them, parse as the first program
and then the second one. -/
theorem parseProgram_append {body tokens : List Token} {last : Nat} {firstId : NodeId}
    (hbody : ∀ t ∈ body, isEnd t = false)
    (hfirst : (parseProgram (body ++ [.endAt last]) firstId).errors = [])
    (hsecond : (parseProgram tokens
      (parseProgram (body ++ [.endAt last]) firstId).nextId).errors = []) :
    parseProgram (body ++ tokens) firstId
      = ⟨(parseProgram (body ++ [.endAt last]) firstId).result
          ++ (parseProgram tokens (parseProgram (body ++ [.endAt last]) firstId).nextId).result, [],
        (parseProgram tokens (parseProgram (body ++ [.endAt last]) firstId).nextId).nextId⟩ := by
  obtain ⟨found, c, hrounds, herrors, hresult, hid⟩ := rounds_of_clean hfirst
  obtain ⟨found', c', hrounds', herrors', hresult', hid'⟩ := rounds_of_clean hsecond
  rw [hid] at hsecond hrounds' hresult' hid' ⊢
  obtain ⟨line, hstart⟩ := exists_extend_ofTokens hbody last tokens firstId c.nextId
  have hrest := Cursor.rest_ofTokens_endAt hbody last firstId
  have hlen : (Cursor.ofTokens (body ++ tokens) firstId).rest.length
      = body.length + (Cursor.ofTokens tokens c.nextId).rest.length := by
    rw [hstart, Cursor.extend, hrest, List.length_append]
  generalize hm : (Cursor.ofTokens (body ++ tokens) firstId).rest.length = m at hlen
  have hnoElse : Tail.NoElse ⟨(Cursor.ofTokens tokens c.nextId).rest, line⟩ :=
    noElse_of_clean hsecond
  have hfirst := passesOver_of_clean (m := m) hnoElse
    (by rw [hrest]; omega) _ le_rfl le_rfl hrounds (by rw [herrors]; rfl)
  have hsecond := passesOver_of_clean (m := m) (τ := ⟨[], line⟩) (by simp [Tail.NoElse])
    (by omega) _ le_rfl le_rfl hrounds' (by rw [herrors']; rfl)
  have hseam : c.extend ⟨(Cursor.ofTokens tokens c.nextId).rest, line⟩
      = (Cursor.ofTokens tokens c.nextId).extend ⟨[], line⟩ := by
    simp only [Cursor.extend, hfirst.1, herrors, List.nil_append, List.append_nil]
    rfl
  have hall := collectUpTo_of_passesOver hfirst hsecond hseam le_rfl
  rw [← hstart, hm] at hall
  have hprogram : programUpTo m (Cursor.ofTokens (body ++ tokens) firstId)
      = .ok ((found ++ found').filterMap id) (c'.extend ⟨[], line⟩) := by
    have hcollect : collect (fun _ => programRound m) (Cursor.ofTokens (body ++ tokens) firstId)
        = .ok (found ++ found') (c'.extend ⟨[], line⟩) := by
      rw [collect, hm]
      exact hall
    rw [programUpTo_eq, bind_apply, hcollect]
    rfl
  rw [parseProgram, hm, hprogram, hresult, hresult', hid']
  simp [Cursor.extend, herrors']

end Lox.Grammar
