import Lox.Proofs.Concatenation.Bounds
import Lox.Proofs.Concatenation.Guarded

/-!
# Errors stay in front of a semicolon

Tokens without braces and for statements, up to a semicolon, parse in the same way whatever stands
behind the semicolon, however broken they are, and what stands behind parses as it does on its own.
-/

namespace Lox.Grammar

variable {τ : Tail} {n m : Nat} {c c' : Cursor} {es : List Error}

/-- Skipping ends in front of the guarding semicolon or behind it. -/
theorem skipStatement_guarded (w : List Token) {semicolon : Token}
    (hsemicolon : semicolon.terminal = .symbol .semicolon) :
    ∃ v, (v = [] ∨ ∃ w', v = w' ++ [semicolon] ∧ w' <:+ w)
      ∧ ∀ more, skipStatement (w ++ semicolon :: more) = v ++ more := by
  induction w with
  | nil =>
      have hbegins : beginsStatement semicolon = false := by
        rw [beginsStatement, kind_of_symbol hsemicolon]
        rfl
      refine ⟨[], .inl rfl, fun more => ?_⟩
      simp [skipStatement, hbegins, hsemicolon]
  | cons t w ih =>
      by_cases hbegins : beginsStatement t = true
      · refine ⟨t :: w ++ [semicolon], .inr ⟨t :: w, rfl, List.suffix_rfl⟩, fun more => ?_⟩
        simp [skipStatement, hbegins]
      · by_cases ht : t.terminal = .symbol .semicolon
        · refine ⟨w ++ [semicolon], .inr ⟨w, rfl, List.suffix_cons t w⟩, fun more => ?_⟩
          simp [skipStatement, hbegins, ht]
        · obtain ⟨v, hv, hskip⟩ := ih
          refine ⟨v, hv.imp_right ?_, fun more => ?_⟩
          · rintro ⟨w', rfl, hw'⟩
            exact ⟨w', rfl, hw'.trans (List.suffix_cons t w)⟩
          · simpa [skipStatement, hbegins, ht] using hskip more

/-- What is skipped after a failure ends with the guarding semicolon at the latest. -/
theorem Cursor.Guarded.synchronize (hc : c.Guarded) :
    (Cursor.Taken { c with rest := synchronize c.rest }
        ∨ Cursor.Guarded { c with rest := synchronize c.rest })
      ∧ ∀ more, Grammar.synchronize (c.rest ++ more) = Grammar.synchronize c.rest ++ more := by
  obtain ⟨w, semicolon, hrest, hsemicolon, hw⟩ := hc
  have hskip : ∃ v, (v = [] ∨ ∃ w', v = w' ++ [semicolon] ∧ w' <:+ w)
      ∧ ∀ more, Grammar.synchronize (w ++ semicolon :: more) = v ++ more := by
    cases w with
    | nil => exact ⟨[], .inl rfl, fun more => by simp [Grammar.synchronize, hsemicolon]⟩
    | cons t w =>
        have ht : t.terminal ≠ .symbol .semicolon := by
          intro heq
          exact hw t List.mem_cons_self (by rw [heq]; exact List.mem_cons_self)
        obtain ⟨v, hv, hskip⟩ := skipStatement_guarded w hsemicolon
        refine ⟨v, hv.imp_right ?_, fun more => ?_⟩
        · rintro ⟨w', rfl, hw'⟩
          exact ⟨w', rfl, hw'.trans (List.suffix_cons t w)⟩
        · simpa [Grammar.synchronize, ht] using hskip more
  obtain ⟨v, hv, hskip⟩ := hskip
  have hrest' : Grammar.synchronize c.rest = v := by
    rw [hrest, hskip, List.append_nil]
  rw [hrest']
  constructor
  · rcases hv with rfl | ⟨w', rfl, hw'⟩
    · exact .inl rfl
    · exact .inr ⟨w', semicolon, rfl, hsemicolon, fun t ht => hw t (hw'.subset ht)⟩
  · intro more
    rw [hrest, List.append_assoc, List.singleton_append, hskip]

/-- A round in front of the semicolon does not see what stands behind it. -/
theorem exists_round (hτ : τ.NoElse) (hnm : n ≤ m) (hn : c.rest.length ≤ n) (hc : c.Guarded) :
    ∃ d? d, declarationUpTo n c = .ok d? d ∧ declarationUpTo m (c.extend τ) = .ok d? (d.extend τ)
      ∧ (d.Taken ∨ d.Guarded) ∧ d.rest.length < c.rest.length := by
  have hpos : 0 < c.rest.length := List.length_pos_iff.mpr hc.ne_nil
  obtain ⟨-, hresumes⟩ := closed_upTo hτ hnm
  obtain ⟨n, rfl⟩ : ∃ k, n = k + 1 := ⟨n - 1, by omega⟩
  obtain ⟨m, rfl⟩ : ∃ k, m = k + 1 := ⟨m - 1, by omega⟩
  obtain ⟨hs, hd⟩ := closed_upTo hτ (Nat.le_of_succ_le_succ hnm)
  have hclosed := closed_declarationRule hτ hs hd c hn
  have hhalts := halts_declarationRule (halts_statementUpTo n) (declarationUpTo n) c hc
  cases hrun : declarationRule (statementUpTo n) (declarationUpTo n) c with
  | ok a d =>
      rw [hrun] at hclosed hhalts
      have hfirst : declarationUpTo (n + 1) c = .ok (some a) d := by
        rw [declarationUpTo, recover, hrun]
      refine ⟨some a, d, hfirst, ?_, .inl hhalts, hresumes.shorter c _ d hn hc.ne_nil hfirst⟩
      rw [declarationUpTo, recover, hclosed.2.2 (.inr trivial)]
  | error e d =>
      rw [hrun] at hclosed hhalts
      have hfirst : declarationUpTo (n + 1) c
          = .ok none { d.record e with rest := synchronize d.rest } := by
        rw [declarationUpTo, recover, hrun]
      obtain ⟨hleft, hbehind⟩ := hhalts.synchronize
      refine ⟨none, _, hfirst, ?_, hleft, hresumes.shorter c _ _ hn hc.ne_nil hfirst⟩
      rw [declarationUpTo, recover, hclosed.2 hhalts.ne_nil]
      simp only [Cursor.extend, Cursor.record, hbehind]

theorem passesOver_of_guarded (hτ : τ.NoElse) (hnm : n ≤ m) (rounds : Nat) :
    ∀ {k : Nat} {c : Cursor}, c.rest.length ≤ n → c.rest.length ≤ rounds → c.Taken ∨ c.Guarded →
      ∃ found c', collectUpTo (fun _ => programRound n) rounds k c = .ok found c'
        ∧ PassesOver τ m found c c' := by
  induction rounds with
  | zero =>
      intro k c _ hrounds _
      have hnil : c.rest = [] := List.length_eq_zero_iff.mp (by omega)
      exact ⟨[], c, rfl, passesOver_nil hnil⟩
  | succ rounds ih =>
      intro k c hn hrounds hc
      rcases hc with hc | hc
      · exact ⟨[], c, collectUpTo_nil hc _ k, passesOver_nil hc⟩
      · obtain ⟨d?, d, hround, hround', hd, hlt⟩ := exists_round hτ hnm hn hc
        obtain ⟨found, c', hmore, hpasses⟩ := ih (k := k + 1) (by omega) (by omega) hd
        refine ⟨d? :: found, c', ?_, hpasses.cons hc.ne_nil hround' hlt⟩
        have hfirst : programRound n c = .ok (some d?) d := by
          rw [programRound_ne_nil hc.ne_nil, bind_apply, hround]
          rfl
        rw [collectUpTo, bind_apply, hfirst]
        dsimp only
        rw [bind_apply, hmore]
        rfl

/-- Enough rounds with large enough bounds give the same declarations, behind earlier errors. -/
theorem collectUpTo_preceded (hnm : n ≤ m) (rounds : Nat) :
    ∀ (rounds' k k' : Nat) (c : Cursor), c.rest.length ≤ n → c.rest.length ≤ rounds →
      c.rest.length ≤ rounds' →
      collectUpTo (fun _ => programRound m) rounds' k' (c.preceded es)
        = precededResult es (collectUpTo (fun _ => programRound n) rounds k c) := by
  induction rounds with
  | zero =>
      intro rounds' k k' c _ hrounds _
      have hnil : c.rest = [] := List.length_eq_zero_iff.mp (by omega)
      rw [collectUpTo_nil (c := c.preceded es) hnil]
      rfl
  | succ rounds ih =>
      intro rounds' k k' c hn hrounds hrounds'
      by_cases hne : c.rest = []
      · rw [collectUpTo_nil hne, collectUpTo_nil (c := c.preceded es) hne]
        rfl
      · have hpos : 0 < c.rest.length := List.length_pos_iff.mpr hne
        obtain ⟨rounds', rfl⟩ : ∃ r, rounds' = r + 1 := ⟨rounds' - 1, by omega⟩
        -- A declaration does not depend on earlier errors or on a bound that is larger.
        have hagrees : Agrees es n (declarationUpTo n) (declarationUpTo m) := (agrees_upTo hnm).2
        have hsame := (hagrees c hn).2
        have hresumes := (closed_upTo (τ := ⟨[], 0⟩) (by simp [Tail.NoElse]) (le_refl n)).2
        rw [collectUpTo, collectUpTo, bind_apply, bind_apply,
          programRound_ne_nil (c := c.preceded es) hne, programRound_ne_nil hne, bind_apply,
          bind_apply, hsame]
        cases hround : declarationUpTo n c with
        | error e d => rfl
        | ok d? d =>
            have hlt := hresumes.shorter c d? d hn hne hround
            have hmore := ih rounds' (k + 1) (k' + 1) d (by omega) (by omega) (by omega)
            change (collectUpTo (fun _ => programRound m) rounds' (k' + 1) >>= _) (d.preceded es)
              = precededResult es ((collectUpTo (fun _ => programRound n) rounds (k + 1) >>= _) d)
            rw [bind_apply, bind_apply, hmore]
            cases collectUpTo (fun _ => programRound n) rounds (k + 1) d <;> rfl

theorem exists_recover {α : Type} (rule : Rule α) (c : Cursor) :
    ∃ a? c', recover rule c = .ok a? c' := by
  unfold recover
  split
  · exact ⟨_, _, rfl⟩
  · exact ⟨_, _, rfl⟩

theorem exists_collectUpTo (n rounds k : Nat) (c : Cursor) :
    ∃ found c', collectUpTo (fun _ => programRound n) rounds k c = .ok found c' := by
  induction rounds generalizing k c with
  | zero => exact ⟨[], c, rfl⟩
  | succ rounds ih =>
      by_cases hne : c.rest = []
      · exact ⟨[], c, collectUpTo_nil hne _ k⟩
      · obtain ⟨d?, d, hround⟩ : ∃ d? d, declarationUpTo n c = .ok d? d := by
          cases n <;> exact exists_recover _ c
        obtain ⟨found, c', hmore⟩ := ih (k + 1) d
        refine ⟨d? :: found, c', ?_⟩
        have hfirst : programRound n c = .ok (some d?) d := by
          rw [programRound_ne_nil hne, bind_apply, hround]
          rfl
        rw [collectUpTo, bind_apply, hfirst]
        dsimp only
        rw [bind_apply, hmore]
        rfl

/-- A parse is a sequence of rounds. -/
theorem parseProgram_of_collectUpTo {tokens : List Token} {firstId : NodeId}
    {found : List (Option Stmt)} {c' : Cursor}
    (h : collectUpTo (fun _ => programRound (Cursor.ofTokens tokens firstId).rest.length)
      (Cursor.ofTokens tokens firstId).rest.length 0 (.ofTokens tokens firstId) = .ok found c') :
    parseProgram tokens firstId = ⟨found.filterMap id, c'.errors, c'.nextId⟩ := by
  have hprogram : programUpTo (Cursor.ofTokens tokens firstId).rest.length
      (.ofTokens tokens firstId) = .ok (found.filterMap id) c' := by
    rw [programUpTo_eq, bind_apply, collect, h]
    rfl
  rw [parseProgram, hprogram]

/-- The end of an input is that of its last part, if there is one. -/
theorem endLine_ofTokens_append {body : List Token} (hbody : ∀ t ∈ body, isEnd t = false)
    {tokens : List Token} (hne : tokens ≠ []) (firstId k : NodeId) :
    (Cursor.ofTokens (body ++ tokens) firstId).endLine = (Cursor.ofTokens tokens k).endLine := by
  have hfind : body.find? isEnd = none := by
    rw [List.find?_eq_none]
    intro t ht
    simp [hbody t ht]
  have hlast : (body ++ tokens).getLast? = tokens.getLast? := by
    rw [List.getLast?_append_of_ne_nil _ hne]
  simp only [Cursor.ofTokens, List.find?_append, hfind, Option.none_or, hlast]

/-- A parse that passes over its first tokens goes on as the parse of the others. -/
theorem parseProgram_append_of_passesOver {body b : List Token} {firstId k : NodeId}
    {found : List (Option Stmt)} (hbody : ∀ t ∈ body, isEnd t = false) (hne : b ≠ [])
    (h : PassesOver ⟨(Cursor.ofTokens b k).rest, (Cursor.ofTokens b k).endLine⟩
      (Cursor.ofTokens (body ++ b) firstId).rest.length found (.ofTokens body firstId) c) :
    parseProgram (body ++ b) firstId =
      let second := parseProgram b c.nextId
      ⟨found.filterMap id ++ second.result, c.errors ++ second.errors, second.nextId⟩ := by
  have hrest : (Cursor.ofTokens body firstId).rest = body := by
    rw [← List.append_nil body, Cursor.rest_ofTokens_append hbody]
    rfl
  have hwhole : Cursor.ofTokens (body ++ b) firstId = (Cursor.ofTokens body firstId).extend
      ⟨(Cursor.ofTokens b k).rest, (Cursor.ofTokens b k).endLine⟩ := by
    have hjoined := Cursor.rest_ofTokens_append hbody b firstId
    have hline := endLine_ofTokens_append hbody hne firstId k
    rw [Cursor.extend, hrest, ← hline]
    exact congrArg (fun rest => (⟨rest, _, firstId, []⟩ : Cursor)) hjoined
  have hseam : c.extend ⟨(Cursor.ofTokens b k).rest, (Cursor.ofTokens b k).endLine⟩
      = (Cursor.ofTokens b c.nextId).preceded c.errors := by
    simp only [Cursor.extend, h.1, Cursor.preceded, Cursor.ofTokens, List.nil_append,
      List.append_nil]
  have hle : (Cursor.ofTokens b c.nextId).rest.length
      ≤ (Cursor.ofTokens (body ++ b) firstId).rest.length := by
    rw [Cursor.rest_ofTokens_append hbody, List.length_append]
    exact Nat.le_add_left _ _
  obtain ⟨left, i, hleft, hmore⟩ := h.2 _ 0 (le_of_eq (congrArg (·.rest.length) hwhole.symm))
  obtain ⟨found', d, hsecond⟩ := exists_collectUpTo (Cursor.ofTokens b c.nextId).rest.length
    (Cursor.ofTokens b c.nextId).rest.length 0 (Cursor.ofTokens b c.nextId)
  have hrounds : collectUpTo (fun _ => programRound (Cursor.ofTokens (body ++ b) firstId).rest.length)
      left i ((Cursor.ofTokens b c.nextId).preceded c.errors) = precededResult c.errors _ :=
    collectUpTo_preceded hle _ left 0 i _ le_rfl le_rfl hleft
  rw [hsecond] at hrounds
  have hall : collectUpTo (fun _ => programRound (Cursor.ofTokens (body ++ b) firstId).rest.length)
      (Cursor.ofTokens (body ++ b) firstId).rest.length 0 (.ofTokens (body ++ b) firstId)
      = .ok (found ++ found') (d.preceded c.errors) := by
    rw [hwhole] at hmore ⊢
    rw [hmore, bind_apply, hseam, ← hwhole, hrounds]
    rfl
  rw [parseProgram_of_collectUpTo hall, parseProgram_of_collectUpTo hsecond,
    List.filterMap_append]
  rfl

/-- What stands behind a semicolon is parsed as on its own, and what stands in front of it as if
nothing stood behind it, if there is no brace and no for statement in front. -/
theorem parseProgram_append_semicolon {a b : List Token} {semicolon : Token} {firstId : NodeId}
    (ha : ∀ t ∈ a, t.terminal ∉ Terminal.endOfInput :: fences)
    (hsemicolon : semicolon.terminal = .symbol .semicolon)
    (hb : ∀ t, b.head? = some t → t.terminal ≠ .symbol .elseWord) :
    parseProgram (a ++ semicolon :: b) firstId =
      let first := parseProgram (a ++ [semicolon]) firstId
      let second := parseProgram b first.nextId
      ⟨first.result ++ second.result, first.errors ++ second.errors, second.nextId⟩ := by
  by_cases hne : b = []
  · have hnil (k : NodeId) : parseProgram [] k = ⟨[], [], k⟩ := rfl
    simp [hne, hnil]
  have hbody : ∀ t ∈ a ++ [semicolon], isEnd t = false := by
    intro t ht
    rw [isEnd, beq_eq_false_iff_ne]
    rcases List.mem_append.mp ht with ht | ht
    · exact fun heq => ha t ht (by rw [heq]; exact List.mem_cons_self)
    · rw [List.mem_singleton.mp ht, hsemicolon]
      exact nofun
  have hrest : (Cursor.ofTokens (a ++ [semicolon]) firstId).rest = a ++ [semicolon] := by
    rw [← List.append_nil (a ++ [semicolon]), Cursor.rest_ofTokens_append hbody]
    rfl
  have hguarded : (Cursor.ofTokens (a ++ [semicolon]) firstId).Guarded :=
    ⟨a, semicolon, hrest, hsemicolon, fun t ht h => ha t ht (List.mem_cons_of_mem _ h)⟩
  have hτ : Tail.NoElse ⟨(Cursor.ofTokens b 0).rest, (Cursor.ofTokens b 0).endLine⟩ := by
    intro t ht
    rw [beq_eq_false_iff_ne]
    apply hb t
    obtain ⟨u, b, rfl⟩ := List.exists_cons_of_ne_nil hne
    simp only [Cursor.ofTokens, List.takeWhile_cons] at ht
    split at ht <;> simp_all
  have hle : (Cursor.ofTokens (a ++ [semicolon]) firstId).rest.length
      ≤ (Cursor.ofTokens (a ++ [semicolon] ++ b) firstId).rest.length := by
    rw [Cursor.rest_ofTokens_append hbody, hrest]
    exact (List.prefix_append _ _).length_le
  obtain ⟨found, c, hfirst, hpasses⟩ :=
    passesOver_of_guarded (k := 0) hτ hle _ le_rfl le_rfl (.inr hguarded)
  have happend : a ++ semicolon :: b = a ++ [semicolon] ++ b := by simp
  rw [happend, parseProgram_append_of_passesOver hbody hne hpasses,
    parseProgram_of_collectUpTo hfirst]

/-- Two errors in front of the semicolon, the second one at it, and a statement behind. -/
theorem parseProgram_two_errors_before_semicolon :
    let word (s : Symbol) : Token := ⟨.symbol s, String.ofList s.letters, 1⟩
    let a := [word .varWord, word .plus, word .printWord]
    let b := [word .printWord, word .nilWord, word .semicolon]
    (∀ t ∈ a, t.terminal ∉ Terminal.endOfInput :: fences)
      ∧ (word .semicolon).terminal = .symbol .semicolon
      ∧ (∀ t, b.head? = some t → t.terminal ≠ .symbol .elseWord)
      ∧ parseProgram (a ++ word .semicolon :: b) 5 =
        ⟨[.print (.literal .nil)], [⟨.missing .variableName, word .plus⟩,
          ⟨.missing .expression, word .semicolon⟩], 5⟩ := by
  intro word a b
  have ha : ∀ t ∈ a, t.terminal ∉ Terminal.endOfInput :: fences := by decide
  have hb : ∀ t, b.head? = some t → t.terminal ≠ .symbol .elseWord := by
    rintro t ⟨⟩
    decide
  refine ⟨ha, rfl, hb, ?_⟩
  rw [parseProgram_append_semicolon ha rfl hb]
  rfl

end Lox.Grammar
