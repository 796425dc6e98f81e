import Lox.Proofs.Prediction.Statements

/-!
# Where a program breaks off

A parse has a missing part exactly if its tokens are no program of the relaxed grammar, and it finds
the first one as early as possible: what stands before it can be extended to a program, and with the
token it is seen at this is no longer so.
-/

namespace Lox.Grammar

open Ebnf (name star)

variable {w before rest rest' : List Terminal} {k : Verdict}

theorem decided_declarations : Decided (star (name .declaration)) :=
  have hprogram : Decided (relaxed .program) := decided_relaxed .program
  hprogram.of_seq_cons.1

theorem IsProgram.walk (h : IsProgram w) : Walk (star (name .declaration)) w .passed [] := by
  have hwalk := walk_of_derives (v := []) (isProgram_iff.mp h) decided_declarations (by simp)
  rwa [List.append_nil] at hwalk

theorem Walk.isProgram (h : Walk (star (Ebnf.name .declaration)) w .passed []) : IsProgram w := by
  obtain ⟨u, hw, hu⟩ := h.exists_read decided_declarations
  rw [List.append_nil] at hw
  rw [hw]
  exact isProgram_iff.mpr hu

/-- What a walk has read can be extended to a program. -/
theorem Walk.isViable (h : Walk (star (Ebnf.name .declaration)) (before ++ rest) k rest) :
    IsViable before := by
  obtain ⟨u, hu, hread⟩ := h.exists_read decided_declarations
  obtain rfl := List.append_cancel_right hu
  cases k with
  | passed =>
      refine ⟨[], isProgram_iff.mpr ?_⟩
      rwa [List.append_nil]
  | stopped =>
      obtain ⟨v, hv⟩ := hread
      exact ⟨v, isProgram_iff.mpr hv⟩

/-- A walk along declarations ends before the end of the input. -/
def EndsEarly (w rest : List Terminal) : Prop :=
  ∃ k, Walk (star (name .declaration)) w k rest ∧ (k = .passed → rest ≠ [])

/-- Where a walk ends early, no program goes on with the next terminal. -/
theorem EndsEarly.not_isProgram (h : EndsEarly (before ++ rest) rest)
    (hhead : rest.head? = rest'.head?) : ¬ IsProgram (before ++ rest') := by
  obtain ⟨k, hwalk, hend⟩ := h
  intro hprogram
  obtain ⟨u, hu, hwalk'⟩ := hwalk.exchange (v := []) rfl hhead
  obtain rfl := List.append_cancel_right hu
  obtain ⟨rfl, hrest'⟩ := hwalk'.unique hprogram.walk
  refine hend rfl ?_
  rw [← List.head?_eq_none_iff, hhead, ← List.nil_append rest', hrest']
  rfl

theorem Until.endsEarly {α : Type}
    (h : Until (· = []) (name .declaration) w (none : Option α) rest) : EndsEarly w rest := by
  rcases h with hstopped | ⟨hpassed, hrest⟩
  · exact ⟨.stopped, hstopped, fun h => by cases h⟩
  · exact ⟨.passed, hpassed, fun _ => hrest⟩

/-- The token stands where the tokens before it can be extended to a program, but no longer with the
token itself. At their end they can be extended to a program, but are none. -/
def BreaksAt (read : List Token) (line : Nat) (t : Token) : Prop :=
  (∃ before after, read = before ++ t :: after ∧ IsViable (before.map Token.terminal)
    ∧ ¬ IsViable ((before ++ [t]).map Token.terminal))
  ∨ t = .endAt line ∧ IsViable (read.map Token.terminal) ∧ ¬ IsProgram (read.map Token.terminal)

theorem EndsEarly.breaksAt {read ts : List Token} (hts : ts <:+ read) (line : Nat)
    (h : EndsEarly (read.map Token.terminal) (ts.map Token.terminal)) :
    BreaksAt read line (ts.headD (.endAt line)) := by
  obtain ⟨before, rfl⟩ := hts
  rw [List.map_append] at h
  have hviable : IsViable (before.map Token.terminal) := by
    obtain ⟨k, hwalk, -⟩ := h
    exact hwalk.isViable
  cases ts with
  | nil =>
      refine .inr ⟨rfl, ?_⟩
      rw [List.append_nil]
      refine ⟨hviable, ?_⟩
      have hnot : ¬ IsProgram (before.map Token.terminal ++ []) := h.not_isProgram rfl
      rwa [List.append_nil] at hnot
  | cons t after =>
      refine .inl ⟨before, after, rfl, hviable, ?_⟩
      rintro ⟨v, hv⟩
      have hnot : ¬ IsProgram (before.map Token.terminal ++ t.terminal :: v) := h.not_isProgram rfl
      rw [List.map_append, List.append_assoc] at hv
      exact hnot hv

theorem errors_parseProgram (tokens : List Token) (firstId : NodeId) :
    (parseProgram tokens firstId).errors
      = reports (programUpTo (Cursor.ofTokens tokens firstId).rest.length
          (Cursor.ofTokens tokens firstId)) := by
  unfold parseProgram
  dsimp only
  split
  · next hrun =>
    rw [hrun]
    rfl
  · next hrun =>
    rw [hrun]
    rfl

theorem parseProgram_arrives (tokens : List Token) (firstId : NodeId) :
    ((parseProgram tokens firstId).errors.find? Error.unwinds = none
      ∧ IsProgram ((tokens.takeWhile (!isEnd ·)).map Token.terminal))
    ∨ ∃ e, (parseProgram tokens firstId).errors.find? Error.unwinds = some e
      ∧ ∃ ts, ts <:+ tokens.takeWhile (!isEnd ·)
        ∧ e.token = ts.headD (.endAt (Cursor.ofTokens tokens firstId).endLine)
        ∧ EndsEarly ((tokens.takeWhile (!isEnd ·)).map Token.terminal) (ts.map Token.terminal) := by
  have harrives := (pursues_programUpTo (Cursor.ofTokens tokens firstId).rest.length).arrives
    (Cursor.ofTokens tokens firstId) le_rfl
  have hfirst : firstUnwinding (Cursor.ofTokens tokens firstId)
      (programUpTo (Cursor.ofTokens tokens firstId).rest.length (Cursor.ofTokens tokens firstId))
      = (parseProgram tokens firstId).errors.find? Error.unwinds := by
    rw [errors_parseProgram]
    rfl
  rw [← hfirst]
  generalize programUpTo _ _ = r at harrives
  cases harrives with
  | passed hnone _ _ hV =>
      obtain ⟨hwalk, hnil⟩ := hV
      rw [hnil] at hwalk
      exact .inl ⟨hnone, hwalk.isProgram⟩
  | stopped hsome hrest htoken hV => exact .inr ⟨_, hsome, _, hrest, htoken, hV.endsEarly⟩

/-- A parse has no missing part exactly for the programs of the relaxed grammar, and otherwise the
first one is seen at the token at which the input breaks off. -/
theorem parseProgram_first_unwinding (tokens : List Token) (firstId : NodeId) :
    ((∀ e ∈ (parseProgram tokens firstId).errors, e.unwinds = false)
      ↔ IsProgram ((tokens.takeWhile (!isEnd ·)).map Token.terminal))
    ∧ ∀ e, (parseProgram tokens firstId).errors.find? Error.unwinds = some e →
        BreaksAt (tokens.takeWhile (!isEnd ·)) (Cursor.ofTokens tokens firstId).endLine e.token := by
  have hclean : (∀ e ∈ (parseProgram tokens firstId).errors, e.unwinds = false)
      ↔ (parseProgram tokens firstId).errors.find? Error.unwinds = none := by
    simp
  rw [hclean]
  rcases parseProgram_arrives tokens firstId with ⟨hnone, hprogram⟩ | ⟨e, hsome, ts, hts, htoken, h⟩
  · refine ⟨iff_of_true hnone hprogram, fun e he => ?_⟩
    cases hnone.symm.trans he
  · refine ⟨iff_of_false (by simp [hsome]) fun hprogram => ?_, fun e' he' => ?_⟩
    · obtain ⟨before, hread⟩ := hts
      rw [← hread, List.map_append] at h hprogram
      exact h.not_isProgram rfl hprogram
    · cases hsome.symm.trans he'
      rw [htoken]
      exact h.breaksAt hts _

theorem parseProgram_first_unwinding_print_paren :
    (parseProgram [⟨.symbol .printWord, "print", 1⟩, ⟨.symbol .rightParen, ")", 1⟩] 0).errors.find?
        Error.unwinds = some ⟨.missing .expression, ⟨.symbol .rightParen, ")", 1⟩⟩
      ∧ BreaksAt [⟨.symbol .printWord, "print", 1⟩, ⟨.symbol .rightParen, ")", 1⟩] 1
          ⟨.symbol .rightParen, ")", 1⟩ := by
  have hfirst : (parseProgram [⟨.symbol .printWord, "print", 1⟩, ⟨.symbol .rightParen, ")", 1⟩]
      0).errors.find? Error.unwinds
      = some ⟨.missing .expression, ⟨.symbol .rightParen, ")", 1⟩⟩ := by
    decide
  exact ⟨hfirst, (parseProgram_first_unwinding _ 0).2 _ hfirst⟩

end Lox.Grammar
