import Lox.Proofs.Grammar.Complete.Statements
import Lox.Proofs.Grammar.Sound.Statements

/-!
# The language of the parser

A list of tokens parses without an error exactly if its terminals are a program of the grammar. Only
the tokens before the first end of input count.
-/

namespace Lox.Grammar

open Ebnf (name)

variable {ws : List (List Terminal)}

theorem input_ofTokens (tokens : List Token) (firstId : NodeId) :
    (Cursor.ofTokens tokens firstId).input
      = (tokens.takeWhile (!isEnd ·)).map Token.terminal :=
  rfl

/-- Without an error, the tokens before the first end of input are declarations in a row. -/
theorem exists_declarations {tokens : List Token} {firstId : NodeId}
    (h : (parseProgram tokens firstId).errors = []) :
    ∃ ws : List (List Terminal), (tokens.takeWhile (!isEnd ·)).map Token.terminal = ws.flatten
      ∧ ∀ v ∈ ws, Derives (name .declaration) v := by
  unfold parseProgram at h
  dsimp only at h
  split at h
  · next statements c hrun =>
    have hclean : c.errors.length = (Cursor.ofTokens tokens firstId).errors.length :=
      congrArg List.length h
    exact derives_of_programUpTo hrun hclean
  · next e c hrun => simp at h

/-- The parser reports no error exactly for the tokens from whose terminals, with the end of input
after them, a program is derived. -/
theorem errors_parseProgram_eq_nil_iff (tokens : List Token) (firstId : NodeId) :
    (parseProgram tokens firstId).errors = []
      ↔ Derives (name .program)
          ((tokens.takeWhile (!isEnd ·)).map Token.terminal ++ [.endOfInput]) := by
  rw [← input_ofTokens tokens firstId, derives_program_iff]
  constructor
  · intro h
    obtain ⟨ws, hinput, hws⟩ := exists_declarations h
    exact ⟨ws, by rw [input_ofTokens, hinput], hws⟩
  · rintro ⟨ws, hinput, hws⟩
    unfold parseProgram
    dsimp only
    have hinput := List.append_cancel_right hinput
    obtain ⟨statements, c, hrun, -, herrors, -⟩ := takes_programUpTo hws
      (by rw [← hinput, Cursor.input, List.length_map])
      (Cursor.ofTokens tokens firstId) (by rw [hinput, List.append_nil])
    rw [hrun]
    exact herrors

end Lox.Grammar
