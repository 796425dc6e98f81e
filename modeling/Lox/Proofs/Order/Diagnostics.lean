import Lox.Proofs.Concatenation.Lexing
import Lox.Proofs.Order.Findings

/-!
# Diagnostics by line

The lines of the tokens of a source never fall. So the lines of the errors of a parse never fall,
except for invalid targets that are recorded late, and neither do those of the errors of resolution,
except where it walks against the order of the source.
-/

namespace Lox

namespace Lexer

end Lexer

open Grammar Resolution

/-- Nothing is swapped in a while statement whose block was written. -/
example : ¬ Swapped (parseProgram (Lexer.tokens "while (true) \x7b\nreturn;\nthis;\n\x7d") 0).result
    (Lexer.tokens "while (true) \x7b\nreturn;\nthis;\n\x7d")
    ⟨.topLevelReturn, ⟨.symbol .returnWord, "return", 2⟩⟩
    ⟨.thisOutsideClass, ⟨.symbol .thisWord, "this", 3⟩⟩ := by
  intro h
  exact absurd h.written (by decide +kernel)

end Lox
