import Lox.Proofs.Grammar.Ebnf

/-!
# The relaxed grammar

The grammar without the two restrictions that a parser notices too late to break off: whatever stands
to the left of an equals sign can be assigned to, and parameters and arguments are not limited in
number. What breaks one of these only is read to its end like any other program.
-/

namespace Lox.Grammar

open Ebnf (name seq alt opt star upTo)

/-- The productions of the relaxed grammar. -/
def relaxed : Name → Ebnf
  | .assignment => seq [name .ternary, opt (seq [symbol .equal, name .assignment])]
  | .parameters => seq [ident, star (seq [symbol .comma, ident])]
  | .arguments => seq [name .expression, star (seq [symbol .comma, name .expression])]
  | x => production x

/-- The word is derived from the right of a production when the names have these productions. -/
inductive DerivesBy (productions : Name → Ebnf) : Ebnf → List Terminal → Prop
  | terminal (t : Terminal) : DerivesBy productions (.terminal t) [t]
  | name {x : Name} {w : List Terminal} (h : DerivesBy productions (productions x) w) :
      DerivesBy productions (.name x) w
  | seqNil : DerivesBy productions (.seq []) []
  | seqCons {a : Ebnf} {parts : List Ebnf} {u v : List Terminal}
      (ha : DerivesBy productions a u) (h : DerivesBy productions (.seq parts) v) :
      DerivesBy productions (.seq (a :: parts)) (u ++ v)
  | alt {choices : List Ebnf} {a : Ebnf} {w : List Terminal} (ha : a ∈ choices)
      (h : DerivesBy productions a w) : DerivesBy productions (.alt choices) w
  | optNone (a : Ebnf) : DerivesBy productions (.opt a) []
  | optSome {a : Ebnf} {w : List Terminal} (h : DerivesBy productions a w) :
      DerivesBy productions (.opt a) w
  | starNil (a : Ebnf) : DerivesBy productions (.star a) []
  | starCons {a : Ebnf} {u v : List Terminal} (ha : DerivesBy productions a u)
      (h : DerivesBy productions (.star a) v) : DerivesBy productions (.star a) (u ++ v)
  | upToNil (n : Nat) (a : Ebnf) : DerivesBy productions (.upTo n a) []
  | upToCons {n : Nat} {a : Ebnf} {u v : List Terminal} (ha : DerivesBy productions a u)
      (h : DerivesBy productions (.upTo n a) v) : DerivesBy productions (.upTo (n + 1) a) (u ++ v)

/-- The terminals are those of a program of the relaxed grammar, its end of input left out. -/
def IsProgram (w : List Terminal) : Prop :=
  DerivesBy relaxed (name .program) (w ++ [.endOfInput])

/-- The terminals can be extended to a program of the relaxed grammar. -/
def IsViable (w : List Terminal) : Prop :=
  ∃ v, IsProgram (w ++ v)

variable {productions : Name → Ebnf} {a b : Ebnf} {parts : List Ebnf} {x : Name}
  {t : Terminal} {u v w : List Terminal}

theorem derivesBy_name_iff :
    DerivesBy productions (name x) w ↔ DerivesBy productions (productions x) w := by
  constructor
  · rintro ⟨⟩
    assumption
  · exact .name

@[simp] theorem derivesBy_terminal_iff : DerivesBy productions (.terminal t) w ↔ w = [t] := by
  constructor
  · rintro ⟨⟩
    rfl
  · rintro rfl
    exact .terminal t

@[simp] theorem derivesBy_seq_nil_iff : DerivesBy productions (seq []) w ↔ w = [] := by
  constructor
  · rintro ⟨⟩
    rfl
  · rintro rfl
    exact .seqNil

@[simp] theorem derivesBy_seq_cons_iff : DerivesBy productions (seq (a :: parts)) w
    ↔ ∃ u v, w = u ++ v ∧ DerivesBy productions a u ∧ DerivesBy productions (seq parts) v := by
  constructor
  · intro h
    cases h with
    | seqCons ha h => exact ⟨_, _, rfl, ha, h⟩
  · rintro ⟨u, v, rfl, ha, h⟩
    exact .seqCons ha h

@[simp] theorem derivesBy_opt_iff :
    DerivesBy productions (opt a) w ↔ w = [] ∨ DerivesBy productions a w := by
  constructor
  · intro h
    cases h with
    | optNone => exact .inl rfl
    | optSome h => exact .inr h
  · rintro (rfl | h)
    · exact .optNone a
    · exact .optSome h

theorem isProgram_iff : IsProgram w ↔ DerivesBy relaxed (star (name .declaration)) w := by
  rw [IsProgram, derivesBy_name_iff]
  change DerivesBy relaxed (seq [star (name .declaration), .terminal .endOfInput]) _ ↔ _
  simp

end Lox.Grammar
