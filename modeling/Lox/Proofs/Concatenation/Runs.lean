import Lox.Proofs.Machine.Contexts

/-!
# Running programs in a row

A program with other statements behind it runs as it does alone. If it ends without a failure, then
the run goes on with the other statements in the state that it has left.
-/

namespace Lox.Machine

namespace Config

variable {σ σ' : State}

/-- The moment at which a statement of a program has ended: the run goes on behind it, or fails. -/
theorem advance_statement {s : Stmt} {d : Nat} {c : Config .flow} {o : Outcome .flow}
    (hrun : (exec s .done σ : Config .flow).advance d = .inl c) (hend : c.step = .inr o)
    (rest : List Stmt) :
    (ofProgram (s :: rest) σ).advance (d + 1)
      = match o.result with
        | .ok _ => .inl (ofProgram rest o.σ)
        | .error failure => .inl (.fail (a := .flow) failure .done o.σ.reset) := by
  have honto : (ofProgram (s :: rest) σ).advance d = .inl (c.onto (.push (.program rest) .done)) :=
    advance_onto hrun
  rw [advance_add honto, onto_of_end hend]
  obtain ⟨result, σ₁⟩ := o
  cases result <;> rfl

theorem eq_of_advance_nil {flow : Flow} {n : Nat}
    (h : (ofProgram [] σ).advance n = .inr ⟨.ok flow, σ'⟩) : σ = σ' := by
  rw [ofProgram, inProgram_nil] at h
  split at h
  · exact absurd (result_of_fail h) nofun
  · cases outcome_eq_of_end rfl h
    rfl

/-- If a program ends, then its first statement has ended before. -/
theorem exists_statement_end {s : Stmt} {rest : List Stmt} {n : Nat} {o : Outcome .flow}
    (h : (ofProgram (s :: rest) σ).advance n = .inr o) :
    ∃ d k c o', n = d + 1 + k ∧ (exec s .done σ : Config .flow).advance d = .inl c
      ∧ c.step = .inr o' := by
  cases hrun : (exec s .done σ : Config .flow).advance n with
  | inl c =>
      have honto : (ofProgram (s :: rest) σ).advance n
          = .inl (c.onto (.push (.program rest) .done)) := advance_onto hrun
      rw [honto] at h
      cases h
  | inr o' =>
      obtain ⟨d, c, hd, hinside, hend⟩ := exists_end hrun
      exact ⟨d, n - (d + 1), c, o', by omega, hinside, hend⟩

/-- Behind a program that ends without a failure, the run goes on with what stands there. -/
theorem advance_append {program : List Stmt} {flow : Flow} {n : Nat} (more : List Stmt)
    (h : (ofProgram program σ).advance n = .inr ⟨.ok flow, σ'⟩) :
    ∃ d, (ofProgram (program ++ more) σ).advance d = .inl (ofProgram more σ') := by
  induction program generalizing σ n with
  | nil =>
      rw [eq_of_advance_nil h]
      exact ⟨0, rfl⟩
  | cons s rest ih =>
      obtain ⟨d, k, c, ⟨result, σ₁⟩, rfl, hrun, hend⟩ := exists_statement_end h
      have hfirst := advance_statement hrun hend rest
      have hfirst' := advance_statement hrun hend (rest ++ more)
      cases result with
      | error failure =>
          rw [advance_add hfirst] at h
          exact absurd (result_of_fail h) nofun
      | ok x =>
          rw [advance_add hfirst] at h
          obtain ⟨d', hrest⟩ := ih h
          refine ⟨d + 1 + d', ?_⟩
          rw [List.cons_append, advance_add hfirst']
          exact hrest

end Config

end Lox.Machine
