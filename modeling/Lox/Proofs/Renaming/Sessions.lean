import Lox.Proofs.Renaming.Lockstep
import Lox.Proofs.Renaming.Resolution
import Lox.Proofs.Session.Invariant

/-!
# Renaming in an accepted program

An accepted program stays accepted if a local variable or a parameter of it gets a name that the
source does not contain, and the run of the renamed program has the same output and status.
-/

namespace Lox

open Machine (State Config Outcome)
open Resolution (ofStmts)

/-- The program after a renaming. -/
def Renaming.program (ρ : Renaming) (program : List Stmt) : List Stmt :=
  Stmt.listRename ρ [] [] 0 program

/-- How the run of a source ends: its status, and the sink with all output. -/
def Session.ending (r : Option (Status × Session)) : Option (Status × Sink) :=
  r.map fun r => (r.1, r.2.σ.sink)

namespace Session

variable {s : Session} {source source' : String} {program : List Stmt} {ρ : Renaming} {sink : Sink}
  {time : Nat → Float}

/-- An accepted program is built from tokens other than the new name. -/
theorem fresh_of_check {s s' : Session} (hnew : ∀ t ∈ Lexer.tokens source, t.lexeme ≠ ρ.new)
    (h : s.check source = (some program, s')) : Stmt.ListBuilt ρ.Fresh program
      ∧ (ofStmts .program [] program).errors = []
      ∧ s'.σ = { s.σ with distances := s.σ.distances.add (ofStmts .program [] program).locals } := by
  have hfresh : ∀ t ∈ Lexer.tokens source, ρ.Fresh t :=
    fun t ht => ⟨hnew t ht, Lexer.spelled_of_mem_tokens ht⟩
  obtain ⟨-, hgrown, herrors, hσ⟩ := check_eq_some hfresh h
  exact ⟨hgrown.built, herrors, hσ⟩

/-- A renamed program breaks no rule, and the same distances are found in it. -/
theorem resolve_renamed (hcheck : (initial sink time).check source = (some program, s))
    (hρ : ∀ id, ρ.distance id = s.σ.distances[id]?)
    (hnew : ∀ t ∈ Lexer.tokens source, t.lexeme ≠ ρ.new) (r : Session) :
    r.resolve (ρ.program program) = (false, { r with σ :=
      { r.σ with distances := r.σ.distances.add (ofStmts .program [] program).locals } }) := by
  obtain ⟨hbuilt, herrors, -⟩ := fresh_of_check hnew hcheck
  obtain ⟨-, hscoped⟩ := (sound_initial sink time).of_check hcheck
  have hwell : Stmt.ListWellScoped (fun id r => ρ.distance id = r) [] program :=
    Stmt.ListWellScoped.imp (fun id r hk => (hρ id).trans hk.2) hscoped
  have hagree : (ofStmts .program [] (ρ.program program)).Agree (ofStmts .program [] program) :=
    Resolution.agree_ofStmts ⟨rfl, by simp [Scopes.Fresh]⟩ hbuilt
      (fun s _ => s.keepsCallables_nil) hwell
  obtain ⟨hlocals, hfaults⟩ := hagree
  rw [herrors, List.map_nil, List.map_eq_nil_iff] at hfaults
  simp only [resolve, Resolution.resolve, hfaults, hlocals, List.isEmpty_nil, if_true]

/-- The state in which the program of a source is run first. -/
theorem renamed_initial {distances : Machine.Distances}
    (hρ : ∀ id, ρ.distance id = distances[id]?) :
    State.Renamed ρ [false] { (initial sink time).σ with distances := distances }
      { (initial sink time).σ with distances := distances } := by
  refine ⟨rfl, ⟨rfl, rfl, fun f m hf => ?_⟩, rfl, fun i => by simp [initial, State.initial],
    rfl, fun id => (hρ id).symm⟩
  obtain ⟨rfl, rfl⟩ : f = 0 ∧ m = false := by
    cases f with
    | zero => simpa using hf.symm
    | succ f => simp at hf
  intro x _
  change Option.Rel _ (Bindings.get? x [(Native.clock.name, Value.native .clock)])
    (Bindings.get? x [(Native.clock.name, Value.native .clock)])
  rw [Bindings.get?, Bindings.get?]
  split
  · exact .some (.native .clock)
  · exact .none

/-- A program and the renamed one end alike, if they end. -/
theorem ending_interpret {r r' : Session} {program program' : List Stmt}
    (h : (Config.ofProgram program r.σ).Renamed ρ (Config.ofProgram program' r'.σ)) (steps : Nat) :
    ending (r'.interpret steps program') = ending (r.interpret steps program) := by
  have hrun := h.run steps
  unfold interpret
  generalize (Config.ofProgram program r.σ).run steps = o at hrun ⊢
  generalize (Config.ofProgram program' r'.σ).run steps = o' at hrun ⊢
  cases hrun with
  | none => rfl
  | @some o o' halike =>
      obtain ⟨hok, hsink⟩ := halike
      obtain ⟨result, σ⟩ := o
      obtain ⟨result', σ'⟩ := o'
      dsimp only at hok hsink
      cases result with
      | ok flow =>
          cases result' with
          | ok flow' => simp [ending, finish, hsink]
          | error failure' => cases hok
      | error failure =>
          cases result' with
          | ok flow' => cases hok
          | error failure' => simp [ending, finish, report, hsink]

/-- The first configurations of an accepted program and of the renamed one are related. -/
theorem renamed_ofProgram (hcheck : (initial sink time).check source = (some program, s))
    (hρ : ∀ id, ρ.distance id = s.σ.distances[id]?)
    (hnew : ∀ t ∈ Lexer.tokens source, t.lexeme ≠ ρ.new) :
    (Config.ofProgram program s.σ).Renamed ρ (Config.ofProgram (ρ.program program) s.σ) := by
  obtain ⟨hbuilt, -, hσ⟩ := fresh_of_check hnew hcheck
  have hstate : State.Renamed ρ [false] s.σ s.σ := by
    rw [hσ] at hρ ⊢
    exact renamed_initial hρ
  have hprogram : Machine.ListRenamable ρ [] program :=
    ⟨hbuilt, fun s _ => s.keepsCallables_nil⟩
  refine .inProgram [] 0 hstate ?_ hprogram .done
  rw [hσ]
  exact .global rfl

theorem ending_renamed (hcheck : (initial sink time).check source = (some program, s))
    (hρ : ∀ id, ρ.distance id = s.σ.distances[id]?)
    (hnew : ∀ t ∈ Lexer.tokens source, t.lexeme ≠ ρ.new) {s' : Session} (hs' : s'.σ = s.σ)
    (steps : Nat) : ending (s'.interpret steps (ρ.program program))
      = ending ((initial sink time).run steps source) := by
  have hrelated := renamed_ofProgram hcheck hρ hnew
  have hrun : (initial sink time).run steps source = s.interpret steps program := by
    simp only [run, hcheck]
  rw [hrun]
  refine ending_interpret (ρ := ρ) ?_ steps
  rwa [hs']

/-- In an accepted program, a variable of any scope but the global one is renamed with the variables
and assignments that are resolved to it, to a name that the source does not contain. Then the
program is accepted again, and its run in a new session ends after as many steps, if it ends, with
the same status and the same output. -/
theorem renamed_program_runs_alike
    (hcheck : (initial sink time).check source = (some program, s))
    (hρ : ∀ id, ρ.distance id = s.σ.distances[id]?)
    (hnew : ∀ t ∈ Lexer.tokens source, t.lexeme ≠ ρ.new) :
    (∃ s', (initial sink time).resolve (ρ.program program) = (false, s') ∧ ∀ steps,
        ending (s'.interpret steps (ρ.program program))
          = ending ((initial sink time).run steps source))
      ∧ ∀ source', ((initial sink time).parse source').1 = (ρ.program program, false) →
        ((initial sink time).check source').1 = some (ρ.program program) ∧ ∀ steps,
          ending ((initial sink time).run steps source')
            = ending ((initial sink time).run steps source) := by
  have hresolve := resolve_renamed hcheck hρ hnew
  obtain ⟨-, -, hσ⟩ := fresh_of_check hnew hcheck
  refine ⟨⟨_, hresolve (initial sink time), ending_renamed hcheck hρ hnew hσ.symm⟩,
    fun source' hparse => ?_⟩
  obtain ⟨s', hcheck', hs'⟩ : ∃ s', (initial sink time).check source'
      = (some (ρ.program program), s') ∧ s'.σ = s.σ := by
    have hsame : ((initial sink time).parse source').2.σ = (initial sink time).σ := rfl
    unfold check
    generalize (initial sink time).parse source' = r at hparse hsame ⊢
    obtain ⟨⟨parsed, failed⟩, t⟩ := r
    cases hparse
    simp only [hresolve] at hsame ⊢
    exact ⟨_, rfl, by rw [hσ, hsame]⟩
  refine ⟨by rw [hcheck'], fun steps => ?_⟩
  have hrun : (initial sink time).run steps source' = s'.interpret steps (ρ.program program) := by
    simp only [run, hcheck']
  rw [hrun]
  exact ending_renamed hcheck hρ hnew hs' steps

/-- The names in a block that declares a variable and a function that prints a variable, and then
opens a block that declares a variable, with the distance of the variable that is printed. -/
def closureNames? (distances : Machine.Distances) : List Stmt → Option (List String × Option Nat)
  | [.block [.var declared _, .function ⟨f, [], [.print (.var id used)]⟩,
      .block (.var inner _ :: _)]] =>
        some ([declared.lexeme, f.lexeme, used.lexeme, inner.lexeme], distances[id]?)
  | _ => none

/-- The variable that a function reads is renamed where it is declared and in the function. The
variable of the same name in the block of the call keeps its name, and the function does not read
it. -/
theorem renamed_variable_of_closure :
    ∃ (ρ : Renaming) (program : List Stmt) (s s' : Session),
      (initial .unlimited fun _ => 0).check
          "{ var a = true; fun f() { print a; } { var a = nil; f(); } }" = (some program, s)
        ∧ (∃ declared value f id used inner other rest, ρ.program program
            = [.block [.var declared value, .function ⟨f, [], [.print (.var id used)]⟩,
                .block (.var inner other :: rest)]]
          ∧ declared.lexeme = "z" ∧ used.lexeme = "z" ∧ inner.lexeme = "a")
        ∧ (initial .unlimited fun _ => 0).resolve (ρ.program program) = (false, s')
        ∧ (ending (s'.interpret 40 (ρ.program program))).map
            (fun e => (e.1, String.fromUTF8? e.2.written)) = some (.ok, some "true\n") := by
  let s₀ := initial .unlimited fun _ => 0
  let source := "{ var a = true; fun f() { print a; } { var a = nil; f(); } }"
  have h : ((s₀.check source).1.bind (closureNames? (s₀.check source).2.σ.distances))
      = some (["a", "f", "a", "a"], some 1) := by
    decide +kernel
  rw [Option.bind_eq_some_iff] at h
  obtain ⟨program, hprogram, h⟩ := h
  have hcheck : s₀.check source = (some program, (s₀.check source).2) := by rw [← hprogram]
  obtain ⟨ρ, hscope, hold, hnew, hρ⟩ : ∃ ρ : Renaming, ρ.scope = [0] ∧ ρ.old = "a" ∧ ρ.new = "z"
      ∧ ∀ id, ρ.distance id = (s₀.check source).2.σ.distances[id]? :=
    ⟨⟨[0], "a", "z", _, by unfold Implicit; decide, by unfold Implicit; decide⟩, rfl, rfl, rfl,
      fun _ => rfl⟩
  have hunused : ∀ t ∈ Lexer.tokens source, t.lexeme ≠ ρ.new := by
    rw [hnew]
    decide +kernel
  obtain ⟨⟨s', hresolve, hrun⟩, -⟩ := renamed_program_runs_alike hcheck hρ hunused
  refine ⟨ρ, program, _, s', hcheck, ?_, hresolve, ?_⟩
  · unfold closureNames? at h
    split at h
    · next declared value f id used inner other rest =>
      simp only [Option.some.injEq, Prod.mk.injEq, List.cons.injEq] at h
      obtain ⟨⟨hdeclared, hf, hused, hinner, -⟩, hd⟩ := h
      have hmarks : ρ.marks [0] [.var declared value, .function ⟨f, [], [.print (.var id used)]⟩,
          .block (.var inner other :: rest)] = true := by
        simp [Renaming.marks, Stmt.declaresCallable, hf, hscope, hold]
      have hread : ρ.distance id = some 1 := (hρ id).trans hd
      simp only [Renaming.program, Stmt.listRename, Stmt.rename, FunctionDecl.rename, Expr.rename,
        hmarks]
      refine ⟨_, _, _, _, _, _, _, _, rfl, ?_, ?_, ?_⟩
      · simp [hdeclared, Renaming.name, hold, hnew]
      · simp [hused, Renaming.name, Renaming.refers, Renaming.leads, hread, hold, hnew]
      · simp [hinner, Renaming.marks, hscope]
    · cases h
  · rw [hrun]
    decide +kernel

end Session

end Lox
