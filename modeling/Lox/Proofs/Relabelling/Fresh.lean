import Lox.Proofs.Relabelling.Identities
import Lox.Proofs.Relabelling.Sessions

/-!
# Relabelling the program of a new session

A new session has seen no node, so that a program and the same program with other identities break
the same rules in it and run alike.
-/

namespace Lox

open Machine (State Config Outcome)
open Resolution (ofStmts)

variable {g : NodeId → NodeId} {program : List Stmt} {sink : Sink} {time : Nat → Float}

theorem Resolution.errors_ofIds (g : NodeId → NodeId) (program : List Stmt) :
    (ofStmts .program [] (Stmt.listRelabel (.ofIds g) program)).errors
      = (ofStmts .program [] program).errors := by
  have herror : Resolution.Error.relabel (.ofIds g) = fun e => e := rfl
  rw [relabel_ofStmts, Findings.relabel, herror, List.map_id']

namespace Session

/-- What is seen of a run: its status, the sink with all output, and all diagnostics. -/
def seen (r : Option (Status × Session)) : Option (Status × Sink × List Diagnostic) :=
  r.map fun r => (r.1, r.2.σ.sink, r.2.diagnostics)

/-- Resolve a program, and run it if it breaks no rule. -/
def runProgram (s : Session) (steps : Nat) (program : List Stmt) : Option (Status × Session) :=
  match s.resolve program with
  | (true, s) => some (.staticError, s)
  | (false, s) => s.interpret steps program

/-- A source without lexical and syntax errors runs as its program does. -/
theorem run_eq_runProgram {s : Session} {source : String} (hlexical : Lexer.errors source = [])
    (hparse : (Grammar.parseProgram (Lexer.tokens source) s.nextId).errors = []) (steps : Nat) :
    s.run steps source
      = runProgram { s with
          nextId := (Grammar.parseProgram (Lexer.tokens source) s.nextId).nextId } steps
          (Grammar.parseProgram (Lexer.tokens source) s.nextId).result := by
  unfold run check parse runProgram
  simp only [hlexical, hparse, List.map_nil, List.append_nil, List.isEmpty_nil, Bool.not_true,
    report]
  generalize Session.resolve _ _ = r
  obtain ⟨broken, s'⟩ := r
  cases broken <;> rfl

theorem relabel_initial (D : Machine.Distances) :
    (State.initial sink time).relabel (.ofIds g) D
      = { State.initial sink time with distances := D } := by
  have hframes := Frames.push_map (Value.relabel (.ofIds g)) .empty
    [(Native.clock.name, .native .clock)]
  have hempty : (Frames.empty : Frames Value).map (Value.relabel (.ofIds g)) = .empty := by
    simp [Frames.map, Frames.empty]
  rw [hempty] at hframes
  simp only [State.initial, State.relabel, ← hframes, List.map_toArray, List.map_nil]
  rfl

/-- Nothing is seen of the identities when a run ends. -/
theorem seen_finish {s t : Session} (hd : t.diagnostics = s.diagnostics) (D : Machine.Distances)
    (outcome : Outcome .flow) :
    seen (some (t.finish (outcome.relabel (.ofIds g) D))) = seen (some (s.finish outcome)) := by
  obtain ⟨result, σ⟩ := outcome
  cases result with
  | ok flow => simp [seen, finish, Outcome.relabel, Machine.relabelResult, hd]
  | error failure =>
      have hfailure : failure.relabel (.ofIds g) = failure := by cases failure <;> rfl
      simp [seen, finish, report, Outcome.relabel, Machine.relabelResult, hd, hfailure]

theorem seen_interpret {s t : Session} {D D' : Machine.Distances}
    (hs : s.σ = { State.initial sink time with distances := D })
    (ht : t.σ = { State.initial sink time with distances := D' })
    (hd : t.diagnostics = s.diagnostics) (hmatches : ∀ id, D'[g id]? = D[id]?) (steps : Nat) :
    seen (t.interpret steps (Stmt.listRelabel (.ofIds g) program))
      = seen (s.interpret steps program) := by
  have hstate : s.σ.relabel (.ofIds g) D' = t.σ := by
    rw [hs, ht]
    exact relabel_initial D'
  have hstart : (Config.ofProgram program s.σ).state.Matches (.ofIds g) D' := by
    intro id
    rw [Config.distances_ofProgram, hs]
    exact hmatches id
  have hadvance := Config.relabel_advance hstart steps
  rw [← Config.relabel_ofProgram, hstate] at hadvance
  unfold interpret Config.run
  rw [hadvance]
  cases (Config.ofProgram program s.σ).advance steps with
  | inl c => rfl
  | inr outcome => exact seen_finish hd D' outcome

/-- A program and the same program with other identities are seen to run alike. -/
theorem seen_runProgram_ofIds (hg : Function.Injective g) (hnodup : (Stmt.listIds program).Nodup)
    {s t : Session} (hs : s.σ = .initial sink time) (ht : t.σ = .initial sink time)
    (hd : t.diagnostics = s.diagnostics) (steps : Nat) :
    seen (t.runProgram steps (Stmt.listRelabel (.ofIds g) program))
      = seen (s.runProgram steps program) := by
  have hfound := Resolution.relabel_ofStmts (φ := .ofIds g) .program [] program
  have hkeys : ((ofStmts .program [] program).locals.map Prod.fst).Nodup :=
    hnodup.sublist (Resolution.keys_ofStmts .program [] program)
  have hkeys' : ((ofStmts .program [] (Stmt.listRelabel (.ofIds g) program)).locals.map
      Prod.fst).Nodup := by
    have hmap := hkeys.map hg
    rw [hfound]
    simpa [Resolution.Findings.relabel, Function.comp_def] using hmap
  unfold runProgram resolve Resolution.resolve
  dsimp only
  rw [Resolution.errors_ofIds]
  by_cases hnone : (ofStmts .program [] program).errors.isEmpty = true
  · simp only [if_pos hnone]
    rw [hs, ht]
    apply seen_interpret
    · rfl
    · rfl
    · exact hd
    · intro id
      rw [Machine.Distances.getElem?_add hkeys', Machine.Distances.getElem?_add hkeys, hfound]
      exact congrArg (Option.or · _) (lookup_map_key hg (ofStmts .program [] program).locals id)
  · simp only [if_neg hnone]
    simp [seen, report, hs, ht, hd]

end Session

end Lox
