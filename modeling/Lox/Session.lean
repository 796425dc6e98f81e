import Lox.Diagnostic
import Lox.Grammar.Statement
import Lox.Machine.Step

/-!
# Sessions

A session runs sources one after the other in one interpreter. A source is first checked: it has to
be free of lexical and syntax errors and to follow the static rules. Only a source that passes is
run, and only what it binds at the top level is seen by later ones. Node identities go on from
source to source, so that no distance is ever recorded twice.
-/

namespace Lox

open Machine (State Config Outcome)

/-- How the run of a source ends. -/
inductive Status
  | ok
  | staticError
  | runtimeError
  deriving DecidableEq, Repr

/-- The code with which a process ends. -/
def Status.exitCode : Status → Nat
  | .ok => 0
  | .staticError => 65
  | .runtimeError => 70

/-- An interpreter with what it has reported. -/
structure Session where
  σ : State
  /-- The identity of the next node. -/
  nextId : NodeId
  /-- The diagnostics reported so far, in order. -/
  diagnostics : List Diagnostic

namespace Session

def initial (sink : Sink) (time : Nat → Float) : Session :=
  ⟨.initial sink time, 0, []⟩

/-- The session after it reports diagnostics. -/
def report (s : Session) (ds : List Diagnostic) : Session :=
  { s with diagnostics := s.diagnostics ++ ds }

/-- The statements of a source that parse. All its errors are reported, the lexical ones first, and
the answer says whether there were any. -/
def parse (s : Session) (source : String) : (List Stmt × Bool) × Session :=
  let parsed := Grammar.parseProgram (Lexer.tokens source) s.nextId
  let errors :=
    (Lexer.errors source).map .lexical ++ parsed.errors.map Diagnostic.grammar
  ((parsed.result, !errors.isEmpty), { s with nextId := parsed.nextId }.report errors)

/-- Record the distances of a program, or report the rules that it breaks; the answer says whether
it breaks any. -/
def resolve (s : Session) (program : List Stmt) : Bool × Session :=
  match Resolution.resolve program with
  | .ok found => (false, { s with σ := { s.σ with distances := s.σ.distances.add found } })
  | .error errors => (true, s.report (errors.map .resolution))

/-- The program of a source that passes all checks. -/
def check (s : Session) (source : String) : Option (List Stmt) × Session :=
  match s.parse source with
  | ((_, true), s) => (none, s)
  | ((program, false), s) =>
      match s.resolve program with
      | (true, s) => (none, s)
      | (false, s) => (some program, s)

/-- The session at the end of a run. -/
def finish (s : Session) (outcome : Outcome .flow) : Status × Session :=
  let s := { s with σ := outcome.σ }
  match outcome.result with
  | .ok _ => (.ok, s)
  | .error f => (.runtimeError, s.report [.failure f])

/-- Run a program, if it ends within this many steps. -/
def interpret (s : Session) (steps : Nat) (program : List Stmt) : Option (Status × Session) :=
  ((Config.ofProgram program s.σ).run steps).map s.finish

/-- Check a source, and run it if it passes and ends within this many steps. -/
def run (s : Session) (steps : Nat) (source : String) : Option (Status × Session) :=
  match s.check source with
  | (none, s) => some (.staticError, s)
  | (some program, s) => s.interpret steps program

end Session

end Lox
