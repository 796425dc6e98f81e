import Lox.Command

/-!
# The command line

Reads arguments, files and lines, hands them to the library, and writes what it answers. A run is
advanced a bounded number of steps at a time, so that output appears while a program still runs.
-/

namespace Lox.CommandLine

open Machine (Answer State Config Outcome)

/-- The number of steps between two looks at the clock. -/
def stepsPerSlice : Nat := 10000

/-- The state with its clock showing the present time. -/
def withPresentTime (σ : State) : IO State := do
  let now := (← IO.monoMsNow).toFloat / 1000
  return { σ with clock := { σ.clock with time := fun _ => now } }

/-- Write what the output of a state holds beyond the bytes that are already written. -/
def writeOutput (σ : State) (shown : Nat) : IO Nat := do
  let out ← IO.getStdout
  let written := σ.sink.written
  out.write (written.extract shown written.size)
  out.flush
  return written.size

/-- A moment of a run with its clock showing the present time. -/
def refreshClock {final : Answer} : Config final → IO (Config final)
  | .eval e stack σ => return .eval e stack (← withPresentTime σ)
  | .exec s stack σ => return .exec s stack (← withPresentTime σ)
  | .answer x stack σ => return .answer x stack (← withPresentTime σ)
  | .fail failure stack σ => return .fail failure stack (← withPresentTime σ)

/-- Run to the end, writing output along the way. -/
partial def drive {final : Answer} (shown : Nat) (c : Config final) :
    IO (Outcome final × Nat) := do
  match (← refreshClock c).advance stepsPerSlice with
  | .inl c => drive (← writeOutput c.state shown) c
  | .inr outcome => return (outcome, ← writeOutput outcome.σ shown)

/-- Write the diagnostics of a session beyond those that are already written. -/
def writeDiagnostics (s : Session) (reported : Nat) : IO Unit := do
  IO.eprint (Command.errorText (s.diagnostics.drop reported))

/-- Run a source in a session. -/
def runSource (s : Session) (source : String) : IO (Status × Session) := do
  let reported := s.diagnostics.length
  let shown := s.σ.sink.written.size
  match s.check source with
  | (none, s) =>
      writeDiagnostics s reported
      return (.staticError, s)
  | (some program, s) =>
      let (outcome, _) ← drive shown (Config.ofProgram program s.σ)
      let (status, s) := s.finish outcome
      writeDiagnostics s reported
      return (status, s)

/-- A new session that writes to the standard output. -/
def newSession : Session :=
  .initial .unlimited fun _ => 0

/-- The bytes of the next line of the input, with its line break; none are left at its end. -/
partial def readLine (input : IO.FS.Stream) (line : Array UInt8) : IO (List UInt8) := do
  let bytes ← input.read 1
  match bytes.toList with
  | [] => return line.toList
  | b :: _ => if b = 10 then return (line.push b).toList else readLine input (line.push b)

/-- Answer the lines of the standard input. -/
partial def converse (s : Session) : IO UInt32 := do
  let out ← IO.getStdout
  out.putStr Command.promptText
  out.flush
  let line ← readLine (← IO.getStdin) #[]
  if line.isEmpty then
    out.putStr "\n"
    return 0
  match Command.Entry.ofLine line with
  | .exit => return 0
  | .undecodable =>
      IO.eprint Command.undecodableText
      return 1
  | .submit source =>
      let (_, s) ← runSource s source
      converse s

/-- Write a report. -/
def writeReport (r : Command.Report) : IO UInt32 := do
  let out ← IO.getStdout
  out.write r.output
  out.flush
  IO.eprint r.errors
  return r.exitCode.toUInt32

/-- Evaluate the expression that a source is. -/
def evaluateSource (source : String) : IO UInt32 := do
  match Command.soleExpression source with
  | .error errors => writeReport (.ofText "" errors .staticError)
  | .ok e =>
      let (outcome, _) ← drive 0 (Config.eval e .done newSession.σ)
      writeReport (Command.reportValue outcome)

/-- Do a task with the file at a path. -/
def performFile (task : Command.Task) (path : String) : IO UInt32 := do
  match ← (IO.FS.readBinFile path).toBaseIO with
  | .error _ => writeReport (Command.missingFile path)
  | .ok bytes =>
      match Text.Utf8.decode bytes.toList with
      | .error e => writeReport (.refused e.message)
      | .ok source =>
          match task with
          | .tokenize json => writeReport (Command.listTokens json source)
          | .parse => writeReport (Command.printTree source)
          | .evaluate => evaluateSource source
          | .run =>
              let (status, _) ← runSource newSession source
              return status.exitCode.toUInt32

def usage : String :=
  "usage: lox [tokenize [--json] FILE | parse FILE | evaluate FILE | run FILE | repl]\n"

/-- Run the command that the arguments name. Without arguments the prompt is started. -/
def perform : List String → IO UInt32
  | [] => converse newSession
  | ["repl"] => converse newSession
  | ["tokenize", path] => performFile (.tokenize false) path
  | ["tokenize", "--json", path] => performFile (.tokenize true) path
  | ["tokenize", path, "--json"] => performFile (.tokenize true) path
  | ["parse", path] => performFile .parse path
  | ["evaluate", path] => performFile .evaluate path
  | ["run", path] => performFile .run path
  | _ => do
      IO.eprint usage
      return 2

end Lox.CommandLine

/-- Run the command that the arguments name. -/
def main (arguments : List String) : IO UInt32 :=
  Lox.CommandLine.perform arguments
