import Lox.Session
import Lox.Syntax.Printer
import Lox.Text.Blank
import Lox.Text.Utf8
import Lox.Token.Json

/-!
# Commands

What the command line answers: the tokens of a source, the tree or the value of a single expression,
the run of a program, and the interactive prompt.
-/

namespace Lox

open Machine (State Config Outcome)

namespace Command

/-- What is done with a source. -/
inductive Task
  | tokenize (json : Bool)
  | parse
  | evaluate
  | run

/-- What a command leaves behind: its output, its error output and its exit code. -/
structure Report where
  output : ByteArray
  errors : String
  exitCode : Nat

/-- The diagnostics as they stand in the error output. -/
def errorText (ds : List Diagnostic) : String :=
  String.join (ds.map fun d => d.text ++ "\n")

/-- The report of a command that writes this text and these diagnostics. -/
def Report.ofText (text : String) (ds : List Diagnostic) (status : Status) : Report :=
  ⟨text.toUTF8, errorText ds, status.exitCode⟩

/-- The report of a session. -/
def Report.ofSession (s : Session) (exitCode : Nat) : Report :=
  ⟨s.σ.sink.written, errorText s.diagnostics, exitCode⟩

/-- The report of a command that cannot begin. -/
def Report.refused (message : String) : Report :=
  ⟨.empty, "Error: " ++ message ++ "\n", 1⟩

/-- The status of a source with these errors. -/
def statusOf (ds : List Diagnostic) : Status :=
  if ds.isEmpty then .ok else .staticError

/-- List the tokens of a source. -/
def listTokens (json : Bool) (source : String) : Report :=
  let tokens := Lexer.tokens source
  let errors := (Lexer.errors source).map Diagnostic.lexical
  let text :=
    if json then Token.jsonList tokens ++ "\n"
    else String.join (tokens.map fun t => t.display ++ "\n")
  .ofText text errors (statusOf errors)

/-- The expression that a source is, or its errors. -/
def soleExpression (source : String) : Except (List Diagnostic) Expr :=
  let parsed := Grammar.parseExpression (Lexer.tokens source) 0
  let errors := (Lexer.errors source).map .lexical ++ parsed.errors.map Diagnostic.grammar
  match parsed.result with
  | some e => if errors.isEmpty then .ok e else .error errors
  | none => .error errors

/-- Print the tree of the expression that a source is. -/
def printTree (source : String) : Report :=
  match soleExpression source with
  | .ok e => .ofText (e.text ++ "\n") [] .ok
  | .error errors => .ofText "" errors .staticError

/-- The report of the end of an evaluation: the value, or why there is none. -/
def reportValue (outcome : Outcome .value) : Report :=
  let s : Session := ⟨outcome.σ, 0, []⟩
  match outcome.result with
  | .ok value =>
      .ofSession { s with σ := s.σ.print (s.σ.display value) } Status.ok.exitCode
  | .error f => .ofSession (s.report [.failure f]) Status.runtimeError.exitCode

/-- Print the value of the expression that a source is, if its evaluation ends within this many
steps. All its names are global. -/
def printValue (steps : Nat) (time : Nat → Float) (source : String) : Option Report :=
  match soleExpression source with
  | .error errors => some (.ofText "" errors .staticError)
  | .ok e => ((Config.eval e .done (.initial .unlimited time)).run steps).map reportValue

/-- Run a source as a program, if it ends within this many steps. -/
def runProgram (steps : Nat) (time : Nat → Float) (source : String) : Option Report :=
  ((Session.initial .unlimited time).run steps source).map fun (status, s) =>
    .ofSession s status.exitCode

/-- Do a task with a source. -/
def Task.perform (task : Task) (steps : Nat) (time : Nat → Float) (source : String) :
    Option Report :=
  match task with
  | .tokenize json => some (listTokens json source)
  | .parse => some (printTree source)
  | .evaluate => printValue steps time source
  | .run => runProgram steps time source

/-- Do a task with the bytes of a source file. -/
def Task.performBytes (task : Task) (steps : Nat) (time : Nat → Float) (bytes : List UInt8) :
    Option Report :=
  match Text.Utf8.decode bytes with
  | .ok source => task.perform steps time source
  | .error e => some (.refused e.message)

/-- The report of a task whose source file does not exist. -/
def missingFile (path : String) : Report :=
  .refused ("Failed to open file \"" ++ path
    ++ "\"\n\nCaused by:\n    No such file or directory (os error 2)")

/-- Write a text to the output of a session. -/
def say (s : Session) (text : String) : Session :=
  { s with σ := { s.σ with sink := s.σ.sink.write text } }

/-- The text that asks for a line. -/
def promptText : String := "> "

/-- What a line at the prompt does. -/
inductive Entry
  | exit
  | submit (source : String)
  | undecodable

/-- Read the bytes of a line. White space at its end does not count. -/
def Entry.ofLine (bytes : List UInt8) : Entry :=
  match Text.Utf8.decode bytes with
  | .error _ => .undecodable
  | .ok text =>
      let source := Text.trimEnd text
      if source == "exit" then .exit else .submit source

/-- The error output at a line that is no text. -/
def undecodableText : String := "Error: stream did not contain valid UTF-8\n"

/-- The lines of an input, each with its line break. -/
def splitLines : List UInt8 → List (List UInt8)
  | [] => []
  | b :: bytes =>
      if b = 10 then [b] :: splitLines bytes
      else
        match splitLines bytes with
        | [] => [[b]]
        | line :: lines => (b :: line) :: lines

/-- Answer the lines of an input one by one, each run as a source of its own. At the end of the input
a line break is written. -/
def answerLines (steps : Nat) (s : Session) : List (List UInt8) → Option Report
  | [] => some (.ofSession (say (say s promptText) "\n") 0)
  | line :: lines =>
      let s := say s promptText
      match Entry.ofLine line with
      | .exit => some (.ofSession s 0)
      | .undecodable =>
          let report := Report.ofSession s 1
          some { report with errors := report.errors ++ undecodableText }
      | .submit source =>
          match s.run steps source with
          | none => none
          | some (_, s) => answerLines steps s lines

/-- The whole dialogue of the prompt with an input. -/
def prompt (steps : Nat) (time : Nat → Float) (input : List UInt8) : Option Report :=
  answerLines steps (.initial .unlimited time) (splitLines input)

end Command

end Lox
