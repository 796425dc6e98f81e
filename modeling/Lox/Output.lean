/-!
# Output

A sink takes the bytes that a program prints. It may hold only a limited number of bytes, in which
case it takes the part of a text that still fits and then refuses, and it may refuse to be flushed.
-/

namespace Lox

/-- Where output goes. -/
structure Sink where
  /-- The bytes taken so far. -/
  written : ByteArray
  /-- The number of bytes that fit, if it is limited. -/
  limit : Option Nat
  /-- Flushing is refused. -/
  refusesFlush : Bool

/-- Why output failed. -/
inductive OutputError
  | sinkFull
  | flushFailed
  deriving DecidableEq, Repr

def OutputError.message : OutputError → String
  | .sinkFull => "sink full"
  | .flushFailed => "flush failed"

namespace Sink

/-- A sink that takes everything. -/
def unlimited : Sink := ⟨.empty, none, false⟩

/-- The number of bytes of a text of this size that still fit. -/
def room (s : Sink) (size : Nat) : Nat :=
  match s.limit with
  | none => size
  | some limit => min size (limit - s.written.size)

/-- All bytes of a text of this size still fit. -/
def fits (s : Sink) (size : Nat) : Bool :=
  s.room size == size

/-- The sink after a text, of which it holds what fits. -/
def write (s : Sink) (text : String) : Sink :=
  let bytes := text.toUTF8
  { s with written := s.written ++ bytes.extract 0 (s.room bytes.size) }

/-- The bytes taken since the sink held this many. -/
def since (s : Sink) (size : Nat) : List UInt8 :=
  (s.written.extract size s.written.size).toList

end Sink

end Lox
