/-!
# UTF-8 text

Reading a byte sequence as text. A lead byte fixes which ranges the bytes after it have to lie in,
so a sequence is read by checking each following byte against its range. Where a byte does not fit,
the bytes that did fit are the malformed part; where the input ends first, the sequence is cut off.
-/

namespace Lox.Text.Utf8

/-- An inclusive range of byte values. -/
structure ByteRange where
  low : UInt8
  high : UInt8

/-- A byte lies in the range. -/
def ByteRange.contains (r : ByteRange) (b : UInt8) : Bool :=
  r.low ≤ b && b ≤ r.high

/-- The range of an unrestricted continuation byte. -/
def ByteRange.tail : ByteRange := ⟨0x80, 0xBF⟩

/-- The ranges of the bytes that follow a lead byte, or none if the byte leads no sequence. The
narrowed second ranges exclude overlong forms, surrogates and values beyond U+10FFFF. -/
def followers (lead : UInt8) : Option (List ByteRange) :=
  if lead < 0x80 then some []
  else if lead < 0xC2 then none
  else if lead < 0xE0 then some [.tail]
  else if lead = 0xE0 then some [⟨0xA0, 0xBF⟩, .tail]
  else if lead = 0xED then some [⟨0x80, 0x9F⟩, .tail]
  else if lead < 0xF0 then some [.tail, .tail]
  else if lead = 0xF0 then some [⟨0x90, 0xBF⟩, .tail, .tail]
  else if lead < 0xF4 then some [.tail, .tail, .tail]
  else if lead = 0xF4 then some [⟨0x80, 0x8F⟩, .tail, .tail]
  else none

/-- The bits of the code point that a lead byte with `n` followers carries. -/
def leadBits (lead : UInt8) : Nat → Nat
  | 0 => lead.toNat
  | n + 1 => lead.toNat % Nat.pow 2 (5 - n)

/-- What stands at the front of a byte sequence. -/
inductive Front
  /-- A character and the bytes after it. -/
  | char (c : Char) (rest : List UInt8)
  /-- `length` bytes that begin a character but are followed by a byte that cannot continue it,
  and the bytes after them. -/
  | malformed (length : Nat) (rest : List UInt8)
  /-- The beginning of a character at the end of the input. -/
  | cut

/-- Read continuation bytes against their ranges, with `taken` bytes read and `code` accumulated. -/
def readTail (taken code : Nat) : List ByteRange → List UInt8 → Front
  | [], rest => .char (Char.ofNat code) rest
  | _ :: _, [] => .cut
  | r :: ranges, b :: rest =>
      if r.contains b then readTail (taken + 1) (code * 64 + b.toNat % 64) ranges rest
      else .malformed taken (b :: rest)

/-- Read the sequence that begins with `lead`. -/
def front (lead : UInt8) (rest : List UInt8) : Front :=
  match followers lead with
  | none => .malformed 1 rest
  | some ranges => readTail 1 (leadBits lead ranges.length) ranges rest

/-- The bytes that are left after the front of an input. -/
def Front.rest : Front → List UInt8
  | .char _ rest => rest
  | .malformed _ rest => rest
  | .cut => []

theorem rest_readTail_le (taken code : Nat) (ranges : List ByteRange) (bytes : List UInt8) :
    (readTail taken code ranges bytes).rest.length ≤ bytes.length := by
  fun_induction readTail taken code ranges bytes with
  | case1 => simp [Front.rest]
  | case2 => simp [Front.rest]
  | case3 taken code r ranges b rest _ ih => simp only [List.length_cons]; omega
  | case4 => simp [Front.rest]

theorem rest_front_le (lead : UInt8) (bytes : List UInt8) :
    (front lead bytes).rest.length ≤ bytes.length := by
  unfold front
  split
  · simp [Front.rest]
  · exact rest_readTail_le ..

theorem length_le_of_front_char {lead : UInt8} {bytes rest : List UInt8} {c : Char}
    (h : front lead bytes = .char c rest) : rest.length ≤ bytes.length := by
  simpa [h, Front.rest] using rest_front_le lead bytes

theorem length_le_of_front_malformed {lead : UInt8} {bytes rest : List UInt8} {n : Nat}
    (h : front lead bytes = .malformed n rest) : rest.length ≤ bytes.length := by
  simpa [h, Front.rest] using rest_front_le lead bytes

/-- Why a byte sequence is no text; `start` is the length of the part before that is. -/
inductive Error
  | invalid (length start : Nat)
  | incomplete (start : Nat)
  deriving DecidableEq, Repr

def Error.message : Error → String
  | .invalid length start =>
      s!"invalid utf-8 sequence of {length} bytes from index {start}"
  | .incomplete start => s!"incomplete utf-8 byte sequence from index {start}"

/-- Decode from byte position `start` on. A character moves it by the length of its own encoding, the
only one that `front` accepts. -/
def decodeFrom (start : Nat) : List UInt8 → Except Error (List Char)
  | [] => .ok []
  | lead :: bytes =>
      match _h : front lead bytes with
      | .char c rest => (decodeFrom (start + c.utf8Size) rest).map (c :: ·)
      | .malformed n _ => .error (.invalid n start)
      | .cut => .error (.incomplete start)
termination_by bytes => bytes.length
decreasing_by
  have := length_le_of_front_char _h
  simp only [List.length_cons]
  omega

/-- Read a byte sequence as text, refusing it at its first malformed place. -/
def decode (bytes : List UInt8) : Except Error String :=
  (decodeFrom 0 bytes).map String.ofList

/-- The characters of a byte sequence, each malformed or cut part standing as one U+FFFD. -/
def decodeLossyChars : List UInt8 → List Char
  | [] => []
  | lead :: bytes =>
      match _h : front lead bytes with
      | .char c rest => c :: decodeLossyChars rest
      | .malformed _ rest => '\uFFFD' :: decodeLossyChars rest
      | .cut => ['\uFFFD']
termination_by bytes => bytes.length
decreasing_by
  · have := length_le_of_front_char _h
    simp only [List.length_cons]
    omega
  · have := length_le_of_front_malformed _h
    simp only [List.length_cons]
    omega

/-- Read a byte sequence as text, with U+FFFD for each part that is none. -/
def decodeLossy (bytes : List UInt8) : String :=
  String.ofList (decodeLossyChars bytes)

end Lox.Text.Utf8
