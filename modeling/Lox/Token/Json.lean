import Lox.Token

/-!
# Tokens in JSON

The listing of tokens as an indented JSON array with one object for each token.
-/

namespace Lox

/-- Two hexadecimal digits of a number below 256. -/
def hexByte (n : Nat) : String :=
  String.ofList [Nat.digitChar (n / 16), Nat.digitChar (n % 16)]

/-- A character inside a JSON string. -/
def jsonChar (c : Char) : String :=
  if c = '"' then "\\\""
  else if c = '\\' then "\\\\"
  else if c = '\x08' then "\\b"
  else if c = '\x0c' then "\\f"
  else if c = '\n' then "\\n"
  else if c = '\r' then "\\r"
  else if c = '\t' then "\\t"
  else if c.toNat < 0x20 then "\\u00" ++ hexByte c.toNat
  else c.toString

def jsonString (s : String) : String :=
  "\"" ++ String.join (s.toList.map jsonChar) ++ "\""

namespace Token

/-- The terminal of a token in JSON: its name, or an object that maps its name to its value. -/
def jsonKind (t : Token) : String :=
  match t.kind with
  | .string text => "\x7b\n      \"STRING\": " ++ jsonString text ++ "\n    \x7d"
  | .number value => "\x7b\n      \"NUMBER\": " ++ Number.json value ++ "\n    \x7d"
  | _ => jsonString t.terminal.name

/-- A token in JSON. -/
def json (t : Token) : String :=
  "  \x7b\n    \"token_type\": " ++ t.jsonKind
    ++ ",\n    \"lexeme\": " ++ jsonString t.lexeme
    ++ ",\n    \"line\": " ++ Nat.repr t.line ++ "\n  \x7d"

def jsonList (ts : List Token) : String :=
  if ts.isEmpty then "[]" else "[\n" ++ ",\n".intercalate (ts.map json) ++ "\n]"

end Token

end Lox
