import Lox.Number

/-!
# Tokens

A token is a terminal of the grammar with the source text it was written as and the line it ends on.
String and number tokens carry their value. The terminals with a single spelling, punctuation and
reserved words, are the symbols.
-/

namespace Lox

/-- A terminal with one spelling: a punctuation mark, an operator or a reserved word. -/
inductive Symbol
  | leftParen | rightParen | leftBrace | rightBrace | comma | dot | minus | plus | semicolon
  | slash | star | question | colon
  | bang | bangEqual | equal | equalEqual | greater | greaterEqual | less | lessEqual
  | andWord | classWord | elseWord | falseWord | funWord | forWord | ifWord | nilWord | orWord
  | printWord | returnWord | superWord | thisWord | trueWord | varWord | whileWord
  deriving DecidableEq, Repr

namespace Symbol

/-- The characters a symbol is written with. -/
def letters : Symbol → List Char
  | leftParen => ['('] | rightParen => [')'] | leftBrace => ['\x7b'] | rightBrace => ['\x7d']
  | comma => [','] | dot => ['.'] | minus => ['-'] | plus => ['+'] | semicolon => [';']
  | slash => ['/'] | star => ['*'] | question => ['?'] | colon => [':']
  | bang => ['!'] | bangEqual => ['!', '='] | equal => ['='] | equalEqual => ['=', '=']
  | greater => ['>'] | greaterEqual => ['>', '='] | less => ['<'] | lessEqual => ['<', '=']
  | andWord => ['a', 'n', 'd'] | classWord => ['c', 'l', 'a', 's', 's']
  | elseWord => ['e', 'l', 's', 'e'] | falseWord => ['f', 'a', 'l', 's', 'e']
  | funWord => ['f', 'u', 'n'] | forWord => ['f', 'o', 'r'] | ifWord => ['i', 'f']
  | nilWord => ['n', 'i', 'l'] | orWord => ['o', 'r'] | printWord => ['p', 'r', 'i', 'n', 't']
  | returnWord => ['r', 'e', 't', 'u', 'r', 'n'] | superWord => ['s', 'u', 'p', 'e', 'r']
  | thisWord => ['t', 'h', 'i', 's'] | trueWord => ['t', 'r', 'u', 'e'] | varWord => ['v', 'a', 'r']
  | whileWord => ['w', 'h', 'i', 'l', 'e']

/-- The name of a symbol in listings of tokens. -/
def name : Symbol → String
  | leftParen => "LEFT_PAREN" | rightParen => "RIGHT_PAREN" | leftBrace => "LEFT_BRACE"
  | rightBrace => "RIGHT_BRACE" | comma => "COMMA" | dot => "DOT" | minus => "MINUS"
  | plus => "PLUS" | semicolon => "SEMICOLON" | slash => "SLASH" | star => "STAR"
  | question => "QUESTION" | colon => "COLON" | bang => "BANG" | bangEqual => "BANG_EQUAL"
  | equal => "EQUAL" | equalEqual => "EQUAL_EQUAL" | greater => "GREATER"
  | greaterEqual => "GREATER_EQUAL" | less => "LESS" | lessEqual => "LESS_EQUAL"
  | andWord => "AND" | classWord => "CLASS" | elseWord => "ELSE" | falseWord => "FALSE"
  | funWord => "FUN" | forWord => "FOR" | ifWord => "IF" | nilWord => "NIL" | orWord => "OR"
  | printWord => "PRINT" | returnWord => "RETURN" | superWord => "SUPER" | thisWord => "THIS"
  | trueWord => "TRUE" | varWord => "VAR" | whileWord => "WHILE"

/-- The punctuation marks and operators, each before those that are its beginning. -/
def marks : List Symbol :=
  [bangEqual, equalEqual, greaterEqual, lessEqual, bang, equal, greater, less, leftParen,
   rightParen, leftBrace, rightBrace, comma, dot, minus, plus, semicolon, slash, star, question,
   colon]

/-- The reserved words. -/
def words : List Symbol :=
  [andWord, classWord, elseWord, falseWord, funWord, forWord, ifWord, nilWord, orWord, printWord,
   returnWord, superWord, thisWord, trueWord, varWord, whileWord]

/-- The reserved word spelled like this. -/
def ofWord? (text : List Char) : Option Symbol :=
  words.find? fun s => s.letters == text

end Symbol

inductive Terminal
  | symbol (s : Symbol)
  | identifier
  | string
  | number
  | endOfInput
  deriving DecidableEq, Repr

/-- The name of a terminal in listings of tokens. -/
def Terminal.name : Terminal → String
  | .symbol s => s.name
  | .identifier => "IDENTIFIER"
  | .string => "STRING"
  | .number => "NUMBER"
  | .endOfInput => "EOF"

/-- What a token is, with the value of a literal. -/
inductive Token.Kind
  | symbol (s : Symbol)
  | identifier
  | string (text : String)
  | number (value : Float)
  | endOfInput
  deriving DecidableEq

def Token.Kind.terminal : Token.Kind → Terminal
  | .symbol s => .symbol s
  | .identifier => .identifier
  | .string _ => .string
  | .number _ => .number
  | .endOfInput => .endOfInput

/-- A terminal, the text it was written as, and the line on which that text ends. -/
structure Token where
  kind : Token.Kind
  lexeme : String
  line : Nat
  deriving DecidableEq

namespace Token

def terminal (t : Token) : Terminal :=
  t.kind.terminal

/-- The token that ends an input on the given line. -/
def endAt (line : Nat) : Token :=
  ⟨.endOfInput, "", line⟩

/-- A name written on the given line. -/
def ofName (name : String) (line : Nat) : Token :=
  ⟨.identifier, name, line⟩

/-- The tokens agree in terminal, text and line; the values they carry are not compared. -/
def agrees (a b : Token) : Bool :=
  a.terminal == b.terminal && a.lexeme == b.lexeme && a.line == b.line

/-- Where a diagnostic about the token says that it is. -/
def location (t : Token) : String :=
  match t.kind with
  | .endOfInput => " at end"
  | _ => " at '" ++ t.lexeme ++ "'"

/-- The text of the value that a token carries, `null` for a token without one. -/
def literalText (t : Token) : String :=
  match t.kind with
  | .string text => text
  | .number value => Number.tokenText value
  | _ => "null"

/-- The line that lists a token: terminal, source text and value. -/
def display (t : Token) : String :=
  t.terminal.name ++ " " ++ t.lexeme ++ " " ++ t.literalText

end Token

end Lox
