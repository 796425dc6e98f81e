import Lox.Syntax

/-!
# The text of an expression

An expression is written fully parenthesised, its operator or keyword first.
-/

namespace Lox

/-- The text of a literal; a string is written without quotes. -/
def Literal.treeText : Literal → String
  | .nil => "nil"
  | .boolean true => "true"
  | .boolean false => "false"
  | .number x => Number.treeText x
  | .string text => text

/-- A head and its parts in parentheses, separated by single spaces. -/
def parenthesized (head : String) (parts : List String) : String :=
  "(" ++ " ".intercalate (head :: parts) ++ ")"

mutual

/-- The text of an expression. -/
def Expr.text : Expr → String
  | .literal value => value.treeText
  | .group inner => parenthesized "group" [inner.text]
  | .unary op operand => parenthesized op.lexeme [operand.text]
  | .binary left op right => parenthesized op.lexeme [left.text, right.text]
  | .logical left op right => parenthesized op.lexeme [left.text, right.text]
  | .conditional c t e => parenthesized "?:" [c.text, t.text, e.text]
  | .var _ name => name.lexeme
  | .assign _ name value => parenthesized "=" [name.lexeme, value.text]
  | .call callee _ arguments => parenthesized "call" (callee.text :: Expr.texts arguments)
  | .get object name => parenthesized "." [object.text, name.lexeme]
  | .set object name value => parenthesized ".=" [object.text, name.lexeme, value.text]
  | .this _ _ => "this"
  | .super _ _ method => parenthesized "super" [method.lexeme]

def Expr.texts : List Expr → List String
  | [] => []
  | e :: es => e.text :: Expr.texts es

end

end Lox
