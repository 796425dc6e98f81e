import Lox.Syntax

/-!
# Syntax errors

What a rule of the grammar expected, or which limit a program breaks, with the token it is seen at.
A missing part makes the rule fail; the other faults are recorded and the rule goes on.
-/

namespace Lox.Grammar

/-- The two sorts of callable declaration. -/
inductive Callable
  | function
  | method
  deriving DecidableEq, Repr

/-- The word for a sort of callable. -/
def Callable.word : Callable → String
  | .function => "function"
  | .method => "method"

/-- A part that a rule of the grammar needs at its place. -/
inductive Part
  | className
  | superclassName
  | classBodyStart
  | classBodyEnd
  | callableName (sort : Callable)
  | parametersStart (sort : Callable)
  | parameterName
  | parametersEnd
  | bodyStart (sort : Callable)
  | variableName
  | variableEnd
  | forStart
  | forConditionEnd
  | forClausesEnd
  | ifStart
  | ifConditionEnd
  | whileStart
  | whileConditionEnd
  | printEnd
  | returnEnd
  | expressionEnd
  | blockEnd
  | conditionalColon
  | argumentsEnd
  | propertyName
  | superDot
  | superMethodName
  | groupEnd
  | expression
  | endOfExpression
  deriving DecidableEq, Repr

/-- The words for a part and its place. -/
def Part.phrase : Part → String
  | .className => "class name"
  | .superclassName => "superclass name"
  | .classBodyStart => "'\x7b' before class body"
  | .classBodyEnd => "'\x7d' after class body"
  | .callableName sort => sort.word ++ " name"
  | .parametersStart sort => "'(' after " ++ sort.word ++ " name"
  | .parameterName => "parameter name"
  | .parametersEnd => "')' after parameters"
  | .bodyStart sort => "'\x7b' before " ++ sort.word ++ " body"
  | .variableName => "variable name"
  | .variableEnd => "';' after variable declaration"
  | .forStart => "'(' after 'for'"
  | .forConditionEnd => "';' after loop condition"
  | .forClausesEnd => "')' after for clauses"
  | .ifStart => "'(' after 'if'"
  | .ifConditionEnd => "')' after if condition"
  | .whileStart => "'(' after 'while'"
  | .whileConditionEnd => "')' after condition"
  | .printEnd => "';' after value"
  | .returnEnd => "';' after return value"
  | .expressionEnd => "';' after expression"
  | .blockEnd => "'\x7d' after block"
  | .conditionalColon => "':' after then branch of ternary"
  | .argumentsEnd => "')' after arguments"
  | .propertyName => "property name after '.'"
  | .superDot => "'.' after 'super'"
  | .superMethodName => "superclass method name"
  | .groupEnd => "')' after expression"
  | .expression => "expression"
  | .endOfExpression => "end of expression"

/-- What is wrong with the syntax of a program. -/
inductive Fault
  | missing (part : Part)
  | invalidTarget
  | tooManyParameters
  | tooManyArguments
  deriving DecidableEq, Repr

def Fault.message : Fault → String
  | .missing part => "Expect " ++ part.phrase ++ "."
  | .invalidTarget => "Invalid assignment target."
  | .tooManyParameters => "Can't have more than 255 parameters."
  | .tooManyArguments => "Can't have more than 255 arguments."

/-- A fault and the token it is seen at. -/
structure Error where
  fault : Fault
  token : Token
  deriving DecidableEq

end Lox.Grammar
