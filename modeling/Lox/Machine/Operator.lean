import Lox.Machine.Fault
import Lox.Value

/-!
# Operators

The results of the unary and binary operators on values. An operator is known by its token, which
also locates its faults.
-/

namespace Lox.Machine

def applyUnary (operator : Token) (operand : Value) : Except Failure Value :=
  match operator.kind with
  | .symbol .minus =>
      match operand with
      | .number x => .ok (.number (-x))
      | _ => .error (.atToken .operandNotNumber operator)
  | .symbol .bang => .ok (.boolean (!operand.truthy))
  | _ => .error (.atToken .invalidUnary operator)

/-- The result of a sum or a concatenation. -/
def applyPlus (operator : Token) : Value → Value → Except Failure Value
  | .number x, .number y => .ok (.number (x + y))
  | .string s, .string t => .ok (.string (s ++ t))
  | _, _ => .error (.atToken .operandsNotAddable operator)

/-- The result of an operator that takes two numbers. -/
def applyNumeric (operator : Token) (x y : Float) : Except Failure Value :=
  match operator.kind with
  | .symbol .minus => .ok (.number (x - y))
  | .symbol .star => .ok (.number (x * y))
  | .symbol .slash => .ok (.number (x / y))
  | .symbol .greater => .ok (.boolean (x > y))
  | .symbol .greaterEqual => .ok (.boolean (x ≥ y))
  | .symbol .less => .ok (.boolean (x < y))
  | .symbol .lessEqual => .ok (.boolean (x ≤ y))
  | _ => .error (.atToken .invalidBinary operator)

def applyBinary (left : Value) (operator : Token) (right : Value) : Except Failure Value :=
  match operator.kind with
  | .symbol .equalEqual => .ok (.boolean (left.equal right))
  | .symbol .bangEqual => .ok (.boolean (!left.equal right))
  | .symbol .plus => applyPlus operator left right
  | _ =>
      match left, right with
      | .number x, .number y => applyNumeric operator x y
      | _, _ => .error (.atToken .operandsNotNumbers operator)

/-- The left operand of a logical operator decides the result: a true one of `or`, and a false one
of any other. -/
def decides (operator : Token) (left : Value) : Bool :=
  match operator.kind with
  | .symbol .orWord => left.truthy
  | _ => !left.truthy

end Lox.Machine
