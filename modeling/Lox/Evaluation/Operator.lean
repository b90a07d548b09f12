import Lox.Evaluation.Result

/-!
Operators on values. Whether an operand fits is checked when both have been evaluated.
-/
namespace Lox

def unaryOperation (op : Kind) (operand : Value) : Except RuntimeFault Value :=
  match op, operand with
  | .minus, .num x => .ok (.num (-x))
  | .minus, _ => .error .operandMustBeNumber
  | .bang, v => .ok (.bool (!v.isTruthy))
  | _, _ => .error .invalidUnaryOperator

def numericOperation (left right : Value) (f : Float → Float → Value) : Except RuntimeFault Value :=
  match left, right with
  | .num x, .num y => .ok (f x y)
  | _, _ => .error .operandsMustBeNumbers

def binaryOperation (op : Kind) (left right : Value) : Except RuntimeFault Value :=
  match op with
  | .plus =>
    match left, right with
    | .num x, .num y => .ok (.num (x + y))
    | .str s, .str t => .ok (.str (s ++ t))
    | _, _ => .error .operandsMustBeNumbersOrStrings
  | .minus => numericOperation left right fun x y => .num (x - y)
  | .slash => numericOperation left right fun x y => .num (x / y)
  | .star => numericOperation left right fun x y => .num (x * y)
  | .greater => numericOperation left right fun x y => .bool (y < x)
  | .greaterEqual => numericOperation left right fun x y => .bool (y ≤ x)
  | .less => numericOperation left right fun x y => .bool (x < y)
  | .lessEqual => numericOperation left right fun x y => .bool (x ≤ y)
  | .equalEqual => .ok (.bool (left.equals right))
  | .bangEqual => .ok (.bool (!left.equals right))
  | _ => .error .invalidBinaryOperator

/-- Whether the left operand of a logical operator settles its value. -/
def settles (op : Kind) (left : Value) : Bool :=
  if op = .kwOr then left.isTruthy else !left.isTruthy

end Lox
