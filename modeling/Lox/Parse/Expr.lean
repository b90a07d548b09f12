import Lox.Parse.Procedure
import Lox.Syntax

/-!
The grammar of expressions, by recursive descent with one token of lookahead. The binary operators
form six levels of left-associative chains; assignment binds weaker and associates to the right.
-/
namespace Lox

/-- The levels of binary operators, from the weakest. -/
inductive Level where
  | or | and | equality | comparison | term | factor
deriving DecidableEq, Repr

namespace Level

/-- The next stronger level; the operands of the strongest are unary expressions. -/
def next? : Level → Option Level
  | or => some and
  | and => some equality
  | equality => some comparison
  | comparison => some term
  | term => some factor
  | factor => none

def operators : Level → List Kind
  | or => [.kwOr]
  | and => [.kwAnd]
  | equality => [.bangEqual, .equalEqual]
  | comparison => [.greater, .greaterEqual, .less, .lessEqual]
  | term => [.plus, .minus]
  | factor => [.slash, .star]

def join : Level → Expr → Token → Expr → Expr
  | or | and => .logical
  | _ => .binary

end Level

def Expr.assigned? (target value : Expr) : Option Expr :=
  match target with
  | .var name => some (.assign name value)
  | .get object property => some (.set object property value)
  | _ => none

namespace Parse

mutual

def expression : Nat → Procedure Expr
  | 0 => exhausted
  | fuel + 1 => do
    let target ← chain fuel .or
    match ← accept .equal with
    | none => return target
    | some equals =>
      let value ← expression fuel
      match target.assigned? value with
      | some assignment => return assignment
      | none =>
        noteAt equals .invalidAssignmentTarget
        return target

def chain : Nat → Level → Procedure Expr
  | 0, _ => exhausted
  | fuel + 1, level => do
    let left ← operand fuel level
    chainRest fuel level left

def chainRest : Nat → Level → Expr → Procedure Expr
  | 0, _, _ => exhausted
  | fuel + 1, level, left => do
    match ← acceptIf (level.operators.contains ·) with
    | none => return left
    | some op =>
      let right ← operand fuel level
      chainRest fuel level (level.join left op right)

def operand : Nat → Level → Procedure Expr
  | 0, _ => exhausted
  | fuel + 1, level =>
    match level.next? with
    | some next => chain fuel next
    | none => unary fuel

def unary : Nat → Procedure Expr
  | 0 => exhausted
  | fuel + 1 => do
    match ← acceptIf ([Kind.bang, .minus].contains ·) with
    | some op => return .unary op (← unary fuel)
    | none =>
      let callee ← primary fuel
      callRest fuel callee

/-- The calls and property accesses behind a primary expression. -/
def callRest : Nat → Expr → Procedure Expr
  | 0, _ => exhausted
  | fuel + 1, e => do
    match ← acceptIf ([Kind.leftParen, .dot].contains ·) with
    | none => return e
    | some t =>
      if t.kind = .dot then
        let property ← require .propertyName
        callRest fuel (.get e property)
      else
        let args ← arguments fuel
        let paren ← require .argumentsEnd
        callRest fuel (.call e paren args)

def arguments : Nat → Procedure (List Expr)
  | 0 => exhausted
  | fuel + 1 => do
    let next ← peek?
    if next.any (·.kind = .rightParen) then return []
    else argumentList fuel 0

/-- At least one argument, behind `count` others. -/
def argumentList : Nat → Nat → Procedure (List Expr)
  | 0, _ => exhausted
  | fuel + 1, count => do
    if maxArity ≤ count then note .tooManyArguments
    let first ← expression fuel
    match ← accept .comma with
    | none => return [first]
    | some _ => return first :: (← argumentList fuel (count + 1))

def primary : Nat → Procedure Expr
  | 0 => exhausted
  | fuel + 1 => do
    let some t ← peek? | fail .expectedExpression
    match t.kind with
    | .number | .string | .kwTrue | .kwFalse | .kwNil =>
      skip
      return .literal t.literal
    | .identifier =>
      skip
      return .var t
    | .kwThis =>
      skip
      return .this t
    | .kwSuper =>
      skip
      let _ ← require .superDot
      return .super t (← require .superMethod)
    | .leftParen =>
      skip
      let inner ← expression fuel
      let _ ← require .groupEnd
      return .group inner
    | _ => fail .expectedExpression

end

end Parse

end Lox
