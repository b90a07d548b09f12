import Lox.Evaluation.Action
import Lox.Evaluation.Operator

/-!
Evaluation of programs. `evaluate` gives the value of an expression, `execute` carries a statement out.
Every function takes a bound on the depth of its recursion; a loop takes one step of it for a turn, so
a program that ends has a bound that suffices.
-/
namespace Lox

open Evaluation

mutual

def evaluate : Nat → Context → Expr → Evaluation Value
  | 0, _, _ => exhausted
  | fuel + 1, ctx, e =>
    match e with
    | .literal value => return .ofLiteral value
    | .var name => readVariable ctx name
    | .this keyword => readVariable ctx keyword
    | .super keyword method => readSuper ctx keyword method
    | .group inner => evaluate fuel ctx inner
    | .assign name value => do
      let value ← evaluate fuel ctx value
      assignVariable ctx name value
      return value
    | .unary op operand => do
      let operand ← evaluate fuel ctx operand
      lift op (unaryOperation op.kind operand)
    | .binary left op right => do
      let left ← evaluate fuel ctx left
      let right ← evaluate fuel ctx right
      lift op (binaryOperation op.kind left right)
    | .logical left op right => do
      let left ← evaluate fuel ctx left
      if settles op.kind left then return left
      else evaluate fuel ctx right
    | .get object property => do
      let object ← evaluate fuel ctx object
      readProperty object property
    | .set object property value => do
      match ← evaluate fuel ctx object with
      | .object id _ =>
        let value ← evaluate fuel ctx value
        setField id property.lexeme value
        return value
      | _ => raise property .noFields
    | .call callee paren args => do
      let callee ← evaluate fuel ctx callee
      let args ← evaluateAll fuel ctx args
      match callee with
      | .callable f =>
        if f.arity ≠ args.length then raise paren (.wrongArity f.arity args.length)
        else if maxCallDepth ≤ ctx.depth then raise paren .stackOverflow
        else call fuel { ctx with depth := ctx.depth + 1 } f args
      | _ => raise paren .notCallable

def evaluateAll : Nat → Context → List Expr → Evaluation (List Value)
  | 0, _, _ => exhausted
  | fuel + 1, ctx, es =>
    match es with
    | [] => return []
    | e :: rest => do
      let value ← evaluate fuel ctx e
      let values ← evaluateAll fuel ctx rest
      return value :: values

/-- A call with as many arguments as the callable takes. A class makes an object and initializes it. -/
def call : Nat → Context → Callable → List Value → Evaluation Value
  | 0, _, _, _ => exhausted
  | fuel + 1, ctx, f, args =>
    match f with
    | .native .clock => readClock
    | .function _ closure => runBody fuel ctx closure args
    | .cls c => do
      let object ← makeObject c
      match c.findMethod? initializerName with
      | none => return object
      | some method =>
        let init ← bindMethod method object
        let _ ← runBody fuel ctx init args
        return object

def runBody : Nat → Context → Closure → List Value → Evaluation Value
  | 0, _, _, _ => exhausted
  | fuel + 1, ctx, closure, args => do
    let params := closure.decl.params.map Token.lexeme
    let env ← makeFrame (.ofList (params.zip args)) closure.env
    let flow ← executeAll fuel { ctx with env } closure.decl.body
    if closure.isInitializer then receiver closure
    else
      match flow with
      | .returned value => return value
      | .normal => return .nil

def execute : Nat → Context → Stmt → Evaluation Flow
  | 0, _, _ => exhausted
  | fuel + 1, ctx, s =>
    match s with
    | .expr e => do
      let _ ← evaluate fuel ctx e
      return .normal
    | .print keyword value => do
      let value ← evaluate fuel ctx value
      printLine keyword value.text
      return .normal
    | .varDecl name init => do
      match init with
      | none => defineVariable ctx.env name.lexeme .nil
      | some init =>
        let value ← evaluate fuel ctx init
        defineVariable ctx.env name.lexeme value
      return .normal
    | .block body => do
      let env ← makeFrame .empty ctx.env
      executeAll fuel { ctx with env } body
    | .ifThen condition yes => do
      let condition ← evaluate fuel ctx condition
      if condition.isTruthy then execute fuel ctx yes else return .normal
    | .ifElse condition yes no => do
      let condition ← evaluate fuel ctx condition
      if condition.isTruthy then execute fuel ctx yes else execute fuel ctx no
    | .whileLoop condition body => do
      let holds ← evaluate fuel ctx condition
      if holds.isTruthy then
        match ← execute fuel ctx body with
        | .normal => execute fuel ctx (.whileLoop condition body)
        | .returned value => return .returned value
      else return .normal
    | .ret _ value => do
      match value with
      | none => return .returned .nil
      | some value => return .returned (← evaluate fuel ctx value)
    | .funDecl function => do
      let value ← makeFunction ⟨function, ctx.env, false⟩
      defineVariable ctx.env function.name.lexeme value
      return .normal
    | .classDecl name superclass methods =>
      match superclass with
      | none => declareClass ctx name none methods
      | some parent => do
        match ← readVariable ctx parent with
        | .callable (.cls c) => declareClass ctx name (some c) methods
        | _ => raise parent .superclassMustBeClass

def executeAll : Nat → Context → List Stmt → Evaluation Flow
  | 0, _, _ => exhausted
  | fuel + 1, ctx, ss =>
    match ss with
    | [] => return .normal
    | s :: rest => do
      match ← execute fuel ctx s with
      | .normal => executeAll fuel ctx rest
      | .returned value => return .returned value

end

end Lox
