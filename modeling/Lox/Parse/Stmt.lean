import Lox.Parse.Expr

/-!
The grammar of statements and declarations. A failure inside a declaration is noted and parsing goes
on behind it, so a program's faults are found in one pass.
-/
namespace Lox

/-- A `for` as a loop in blocks: the increment runs behind the body, the initializer before the loop
in a scope of its own, and a missing condition holds. -/
def Stmt.forLoop (initializer : Option Stmt) (condition increment : Option Expr) (body : Stmt) :
    Stmt :=
  let body := match increment with
    | some increment => .block [body, .expr increment]
    | none => body
  let loop := .whileLoop (condition.getD (.literal (.bool true))) body
  match initializer with
  | some initializer => .block [initializer, loop]
  | none => loop

namespace Parse

def optionalExpression (fuel : Nat) (stop : Kind) : Procedure (Option Expr) := do
  let next ← peek?
  if next.any (·.kind = stop) then return none
  else return some (← expression fuel)

/-- At least one parameter, behind `count` others. -/
def parameterList : Nat → Nat → Procedure (List Token)
  | 0, _ => exhausted
  | fuel + 1, count => do
    if maxArity ≤ count then note .tooManyParameters
    let first ← require .parameterName
    match ← accept .comma with
    | none => return [first]
    | some _ => return first :: (← parameterList fuel (count + 1))

def parameters (fuel : Nat) : Procedure (List Token) := do
  let next ← peek?
  if next.any (·.kind = .rightParen) then return []
  else parameterList fuel 0

/-- A variable declaration behind its keyword. -/
def varDecl (fuel : Nat) : Procedure Stmt := do
  let name ← require .variableName
  match ← accept .equal with
  | none =>
    let _ ← require .variableEnd
    return .varDecl name none
  | some _ =>
    let init ← expression fuel
    let _ ← require .variableEnd
    return .varDecl name (some init)

def expressionStatement (fuel : Nat) : Procedure Stmt := do
  let e ← expression fuel
  let _ ← require .expressionEnd
  return .expr e

/-- The first clause of a `for`, with its semicolon. -/
def forInitializer (fuel : Nat) : Procedure (Option Stmt) := do
  match ← acceptIf ([Kind.semicolon, .kwVar].contains ·) with
  | none => return some (← expressionStatement fuel)
  | some t => if t.kind = .kwVar then return some (← varDecl fuel) else return none

def superclassClause : Procedure (Option Token) := do
  match ← accept .less with
  | none => return none
  | some _ => return some (← require .superclassName)

mutual

def declaration : Nat → Procedure (Option Stmt)
  | 0 => exhausted
  | fuel + 1 => recover do
    match ← acceptIf ([Kind.kwClass, .kwFun, .kwVar].contains ·) with
    | none => statement fuel
    | some t =>
      match t.kind with
      | .kwClass => classDecl fuel
      | .kwFun => return .funDecl (← function fuel .function)
      | _ => varDecl fuel

/-- A class declaration behind its keyword. -/
def classDecl : Nat → Procedure Stmt
  | 0 => exhausted
  | fuel + 1 => do
    let name ← require .className
    let superclass ← superclassClause
    let _ ← require .classBody
    let members ← methods fuel
    let _ ← require .classEnd
    return .classDecl name superclass members

/-- Methods up to a closing brace or the end. -/
def methods : Nat → Procedure (List FunDecl)
  | 0 => exhausted
  | fuel + 1 => do
    let next ← peek?
    if next.all (·.kind = .rightBrace) then return []
    else
      let first ← function fuel .method
      return first :: (← methods fuel)

def function : Nat → Role → Procedure FunDecl
  | 0, _ => exhausted
  | fuel + 1, role => do
    let name ← require (.functionName role)
    let _ ← require (.parametersStart role)
    let params ← parameters fuel
    let _ ← require .parametersEnd
    let _ ← require (.functionBody role)
    return ⟨name, params, ← block fuel⟩

/-- A block behind its opening brace. -/
def block : Nat → Procedure (List Stmt)
  | 0 => exhausted
  | fuel + 1 => do
    let body ← declarations fuel
    let _ ← require .blockEnd
    return body

def declarations : Nat → Procedure (List Stmt)
  | 0 => exhausted
  | fuel + 1 => do
    let next ← peek?
    if next.all (·.kind = .rightBrace) then return []
    else
      let first ← declaration fuel
      return first.toList ++ (← declarations fuel)

def statement : Nat → Procedure Stmt
  | 0 => exhausted
  | fuel + 1 => do
    let some keyword ← peek? | expressionStatement fuel
    match keyword.kind with
    | .kwIf =>
      skip
      let _ ← require .ifStart
      let condition ← expression fuel
      let _ ← require .ifEnd
      let yes ← statement fuel
      match ← accept .kwElse with
      | none => return .ifThen condition yes
      | some _ => return .ifElse condition yes (← statement fuel)
    | .kwPrint =>
      skip
      let value ← expression fuel
      let _ ← require .printEnd
      return .print keyword value
    | .kwReturn =>
      skip
      let value ← optionalExpression fuel .semicolon
      let _ ← require .returnEnd
      return .ret keyword value
    | .kwWhile =>
      skip
      let _ ← require .whileStart
      let condition ← expression fuel
      let _ ← require .whileEnd
      return .whileLoop condition (← statement fuel)
    | .kwFor =>
      skip
      let _ ← require .forStart
      let initializer ← forInitializer fuel
      let condition ← optionalExpression fuel .semicolon
      let _ ← require .forConditionEnd
      let increment ← optionalExpression fuel .rightParen
      let _ ← require .forEnd
      return .forLoop initializer condition increment (← statement fuel)
    | .leftBrace =>
      skip
      return .block (← block fuel)
    | _ => expressionStatement fuel

end

def program : Nat → Procedure (List Stmt)
  | 0 => exhausted
  | fuel + 1 => do
    if (← peek?).isNone then return []
    else
      let first ← declaration fuel
      return first.toList ++ (← program fuel)

/-- Deep enough for all tokens: between two tokens that are read the procedures nest less deeply. -/
def depthFor (tokens : List Token) : Nat := 32 * (tokens.length + 1)

end Parse

/-- Reads a program; it has no tree if any fault was noted. -/
def parse (tokens : List Token) : Except (List SyntaxError) (List Stmt) :=
  match Parse.program (Parse.depthFor tokens) tokens with
  | .ok statements [] _ => .ok statements
  | .ok _ noted _ => .error noted
  | .fail error noted _ => .error (noted ++ [error])
  | .exhausted => .error []

end Lox
