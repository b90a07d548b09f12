import Lox.Parse.Stmt

/-!
Parsing by positions. A cursor stands at a position in the tokens of a source, whose end is marked, and
reads them by their positions. It keeps track of where it stood and of the declarations that it went
through. Reading where there is nothing ends the parse. The procedures are those of the parser.
-/
namespace Lox.Parse

inductive Answer (α : Type) where
  | ok (value : α) (noted : List SyntaxError)
  | fail (error : SyntaxError) (noted : List SyntaxError)
  | exhausted
  /-- There is nothing at a position that was read. -/
  | outOfRange

/-- The positions at which a declaration was entered and left. -/
structure Span where
  start : Nat
  finish : Nat

/-- Where a cursor has been. -/
structure Course where
  /-- Where it stood when it read something or had moved. -/
  positions : List Nat := []
  declarations : List Span := []

def Course.append (c d : Course) : Course := ⟨c.positions ++ d.positions, c.declarations ++ d.declarations⟩

instance : Append Course := ⟨Course.append⟩

structure Walk (α : Type) where
  answer : Answer α
  /-- Where the cursor stands. -/
  position : Nat
  course : Course

/-- A procedure on a sequence of tokens with its end, which is no token, and a position in it. -/
def Cursor (α : Type) := List (Option Token) → Nat → Walk α

def stream (tokens : List Token) : List (Option Token) := tokens.map some ++ [none]

def Answer.after {α : Type} (noted : List SyntaxError) : Answer α → Answer α
  | .ok value later => .ok value (noted ++ later)
  | .fail error later => .fail error (noted ++ later)
  | .exhausted => .exhausted
  | .outOfRange => .outOfRange

def Walk.behind {α : Type} (walk : Walk α) (noted : List SyntaxError) (course : Course) : Walk α :=
  ⟨walk.answer.after noted, walk.position, course ++ walk.course⟩

namespace Cursor

variable {α β : Type}

def pure (value : α) : Cursor α := fun _ position => ⟨.ok value [], position, {}⟩

def bind (q : Cursor α) (next : α → Cursor β) : Cursor β := fun stream position =>
  match q stream position with
  | ⟨.ok value noted, position, course⟩ => (next value stream position).behind noted course
  | ⟨.fail error noted, position, course⟩ => ⟨.fail error noted, position, course⟩
  | ⟨.exhausted, position, course⟩ => ⟨.exhausted, position, course⟩
  | ⟨.outOfRange, position, course⟩ => ⟨.outOfRange, position, course⟩

instance : Monad Cursor where
  pure := Cursor.pure
  bind := Cursor.bind

def exhausted : Cursor α := fun _ position => ⟨.exhausted, position, {}⟩

/-- Reads what is some positions back. In front of the start that is what is at the start. -/
def read (back : Nat) : Cursor (Option Token) := fun stream position =>
  match stream[position - back]? with
  | some token? => ⟨.ok token? [], position, { positions := [position] }⟩
  | none => ⟨.outOfRange, position, { positions := [position] }⟩

def peek? : Cursor (Option Token) := read 0

/-- The token behind which the cursor stands. -/
def previous? : Cursor (Option Token) := read 1

/-- Moves the cursor, the only way in which its position changes. -/
def move : Cursor Unit := fun _ position => ⟨.ok () [], position + 1, { positions := [position + 1] }⟩

def advance : Cursor (Option Token) := do
  if (← peek?).isSome then move
  previous?

def skip : Cursor Unit := do
  let _ ← advance
  return ()

def check (p : Kind → Bool) : Cursor Bool := do
  return (← peek?).any (p ·.kind)

def report (error : SyntaxError) : Cursor Unit := fun _ position => ⟨.ok () [error], position, {}⟩

def raise (error : SyntaxError) : Cursor α := fun _ position => ⟨.fail error [], position, {}⟩

def note (fault : SyntaxFault) : Cursor Unit := do report ⟨← peek?, fault⟩

def noteAt (token : Token) (fault : SyntaxFault) : Cursor Unit := report ⟨some token, fault⟩

def fail (fault : SyntaxFault) : Cursor α := do raise ⟨← peek?, fault⟩

def acceptIf (p : Kind → Bool) : Cursor (Option Token) := do
  if ← check p then advance else return none

def accept (kind : Kind) : Cursor (Option Token) := acceptIf (· = kind)

def require (what : Expectation) : Cursor Token := do
  match ← acceptIf (· = what.kind) with
  | some t => return t
  | none => fail (.expected what)

def seek : Nat → Cursor Unit
  | 0 => exhausted
  | fuel + 1 => do
    if (← peek?).isNone then return ()
    else if (← previous?).any (·.kind = .semicolon) then return ()
    else if ← check startsStatement then return ()
    else
      skip
      seek fuel

/-- Drops a token and all up to a statement boundary. There are no more than in the whole stream. -/
def synchronize : Cursor Unit := fun stream position =>
  (do skip; seek stream.length : Cursor Unit) stream position

def attempt (q : Cursor α) : Cursor (Except SyntaxError α) := fun stream position =>
  match q stream position with
  | ⟨.ok value noted, position, course⟩ => ⟨.ok (.ok value) noted, position, course⟩
  | ⟨.fail error noted, position, course⟩ => ⟨.ok (.error error) noted, position, course⟩
  | ⟨.exhausted, position, course⟩ => ⟨.exhausted, position, course⟩
  | ⟨.outOfRange, position, course⟩ => ⟨.outOfRange, position, course⟩

def recover (q : Cursor α) : Cursor (Option α) := do
  match ← attempt q with
  | .ok value => return some value
  | .error error =>
    report error
    synchronize
    return none

def spanning (q : Cursor α) : Cursor α := fun stream position =>
  let walk := q stream position
  { walk with course := walk.course ++ { declarations := [⟨position, walk.position⟩] } }

mutual

def expression : Nat → Cursor Expr
  | 0 => exhausted
  | fuel + 1 => do
    let target ← chain fuel .or
    match ← accept .equal with
    | none => return target
    | some equals =>
      let value ← expression fuel
      match target.assigned? value with
      | some assignment => return assignment
      | none =>
        noteAt equals .invalidAssignmentTarget
        return target

def chain : Nat → Level → Cursor Expr
  | 0, _ => exhausted
  | fuel + 1, level => do
    let left ← operand fuel level
    chainRest fuel level left

def chainRest : Nat → Level → Expr → Cursor Expr
  | 0, _, _ => exhausted
  | fuel + 1, level, left => do
    match ← acceptIf (level.operators.contains ·) with
    | none => return left
    | some op =>
      let right ← operand fuel level
      chainRest fuel level (level.join left op right)

def operand : Nat → Level → Cursor Expr
  | 0, _ => exhausted
  | fuel + 1, level =>
    match level.next? with
    | some next => chain fuel next
    | none => unary fuel

def unary : Nat → Cursor Expr
  | 0 => exhausted
  | fuel + 1 => do
    match ← acceptIf ([Kind.bang, .minus].contains ·) with
    | some op => return .unary op (← unary fuel)
    | none =>
      let callee ← primary fuel
      callRest fuel callee

def callRest : Nat → Expr → Cursor Expr
  | 0, _ => exhausted
  | fuel + 1, e => do
    match ← acceptIf ([Kind.leftParen, .dot].contains ·) with
    | none => return e
    | some t =>
      if t.kind = .dot then
        let property ← require .propertyName
        callRest fuel (.get e property)
      else
        let args ← arguments fuel
        let paren ← require .argumentsEnd
        callRest fuel (.call e paren args)

def arguments : Nat → Cursor (List Expr)
  | 0 => exhausted
  | fuel + 1 => do
    let next ← peek?
    if next.any (·.kind = .rightParen) then return []
    else argumentList fuel 0

def argumentList : Nat → Nat → Cursor (List Expr)
  | 0, _ => exhausted
  | fuel + 1, count => do
    if maxArity ≤ count then note .tooManyArguments
    let first ← expression fuel
    match ← accept .comma with
    | none => return [first]
    | some _ => return first :: (← argumentList fuel (count + 1))

def primary : Nat → Cursor Expr
  | 0 => exhausted
  | fuel + 1 => do
    let some t ← peek? | fail .expectedExpression
    match t.kind with
    | .number | .string | .kwTrue | .kwFalse | .kwNil =>
      skip
      return .literal t.literal
    | .identifier =>
      skip
      return .var t
    | .kwThis =>
      skip
      return .this t
    | .kwSuper =>
      skip
      let _ ← require .superDot
      return .super t (← require .superMethod)
    | .leftParen =>
      skip
      let inner ← expression fuel
      let _ ← require .groupEnd
      return .group inner
    | _ => fail .expectedExpression

end

def optionalExpression (fuel : Nat) (stop : Kind) : Cursor (Option Expr) := do
  let next ← peek?
  if next.any (·.kind = stop) then return none
  else return some (← expression fuel)

def parameterList : Nat → Nat → Cursor (List Token)
  | 0, _ => exhausted
  | fuel + 1, count => do
    if maxArity ≤ count then note .tooManyParameters
    let first ← require .parameterName
    match ← accept .comma with
    | none => return [first]
    | some _ => return first :: (← parameterList fuel (count + 1))

def parameters (fuel : Nat) : Cursor (List Token) := do
  let next ← peek?
  if next.any (·.kind = .rightParen) then return []
  else parameterList fuel 0

def varDecl (fuel : Nat) : Cursor Stmt := do
  let name ← require .variableName
  match ← accept .equal with
  | none =>
    let _ ← require .variableEnd
    return .varDecl name none
  | some _ =>
    let init ← expression fuel
    let _ ← require .variableEnd
    return .varDecl name (some init)

def expressionStatement (fuel : Nat) : Cursor Stmt := do
  let e ← expression fuel
  let _ ← require .expressionEnd
  return .expr e

def forInitializer (fuel : Nat) : Cursor (Option Stmt) := do
  match ← acceptIf ([Kind.semicolon, .kwVar].contains ·) with
  | none => return some (← expressionStatement fuel)
  | some t => if t.kind = .kwVar then return some (← varDecl fuel) else return none

def superclassClause : Cursor (Option Token) := do
  match ← accept .less with
  | none => return none
  | some _ => return some (← require .superclassName)

mutual

def declaration : Nat → Cursor (Option Stmt)
  | 0 => exhausted
  | fuel + 1 => spanning <| recover do
    match ← acceptIf ([Kind.kwClass, .kwFun, .kwVar].contains ·) with
    | none => statement fuel
    | some t =>
      match t.kind with
      | .kwClass => classDecl fuel
      | .kwFun => return .funDecl (← function fuel .function)
      | _ => varDecl fuel

def classDecl : Nat → Cursor Stmt
  | 0 => exhausted
  | fuel + 1 => do
    let name ← require .className
    let superclass ← superclassClause
    let _ ← require .classBody
    let members ← methods fuel
    let _ ← require .classEnd
    return .classDecl name superclass members

def methods : Nat → Cursor (List FunDecl)
  | 0 => exhausted
  | fuel + 1 => do
    let next ← peek?
    if next.all (·.kind = .rightBrace) then return []
    else
      let first ← function fuel .method
      return first :: (← methods fuel)

def function : Nat → Role → Cursor FunDecl
  | 0, _ => exhausted
  | fuel + 1, role => do
    let name ← require (.functionName role)
    let _ ← require (.parametersStart role)
    let params ← parameters fuel
    let _ ← require .parametersEnd
    let _ ← require (.functionBody role)
    return ⟨name, params, ← block fuel⟩

def block : Nat → Cursor (List Stmt)
  | 0 => exhausted
  | fuel + 1 => do
    let body ← declarations fuel
    let _ ← require .blockEnd
    return body

def declarations : Nat → Cursor (List Stmt)
  | 0 => exhausted
  | fuel + 1 => do
    let next ← peek?
    if next.all (·.kind = .rightBrace) then return []
    else
      let first ← declaration fuel
      return first.toList ++ (← declarations fuel)

def statement : Nat → Cursor Stmt
  | 0 => exhausted
  | fuel + 1 => do
    let some keyword ← peek? | expressionStatement fuel
    match keyword.kind with
    | .kwIf =>
      skip
      let _ ← require .ifStart
      let condition ← expression fuel
      let _ ← require .ifEnd
      let yes ← statement fuel
      match ← accept .kwElse with
      | none => return .ifThen condition yes
      | some _ => return .ifElse condition yes (← statement fuel)
    | .kwPrint =>
      skip
      let value ← expression fuel
      let _ ← require .printEnd
      return .print keyword value
    | .kwReturn =>
      skip
      let value ← optionalExpression fuel .semicolon
      let _ ← require .returnEnd
      return .ret keyword value
    | .kwWhile =>
      skip
      let _ ← require .whileStart
      let condition ← expression fuel
      let _ ← require .whileEnd
      return .whileLoop condition (← statement fuel)
    | .kwFor =>
      skip
      let _ ← require .forStart
      let initializer ← forInitializer fuel
      let condition ← optionalExpression fuel .semicolon
      let _ ← require .forConditionEnd
      let increment ← optionalExpression fuel .rightParen
      let _ ← require .forEnd
      return .forLoop initializer condition increment (← statement fuel)
    | .leftBrace =>
      skip
      return .block (← block fuel)
    | _ => expressionStatement fuel

end

def program : Nat → Cursor (List Stmt)
  | 0 => exhausted
  | fuel + 1 => do
    if (← peek?).isNone then return []
    else
      let first ← declaration fuel
      return first.toList ++ (← program fuel)

end Cursor

end Lox.Parse
