import Lox.Session
import Lox.Proofs.Desugaring.Resolution

/-!
Evaluation of surface trees. A `for` runs as one construct: it makes a frame if and only if it has an
initializer, shares it among all turns, and runs the increment behind every turn whose body completed
normally. All else is evaluated as in desugared trees.
-/
namespace Lox.Surface

structure Closure where
  decl : FunDecl
  env : Environment
  isInitializer : Bool

structure Class where
  id : Nat
  name : String
  superclass : Option Class
  methods : Bindings Closure

def Class.findMethod? (name : String) : Class → Option Closure
  | ⟨_, _, superclass, methods⟩ =>
    match methods.get? name, superclass with
    | some method, _ => some method
    | none, some parent => parent.findMethod? name
    | none, none => none

inductive Callable where
  | native (f : Native)
  | function (id : Nat) (closure : Closure)
  | cls (c : Class)

inductive Value where
  | constant (value : Literal)
  | callable (f : Callable)
  | object (id : Nat) (cls : Class)

def Callable.arity : Callable → Nat
  | .native .clock => 0
  | .function _ closure => closure.decl.params.length
  | .cls c => ((c.findMethod? initializerName).map (·.decl.params.length)).getD 0

/-- What operators and texts see of a class: no methods. -/
def Class.outline (c : Class) : Lox.Class := ⟨c.id, c.name, none, .empty⟩

def Callable.outline : Callable → Lox.Callable
  | .native f => .native f
  | .function id closure => .function id ⟨⟨closure.decl.name, [], []⟩, [], closure.isInitializer⟩
  | .cls c => .cls c.outline

def Value.outline : Value → Lox.Value
  | .constant value => .ofLiteral value
  | .callable f => .callable f.outline
  | .object id c => .object id c.outline

/-- The constant that an operator gave. Operators give nothing else. -/
def constantOf : Lox.Value → Literal
  | .bool b => .bool b
  | .num x => .num x
  | .str s => .str s
  | .nil | .callable _ | .object _ _ => .nil

structure World where
  frames : Frames Value
  objects : Array (Bindings Value)
  nextId : Nat
  clock : Clock
  console : Console

def World.initial (clock : Clock) (console : Console) : World where
  frames := (Frames.empty.create (.ofList [("clock", .callable (.native .clock))]) []).1
  objects := #[]
  nextId := 0
  clock := clock
  console := console

structure Context where
  hops : HopTable
  env : Environment
  depth : Nat

inductive Flow where
  | normal
  | returned (value : Value)

def Evaluation (α : Type) := World → Option (Except RuntimeError α × World)

namespace Evaluation

variable {α β : Type}

def pure (value : α) : Evaluation α := fun w => some (.ok value, w)

def bind (m : Evaluation α) (next : α → Evaluation β) : Evaluation β := fun w =>
  match m w with
  | some (.ok value, w) => next value w
  | some (.error e, w) => some (.error e, w)
  | none => none

instance : Monad Evaluation where
  pure := Evaluation.pure
  bind := Evaluation.bind

def exhausted : Evaluation α := fun _ => none

def raise (token : Token) (fault : RuntimeFault) : Evaluation α := fun w =>
  some (.error ⟨token, fault⟩, w)

def lift (token : Token) : Except RuntimeFault Lox.Value → Evaluation Value
  | .ok value => pure (.constant (constantOf value))
  | .error fault => raise token fault

end Evaluation

open Surface.Evaluation

def makeFrame (bindings : Bindings Value) (enclosing : Environment) : Evaluation Environment :=
  fun w =>
    let (frames, env) := w.frames.create bindings enclosing
    some (.ok env, { w with frames })

def defineVariable (env : Environment) (name : String) (value : Value) : Evaluation Unit := fun w =>
  some (.ok (), { w with frames := w.frames.define env name value })

def Context.find? (ctx : Context) (frames : Frames Value) (name : Token) : Option Value :=
  match ctx.hops[name.index]? with
  | some distance => frames.getAt ctx.env distance name.lexeme
  | none => frames.get globalEnv name.lexeme

def Context.assign? (ctx : Context) (frames : Frames Value) (name : Token) (value : Value) :
    Option (Frames Value) :=
  match ctx.hops[name.index]? with
  | some distance => frames.assignAt ctx.env distance name.lexeme value
  | none => frames.assign globalEnv name.lexeme value

def Context.findSuper? (ctx : Context) (frames : Frames Value) (keyword : Token) :
    Option (Value × Value) := do
  let distance ← ctx.hops[keyword.index]?
  return (← frames.getAt ctx.env distance "super", ← frames.getAt ctx.env (distance - 1) "this")

def readVariable (ctx : Context) (name : Token) : Evaluation Value := fun w =>
  match ctx.find? w.frames name with
  | some value => some (.ok value, w)
  | none => some (.error ⟨name, .undefinedVariable name.lexeme⟩, w)

def assignVariable (ctx : Context) (name : Token) (value : Value) : Evaluation Unit := fun w =>
  match ctx.assign? w.frames name value with
  | some frames => some (.ok (), { w with frames })
  | none => some (.error ⟨name, .undefinedVariable name.lexeme⟩, w)

def assignDeclared (env : Environment) (name : Token) (value : Value) : Evaluation Unit := fun w =>
  match w.frames.assign env name.lexeme value with
  | some frames => some (.ok (), { w with frames })
  | none => some (.error ⟨name, .undefinedVariable name.lexeme⟩, w)

def freshId : Evaluation Nat := fun w => some (.ok w.nextId, { w with nextId := w.nextId + 1 })

def makeFunction (closure : Closure) : Evaluation Value := do
  return .callable (.function (← freshId) closure)

def makeObject (c : Class) : Evaluation Value := fun w =>
  some (.ok (.object w.objects.size c), { w with objects := w.objects.push .empty })

def bindMethod (method : Closure) (receiver : Value) : Evaluation Closure := do
  let env ← makeFrame (.ofList [("this", receiver)]) method.env
  return { method with env }

def receiver (method : Closure) : Evaluation Value := fun w =>
  some (.ok ((w.frames.getAt method.env 0 "this").getD (.constant .nil)), w)

def readField? (id : Nat) (name : String) : Evaluation (Option Value) := fun w =>
  some (.ok (w.objects[id]?.bind (·.get? name)), w)

def setField (id : Nat) (name : String) (value : Value) : Evaluation Unit := fun w =>
  some (.ok (), { w with objects := w.objects.modify id (·.insert name value) })

def methodOf (c : Class) (property : Token) (receiver : Value) : Evaluation Value :=
  match c.findMethod? property.lexeme with
  | none => raise property (.undefinedProperty property.lexeme)
  | some method => do makeFunction (← bindMethod method receiver)

def readProperty (v : Value) (property : Token) : Evaluation Value :=
  match v with
  | .object id c => do
    match ← readField? id property.lexeme with
    | some value => return value
    | none => methodOf c property v
  | _ => raise property .noProperties

def readSuper (ctx : Context) (keyword method : Token) : Evaluation Value := fun w =>
  match ctx.findSuper? w.frames keyword with
  | some (.callable (.cls parent), .object id c) => methodOf parent method (.object id c) w
  | _ => some (.error ⟨keyword, .undefinedVariable keyword.lexeme⟩, w)

def readClock : Evaluation Value := fun w =>
  some (.ok (.constant (.num w.clock.now)),
    { w with clock := { w.clock with now := w.clock.now + w.clock.tick } })

def printLine (keyword : Token) (text : String) : Evaluation Unit := fun w =>
  let (refusal, console) := w.console.print (text ++ "\n")
  let w := { w with console }
  match refusal with
  | none => some (.ok (), w)
  | some reason => some (.error ⟨keyword, .refused reason⟩, w)

def methodTable (env : Environment) (methods : List FunDecl) : Bindings Closure :=
  .ofList (methods.map fun m => (m.name.lexeme, ⟨m, env, m.isInitializer⟩))

def methodsEnvironment (ctx : Context) : Option Class → Evaluation Environment
  | none => return ctx.env
  | some parent => makeFrame (.ofList [("super", .callable (.cls parent))]) ctx.env

def declareClass (ctx : Context) (name : Token) (superclass : Option Class) (methods : List FunDecl) :
    Evaluation Flow := do
  defineVariable ctx.env name.lexeme (.constant .nil)
  let env ← methodsEnvironment ctx superclass
  let id ← freshId
  assignDeclared ctx.env name (.callable (.cls ⟨id, name.lexeme, superclass, methodTable env methods⟩))
  return .normal

/-- The value of a part that may be missing, by what evaluates the code in it. -/
def evaluateOption (eval : Expr → Evaluation Value) (default : Literal) :
    Option Expr → Evaluation Value
  | none => return .constant default
  | some e => eval e

def declareVariable (eval : Expr → Evaluation Value) (env : Environment) (name : Token)
    (value : Option Expr) : Evaluation Unit := do
  let value ← evaluateOption eval .nil value
  defineVariable env name.lexeme value

def runInitializer (eval : Expr → Evaluation Value) (env : Environment) :
    Initializer → Evaluation Unit
  | .var name value => declareVariable eval env name value
  | .expr e => do
    let _ ← eval e
    return ()

/-- One turn of a `for`: its body and, if that completes normally, its increment. -/
def turn (eval : Expr → Evaluation Value) (body : Evaluation Flow) (increment : Option Expr) :
    Evaluation Flow := do
  match ← body with
  | .normal =>
    let _ ← evaluateOption eval .nil increment
    return .normal
  | .returned value => return .returned value

def declare (eval : Expr → Evaluation Value) (run : Stmt → Evaluation Flow) (ctx : Context) :
    Decl → Evaluation Flow
  | .var name value => do
    declareVariable eval ctx.env name value
    return .normal
  | .function f => do
    let value ← makeFunction ⟨f, ctx.env, false⟩
    defineVariable ctx.env f.name.lexeme value
    return .normal
  | .cls name superclass methods =>
    match superclass with
    | none => declareClass ctx name none methods
    | some parent => do
      match ← readVariable ctx parent with
      | .callable (.cls c) => declareClass ctx name (some c) methods
      | _ => raise parent .superclassMustBeClass
  | .stmt s => run s

mutual

def evaluate : Nat → Context → Expr → Evaluation Value
  | 0, _, _ => exhausted
  | fuel + 1, ctx, e =>
    match e with
    | .literal value => return .constant value
    | .var name => readVariable ctx name
    | .this keyword => readVariable ctx keyword
    | .super keyword method => readSuper ctx keyword method
    | .group inner => evaluate fuel ctx inner
    | .assign name value => do
      let value ← evaluate fuel ctx value
      assignVariable ctx name value
      return value
    | .unary op operand => do
      let operand ← evaluate fuel ctx operand
      lift op (unaryOperation op.kind operand.outline)
    | .binary left op right => do
      let left ← evaluate fuel ctx left
      let right ← evaluate fuel ctx right
      lift op (binaryOperation op.kind left.outline right.outline)
    | .logical left op right => do
      let left ← evaluate fuel ctx left
      if settles op.kind left.outline then return left
      else evaluate fuel ctx right
    | .get object property => do
      let object ← evaluate fuel ctx object
      readProperty object property
    | .set object property value => do
      match ← evaluate fuel ctx object with
      | .object id _ =>
        let value ← evaluate fuel ctx value
        setField id property.lexeme value
        return value
      | _ => raise property .noFields
    | .call callee paren args => do
      let callee ← evaluate fuel ctx callee
      let args ← evaluateAll fuel ctx args
      match callee with
      | .callable f =>
        if f.arity ≠ args.length then raise paren (.wrongArity f.arity args.length)
        else if maxCallDepth ≤ ctx.depth then raise paren .stackOverflow
        else call fuel { ctx with depth := ctx.depth + 1 } f args
      | _ => raise paren .notCallable

def evaluateAll : Nat → Context → List Expr → Evaluation (List Value)
  | 0, _, _ => exhausted
  | fuel + 1, ctx, es =>
    match es with
    | [] => return []
    | e :: rest => do
      let value ← evaluate fuel ctx e
      let values ← evaluateAll fuel ctx rest
      return value :: values

def call : Nat → Context → Callable → List Value → Evaluation Value
  | 0, _, _, _ => exhausted
  | fuel + 1, ctx, f, args =>
    match f with
    | .native .clock => readClock
    | .function _ closure => runBody fuel ctx closure args
    | .cls c => do
      let object ← makeObject c
      match c.findMethod? initializerName with
      | none => return object
      | some method =>
        let init ← bindMethod method object
        let _ ← runBody fuel ctx init args
        return object

def runBody : Nat → Context → Closure → List Value → Evaluation Value
  | 0, _, _, _ => exhausted
  | fuel + 1, ctx, closure, args => do
    let params := closure.decl.params.map Token.lexeme
    let env ← makeFrame (.ofList (params.zip args)) closure.env
    let flow ← declareAll fuel { ctx with env } closure.decl.body
    if closure.isInitializer then receiver closure
    else
      match flow with
      | .returned value => return value
      | .normal => return .constant .nil

def execute : Nat → Context → Stmt → Evaluation Flow
  | 0, _, _ => exhausted
  | fuel + 1, ctx, s =>
    match s with
    | .expr e => do
      let _ ← evaluate fuel ctx e
      return .normal
    | .print keyword value => do
      let value ← evaluate fuel ctx value
      printLine keyword value.outline.text
      return .normal
    | .block body => do
      let env ← makeFrame .empty ctx.env
      declareAll fuel { ctx with env } body
    | .ifThen condition yes => do
      let condition ← evaluate fuel ctx condition
      if condition.outline.isTruthy then execute fuel ctx yes else return .normal
    | .ifElse condition yes no => do
      let condition ← evaluate fuel ctx condition
      if condition.outline.isTruthy then execute fuel ctx yes else execute fuel ctx no
    | .whileLoop condition body => do
      let holds ← evaluate fuel ctx condition
      if holds.outline.isTruthy then
        match ← execute fuel ctx body with
        | .normal => execute fuel ctx (.whileLoop condition body)
        | .returned value => return .returned value
      else return .normal
    | .forLoop (some initializer) condition increment body => do
      let env ← makeFrame .empty ctx.env
      runInitializer (evaluate fuel { ctx with env }) env initializer
      execute fuel { ctx with env } (.forLoop none condition increment body)
    | .forLoop none condition increment body => do
      let holds ← evaluateOption (evaluate fuel ctx) (.bool true) condition
      if holds.outline.isTruthy then
        match ← turn (evaluate fuel ctx) (execute fuel ctx body) increment with
        | .normal => execute fuel ctx (.forLoop none condition increment body)
        | .returned value => return .returned value
      else return .normal
    | .ret _ value => return .returned (← evaluateOption (evaluate fuel ctx) .nil value)

def declareAll : Nat → Context → List Decl → Evaluation Flow
  | 0, _, _ => exhausted
  | fuel + 1, ctx, ds =>
    match ds with
    | [] => return .normal
    | d :: rest => do
      match ← declare (evaluate fuel ctx) (execute fuel ctx) ctx d with
      | .normal => declareAll fuel ctx rest
      | .returned value => return .returned value

end

def executeTop (fuel : Nat) (ctx : Context) : List Decl → Evaluation Unit
  | [] => return ()
  | d :: rest => do
    let _ ← declare (evaluate fuel ctx) (execute fuel ctx) ctx d
    executeTop fuel ctx rest

def settle : Option (Except RuntimeError Unit × World) → Option (Option RuntimeError × Console)
  | some (.ok _, w) => some (none, w.console)
  | some (.error e, w) => some (some e, w.console)
  | none => none

/-- Executes a program in a world that has run nothing, by the distances that the walk over it found. -/
def run? (fuel : Nat) (clock : Clock) (console : Console) (program : List Decl) :
    Option (Option RuntimeError × Console) :=
  let hops := ((Session.initial clock console).adopt (resolve program).hops).hops
  settle (executeTop fuel ⟨hops, globalEnv, 0⟩ program (.initial clock console))

end Lox.Surface
