import Lox.Evaluation.Result

/-!
The steps of an evaluation that run no other code: reading and changing variables and fields, making
frames, functions and objects, printing.
-/
namespace Lox

open Evaluation

def makeFrame (bindings : Bindings Value) (enclosing : Environment) : Evaluation Environment :=
  fun w =>
    let (frames, env) := w.frames.create bindings enclosing
    .ok env { w with frames }

def defineVariable (env : Environment) (name : String) (value : Value) : Evaluation Unit := fun w =>
  .ok () { w with frames := w.frames.define env name value }

def Context.find? (ctx : Context) (frames : Frames Value) (name : Token) : Option Value :=
  match ctx.addressing with
  | .search => frames.get ctx.env name.lexeme
  | .distances hops =>
    match hops[name.index]? with
    | some distance => frames.getAt ctx.env distance name.lexeme
    | none => frames.get globalEnv name.lexeme

def Context.assign? (ctx : Context) (frames : Frames Value) (name : Token) (value : Value) :
    Option (Frames Value) :=
  match ctx.addressing with
  | .search => frames.assign ctx.env name.lexeme value
  | .distances hops =>
    match hops[name.index]? with
    | some distance => frames.assignAt ctx.env distance name.lexeme value
    | none => frames.assign globalEnv name.lexeme value

def readVariable (ctx : Context) (name : Token) : Evaluation Value := fun w =>
  match ctx.find? w.frames name with
  | some value => .ok value w
  | none => .error ⟨name, .undefinedVariable name.lexeme⟩ w

def assignVariable (ctx : Context) (name : Token) (value : Value) : Evaluation Unit := fun w =>
  match ctx.assign? w.frames name value with
  | some frames => .ok () { w with frames }
  | none => .error ⟨name, .undefinedVariable name.lexeme⟩ w

/-- Gives a variable that a declaration has just made its value. -/
def assignDeclared (env : Environment) (name : Token) (value : Value) : Evaluation Unit := fun w =>
  match w.frames.assign env name.lexeme value with
  | some frames => .ok () { w with frames }
  | none => .error ⟨name, .undefinedVariable name.lexeme⟩ w

def freshId : Evaluation Nat := fun w => .ok w.nextId { w with nextId := w.nextId + 1 }

def makeFunction (closure : Closure) : Evaluation Value := do
  return .callable (.function (← freshId) closure)

def makeObject (c : Class) : Evaluation Value := fun w =>
  .ok (.object w.objects.size c) { w with objects := w.objects.push .empty }

/-- A method whose environment starts with a frame for `this`. -/
def bindMethod (method : Closure) (receiver : Value) : Evaluation Closure := do
  let env ← makeFrame (.ofList [("this", receiver)]) method.env
  return { method with env }

def receiver (method : Closure) : Evaluation Value := fun w =>
  .ok ((w.frames.getAt method.env 0 "this").getD .nil) w

def readField? (id : Nat) (name : String) : Evaluation (Option Value) := fun w =>
  .ok (w.objects[id]?.bind (·.get? name)) w

def setField (id : Nat) (name : String) (value : Value) : Evaluation Unit := fun w =>
  .ok () { w with objects := w.objects.modify id (·.insert name value) }

def methodOf (c : Class) (property : Token) (receiver : Value) : Evaluation Value :=
  match c.findMethod? property.lexeme with
  | none => raise property (.undefinedProperty property.lexeme)
  | some method => do makeFunction (← bindMethod method receiver)

/-- A property of a value. Fields come before methods. -/
def readProperty (v : Value) (property : Token) : Evaluation Value :=
  match v with
  | .object id c => do
    match ← readField? id property.lexeme with
    | some value => return value
    | none => methodOf c property v
  | _ => raise property .noProperties

/-- The superclass and the receiver that a use of `super` finds, the one a frame outside the other. -/
def Context.findSuper? (ctx : Context) (frames : Frames Value) (keyword : Token) :
    Option (Value × Value) :=
  match ctx.addressing with
  | .search => do return (← frames.get ctx.env "super", ← frames.get ctx.env "this")
  | .distances hops => do
    let distance ← hops[keyword.index]?
    return (← frames.getAt ctx.env distance "super", ← frames.getAt ctx.env (distance - 1) "this")

def readSuper (ctx : Context) (keyword method : Token) : Evaluation Value := fun w =>
  match ctx.findSuper? w.frames keyword with
  | some (.callable (.cls parent), .object id c) => methodOf parent method (.object id c) w
  | _ => .error ⟨keyword, .undefinedVariable keyword.lexeme⟩ w

def readClock : Evaluation Value := fun w =>
  .ok (.num w.clock.now) { w with clock := { w.clock with now := w.clock.now + w.clock.tick } }

def printLine (keyword : Token) (text : String) : Evaluation Unit := fun w =>
  let (refusal, console) := w.console.print (text ++ "\n")
  let w := { w with console }
  match refusal with
  | none => .ok () w
  | some reason => .error ⟨keyword, .refused reason⟩ w

/-- The methods of a class, declared in an environment. Of two of one name the later one counts. -/
def methodTable (env : Environment) (methods : List FunDecl) : Bindings Closure :=
  .ofList (methods.map fun m => (m.name.lexeme, ⟨m, env, m.isInitializer⟩))

/-- Declares a class. Its name is bound first, so that its methods can refer to it; a superclass stands
in a frame of its own around the methods. -/
def declareClass (ctx : Context) (name : Token) (superclass : Option Class) (methods : List FunDecl) :
    Evaluation Flow := do
  defineVariable ctx.env name.lexeme .nil
  let env ← match superclass with
    | none => Pure.pure ctx.env
    | some parent => makeFrame (.ofList [("super", .callable (.cls parent))]) ctx.env
  let id ← freshId
  assignDeclared ctx.env name (.callable (.cls ⟨id, name.lexeme, superclass, methodTable env methods⟩))
  return .normal

end Lox
