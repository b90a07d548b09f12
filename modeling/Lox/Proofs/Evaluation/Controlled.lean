import Lox.Proofs.Evaluation.Steps

/-!
Evaluations that keep their control state. A context is handed down; here the current frame and the
number of calls in progress stand in registers instead, which code switches before it runs other code and
switches back behind it. What becomes of them is logged, also where an evaluation fails.
-/
namespace Lox

/-- What control state depends on. -/
inductive Event where
  /-- The evaluation of an expression or a statement begins. -/
  | node
  /-- A callable is about to be called with as many arguments as it takes. -/
  | attempt (paren : Token) (callable : Callable) (arguments : List Value)
  | begin
  | finish

/-- An event and the calls in progress right behind it. -/
structure Moment where
  event : Event
  depth : Nat

structure Control where
  globals : Environment
  env : Environment
  depth : Nat
  /-- What happened so far, the latest first. -/
  log : List Moment

namespace Control

def initial : Control := ⟨globalEnv, globalEnv, 0, []⟩

def note (c : Control) (event : Event) : Control := { c with log := ⟨event, c.depth⟩ :: c.log }

def context (c : Control) (hops : HopTable) : Context := ⟨.distances hops, c.env, c.depth⟩

def find? (c : Control) (hops : HopTable) (frames : Frames Value) (name : Token) : Option Value :=
  match hops[name.index]? with
  | some distance => frames.getAt c.env distance name.lexeme
  | none => frames.get c.globals name.lexeme

def assign? (c : Control) (hops : HopTable) (frames : Frames Value) (name : Token) (value : Value) :
    Option (Frames Value) :=
  match hops[name.index]? with
  | some distance => frames.assignAt c.env distance name.lexeme value
  | none => frames.assign c.globals name.lexeme value

end Control

def Controlled (α : Type) := Control → World → Result α × Control

namespace Controlled

variable {α β : Type}

@[inline] def pure (value : α) : Controlled α := fun c w => (.ok value w, c)

@[inline] def bind (m : Controlled α) (next : α → Controlled β) : Controlled β := fun c w =>
  match m c w with
  | (.ok value w, c) => next value c w
  | (.error e w, c) => (.error e w, c)
  | (.exhausted, c) => (.exhausted, c)

instance : Monad Controlled where
  pure := Controlled.pure
  bind := Controlled.bind

def read (m : Control → Evaluation α) : Controlled α := fun c w => (m c w, c)

instance : MonadLift Evaluation Controlled := ⟨fun m => read fun _ => m⟩

def node : Controlled Unit := fun c w => (.ok () w, c.note .node)

def readEnv : Controlled Environment := fun c w => (.ok c.env w, c)

def setEnv (env : Environment) : Controlled Unit := fun c w => (.ok () w, { c with env })

/-- Runs code with another current frame. The previous one is current again on every way out. -/
def within (env : Environment) (m : Controlled α) : Controlled α := fun c w =>
  let (result, after) := m { c with env } w
  (result, { after with env := c.env })

/-- Counts a call while it is in progress, and refuses it if there are too many. -/
def invoke (paren : Token) (f : Callable) (args : List Value) (m : Controlled α) : Controlled α :=
  fun c w =>
    let c := c.note (.attempt paren f args)
    if maxCallDepth ≤ c.depth then (.error ⟨paren, .stackOverflow⟩ w, c)
    else
      match m ({ c with depth := c.depth + 1 }.note .begin) w with
      | (.exhausted, c) => (.exhausted, c)
      | (result, c) => (result, { c with depth := c.depth - 1 }.note .finish)

def readVariable (hops : HopTable) (name : Token) : Controlled Value := read fun c w =>
  match c.find? hops w.frames name with
  | some value => .ok value w
  | none => .error ⟨name, .undefinedVariable name.lexeme⟩ w

def assignVariable (hops : HopTable) (name : Token) (value : Value) : Controlled Unit :=
  read fun c w =>
    match c.assign? hops w.frames name value with
    | some frames => .ok () { w with frames }
    | none => .error ⟨name, .undefinedVariable name.lexeme⟩ w

def define (name : String) (value : Value) : Controlled Unit :=
  read fun c => defineVariable c.env name value

/-- A frame inside the current one, which stays current. -/
def openFrame (bindings : Bindings Value) : Controlled Environment :=
  read fun c => makeFrame bindings c.env

/-- Makes a frame for a superclass current and gives the one that was. -/
def enterSuperclass : Option Class → Controlled (Option Environment)
  | none => return none
  | some parent => do
    let enclosing ← readEnv
    setEnv (← openFrame (.ofList [("super", .callable (.cls parent))]))
    return some enclosing

def leaveSuperclass : Option Environment → Controlled Unit
  | none => return ()
  | some enclosing => setEnv enclosing

def declareClass (name : Token) (superclass : Option Class) (methods : List FunDecl) :
    Controlled Flow := do
  define name.lexeme .nil
  let enclosing? ← enterSuperclass superclass
  let table := methodTable (← readEnv) methods
  let id ← freshId
  leaveSuperclass enclosing?
  read fun c => assignDeclared c.env name (.callable (.cls ⟨id, name.lexeme, superclass, table⟩))
  return .normal

def steps : Steps HopTable Controlled where
  node m := do
    node
    m
  env _ := readEnv
  readVariable _ hops name := readVariable hops name
  readSuper hops keyword method := read fun c => readSuper (c.context hops) keyword method
  assignVariable := assignVariable
  readProperty v property := readProperty v property
  bindMethod _ method receiver _ := bindMethod method receiver
  declareClass _ := declareClass
  invoke hops paren f args m := invoke paren f args (m hops)
  scope hops _ bindings enclosing m := do
    let env ← makeFrame bindings enclosing
    within env (m hops)

abbrev evaluate (hops : HopTable) (fuel : Nat) (e : Expr) : Controlled Value := steps.evaluate fuel hops e

abbrev execute (hops : HopTable) (fuel : Nat) (s : Stmt) : Controlled Flow := steps.execute fuel hops s

abbrev executeTop (hops : HopTable) (fuel : Nat) (program : List Stmt) : Controlled Unit :=
  steps.executeTop fuel hops program

end Controlled

end Lox
