import Std.Data.TreeMap
import Lox.Console
import Lox.Value

/-!
What evaluation reads, changes and answers. An evaluation runs in a world that it changes; it ends with a
value or a runtime error, unless the bound on its depth was too small.
-/
namespace Lox

inductive RuntimeFault where
  | operandsMustBeNumbers
  | operandsMustBeNumbersOrStrings
  | operandMustBeNumber
  | invalidBinaryOperator
  | invalidUnaryOperator
  | notCallable
  | wrongArity (expected got : Nat)
  | stackOverflow
  | noProperties
  | noFields
  | undefinedVariable (name : String)
  | undefinedProperty (name : String)
  | superclassMustBeClass
  /-- The sink for output refused the text of a `print`. -/
  | refused (reason : String)
deriving DecidableEq, Repr

def RuntimeFault.message : RuntimeFault → String
  | operandsMustBeNumbers => "Operands must be numbers."
  | operandsMustBeNumbersOrStrings => "Operands must be two numbers or two strings."
  | operandMustBeNumber => "Operand must be a number."
  | invalidBinaryOperator => "Invalid binary operator."
  | invalidUnaryOperator => "Invalid unary operator."
  | notCallable => "Can only call functions and classes."
  | wrongArity expected got =>
    "Expected " ++ toString expected ++ " arguments but got " ++ toString got ++ "."
  | stackOverflow => "Stack overflow."
  | noProperties => "Only instances have properties."
  | noFields => "Only instances have fields."
  | undefinedVariable name => "Undefined variable '" ++ name ++ "'."
  | undefinedProperty name => "Undefined property '" ++ name ++ "'."
  | superclassMustBeClass => "Superclass must be a class."
  | refused reason => reason

structure RuntimeError where
  token : Token
  fault : RuntimeFault
deriving DecidableEq

/-- The distances of local uses, by the index of the token that uses the name. -/
abbrev HopTable := Std.TreeMap Nat Nat

/-- A clock that moves on by one tick whenever it is read. -/
structure Clock where
  now : Float
  tick : Float

structure World where
  frames : Frames Value
  /-- The fields of the objects, in the order of their creation. -/
  objects : Array (Bindings Value)
  /-- The identity of the next function or class. -/
  nextId : Nat
  clock : Clock
  console : Console

/-- The environment of top-level code, a frame that outlives every run. -/
def globalEnv : Environment := [0]

/-- A world that has run nothing: its one frame holds what every program finds defined. -/
def World.initial (clock : Clock) (console : Console) : World where
  frames := (Frames.empty.create (.ofList [("clock", .callable (.native .clock))]) []).1
  objects := #[]
  nextId := 0
  clock := clock
  console := console

/-- How the uses of names reach their variables. -/
inductive Addressing where
  /-- By distances found before the run; a use without one is global. -/
  | distances (hops : HopTable)
  /-- By a search through the frames outwards. -/
  | search

structure Context where
  addressing : Addressing
  env : Environment
  /-- The calls in progress. -/
  depth : Nat

/-- Calls nested deeper than this fail. -/
def maxCallDepth : Nat := 256

/-- How a statement completed. A return travels outwards to the call that runs the body. -/
inductive Flow where
  | normal
  | returned (value : Value)

inductive Result (α : Type) where
  | ok (value : α) (world : World)
  | error (e : RuntimeError) (world : World)
  | exhausted

def Evaluation (α : Type) := World → Result α

namespace Evaluation

@[inline] def pure (value : α) : Evaluation α := fun w => .ok value w

@[inline] def bind (m : Evaluation α) (next : α → Evaluation β) : Evaluation β := fun w =>
  match m w with
  | .ok value w => next value w
  | .error e w => .error e w
  | .exhausted => .exhausted

instance : Monad Evaluation where
  pure := Evaluation.pure
  bind := Evaluation.bind

def exhausted : Evaluation α := fun _ => .exhausted

def raise (token : Token) (fault : RuntimeFault) : Evaluation α := fun w => .error ⟨token, fault⟩ w

def lift (token : Token) : Except RuntimeFault α → Evaluation α
  | .ok value => pure value
  | .error fault => raise token fault

end Evaluation

end Lox
