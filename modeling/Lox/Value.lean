import Lox.Environment
import Lox.Number.Decimal
import Lox.Syntax

/-!
Values. Functions and objects have an identity; what may change in them lives in the store, a function's
variables in frames and an object's fields in a record of its own.
-/
namespace Lox

inductive Native where
  | clock
deriving DecidableEq, Repr

/-- A declaration with the environment in which it was evaluated. -/
structure Closure where
  decl : FunDecl
  env : Environment
  /-- An initializer returns its instance, whatever its body returns. -/
  isInitializer : Bool

structure Class where
  id : Nat
  name : String
  superclass : Option Class
  methods : Bindings Closure

/-- The method that instances of a class have under a name: the nearest in the chain of superclasses. -/
def Class.findMethod? (name : String) : Class → Option Closure
  | ⟨_, _, superclass, methods⟩ =>
    match methods.get? name, superclass with
    | some method, _ => some method
    | none, some parent => parent.findMethod? name
    | none, none => none

inductive Callable where
  | native (f : Native)
  | function (id : Nat) (closure : Closure)
  | cls (c : Class)

inductive Value where
  | nil
  | bool (b : Bool)
  | num (x : Float)
  | str (s : String)
  | callable (f : Callable)
  | object (id : Nat) (cls : Class)

namespace Callable

/-- The number of arguments of a call. A class takes those of its initializer. -/
def arity : Callable → Nat
  | native .clock => 0
  | function _ closure => closure.decl.params.length
  | cls c => ((c.findMethod? initializerName).map (·.decl.params.length)).getD 0

def same : Callable → Callable → Bool
  | native f, native g => f = g
  | function i _, function j _ => i = j
  | cls c, cls d => c.id = d.id
  | _, _ => false

def text : Callable → String
  | native _ => "<native fn>"
  | function _ closure => "<fn " ++ closure.decl.name.lexeme ++ ">"
  | cls c => c.name

end Callable

namespace Value

def ofLiteral : Literal → Value
  | .nil => nil
  | .bool b => bool b
  | .num x => num x
  | .str s => str s

/-- Nil, false and the empty string count as false. -/
def isTruthy : Value → Bool
  | nil => false
  | bool b => b
  | str s => s ≠ ""
  | num _ | callable _ | object _ _ => true

/-- Equality, by identity for what has one and by value otherwise. NaN differs from itself. -/
def equals : Value → Value → Bool
  | nil, nil => true
  | bool a, bool b => a == b
  | num a, num b => a == b
  | str a, str b => a == b
  | callable f, callable g => f.same g
  | object i _, object j _ => i = j
  | _, _ => false

def text : Value → String
  | nil => "nil"
  | bool b => if b then "true" else "false"
  | num x => Decimal.text x
  | str s => s
  | callable f => f.text
  | object _ cls => cls.name ++ " instance"

end Value

end Lox
