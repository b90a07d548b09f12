import Lox.Bindings
import Lox.Syntax

/-!
Static scopes. A walk over a program, before it runs, finds for each use of a name how many scopes lie
between it and the innermost one that binds the name, and collects what the language forbids. What a
statement binds in the scope around it is told apart from what the walk finds in it.
-/
namespace Lox

/-- The scopes around a node, innermost first, without the global one. A name is bound to whether it is
ready: it is not while its own initializer is resolved. -/
abbrev Scopes := List (Bindings Bool)

inductive FunctionContext where
  | topLevel | function | method | initializer
deriving DecidableEq, Repr

inductive ClassContext where
  | outside | base | derived
deriving DecidableEq, Repr

/-- The innermost function and the innermost class around a node. -/
structure Surroundings where
  function : FunctionContext := .topLevel
  cls : ClassContext := .outside
deriving DecidableEq, Repr

inductive ScopeFault where
  | alreadyDeclared
  | readInOwnInitializer
  | returnOutsideFunction
  | valueFromInitializer
  | thisOutsideClass
  | superOutsideClass
  | superWithoutSuperclass
  | inheritsFromItself
deriving DecidableEq, Repr

def ScopeFault.message : ScopeFault → String
  | alreadyDeclared => "Already a variable with this name in this scope."
  | readInOwnInitializer => "Can't read local variable in its own initializer."
  | returnOutsideFunction => "Can't return from top-level code."
  | valueFromInitializer => "Can't return a value from an initializer."
  | thisOutsideClass => "Can't use 'this' outside of a class."
  | superOutsideClass => "Can't use 'super' outside of a class."
  | superWithoutSuperclass => "Can't use 'super' in a class with no superclass."
  | inheritsFromItself => "A class can't inherit from itself."

structure ScopeError where
  token : Token
  fault : ScopeFault
deriving DecidableEq

/-- The distance from a use of a local name to the scope that binds it. -/
structure Hop where
  token : Token
  distance : Nat
deriving DecidableEq

/-- What a walk finds, each in the order in which it comes across it. -/
structure Findings where
  hops : List Hop := []
  errors : List ScopeError := []
deriving DecidableEq

namespace Findings

def none : Findings := {}

instance : Append Findings := ⟨fun a b => ⟨a.hops ++ b.hops, a.errors ++ b.errors⟩⟩

def error (token : Token) (fault : ScopeFault) : Findings := { errors := [⟨token, fault⟩] }

def errorIf (condition : Bool) (token : Token) (fault : ScopeFault) : Findings :=
  if condition then error token fault else none

end Findings

namespace Scopes

/-- Binds a name in the innermost scope. Global names are not tracked. -/
def bind (scopes : Scopes) (name : String) (ready : Bool) : Scopes :=
  match scopes with
  | [] => []
  | scope :: outer => scope.insert name ready :: outer

def bindAll (scopes : Scopes) (names : List Token) : Scopes :=
  names.foldl (fun scopes name => scopes.bind name.lexeme true) scopes

def distance? (scopes : Scopes) (name : String) : Option Nat := scopes.findIdx? (·.binds name)

def redeclared (scopes : Scopes) (name : Token) : Findings :=
  .errorIf (scopes.head?.any (·.binds name.lexeme)) name .alreadyDeclared

def allRedeclared : Scopes → List Token → Findings
  | _, [] => .none
  | scopes, name :: names =>
    scopes.redeclared name ++ allRedeclared (scopes.bind name.lexeme true) names

def use (scopes : Scopes) (name : Token) : Findings :=
  match scopes.distance? name.lexeme with
  | some distance => { hops := [⟨name, distance⟩] }
  | none => .none

/-- A read of a variable, which may not be the one being initialized. -/
def read (scopes : Scopes) (name : Token) : Findings :=
  .errorIf (scopes.head?.bind (·.get? name.lexeme) = some false) name .readInOwnInitializer ++
    scopes.use name

end Scopes

mutual

/-- The findings in an expression, in the order of evaluation but for assignments: the value of one
comes before its target. -/
def Expr.resolve (around : Surroundings) (scopes : Scopes) : Expr → Findings
  | .literal _ => .none
  | .var name => scopes.read name
  | .assign name value => value.resolve around scopes ++ scopes.use name
  | .unary _ operand => operand.resolve around scopes
  | .binary left _ right => left.resolve around scopes ++ right.resolve around scopes
  | .logical left _ right => left.resolve around scopes ++ right.resolve around scopes
  | .group inner => inner.resolve around scopes
  | .call callee _ args => callee.resolve around scopes ++ Expr.resolveAll around scopes args
  | .get object _ => object.resolve around scopes
  | .set object _ value => value.resolve around scopes ++ object.resolve around scopes
  | .this keyword =>
    match around.cls with
    | .outside => .error keyword .thisOutsideClass
    | .base | .derived => scopes.use keyword
  | .super keyword _ =>
    match around.cls with
    | .outside => .error keyword .superOutsideClass
    | .base => .error keyword .superWithoutSuperclass
    | .derived => scopes.use keyword

def Expr.resolveAll (around : Surroundings) (scopes : Scopes) : List Expr → Findings
  | [] => .none
  | e :: rest => e.resolve around scopes ++ Expr.resolveAll around scopes rest

end

def Expr.resolveOption (around : Surroundings) (scopes : Scopes) (e : Option Expr) : Findings :=
  e.elim .none (·.resolve around scopes)

/-- The scopes behind a statement: a declaration binds its name. -/
def Stmt.bind (scopes : Scopes) : Stmt → Scopes
  | .varDecl name _ => scopes.bind name.lexeme true
  | .funDecl function => scopes.bind function.name.lexeme true
  | .classDecl name _ _ => scopes.bind name.lexeme true
  | _ => scopes

def keywordScope (keyword : String) : Bindings Bool := Bindings.empty.insert keyword true

mutual

def Stmt.resolve (around : Surroundings) (scopes : Scopes) : Stmt → Findings
  | .expr e => e.resolve around scopes
  | .print _ value => value.resolve around scopes
  | .varDecl name init =>
    scopes.redeclared name ++
      Expr.resolveOption around (scopes.bind name.lexeme false) init
  | .block body => Stmt.resolveAll around (.empty :: scopes) body
  | .ifThen condition yes => condition.resolve around scopes ++ yes.resolve around scopes
  | .ifElse condition yes no =>
    condition.resolve around scopes ++ yes.resolve around scopes ++ no.resolve around scopes
  | .whileLoop condition body => condition.resolve around scopes ++ body.resolve around scopes
  | .ret keyword value =>
    .errorIf (around.function = .topLevel) keyword .returnOutsideFunction ++
      .errorIf (value.isSome && around.function = .initializer) keyword .valueFromInitializer ++
      Expr.resolveOption around scopes value
  | .funDecl function =>
    scopes.redeclared function.name ++
      function.resolve { around with function := .function }
        (scopes.bind function.name.lexeme true)
  | .classDecl name superclass methods =>
    let inside := scopes.bind name.lexeme true
    scopes.redeclared name ++
      match superclass with
      | none =>
        FunDecl.resolveMethods { around with cls := .base } (keywordScope "this" :: inside) methods
      | some parent =>
        .errorIf (parent.lexeme == name.lexeme) parent .inheritsFromItself ++
          inside.read parent ++
          FunDecl.resolveMethods { around with cls := .derived }
            (keywordScope "this" :: keywordScope "super" :: inside) methods

def Stmt.resolveAll (around : Surroundings) (scopes : Scopes) : List Stmt → Findings
  | [] => .none
  | s :: rest => s.resolve around scopes ++ Stmt.resolveAll around (s.bind scopes) rest

/-- Parameters and body share one scope. -/
def FunDecl.resolve (around : Surroundings) (scopes : Scopes) : FunDecl → Findings
  | ⟨_, params, body⟩ =>
    let inside : Scopes := .empty :: scopes
    inside.allRedeclared params ++ Stmt.resolveAll around (inside.bindAll params) body

def FunDecl.resolveMethods (around : Surroundings) (scopes : Scopes) : List FunDecl → Findings
  | [] => .none
  | m :: rest =>
    m.resolve
        { around with function := if m.isInitializer then .initializer else .method } scopes ++
      FunDecl.resolveMethods around scopes rest

end

def resolve (program : List Stmt) : Findings := Stmt.resolveAll {} [] program

end Lox
