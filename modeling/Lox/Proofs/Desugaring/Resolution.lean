import Lox.Proofs.Desugaring.Syntax
import Lox.Scope

/-!
The scopes of surface trees. A `for` has a scope of its own if and only if it has an initializer; its
clauses and its body are visited in the order in which they first run.
-/
namespace Lox.Surface

def resolveVariable (around : Surroundings) (scopes : Scopes) (name : Token) (value : Option Expr) :
    Findings :=
  scopes.redeclared name ++ Expr.resolveOption around (scopes.bind name.lexeme false) value

namespace Initializer

def resolve (around : Surroundings) (scopes : Scopes) : Initializer → Findings
  | .var name value => resolveVariable around scopes name value
  | .expr e => e.resolve around scopes

def bind (scopes : Scopes) : Initializer → Scopes
  | .var name _ => scopes.bind name.lexeme true
  | .expr _ => scopes

/-- The findings in an initializer, which stands in the scope of its `for`. -/
def resolveOption (around : Surroundings) (scopes : Scopes) (initializer : Option Initializer) :
    Findings :=
  initializer.elim .none (·.resolve around (.empty :: scopes))

def bindOption (scopes : Scopes) (initializer : Option Initializer) : Scopes :=
  initializer.elim scopes (·.bind (.empty :: scopes))

end Initializer

def Decl.bind (scopes : Scopes) : Decl → Scopes
  | .var name _ => scopes.bind name.lexeme true
  | .function f => scopes.bind f.name.lexeme true
  | .cls name _ _ => scopes.bind name.lexeme true
  | .stmt _ => scopes

mutual

def Stmt.resolve (around : Surroundings) (scopes : Scopes) : Stmt → Findings
  | .expr e => e.resolve around scopes
  | .print _ value => value.resolve around scopes
  | .block body => Decl.resolveAll around (.empty :: scopes) body
  | .ifThen condition yes => condition.resolve around scopes ++ yes.resolve around scopes
  | .ifElse condition yes no =>
    condition.resolve around scopes ++ yes.resolve around scopes ++ no.resolve around scopes
  | .whileLoop condition body => condition.resolve around scopes ++ body.resolve around scopes
  | .forLoop initializer condition increment body =>
    let inside := Initializer.bindOption scopes initializer
    Initializer.resolveOption around scopes initializer ++
      Expr.resolveOption around inside condition ++ body.resolve around inside ++
      Expr.resolveOption around inside increment
  | .ret keyword value =>
    .errorIf (around.function = .topLevel) keyword .returnOutsideFunction ++
      .errorIf (value.isSome && around.function = .initializer) keyword .valueFromInitializer ++
      Expr.resolveOption around scopes value

def Decl.resolve (around : Surroundings) (scopes : Scopes) : Decl → Findings
  | .var name value => resolveVariable around scopes name value
  | .function f =>
    scopes.redeclared f.name ++
      f.resolve { around with function := .function } (scopes.bind f.name.lexeme true)
  | .cls name superclass methods =>
    let inside := scopes.bind name.lexeme true
    scopes.redeclared name ++
      match superclass with
      | none =>
        FunDecl.resolveMethods { around with cls := .base } (keywordScope "this" :: inside) methods
      | some parent =>
        .errorIf (parent.lexeme == name.lexeme) parent .inheritsFromItself ++
          inside.read parent ++
          FunDecl.resolveMethods { around with cls := .derived }
            (keywordScope "this" :: keywordScope "super" :: inside) methods
  | .stmt s => s.resolve around scopes

def Decl.resolveAll (around : Surroundings) (scopes : Scopes) : List Decl → Findings
  | [] => .none
  | d :: rest => d.resolve around scopes ++ Decl.resolveAll around (d.bind scopes) rest

def FunDecl.resolve (around : Surroundings) (scopes : Scopes) : FunDecl → Findings
  | ⟨_, params, body⟩ =>
    let inside : Scopes := .empty :: scopes
    inside.allRedeclared params ++ Decl.resolveAll around (inside.bindAll params) body

def FunDecl.resolveMethods (around : Surroundings) (scopes : Scopes) : List FunDecl → Findings
  | [] => .none
  | f :: rest =>
    f.resolve
        { around with function := if f.isInitializer then .initializer else .method } scopes ++
      FunDecl.resolveMethods around scopes rest

end

def resolve (program : List Decl) : Findings := Decl.resolveAll {} [] program

end Lox.Surface
