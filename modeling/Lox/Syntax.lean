import Lox.Token

/-!
Syntax trees of Lox. Nodes keep the tokens that scopes, evaluation and diagnostics ask for; operators
are kept as their tokens. There is no `for`: it is read as a `while` inside blocks.
-/
namespace Lox

inductive Expr where
  | literal (value : Literal)
  | var (name : Token)
  | assign (name : Token) (value : Expr)
  | unary (operator : Token) (operand : Expr)
  | binary (left : Expr) (operator : Token) (right : Expr)
  /-- A binary operator that may leave its right operand alone. -/
  | logical (left : Expr) (operator : Token) (right : Expr)
  | group (inner : Expr)
  /-- Errors of a call are reported at its closing parenthesis. -/
  | call (callee : Expr) (paren : Token) (arguments : List Expr)
  | get (object : Expr) (property : Token)
  | set (object : Expr) (property : Token) (value : Expr)
  | this (keyword : Token)
  | super (keyword method : Token)
deriving Inhabited

mutual

inductive Stmt where
  | expr (e : Expr)
  | print (keyword : Token) (value : Expr)
  | varDecl (name : Token) (initializer : Option Expr)
  | block (body : List Stmt)
  | ifThen (condition : Expr) (thenBranch : Stmt)
  | ifElse (condition : Expr) (thenBranch elseBranch : Stmt)
  | whileLoop (condition : Expr) (body : Stmt)
  | ret (keyword : Token) (value : Option Expr)
  | funDecl (function : FunDecl)
  | classDecl (name : Token) (superclass : Option Token) (methods : List FunDecl)

structure FunDecl where
  name : Token
  params : List Token
  body : List Stmt

end

/-- The name of the method that initializes the instances of a class. -/
def initializerName : String := "init"

def FunDecl.isInitializer (f : FunDecl) : Bool := f.name.lexeme == initializerName

instance : Inhabited Stmt := ⟨.block []⟩

end Lox
