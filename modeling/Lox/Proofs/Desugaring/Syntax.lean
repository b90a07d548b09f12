import Lox.Proofs.Parsing.Outcome

/-!
Trees that keep `for`. A surface tree tells statements, which may be the body of another statement, from
declarations, and has a node of its own for a `for`; desugaring replaces that node by a loop in blocks.
The parser of surface trees reads what the other one reads: it accepts the same tokens, and what it
builds is desugared to what the other one builds.
-/
namespace Lox

namespace Surface

inductive Initializer where
  | var (name : Token) (value : Option Expr)
  | expr (e : Expr)

mutual

inductive Stmt where
  | expr (e : Expr)
  | print (keyword : Token) (value : Expr)
  | block (body : List Decl)
  | ifThen (condition : Expr) (thenBranch : Stmt)
  | ifElse (condition : Expr) (thenBranch elseBranch : Stmt)
  | whileLoop (condition : Expr) (body : Stmt)
  | forLoop (initializer : Option Initializer) (condition increment : Option Expr) (body : Stmt)
  | ret (keyword : Token) (value : Option Expr)

inductive Decl where
  | var (name : Token) (value : Option Expr)
  | function (f : FunDecl)
  | cls (name : Token) (superclass : Option Token) (methods : List FunDecl)
  | stmt (s : Stmt)

structure FunDecl where
  name : Token
  params : List Token
  body : List Decl

end

def FunDecl.isInitializer (f : FunDecl) : Bool := f.name.lexeme == initializerName

def Initializer.desugar : Initializer → Lox.Stmt
  | .var name value => .varDecl name value
  | .expr e => .expr e

mutual

def Stmt.desugar : Stmt → Lox.Stmt
  | .expr e => .expr e
  | .print keyword value => .print keyword value
  | .block body => .block (Decl.desugarAll body)
  | .ifThen condition yes => .ifThen condition yes.desugar
  | .ifElse condition yes no => .ifElse condition yes.desugar no.desugar
  | .whileLoop condition body => .whileLoop condition body.desugar
  | .forLoop initializer condition increment body =>
    .forLoop (initializer.map (·.desugar)) condition increment body.desugar
  | .ret keyword value => .ret keyword value

def Decl.desugar : Decl → Lox.Stmt
  | .var name value => .varDecl name value
  | .function f => .funDecl f.desugar
  | .cls name superclass methods => .classDecl name superclass (FunDecl.desugarAll methods)
  | .stmt s => s.desugar

def Decl.desugarAll : List Decl → List Lox.Stmt
  | [] => []
  | d :: rest => d.desugar :: Decl.desugarAll rest

def FunDecl.desugar : FunDecl → Lox.FunDecl
  | ⟨name, params, body⟩ => ⟨name, params, Decl.desugarAll body⟩

def FunDecl.desugarAll : List FunDecl → List Lox.FunDecl
  | [] => []
  | f :: rest => f.desugar :: FunDecl.desugarAll rest

end

theorem Decl.desugarAll_eq_map (ds : List Decl) : Decl.desugarAll ds = ds.map (·.desugar) := by
  induction ds with
  | nil => rfl
  | cons d rest ih => rw [desugarAll, ih, List.map_cons]

theorem FunDecl.desugarAll_eq_map (fs : List FunDecl) :
    FunDecl.desugarAll fs = fs.map (·.desugar) := by
  induction fs with
  | nil => rfl
  | cons f rest ih => rw [desugarAll, ih, List.map_cons]

@[simp] theorem FunDecl.desugar_name (f : FunDecl) : f.desugar.name = f.name := by
  cases f
  rfl

@[simp] theorem FunDecl.desugar_params (f : FunDecl) : f.desugar.params = f.params := by
  cases f
  rfl

@[simp] theorem FunDecl.desugar_body (f : FunDecl) : f.desugar.body = Decl.desugarAll f.body := by
  cases f
  rfl

@[simp] theorem FunDecl.desugar_isInitializer (f : FunDecl) :
    f.desugar.isInitializer = f.isInitializer := by
  rw [Lox.FunDecl.isInitializer, isInitializer, desugar_name]

/-- A missing condition holds. -/
def loopCondition (condition : Option Expr) : Expr := condition.getD (.literal (.bool true))

/-- The increment runs behind the body, in a block with it. -/
def loopBody (increment : Option Expr) (body : Lox.Stmt) : Lox.Stmt :=
  increment.elim body fun e => .block [body, .expr e]

def loop (condition increment : Option Expr) (body : Lox.Stmt) : Lox.Stmt :=
  .whileLoop (loopCondition condition) (loopBody increment body)

theorem forLoop_none (condition increment : Option Expr) (body : Lox.Stmt) :
    Lox.Stmt.forLoop none condition increment body = loop condition increment body := by
  cases increment <;> rfl

theorem forLoop_some (initializer : Lox.Stmt) (condition increment : Option Expr)
    (body : Lox.Stmt) :
    Lox.Stmt.forLoop (some initializer) condition increment body =
      .block [initializer, loop condition increment body] := by
  cases increment <;> rfl

end Surface

end Lox
