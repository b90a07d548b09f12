import Lox.Scope

/-!
Where a program mentions names. Every mention stands in a stack of scopes, innermost first and without
the global one, and every scope knows what it was opened for. The walk that collects the mentions is the
one that resolves them: what it finds for a mention is a function of the stack at that mention.
-/
namespace Lox

/-- What a scope or a frame is opened for. Classes and functions are told apart by the tokens of their
names. -/
inductive Opener where
  | global
  | block (body : List Stmt)
  | function (name : Token)
  /-- For `this` around the methods of a class. -/
  | receiver (cls : Token)
  /-- For `super` around the methods of a class. -/
  | superclass (cls : Token)

structure OpenScope where
  opener : Opener
  names : Bindings Bool

abbrev ScopeStack := List OpenScope

namespace ScopeStack

def scopes (stack : ScopeStack) : Scopes := stack.map OpenScope.names

def bind (stack : ScopeStack) (name : String) (ready : Bool) : ScopeStack :=
  match stack with
  | [] => []
  | scope :: outer => { scope with names := scope.names.insert name ready } :: outer

def bindAll (stack : ScopeStack) (names : List Token) : ScopeStack :=
  names.foldl (fun stack name => stack.bind name.lexeme true) stack

@[simp] theorem scopes_cons (scope : OpenScope) (stack : ScopeStack) :
    scopes (scope :: stack) = scope.names :: stack.scopes := rfl

@[simp] theorem scopes_bind (stack : ScopeStack) (name : String) (ready : Bool) :
    (stack.bind name ready).scopes = stack.scopes.bind name ready := by
  cases stack <;> rfl

def openers (stack : ScopeStack) : List Opener := stack.map OpenScope.opener

@[simp] theorem openers_bind (stack : ScopeStack) (name : String) (ready : Bool) :
    (stack.bind name ready).openers = stack.openers := by
  cases stack <;> rfl

@[simp] theorem scopes_bindAll (stack : ScopeStack) (names : List Token) :
    (stack.bindAll names).scopes = stack.scopes.bindAll names := by
  unfold bindAll Scopes.bindAll
  induction names generalizing stack with
  | nil => rfl
  | cons name names ih => rw [List.foldl_cons, List.foldl_cons, ih, scopes_bind]

end ScopeStack

def Stmt.bindIn (stack : ScopeStack) : Stmt → ScopeStack
  | .varDecl name _ => stack.bind name.lexeme true
  | .funDecl function => stack.bind function.name.lexeme true
  | .classDecl name _ _ => stack.bind name.lexeme true
  | _ => stack

/-- The names of the global scope are in no stack. -/
@[simp] theorem Stmt.bindIn_nil (s : Stmt) : s.bindIn [] = [] := by
  cases s <;> rfl

theorem Stmt.scopes_bindIn (stack : ScopeStack) (s : Stmt) :
    (s.bindIn stack).scopes = s.bind stack.scopes := by
  cases s <;> simp [Stmt.bindIn, Stmt.bind]

inductive Access where
  | declaration | variable | assignment | this | super
deriving DecidableEq

structure Mention where
  access : Access
  token : Token
  stack : ScopeStack

/-- The keywords that stand for variables. -/
def isScopeKeyword (name : String) : Prop := name = "this" ∨ name = "super"

namespace Mention

/-- How far out the innermost scope lies that binds the name. -/
def distance? (m : Mention) : Option Nat := m.stack.scopes.distance? m.token.lexeme

/-- What the walk for distances records. -/
def hop? (m : Mention) : Option Hop :=
  if m.access = .declaration then none else m.distance?.map (⟨m.token, ·⟩)

/-- Keywords are written as themselves, and names are no keywords. -/
def Spelled (m : Mention) : Prop :=
  match m.access with
  | .declaration | .variable | .assignment => ¬ isScopeKeyword m.token.lexeme
  | .this => m.token.lexeme = "this"
  | .super => m.token.lexeme = "super"

end Mention

mutual

/-- The mentions in an expression, in the order of the source. An expression opens no scope. -/
def Expr.mentions (stack : ScopeStack) : Expr → List Mention
  | .literal _ => []
  | .var name => [⟨.variable, name, stack⟩]
  | .assign name value => ⟨.assignment, name, stack⟩ :: value.mentions stack
  | .unary _ operand => operand.mentions stack
  | .binary left _ right => left.mentions stack ++ right.mentions stack
  | .logical left _ right => left.mentions stack ++ right.mentions stack
  | .group inner => inner.mentions stack
  | .call callee _ args => callee.mentions stack ++ Expr.mentionsAll stack args
  | .get object _ => object.mentions stack
  | .set object _ value => object.mentions stack ++ value.mentions stack
  | .this keyword => [⟨.this, keyword, stack⟩]
  | .super keyword _ => [⟨.super, keyword, stack⟩]

def Expr.mentionsAll (stack : ScopeStack) : List Expr → List Mention
  | [] => []
  | e :: rest => e.mentions stack ++ Expr.mentionsAll stack rest

end

def Expr.mentionsOption (stack : ScopeStack) (e : Option Expr) : List Mention :=
  e.elim [] (·.mentions stack)

def OpenScope.receiver (cls : Token) : OpenScope := ⟨.receiver cls, keywordScope "this"⟩

def OpenScope.superclass (cls : Token) : OpenScope := ⟨.superclass cls, keywordScope "super"⟩

def OpenScope.block (body : List Stmt) : OpenScope := ⟨.block body, .empty⟩

def OpenScope.function (name : Token) : OpenScope := ⟨.function name, .empty⟩

mutual

def Stmt.mentions (stack : ScopeStack) : Stmt → List Mention
  | .expr e => e.mentions stack
  | .print _ value => value.mentions stack
  | .varDecl name init =>
    ⟨.declaration, name, stack⟩ :: Expr.mentionsOption (stack.bind name.lexeme false) init
  | .block body => Stmt.mentionsAll (.block body :: stack) body
  | .ifThen condition yes => condition.mentions stack ++ yes.mentions stack
  | .ifElse condition yes no => condition.mentions stack ++ yes.mentions stack ++ no.mentions stack
  | .whileLoop condition body => condition.mentions stack ++ body.mentions stack
  | .ret _ value => Expr.mentionsOption stack value
  | .funDecl function =>
    ⟨.declaration, function.name, stack⟩ ::
      function.mentions (stack.bind function.name.lexeme true)
  | .classDecl name superclass methods =>
    let inside := stack.bind name.lexeme true
    ⟨.declaration, name, stack⟩ ::
      match superclass with
      | none => FunDecl.mentionsAll (.receiver name :: inside) methods
      | some parent =>
        -- The superclass is read before the class is there to be bound.
        ⟨.variable, parent, stack.bind name.lexeme false⟩ ::
          FunDecl.mentionsAll (.receiver name :: .superclass name :: inside) methods

def Stmt.mentionsAll (stack : ScopeStack) : List Stmt → List Mention
  | [] => []
  | s :: rest => s.mentions stack ++ Stmt.mentionsAll (s.bindIn stack) rest

def FunDecl.mentions (stack : ScopeStack) : FunDecl → List Mention
  | ⟨name, params, body⟩ =>
    params.map (⟨.declaration, ·, .function name :: stack⟩) ++
      Stmt.mentionsAll (ScopeStack.bindAll (.function name :: stack) params) body

def FunDecl.mentionsAll (stack : ScopeStack) : List FunDecl → List Mention
  | [] => []
  | m :: rest => m.mentions stack ++ FunDecl.mentionsAll stack rest

end

theorem FunDecl.mem_mentionsAll {stack : ScopeStack} {m : Mention} {f : FunDecl}
    (hm : m ∈ f.mentions stack) : ∀ {methods : List FunDecl}, f ∈ methods →
      m ∈ FunDecl.mentionsAll stack methods
  | first :: rest, hf => by
    rcases List.mem_cons.1 hf with rfl | hf
    · exact List.mem_append_left _ hm
    · exact List.mem_append_right _ (FunDecl.mem_mentionsAll hm hf)

end Lox
