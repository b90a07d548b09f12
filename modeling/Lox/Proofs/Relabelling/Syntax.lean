import Lox.Parse.Fault
import Lox.Scope

/-!
Relabelling. The line and the index of a token say where it stands, not what it says: a relabelling
replaces them throughout syntax trees, errors and findings. Two texts that differ in layout only give
results that differ by a relabelling.
-/
namespace Lox

/-- New lines and indices for tokens. -/
structure Relabelling where
  line : Token → Nat
  index : Token → Nat

namespace Relabelling

def apply (r : Relabelling) (t : Token) : Token :=
  { t with line := r.line t, index := r.index t }

instance : CoeFun Relabelling fun _ => Token → Token := ⟨apply⟩

variable (r : Relabelling) (t : Token)

@[simp] theorem apply_kind : (r t).kind = t.kind := rfl

@[simp] theorem apply_lexeme : (r t).lexeme = t.lexeme := rfl

@[simp] theorem apply_value : (r t).value = t.value := rfl

@[simp] theorem apply_literal : (r t).literal = t.literal := rfl

@[simp] theorem apply_line : (r t).line = r.line t := rfl

@[simp] theorem apply_index : (r t).index = r.index t := rfl

def Fixes (p : Token → Prop) : Prop := ∀ t, p t → r t = t

def KeepsLines : Prop := ∀ t, r.line t = t.line

def stay : Relabelling := ⟨Token.line, Token.index⟩

@[simp] theorem apply_stay : stay.apply = id := rfl

end Relabelling

mutual

def Expr.relabel (r : Relabelling) : Expr → Expr
  | .literal value => .literal value
  | .var name => .var (r name)
  | .assign name value => .assign (r name) (value.relabel r)
  | .unary op operand => .unary (r op) (operand.relabel r)
  | .binary left op right => .binary (left.relabel r) (r op) (right.relabel r)
  | .logical left op right => .logical (left.relabel r) (r op) (right.relabel r)
  | .group inner => .group (inner.relabel r)
  | .call callee paren args => .call (callee.relabel r) (r paren) (Expr.relabelAll r args)
  | .get object property => .get (object.relabel r) (r property)
  | .set object property value => .set (object.relabel r) (r property) (value.relabel r)
  | .this keyword => .this (r keyword)
  | .super keyword method => .super (r keyword) (r method)

def Expr.relabelAll (r : Relabelling) : List Expr → List Expr
  | [] => []
  | e :: rest => e.relabel r :: Expr.relabelAll r rest

end

mutual

def Stmt.relabel (r : Relabelling) : Stmt → Stmt
  | .expr e => .expr (e.relabel r)
  | .print keyword value => .print (r keyword) (value.relabel r)
  | .varDecl name init => .varDecl (r name) (init.map (·.relabel r))
  | .block body => .block (Stmt.relabelAll r body)
  | .ifThen condition yes => .ifThen (condition.relabel r) (yes.relabel r)
  | .ifElse condition yes no => .ifElse (condition.relabel r) (yes.relabel r) (no.relabel r)
  | .whileLoop condition body => .whileLoop (condition.relabel r) (body.relabel r)
  | .ret keyword value => .ret (r keyword) (value.map (·.relabel r))
  | .funDecl function => .funDecl (function.relabel r)
  | .classDecl name superclass methods =>
    .classDecl (r name) (superclass.map r) (FunDecl.relabelAll r methods)

def Stmt.relabelAll (r : Relabelling) : List Stmt → List Stmt
  | [] => []
  | s :: rest => s.relabel r :: Stmt.relabelAll r rest

def FunDecl.relabel (r : Relabelling) : FunDecl → FunDecl
  | ⟨name, params, body⟩ => ⟨r name, params.map r, Stmt.relabelAll r body⟩

def FunDecl.relabelAll (r : Relabelling) : List FunDecl → List FunDecl
  | [] => []
  | m :: rest => m.relabel r :: FunDecl.relabelAll r rest

end

variable (r : Relabelling)

theorem Expr.relabelAll_eq_map (es : List Expr) : Expr.relabelAll r es = es.map (·.relabel r) := by
  induction es with
  | nil => rfl
  | cons e rest ih => simp only [Expr.relabelAll, ih, List.map_cons]

theorem Stmt.relabelAll_eq_map (ss : List Stmt) : Stmt.relabelAll r ss = ss.map (·.relabel r) := by
  induction ss with
  | nil => rfl
  | cons s rest ih => simp only [Stmt.relabelAll, ih, List.map_cons]

theorem FunDecl.relabelAll_eq_map (ms : List FunDecl) :
    FunDecl.relabelAll r ms = ms.map (·.relabel r) := by
  induction ms with
  | nil => rfl
  | cons m rest ih => simp only [FunDecl.relabelAll, ih, List.map_cons]

@[simp] theorem FunDecl.relabel_name (f : FunDecl) : (f.relabel r).name = r f.name := by
  cases f
  rfl

@[simp] theorem FunDecl.relabel_params (f : FunDecl) : (f.relabel r).params = f.params.map r := by
  cases f
  rfl

@[simp] theorem FunDecl.relabel_body (f : FunDecl) :
    (f.relabel r).body = Stmt.relabelAll r f.body := by
  cases f
  rfl

@[simp] theorem FunDecl.relabel_isInitializer (f : FunDecl) :
    (f.relabel r).isInitializer = f.isInitializer := by
  simp [FunDecl.isInitializer]

section Stay

open Relabelling

mutual

@[simp] theorem Expr.relabel_stay : ∀ e : Expr, e.relabel stay = e
  | .literal _ | .var _ | .this _ | .super _ _ => rfl
  | .assign _ e | .unary _ e | .group e | .get e _ => by simp [Expr.relabel, Expr.relabel_stay e]
  | .binary left _ right | .logical left _ right | .set left _ right => by
    simp [Expr.relabel, Expr.relabel_stay left, Expr.relabel_stay right]
  | .call callee _ args => by simp [Expr.relabel, Expr.relabel_stay callee, Expr.relabelAll_stay args]

theorem Expr.relabelAll_stay : ∀ es : List Expr, Expr.relabelAll stay es = es
  | [] => rfl
  | e :: rest => by rw [Expr.relabelAll, Expr.relabel_stay e, Expr.relabelAll_stay rest]

end

mutual

@[simp] theorem Stmt.relabel_stay : ∀ s : Stmt, s.relabel stay = s
  | .expr _ | .print _ _ | .varDecl _ _ | .ret _ _ => by simp [Stmt.relabel]
  | .block body => by rw [Stmt.relabel, Stmt.relabelAll_stay body]
  | .ifThen _ yes => by rw [Stmt.relabel, Expr.relabel_stay, Stmt.relabel_stay yes]
  | .ifElse _ yes no => by
    rw [Stmt.relabel, Expr.relabel_stay, Stmt.relabel_stay yes, Stmt.relabel_stay no]
  | .whileLoop _ body => by rw [Stmt.relabel, Expr.relabel_stay, Stmt.relabel_stay body]
  | .funDecl f => by rw [Stmt.relabel, FunDecl.relabel_stay f]
  | .classDecl _ superclass methods => by simp [Stmt.relabel, FunDecl.relabelAll_stay methods]

theorem Stmt.relabelAll_stay : ∀ ss : List Stmt, Stmt.relabelAll stay ss = ss
  | [] => rfl
  | s :: rest => by rw [Stmt.relabelAll, Stmt.relabel_stay s, Stmt.relabelAll_stay rest]

@[simp] theorem FunDecl.relabel_stay : ∀ f : FunDecl, f.relabel stay = f
  | ⟨_, params, body⟩ => by simp [FunDecl.relabel, Stmt.relabelAll_stay body]

theorem FunDecl.relabelAll_stay : ∀ ms : List FunDecl, FunDecl.relabelAll stay ms = ms
  | [] => rfl
  | m :: rest => by rw [FunDecl.relabelAll, FunDecl.relabel_stay m, FunDecl.relabelAll_stay rest]

end

end Stay

def SyntaxError.relabel (e : SyntaxError) : SyntaxError := ⟨e.token?.map r, e.fault⟩

def ScopeError.relabel (e : ScopeError) : ScopeError := ⟨r e.token, e.fault⟩

def Hop.relabel (h : Hop) : Hop := ⟨r h.token, h.distance⟩

def Findings.relabel (f : Findings) : Findings :=
  ⟨f.hops.map (·.relabel r), f.errors.map (·.relabel r)⟩

end Lox
