import Lox.Proofs.Parsing.Acceptance

/-!
Operators in their places. Many tokens are operators, but a tree that the parser builds has only those in a
place that the evaluator gives a meaning to.
-/
namespace Lox

def Kind.isUnaryOperator : Kind → Bool
  | .bang | .minus => true
  | _ => false

def Kind.isBinaryOperator : Kind → Bool
  | .plus | .minus | .slash | .star | .greater | .greaterEqual | .less | .lessEqual | .equalEqual
  | .bangEqual => true
  | _ => false

mutual

def Expr.Operable : Expr → Prop
  | .literal _ | .var _ | .this _ | .super _ _ => True
  | .assign _ e | .group e | .get e _ => e.Operable
  | .unary op e => op.kind.isUnaryOperator = true ∧ e.Operable
  | .binary left op right => op.kind.isBinaryOperator = true ∧ left.Operable ∧ right.Operable
  | .logical left _ right | .set left _ right => left.Operable ∧ right.Operable
  | .call callee _ args => callee.Operable ∧ Expr.OperableAll args

def Expr.OperableAll : List Expr → Prop
  | [] => True
  | e :: rest => e.Operable ∧ Expr.OperableAll rest

end

mutual

/-- All operators in a statement are in their places, also in the functions that it declares. -/
def Stmt.Operable : Stmt → Prop
  | .expr e | .print _ e => e.Operable
  | .varDecl _ e? | .ret _ e? => ∀ e ∈ e?, e.Operable
  | .block body => Stmt.OperableAll body
  | .ifThen condition yes => condition.Operable ∧ yes.Operable
  | .ifElse condition yes no => condition.Operable ∧ yes.Operable ∧ no.Operable
  | .whileLoop condition body => condition.Operable ∧ body.Operable
  | .funDecl f => f.Operable
  | .classDecl _ _ methods => FunDecl.OperableAll methods

def Stmt.OperableAll : List Stmt → Prop
  | [] => True
  | s :: rest => s.Operable ∧ Stmt.OperableAll rest

def FunDecl.Operable : FunDecl → Prop
  | ⟨_, _, body⟩ => Stmt.OperableAll body

def FunDecl.OperableAll : List FunDecl → Prop
  | [] => True
  | f :: rest => f.Operable ∧ FunDecl.OperableAll rest

end

theorem FunDecl.operable_iff (f : FunDecl) : f.Operable ↔ Stmt.OperableAll f.body := by
  cases f
  rfl

theorem FunDecl.operable_of_mem {f : FunDecl} : ∀ {methods : List FunDecl},
    FunDecl.OperableAll methods → f ∈ methods → f.Operable
  | first :: rest, h, hf => by
    rcases List.mem_cons.1 hf with rfl | hf
    · exact h.1
    · exact FunDecl.operable_of_mem h.2 hf

theorem Level.isBinaryOperator_of_mem {level : Level} {kind : Kind} (hkind : kind ∈ level.operators)
    (hor : level ≠ .or) (hand : level ≠ .and) : kind.isBinaryOperator = true := by
  cases level with
  | or | and => contradiction
  | equality | comparison | term | factor =>
    simp only [operators, List.mem_cons, List.not_mem_nil, or_false] at hkind
    rcases hkind with rfl | hkind
    · rfl
    · rcases hkind with rfl | rfl | rfl <;> rfl

theorem Expr.operable_join {level : Level} {left right : Expr} {op : Token}
    (hop : op.kind ∈ level.operators) (hleft : left.Operable) (hright : right.Operable) :
    (level.join left op right).Operable := by
  cases level with
  | or | and => exact ⟨hleft, hright⟩
  | equality | comparison | term | factor =>
    exact ⟨Level.isBinaryOperator_of_mem hop nofun nofun, hleft, hright⟩

theorem Expr.operable_assigned {target value e : Expr} (h : target.assigned? value = some e)
    (htarget : target.Operable) (hvalue : value.Operable) : e.Operable := by
  cases target with
  | var name =>
    cases h
    exact hvalue
  | get object property =>
    cases h
    exact ⟨htarget, hvalue⟩
  | literal _ | assign _ _ | unary _ _ | binary _ _ _ | logical _ _ _ | group _ | call _ _ _ | set _ _ _
  | this _ | super _ _ => contradiction

theorem Stmt.operable_forLoop {init : Option Stmt} {condition increment : Option Expr} {body : Stmt}
    (hinit : ∀ s ∈ init, s.Operable) (hcondition : ∀ e ∈ condition, e.Operable)
    (hincrement : ∀ e ∈ increment, e.Operable) (hbody : body.Operable) :
    (Stmt.forLoop init condition increment body).Operable := by
  have hholds : (condition.getD (.literal (.bool true))).Operable := by
    cases condition with
    | none => trivial
    | some e => exact hcondition e rfl
  cases increment with
  | none =>
    cases init with
    | none => exact ⟨hholds, hbody⟩
    | some first => exact ⟨hinit first rfl, ⟨hholds, hbody⟩, trivial⟩
  | some e =>
    have hturn : (Stmt.block [body, .expr e]).Operable := ⟨hbody, hincrement e rfl, trivial⟩
    cases init with
    | none => exact ⟨hholds, hturn⟩
    | some first => exact ⟨hinit first rfl, ⟨hholds, hturn⟩, trivial⟩

namespace Grammar

mutual

theorem Expression.operable {ts e n} : Expression ts e n → e.Operable
  | .value h => h.operable
  | .assignment htarget _ hvalue he => Expr.operable_assigned he htarget.operable hvalue.operable
  | .noTarget htarget _ _ _ => htarget.operable

theorem Chain.operable {level ts e n} : Chain level ts e n → e.Operable
  | .first h => h.operable
  | .join hleft hop hright => Expr.operable_join hop hleft.operable hright.operable

theorem Operand.operable {level ts e n} : Operand level ts e n → e.Operable
  | .chain _ h => h.operable
  | .unary _ h => h.operable

theorem Unary.operable {ts e n} : Unary ts e n → e.Operable
  | .operator hop h => ⟨by rcases hop with hop | hop <;> rw [hop] <;> rfl, h.operable⟩
  | .call h => h.operable

theorem Call.operable {ts e n} : Call ts e n → e.Operable
  | .primary h => h.operable
  | .call hcallee _ hargs _ => ⟨hcallee.operable, hargs.operable⟩
  | .get hobject _ _ => hobject.operable

theorem Arguments.operable {ts args n} : Arguments ts args n → Expr.OperableAll args
  | .none => trivial
  | .some h => h.operable

theorem ArgumentList.operable {count ts args n} : ArgumentList count ts args n → Expr.OperableAll args
  | .last h => ⟨h.operable, trivial⟩
  | .more h _ hrest => ⟨h.operable, hrest.operable⟩

theorem Primary.operable {ts e n} : Primary ts e n → e.Operable
  | .literal _ | .var _ | .this _ | .super _ _ _ => trivial
  | .group _ h _ => h.operable

end

theorem OptionalExpression.operable {ts e? n} : OptionalExpression ts e? n → ∀ e ∈ e?, e.Operable
  | .none => nofun
  | .some h => fun _ he => Option.some.inj he ▸ h.operable

theorem VarDecl.operable {ts s n} : VarDecl ts s n → s.Operable
  | .bare _ _ => nofun
  | .initialized _ _ h _ => fun _ he => Option.some.inj he ▸ h.operable

theorem ExpressionStatement.operable {ts s n} : ExpressionStatement ts s n → s.Operable
  | .mk h _ => h.operable

theorem ForInitializer.operable {ts init n} : ForInitializer ts init n → ∀ s ∈ init, s.Operable
  | .none _, _, hs => nomatch hs
  | .var _ h, _, rfl => h.operable
  | .expr h, _, rfl => h.operable

mutual

theorem Declarations.operable {ts body n} : Declarations ts body n → Stmt.OperableAll body
  | .nil => trivial
  | .cons h hrest => ⟨h.operable, hrest.operable⟩

theorem Declaration.operable {ts s n} : Declaration ts s n → s.Operable
  | .cls _ _ _ _ h _ => h.operable
  | .function _ h => h.operable
  | .var _ h => h.operable
  | .statement h => h.operable

theorem Methods.operable {ts methods n} : Methods ts methods n → FunDecl.OperableAll methods
  | .nil => trivial
  | .cons h hrest => ⟨h.operable, hrest.operable⟩

theorem Function.operable {ts f n} : Function ts f n → f.Operable
  | .mk _ _ _ _ h => h.operable

theorem Block.operable {ts body n} : Block ts body n → Stmt.OperableAll body
  | .mk _ h _ => h.operable

theorem Statement.operable {isOpen ts s n} : Statement isOpen ts s n → s.Operable
  | .ifThen _ _ hc _ hyes => ⟨hc.operable, hyes.operable⟩
  | .ifElse _ _ hc _ hyes _ hno => ⟨hc.operable, hyes.operable, hno.operable⟩
  | .print _ h _ => h.operable
  | .ret _ h _ => h.operable
  | .whileLoop _ _ hc _ hbody => ⟨hc.operable, hbody.operable⟩
  | .forLoop _ _ hinit hc _ hinc _ hbody =>
    Stmt.operable_forLoop hinit.operable hc.operable hinc.operable hbody.operable
  | .block h => h.operable
  | .expr h => h.operable

end

end Grammar

theorem operable_of_parse {tokens : List Token} {program : List Stmt}
    (h : parse tokens = .ok program) : Stmt.OperableAll program := (program_of_parse h).operable

end Lox
