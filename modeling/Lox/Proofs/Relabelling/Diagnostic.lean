import Lox.Diagnostic
import Lox.Syntax.Parenthesized
import Lox.Proofs.Relabelling.Evaluation
import Lox.Proofs.Relabelling.Parsing

/-!
Texts about relabelled programs. Trees are shown without positions; a diagnostic shows the line of its
token but not the index, so it reads the same if every token keeps its line.
-/
namespace Lox

variable (r : Relabelling)

mutual

@[simp] theorem Expr.parenthesized_relabel : ∀ e : Expr,
    (e.relabel r).parenthesized = e.parenthesized
  | .literal _ | .var _ | .this _ | .super _ _ => by simp [Expr.relabel, Expr.parenthesized]
  | .assign _ value => by
    simp [Expr.relabel, Expr.parenthesized, Expr.parenthesized_relabel value]
  | .unary _ operand => by
    simp [Expr.relabel, Expr.parenthesized, Expr.parenthesized_relabel operand]
  | .binary left _ right | .logical left _ right => by
    simp [Expr.relabel, Expr.parenthesized, Expr.parenthesized_relabel left,
      Expr.parenthesized_relabel right]
  | .group inner => by simp [Expr.relabel, Expr.parenthesized, Expr.parenthesized_relabel inner]
  | .call callee _ args => by
    simp [Expr.relabel, Expr.parenthesized, Expr.parenthesized_relabel callee,
      Expr.allParenthesized_relabel args]
  | .get object _ => by
    simp [Expr.relabel, Expr.parenthesized, Expr.parenthesized_relabel object]
  | .set object _ value => by
    simp [Expr.relabel, Expr.parenthesized, Expr.parenthesized_relabel object,
      Expr.parenthesized_relabel value]

theorem Expr.allParenthesized_relabel : ∀ es : List Expr,
    Expr.allParenthesized (Expr.relabelAll r es) = Expr.allParenthesized es
  | [] => rfl
  | e :: rest => by
    simp [Expr.relabelAll, Expr.allParenthesized, Expr.parenthesized_relabel e,
      Expr.allParenthesized_relabel rest]

end

@[simp] theorem Expr.optionParenthesized_relabel (e : Option Expr) :
    Expr.optionParenthesized (e.map (·.relabel r)) = Expr.optionParenthesized e := by
  cases e <;> simp [Expr.optionParenthesized]

mutual

@[simp] theorem Stmt.parenthesized_relabel : ∀ s : Stmt,
    (s.relabel r).parenthesized = s.parenthesized
  | .expr _ | .print _ _ | .varDecl _ _ | .ret _ _ => by simp [Stmt.relabel, Stmt.parenthesized]
  | .block body => by
    simp [Stmt.relabel, Stmt.parenthesized, Stmt.allParenthesized_relabel body]
  | .ifThen _ yes => by simp [Stmt.relabel, Stmt.parenthesized, Stmt.parenthesized_relabel yes]
  | .ifElse _ yes no => by
    simp [Stmt.relabel, Stmt.parenthesized, Stmt.parenthesized_relabel yes,
      Stmt.parenthesized_relabel no]
  | .whileLoop _ body => by
    simp [Stmt.relabel, Stmt.parenthesized, Stmt.parenthesized_relabel body]
  | .funDecl function => by
    simp [Stmt.relabel, Stmt.parenthesized, FunDecl.parenthesized_relabel "fun" function]
  | .classDecl _ superclass methods => by
    cases superclass <;>
      simp [Stmt.relabel, Stmt.parenthesized, FunDecl.allParenthesized_relabel methods]

theorem Stmt.allParenthesized_relabel : ∀ ss : List Stmt,
    Stmt.allParenthesized (Stmt.relabelAll r ss) = Stmt.allParenthesized ss
  | [] => rfl
  | s :: rest => by
    simp [Stmt.relabelAll, Stmt.allParenthesized, Stmt.parenthesized_relabel s,
      Stmt.allParenthesized_relabel rest]

theorem FunDecl.parenthesized_relabel (word : String) : ∀ f : FunDecl,
    (f.relabel r).parenthesized word = f.parenthesized word
  | ⟨_, params, body⟩ => by
    simp [FunDecl.relabel, FunDecl.parenthesized, Stmt.allParenthesized_relabel body,
      Function.comp_def]

theorem FunDecl.allParenthesized_relabel : ∀ ms : List FunDecl,
    FunDecl.allParenthesized (FunDecl.relabelAll r ms) = FunDecl.allParenthesized ms
  | [] => rfl
  | m :: rest => by
    simp [FunDecl.relabelAll, FunDecl.allParenthesized, FunDecl.parenthesized_relabel "method" m,
      FunDecl.allParenthesized_relabel rest]

end

namespace Diagnostic

variable {r : Relabelling}

theorem text_grammar_relabel (h : r.KeepsLines) (e : SyntaxError) {finish finish' : EndMark}
    (hfinish : finish'.line = finish.line) :
    (ofSyntaxError finish' (e.relabel r)).text = (ofSyntaxError finish e).text := by
  obtain ⟨token?, fault⟩ := e
  cases token? with
  | none => simp [ofSyntaxError, SyntaxError.relabel, SyntaxError.site, text, line, Site.line,
      Site.text, hfinish]
  | some t => simp [ofSyntaxError, SyntaxError.relabel, SyntaxError.site, text, line, Site.line,
      Site.text, h t]

theorem text_scope_relabel (h : r.KeepsLines) (e : ScopeError) :
    (scope (e.relabel r)).text = (scope e).text := by
  simp [ScopeError.relabel, text, line, Site.text, h e.token]

theorem text_runtime_relabel (h : r.KeepsLines) (e : RuntimeError) :
    (runtime (e.relabel r)).text = (runtime e).text := by
  simp [RuntimeError.relabel, text, line, h e.token]

end Diagnostic

end Lox
