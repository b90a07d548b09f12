import Lox.Proofs.Relabelling.Syntax

/-!
Resolution asks tokens for their lexemes only, so it commutes with every relabelling: the distances of a
relabelled program are those of the program, at the relabelled tokens.
-/
namespace Lox

variable (r : Relabelling)

namespace Findings

@[simp] theorem relabel_none : Findings.none.relabel r = Findings.none := rfl

@[simp] theorem hops_append (f g : Findings) : (f ++ g).hops = f.hops ++ g.hops := rfl

@[simp] theorem errors_append (f g : Findings) : (f ++ g).errors = f.errors ++ g.errors := rfl

theorem append_none (f : Findings) : f ++ .none = f := by
  change Findings.mk (f.hops ++ []) (f.errors ++ []) = f
  rw [List.append_nil, List.append_nil]

theorem append_assoc (f g h : Findings) : f ++ g ++ h = f ++ (g ++ h) := by
  change Findings.mk (f.hops ++ g.hops ++ h.hops) (f.errors ++ g.errors ++ h.errors) = _
  rw [List.append_assoc, List.append_assoc]
  rfl

@[simp] theorem relabel_append (f g : Findings) :
    (f ++ g).relabel r = f.relabel r ++ g.relabel r := by
  simp only [relabel, hops_append, errors_append, List.map_append]
  rfl

@[simp] theorem relabel_error (t : Token) (fault : ScopeFault) :
    (Findings.error t fault).relabel r = Findings.error (r t) fault := rfl

@[simp] theorem relabel_errorIf (condition : Bool) (t : Token) (fault : ScopeFault) :
    (Findings.errorIf condition t fault).relabel r = Findings.errorIf condition (r t) fault := by
  cases condition <;> rfl

end Findings

namespace Scopes

variable (scopes : Scopes)

@[simp] theorem redeclared_relabel (name : Token) :
    scopes.redeclared (r name) = (scopes.redeclared name).relabel r := by
  simp [redeclared]

@[simp] theorem allRedeclared_relabel (names : List Token) :
    scopes.allRedeclared (names.map r) = (scopes.allRedeclared names).relabel r := by
  induction names generalizing scopes with
  | nil => rfl
  | cons name names ih => simp [allRedeclared, ih]

@[simp] theorem bindAll_relabel (names : List Token) :
    scopes.bindAll (names.map r) = scopes.bindAll names := by
  simp [bindAll, List.foldl_map]

@[simp] theorem use_relabel (name : Token) : scopes.use (r name) = (scopes.use name).relabel r := by
  unfold use
  rw [Relabelling.apply_lexeme]
  cases scopes.distance? name.lexeme <;> rfl

@[simp] theorem read_relabel (name : Token) :
    scopes.read (r name) = (scopes.read name).relabel r := by
  unfold read
  rw [Findings.relabel_append, Findings.relabel_errorIf, use_relabel]
  rfl

end Scopes

mutual

@[simp] theorem Expr.resolve_relabel (around : Surroundings) (scopes : Scopes) : ∀ e : Expr,
    (e.relabel r).resolve around scopes = (e.resolve around scopes).relabel r
  | .literal _ => by simp [Expr.relabel, Expr.resolve]
  | .var _ => by simp [Expr.relabel, Expr.resolve]
  | .assign _ value => by
    simp [Expr.relabel, Expr.resolve, Expr.resolve_relabel around scopes value]
  | .unary _ operand => by
    simp [Expr.relabel, Expr.resolve, Expr.resolve_relabel around scopes operand]
  | .binary left _ right | .logical left _ right => by
    simp [Expr.relabel, Expr.resolve, Expr.resolve_relabel around scopes left,
      Expr.resolve_relabel around scopes right]
  | .group inner => by simp [Expr.relabel, Expr.resolve, Expr.resolve_relabel around scopes inner]
  | .call callee _ args => by
    simp [Expr.relabel, Expr.resolve, Expr.resolve_relabel around scopes callee,
      Expr.resolveAll_relabel around scopes args]
  | .get object _ => by
    simp [Expr.relabel, Expr.resolve, Expr.resolve_relabel around scopes object]
  | .set object _ value => by
    simp [Expr.relabel, Expr.resolve, Expr.resolve_relabel around scopes object,
      Expr.resolve_relabel around scopes value]
  | .this _ => by
    simp only [Expr.relabel, Expr.resolve]
    cases around.cls <;> simp
  | .super _ _ => by
    simp only [Expr.relabel, Expr.resolve]
    cases around.cls <;> simp

theorem Expr.resolveAll_relabel (around : Surroundings) (scopes : Scopes) : ∀ es : List Expr,
    Expr.resolveAll around scopes (Expr.relabelAll r es) =
      (Expr.resolveAll around scopes es).relabel r
  | [] => rfl
  | e :: rest => by
    simp [Expr.relabelAll, Expr.resolveAll, Expr.resolve_relabel around scopes e,
      Expr.resolveAll_relabel around scopes rest]

end

@[simp] theorem Expr.resolveOption_relabel (around : Surroundings) (scopes : Scopes)
    (e : Option Expr) :
    Expr.resolveOption around scopes (e.map (·.relabel r)) =
      (Expr.resolveOption around scopes e).relabel r := by
  cases e with
  | none => rfl
  | some e => exact Expr.resolve_relabel r around scopes e

@[simp] theorem Stmt.bind_relabel (scopes : Scopes) (s : Stmt) :
    (s.relabel r).bind scopes = s.bind scopes := by
  cases s <;> simp [Stmt.relabel, Stmt.bind]

mutual

@[simp] theorem Stmt.resolve_relabel (around : Surroundings) (scopes : Scopes) : ∀ s : Stmt,
    (s.relabel r).resolve around scopes = (s.resolve around scopes).relabel r
  | .expr _ | .print _ _ | .varDecl _ _ | .ret _ _ => by simp [Stmt.relabel, Stmt.resolve]
  | .block body => by
    simp [Stmt.relabel, Stmt.resolve, Stmt.resolveAll_relabel around (.empty :: scopes) body]
  | .ifThen _ yes => by
    simp [Stmt.relabel, Stmt.resolve, Stmt.resolve_relabel around scopes yes]
  | .ifElse _ yes no => by
    simp [Stmt.relabel, Stmt.resolve, Stmt.resolve_relabel around scopes yes,
      Stmt.resolve_relabel around scopes no]
  | .whileLoop _ body => by
    simp [Stmt.relabel, Stmt.resolve, Stmt.resolve_relabel around scopes body]
  | .funDecl function => by
    simp [Stmt.relabel, Stmt.resolve, FunDecl.resolve_relabel _ _ function]
  | .classDecl name superclass methods => by
    cases superclass with
    | none => simp [Stmt.relabel, Stmt.resolve, FunDecl.resolveMethods_relabel _ _ methods]
    | some parent => simp [Stmt.relabel, Stmt.resolve, FunDecl.resolveMethods_relabel _ _ methods]

theorem Stmt.resolveAll_relabel (around : Surroundings) (scopes : Scopes) : ∀ ss : List Stmt,
    Stmt.resolveAll around scopes (Stmt.relabelAll r ss) =
      (Stmt.resolveAll around scopes ss).relabel r
  | [] => rfl
  | s :: rest => by
    simp [Stmt.relabelAll, Stmt.resolveAll, Stmt.resolve_relabel around scopes s,
      Stmt.resolveAll_relabel around (s.bind scopes) rest]

theorem FunDecl.resolve_relabel (around : Surroundings) (scopes : Scopes) : ∀ f : FunDecl,
    (f.relabel r).resolve around scopes = (f.resolve around scopes).relabel r
  | ⟨name, params, body⟩ => by
    simp [FunDecl.relabel, FunDecl.resolve, Stmt.resolveAll_relabel around _ body]

theorem FunDecl.resolveMethods_relabel (around : Surroundings) (scopes : Scopes) :
    ∀ ms : List FunDecl, FunDecl.resolveMethods around scopes (FunDecl.relabelAll r ms) =
      (FunDecl.resolveMethods around scopes ms).relabel r
  | [] => rfl
  | m :: rest => by
    simp [FunDecl.relabelAll, FunDecl.resolveMethods, FunDecl.resolve_relabel _ scopes m,
      FunDecl.resolveMethods_relabel around scopes rest]

end

theorem resolve_relabel (program : List Stmt) :
    resolve (program.map (·.relabel r)) = (resolve program).relabel r := by
  unfold resolve
  rw [← Stmt.relabelAll_eq_map, Stmt.resolveAll_relabel]

end Lox
