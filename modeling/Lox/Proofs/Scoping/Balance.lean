import Lox.Proofs.Evaluation.Binding
import Lox.Proofs.Scoping.Violations
import Mathlib.Logic.Basic

/-!
Resolution with a stack. A walk that keeps one stack of scopes, opens and closes them by hand and changes
the function and the class that it is in gives back what it borrows: behind a node the stack is as deep as
in front of it, and only the names that the node declares are new. So such a walk finds what `resolve`
finds, which hands scopes down and keeps none.
-/
namespace Lox

/-- A resolution in progress: the stack of scopes, innermost first, the function and the class that it is
in, and what it has found. -/
structure Resolution where
  scopes : Scopes
  around : Surroundings
  findings : Findings

namespace Resolution

def start : Resolution := ⟨[], {}, .none⟩

def note (r : Resolution) (found : Findings) : Resolution :=
  { r with findings := r.findings ++ found }

def openScope (r : Resolution) : Resolution := { r with scopes := .empty :: r.scopes }

def closeScope (r : Resolution) : Resolution := { r with scopes := r.scopes.tail }

def bind (r : Resolution) (name : String) (ready : Bool) : Resolution :=
  { r with scopes := r.scopes.bind name ready }

def inFunction (r : Resolution) (context : FunctionContext) : Resolution :=
  { r with around.function := context }

def inClass (r : Resolution) (context : ClassContext) : Resolution :=
  { r with around.cls := context }

def use (r : Resolution) (name : Token) : Resolution := r.note (r.scopes.use name)

def read (r : Resolution) (name : Token) : Resolution := r.note (r.scopes.read name)

/-- Binds a name that is not ready yet. -/
def declare (r : Resolution) (name : Token) : Resolution :=
  (r.bind name.lexeme false).note (r.scopes.redeclared name)

def declareReady (r : Resolution) (name : Token) : Resolution :=
  (r.declare name).bind name.lexeme true

/-- Reads the name of a superclass. What follows is in a class that inherits. -/
def inherit (r : Resolution) (name parent : Token) : Resolution :=
  let r := r.note (.errorIf (parent.lexeme == name.lexeme) parent .inheritsFromItself)
  (r.inClass .derived).read parent

end Resolution

mutual

def Expr.resolveFrom (r : Resolution) : Expr → Resolution
  | .literal _ => r
  | .var name => r.read name
  | .assign name value => (value.resolveFrom r).use name
  | .unary _ operand => operand.resolveFrom r
  | .binary left _ right => right.resolveFrom (left.resolveFrom r)
  | .logical left _ right => right.resolveFrom (left.resolveFrom r)
  | .group inner => inner.resolveFrom r
  | .call callee _ args => Expr.resolveAllFrom (callee.resolveFrom r) args
  | .get object _ => object.resolveFrom r
  | .set object _ value => object.resolveFrom (value.resolveFrom r)
  | .this keyword =>
    match r.around.cls with
    | .outside => r.note (.error keyword .thisOutsideClass)
    | .base | .derived => r.use keyword
  | .super keyword _ =>
    match r.around.cls with
    | .outside => r.note (.error keyword .superOutsideClass)
    | .base => r.note (.error keyword .superWithoutSuperclass)
    | .derived => r.use keyword

def Expr.resolveAllFrom (r : Resolution) : List Expr → Resolution
  | [] => r
  | e :: rest => Expr.resolveAllFrom (e.resolveFrom r) rest

end

def Expr.resolveOptionFrom (r : Resolution) (e : Option Expr) : Resolution :=
  e.elim r (·.resolveFrom r)

mutual

def Stmt.resolveFrom (r : Resolution) : Stmt → Resolution
  | .expr e => e.resolveFrom r
  | .print _ value => value.resolveFrom r
  | .varDecl name init => (Expr.resolveOptionFrom (r.declare name) init).bind name.lexeme true
  | .block body => (Stmt.resolveAllFrom r.openScope body).closeScope
  | .ifThen condition yes => yes.resolveFrom (condition.resolveFrom r)
  | .ifElse condition yes no => no.resolveFrom (yes.resolveFrom (condition.resolveFrom r))
  | .whileLoop condition body => body.resolveFrom (condition.resolveFrom r)
  | .ret keyword value =>
    let r := r.note (.errorIf (r.around.function = .topLevel) keyword .returnOutsideFunction)
    value.elim r fun value =>
      value.resolveFrom
        (r.note (.errorIf (r.around.function = .initializer) keyword .valueFromInitializer))
  | .funDecl function => function.resolveFrom .function (r.declareReady function.name)
  | .classDecl name superclass methods =>
    let inside := (r.inClass .base).declareReady name
    let outside := superclass.elim inside fun parent =>
      (inside.inherit name parent).openScope.bind "super" true
    let left := (FunDecl.resolveMethodsFrom (outside.openScope.bind "this" true) methods).closeScope
    let left := if superclass.isSome then left.closeScope else left
    left.inClass r.around.cls

def Stmt.resolveAllFrom (r : Resolution) : List Stmt → Resolution
  | [] => r
  | s :: rest => Stmt.resolveAllFrom (s.resolveFrom r) rest

def FunDecl.resolveFrom (context : FunctionContext) (r : Resolution) : FunDecl → Resolution
  | ⟨_, params, body⟩ =>
    let inside := params.foldl Resolution.declareReady (r.inFunction context).openScope
    (Stmt.resolveAllFrom inside body).closeScope.inFunction r.around.function

def FunDecl.resolveMethodsFrom (r : Resolution) : List FunDecl → Resolution
  | [] => r
  | m :: rest =>
    FunDecl.resolveMethodsFrom
      (m.resolveFrom (if m.isInitializer then .initializer else .method) r) rest

end

theorem Bindings.insert_insert {α : Type} (b : Bindings α) (name : String) (value value' : α) :
    (b.insert name value).insert name value' = b.insert name value' := by
  have hentries : ∀ entries : List (String × α),
      insertEntry name value' (insertEntry name value entries) = insertEntry name value' entries := by
    intro entries
    induction entries with
    | nil => simp [insertEntry]
    | cons entry rest ih =>
      by_cases hname : name = entry.1
      · simp [insertEntry, hname]
      · simp [insertEntry, hname, ih]
  rw [insert, insert, insert, hentries]

namespace Scopes

theorem bind_bind (scopes : Scopes) (name : String) (ready ready' : Bool) :
    (scopes.bind name ready).bind name ready' = scopes.bind name ready' := by
  cases scopes with
  | nil => rfl
  | cons scope outer => simp [bind, Bindings.insert_insert]

/-- The second stack is as deep as the first one, with the same outer scopes, and in the innermost scope
only the given names are bound anew. They are ready. -/
structure Gains (scopes scopes' : Scopes) (names : List String) : Prop where
  depth : scopes'.length = scopes.length
  outer : scopes'.tail = scopes.tail
  innermost : ∀ name, scopes'.head?.map (·.get? name) =
    scopes.head?.map fun scope => if name ∈ names then some true else scope.get? name

variable {scopes scopes' scopes'' : Scopes} {names more : List String}

theorem Gains.refl (scopes : Scopes) : scopes.Gains scopes [] := by
  constructor
  · rfl
  · rfl
  · intro name
    simp

theorem Gains.trans (h : scopes.Gains scopes' names) (h' : scopes'.Gains scopes'' more) :
    scopes.Gains scopes'' (names ++ more) := by
  constructor
  · rw [h'.depth, h.depth]
  · rw [h'.outer, h.outer]
  · intro name
    have hinner := congrArg (Option.map fun value => if name ∈ more then some true else value)
      (h.innermost name)
    rw [h'.innermost name]
    simp only [Option.map_map, Function.comp_def] at hinner
    rw [hinner]
    apply Option.map_congr
    intro scope _
    by_cases hnames : name ∈ names <;> by_cases hmore : name ∈ more <;> simp [hnames, hmore]

theorem gains_bind (scopes : Scopes) (name : String) : scopes.Gains (scopes.bind name true) [name] := by
  cases scopes with
  | nil => exact ⟨rfl, rfl, fun _ => rfl⟩
  | cons scope outer => exact ⟨rfl, rfl, fun other => by simp [bind]⟩

end Scopes

namespace Resolution

variable (r : Resolution)

theorem note_none : r.note .none = r :=
  congrArg (Resolution.mk r.scopes r.around) (Findings.append_none r.findings)

theorem note_note (found more : Findings) : (r.note found).note more = r.note (found ++ more) :=
  congrArg (Resolution.mk r.scopes r.around) (Findings.append_assoc r.findings found more)

end Resolution

mutual

theorem Expr.resolveFrom_eq (r : Resolution) :
    ∀ e : Expr, e.resolveFrom r = r.note (e.resolve r.around r.scopes)
  | .literal _ => r.note_none.symm
  | .var _ => rfl
  | .assign name value => by
    rw [Expr.resolveFrom, value.resolveFrom_eq, Resolution.use, Resolution.note_note, Expr.resolve]
    rfl
  | .unary _ e | .group e | .get e _ => e.resolveFrom_eq r
  | .binary left _ right | .logical left _ right => by
    rw [Expr.resolveFrom, left.resolveFrom_eq, right.resolveFrom_eq, Resolution.note_note, Expr.resolve]
    rfl
  | .set object _ value => by
    rw [Expr.resolveFrom, value.resolveFrom_eq, object.resolveFrom_eq, Resolution.note_note,
      Expr.resolve]
    rfl
  | .call callee _ args => by
    rw [Expr.resolveFrom, callee.resolveFrom_eq, Expr.resolveAllFrom_eq, Resolution.note_note,
      Expr.resolve]
    rfl
  | .this keyword => by
    rw [Expr.resolveFrom, Expr.resolve]
    cases r.around.cls <;> rfl
  | .super keyword _ => by
    rw [Expr.resolveFrom, Expr.resolve]
    cases r.around.cls <;> rfl

theorem Expr.resolveAllFrom_eq (r : Resolution) :
    ∀ es : List Expr, Expr.resolveAllFrom r es = r.note (Expr.resolveAll r.around r.scopes es)
  | [] => r.note_none.symm
  | e :: rest => by
    rw [Expr.resolveAllFrom, e.resolveFrom_eq, Expr.resolveAllFrom_eq, Resolution.note_note,
      Expr.resolveAll]
    rfl

end

theorem Expr.resolveOptionFrom_eq (r : Resolution) (e : Option Expr) :
    Expr.resolveOptionFrom r e = r.note (Expr.resolveOption r.around r.scopes e) := by
  cases e with
  | none => exact r.note_none.symm
  | some e => exact e.resolveFrom_eq r

namespace Resolution

/-- What a walk may have changed behind a node that declares the given names. -/
structure Balanced (r r' : Resolution) (names : List String) : Prop where
  scopes : r.scopes.Gains r'.scopes names
  function : r'.around.function = r.around.function
  cls : r'.around.cls = r.around.cls

variable {r r' r'' : Resolution} {names more : List String}

theorem Balanced.trans (h : r.Balanced r' names) (h' : r'.Balanced r'' more) :
    r.Balanced r'' (names ++ more) :=
  ⟨h.scopes.trans h'.scopes, h'.function.trans h.function, h'.cls.trans h.cls⟩

theorem balanced_note (r : Resolution) (found : Findings) : r.Balanced (r.note found) [] :=
  ⟨.refl _, rfl, rfl⟩

theorem Balanced.before_note {found : Findings} (h : (r.note found).Balanced r' names) :
    r.Balanced r' names :=
  (balanced_note r found).trans h

theorem balanced_bind (r : Resolution) (name : String) : r.Balanced (r.bind name true) [name] :=
  ⟨Scopes.gains_bind r.scopes name, rfl, rfl⟩

theorem balanced_declareReady (r : Resolution) (name : Token) :
    r.Balanced (r.declareReady name) [name.lexeme] := by
  refine ⟨?_, rfl, rfl⟩
  change r.scopes.Gains ((r.scopes.bind name.lexeme false).bind name.lexeme true) [name.lexeme]
  rw [Scopes.bind_bind]
  exact Scopes.gains_bind r.scopes name.lexeme

theorem Balanced.close_scopes (h : r.openScope.Balanced r' names) : r'.closeScope.scopes = r.scopes :=
  h.scopes.outer

theorem Balanced.close (h : r.openScope.Balanced r' names) : r.Balanced r'.closeScope [] := by
  refine ⟨?_, h.function, h.cls⟩
  rw [h.close_scopes]
  exact .refl r.scopes

theorem balanced_declareAll (r : Resolution) (names : List Token) :
    r.Balanced (names.foldl declareReady r) (names.map Token.lexeme) := by
  induction names generalizing r with
  | nil => exact ⟨.refl _, rfl, rfl⟩
  | cons name names ih => exact (r.balanced_declareReady name).trans (ih _)

end Resolution

open Resolution

theorem Expr.resolveFrom_balanced (r : Resolution) (e : Expr) : r.Balanced (e.resolveFrom r) [] := by
  rw [e.resolveFrom_eq]
  exact r.balanced_note _

mutual

theorem Stmt.resolveFrom_balanced (r : Resolution) : ∀ s : Stmt, r.Balanced (s.resolveFrom r) s.bound
  | .expr e | .print _ e => e.resolveFrom_balanced r
  | .varDecl name init => by
    rw [Stmt.resolveFrom, Expr.resolveOptionFrom_eq]
    exact (r.balanced_declareReady name).trans (balanced_note _ _)
  | .block body => (Stmt.resolveAllFrom_balanced r.openScope body).close
  | .ifThen condition yes => (condition.resolveFrom_balanced r).trans (yes.resolveFrom_balanced _)
  | .ifElse condition yes no =>
    ((condition.resolveFrom_balanced r).trans (yes.resolveFrom_balanced _)).trans
      (no.resolveFrom_balanced _)
  | .whileLoop condition body => (condition.resolveFrom_balanced r).trans (body.resolveFrom_balanced _)
  | .ret keyword value => by
    cases value with
    | none => exact r.balanced_note _
    | some value => exact (value.resolveFrom_balanced _).before_note.before_note
  | .funDecl function =>
    (r.balanced_declareReady function.name).trans (function.resolveFrom_balanced .function _)
  | .classDecl name superclass methods => by
    have hname := (r.inClass .base).balanced_declareReady name
    have hmethods := fun outside : Resolution =>
      ((outside.openScope.balanced_bind "this").trans
        (FunDecl.resolveMethodsFrom_balanced _ methods)).close
    -- The class is put back at the end, so only the scopes and the function are followed on the way.
    cases superclass with
    | none =>
      have hleft := hmethods ((r.inClass .base).declareReady name)
      exact ⟨hname.scopes.trans hleft.scopes, hleft.function.trans hname.function, rfl⟩
    | some parent =>
      let inherited := ((r.inClass .base).declareReady name).inherit name parent
      have hleft := ((inherited.openScope.balanced_bind "super").trans (hmethods _)).close
      exact ⟨hname.scopes.trans hleft.scopes, hleft.function.trans hname.function, rfl⟩

theorem Stmt.resolveAllFrom_balanced (r : Resolution) :
    ∀ ss : List Stmt, r.Balanced (Stmt.resolveAllFrom r ss) (Stmt.boundAll ss)
  | [] => ⟨.refl _, rfl, rfl⟩
  | s :: rest => (s.resolveFrom_balanced r).trans (Stmt.resolveAllFrom_balanced _ rest)

theorem FunDecl.resolveFrom_balanced (context : FunctionContext) (r : Resolution) :
    ∀ f : FunDecl, r.Balanced (f.resolveFrom context r) []
  | ⟨_, params, body⟩ => by
    have hbody := (((r.inFunction context).openScope.balanced_declareAll params).trans
      (Stmt.resolveAllFrom_balanced _ body)).close
    exact ⟨hbody.scopes, rfl, hbody.cls⟩

theorem FunDecl.resolveMethodsFrom_balanced (r : Resolution) :
    ∀ fs : List FunDecl, r.Balanced (FunDecl.resolveMethodsFrom r fs) []
  | [] => ⟨.refl _, rfl, rfl⟩
  | m :: rest =>
    (m.resolveFrom_balanced _ r).trans (FunDecl.resolveMethodsFrom_balanced _ rest)

end

namespace Resolution

def after (r : Resolution) (earlier : Findings) : Resolution :=
  { r with findings := earlier ++ r.findings }

variable (r : Resolution) (earlier : Findings)

theorem note_after (found : Findings) : (r.after earlier).note found = (r.note found).after earlier :=
  congrArg (Resolution.mk r.scopes r.around) (Findings.append_assoc earlier r.findings found)

theorem declare_after (name : Token) :
    (r.after earlier).declare name = (r.declare name).after earlier :=
  (r.bind name.lexeme false).note_after earlier _

theorem declareReady_after (name : Token) :
    (r.after earlier).declareReady name = (r.declareReady name).after earlier :=
  congrArg (bind · name.lexeme true) (r.declare_after earlier name)

theorem declareAll_after (names : List Token) :
    names.foldl declareReady (r.after earlier) = (names.foldl declareReady r).after earlier := by
  induction names generalizing r with
  | nil => rfl
  | cons name names ih =>
    rw [List.foldl_cons, declareReady_after, ih]
    rfl

theorem inherit_after (name parent : Token) :
    (r.after earlier).inherit name parent = (r.inherit name parent).after earlier := by
  rw [inherit, note_after]
  exact note_after (inClass _ .derived) earlier _

end Resolution

theorem Expr.resolveFrom_after (r : Resolution) (earlier : Findings) (e : Expr) :
    e.resolveFrom (r.after earlier) = (e.resolveFrom r).after earlier := by
  rw [e.resolveFrom_eq, e.resolveFrom_eq]
  exact r.note_after earlier _

mutual

theorem Stmt.resolveFrom_after (r : Resolution) (earlier : Findings) :
    ∀ s : Stmt, s.resolveFrom (r.after earlier) = (s.resolveFrom r).after earlier
  | .expr e | .print _ e => e.resolveFrom_after r earlier
  | .varDecl name init => by
    rw [Stmt.resolveFrom, Stmt.resolveFrom, Expr.resolveOptionFrom_eq, Expr.resolveOptionFrom_eq,
      declare_after, note_after]
    rfl
  | .block body => congrArg closeScope (Stmt.resolveAllFrom_after r.openScope earlier body)
  | .ifThen condition yes | .whileLoop condition yes => by
    rw [Stmt.resolveFrom, Stmt.resolveFrom, condition.resolveFrom_after, yes.resolveFrom_after]
  | .ifElse condition yes no => by
    rw [Stmt.resolveFrom, Stmt.resolveFrom, condition.resolveFrom_after, yes.resolveFrom_after,
      no.resolveFrom_after]
  | .ret keyword value => by
    rw [Stmt.resolveFrom, Stmt.resolveFrom]
    cases value with
    | none => exact r.note_after earlier _
    | some value =>
      rw [note_after]
      exact (congrArg value.resolveFrom (note_after _ earlier _)).trans (value.resolveFrom_after _ earlier)
  | .funDecl function => by
    rw [Stmt.resolveFrom, Stmt.resolveFrom, declareReady_after, function.resolveFrom_after]
  | .classDecl name superclass methods => by
    have hname : ((r.after earlier).inClass .base).declareReady name =
        ((r.inClass .base).declareReady name).after earlier :=
      declareReady_after (r.inClass .base) earlier name
    have hmethods := fun outside : Resolution =>
      FunDecl.resolveMethodsFrom_after (outside.openScope.bind "this" true) earlier methods
    rw [Stmt.resolveFrom, Stmt.resolveFrom, hname]
    generalize (r.inClass .base).declareReady name = inside
    cases superclass with
    | none => exact congrArg (fun left => left.closeScope.inClass r.around.cls) (hmethods inside)
    | some parent =>
      have hinherit := inside.inherit_after earlier name parent
      have hleft := hmethods ((inside.inherit name parent).openScope.bind "super" true)
      dsimp only [Option.elim]
      rw [hinherit]
      exact congrArg (fun left => left.closeScope.closeScope.inClass r.around.cls) hleft

theorem Stmt.resolveAllFrom_after (r : Resolution) (earlier : Findings) :
    ∀ ss : List Stmt, Stmt.resolveAllFrom (r.after earlier) ss =
      (Stmt.resolveAllFrom r ss).after earlier
  | [] => rfl
  | s :: rest => by
    rw [Stmt.resolveAllFrom, Stmt.resolveAllFrom, s.resolveFrom_after, Stmt.resolveAllFrom_after]

theorem FunDecl.resolveFrom_after (context : FunctionContext) (r : Resolution) (earlier : Findings) :
    ∀ f : FunDecl, f.resolveFrom context (r.after earlier) = (f.resolveFrom context r).after earlier
  | ⟨_, params, body⟩ => by
    have hparams := declareAll_after (r.inFunction context).openScope earlier params
    have hbody := Stmt.resolveAllFrom_after
      (params.foldl declareReady (r.inFunction context).openScope) earlier body
    rw [← hparams] at hbody
    exact congrArg (fun left : Resolution => left.closeScope.inFunction r.around.function) hbody

theorem FunDecl.resolveMethodsFrom_after (r : Resolution) (earlier : Findings) :
    ∀ fs : List FunDecl, FunDecl.resolveMethodsFrom (r.after earlier) fs =
      (FunDecl.resolveMethodsFrom r fs).after earlier
  | [] => rfl
  | m :: rest => by
    rw [FunDecl.resolveMethodsFrom, FunDecl.resolveMethodsFrom, m.resolveFrom_after,
      FunDecl.resolveMethodsFrom_after]

end

namespace Resolution

def behind (r : Resolution) (scopes : Scopes) (found : Findings) : Resolution :=
  { r.note found with scopes }

variable (r : Resolution)

theorem behind_behind (scopes scopes' : Scopes) (found more : Findings) :
    (r.behind scopes found).behind scopes' more = r.behind scopes' (found ++ more) :=
  congrArg (Resolution.mk scopes' r.around) (Findings.append_assoc r.findings found more)

theorem note_eq_behind (found : Findings) : r.note found = r.behind r.scopes found := rfl

theorem declareReady_eq (name : Token) :
    r.declareReady name = r.behind (r.scopes.bind name.lexeme true) (r.scopes.redeclared name) :=
  congrArg (r.behind · (r.scopes.redeclared name)) (r.scopes.bind_bind name.lexeme false true)

theorem declareAll_eq (names : List Token) :
    names.foldl declareReady r = r.behind (r.scopes.bindAll names) (r.scopes.allRedeclared names) := by
  induction names generalizing r with
  | nil => exact r.note_none.symm
  | cons name names ih =>
    rw [List.foldl_cons, declareReady_eq, ih, behind_behind]
    rfl

end Resolution

theorem Stmt.bind_of_declared?_eq_none {s : Stmt} (h : s.declared? = none) (scopes : Scopes) :
    s.bind scopes = scopes := by
  rw [s.bind_eq_bindAll, h]
  rfl

mutual

theorem Stmt.resolveFrom_eq (r : Resolution) :
    ∀ s : Stmt, s.Orderly → s.resolveFrom r = r.behind (s.bind r.scopes) (s.resolve r.around r.scopes)
  | .expr e, _ | .print _ e, _ => e.resolveFrom_eq r
  | .varDecl name init, _ => by
    rw [Stmt.resolveFrom, Expr.resolveOptionFrom_eq, Resolution.declare, Resolution.note_note,
      Stmt.resolve]
    exact congrArg (r.behind · _) (r.scopes.bind_bind name.lexeme false true)
  | .block body, h => by
    -- What the body binds is gone with its scope, which is what balance says.
    have hscopes := (Stmt.resolveAllFrom_balanced r.openScope body).close_scopes
    rw [Stmt.resolveAllFrom_eq r.openScope body h] at hscopes
    rw [Stmt.resolveFrom, Stmt.resolveAllFrom_eq r.openScope body h, Stmt.resolve]
    exact congrArg (r.behind · _) hscopes
  | .ifThen condition yes, ⟨hnone, h⟩ | .whileLoop condition yes, ⟨hnone, h⟩ => by
    rw [Stmt.resolveFrom, condition.resolveFrom_eq, yes.resolveFrom_eq _ h,
      Stmt.bind_of_declared?_eq_none hnone, note_eq_behind, behind_behind, Stmt.resolve]
    rfl
  | .ifElse condition yes no, ⟨⟨hnone, h⟩, hnone', h'⟩ => by
    rw [Stmt.resolveFrom, condition.resolveFrom_eq, yes.resolveFrom_eq _ h, no.resolveFrom_eq _ h',
      Stmt.bind_of_declared?_eq_none hnone, Stmt.bind_of_declared?_eq_none hnone', note_eq_behind,
      behind_behind, behind_behind, Stmt.resolve, Findings.append_assoc]
    rfl
  | .ret keyword value, _ => by
    rw [Stmt.resolveFrom, Stmt.resolve]
    cases value with
    | none =>
      change r.note _ = r.note (_ ++ .none ++ .none)
      rw [Findings.append_none, Findings.append_none]
    | some value =>
      rw [Option.elim, value.resolveFrom_eq, note_note, note_note, Findings.append_assoc]
      rfl
  | .funDecl function, h => by
    rw [Stmt.resolveFrom, declareReady_eq, function.resolveFrom_eq _ _ h, note_eq_behind,
      behind_behind, Stmt.resolve]
    rfl
  | .classDecl name superclass methods, h => by
    have hmethods := fun outside : Resolution =>
      FunDecl.resolveMethodsFrom_eq (outside.openScope.bind "this" true) methods h
    cases superclass with
    | none =>
      rw [Stmt.resolveFrom, Stmt.resolve, declareReady_eq]
      dsimp only [Option.elim]
      rw [hmethods]
      exact congrArg (Resolution.mk _ r.around) (Findings.append_assoc ..)
    | some parent =>
      rw [Stmt.resolveFrom, Stmt.resolve, declareReady_eq]
      dsimp only [Option.elim]
      rw [hmethods]
      have hassoc : ∀ f g h i j : Findings, f ++ g ++ h ++ i ++ j = f ++ (g ++ (h ++ i ++ j)) := by
        intro f g h i j
        simp only [Findings.append_assoc]
      exact congrArg (Resolution.mk _ r.around) (hassoc ..)

theorem Stmt.resolveAllFrom_eq (r : Resolution) :
    ∀ ss : List Stmt, Stmt.OrderlyAll ss → Stmt.resolveAllFrom r ss =
      r.behind (ss.foldl Stmt.bind r.scopes) (Stmt.resolveAll r.around r.scopes ss)
  | [], _ => r.note_none.symm
  | s :: rest, ⟨hs, hrest⟩ => by
    rw [Stmt.resolveAllFrom, s.resolveFrom_eq r hs, Stmt.resolveAllFrom_eq _ rest hrest, behind_behind,
      Stmt.resolveAll]
    rfl

theorem FunDecl.resolveFrom_eq (context : FunctionContext) (r : Resolution) :
    ∀ f : FunDecl, f.Orderly → f.resolveFrom context r =
      r.note (f.resolve { r.around with function := context } r.scopes)
  | ⟨name, params, body⟩, h => by
    have hscopes := (((r.inFunction context).openScope.balanced_declareAll params).trans
      (Stmt.resolveAllFrom_balanced _ body)).close_scopes
    rw [declareAll_eq, Stmt.resolveAllFrom_eq _ body h, behind_behind] at hscopes
    rw [FunDecl.resolveFrom, declareAll_eq, Stmt.resolveAllFrom_eq _ body h, behind_behind,
      FunDecl.resolve]
    exact congrArg (r.behind · _) hscopes

theorem FunDecl.resolveMethodsFrom_eq (r : Resolution) :
    ∀ fs : List FunDecl, FunDecl.OrderlyAll fs → FunDecl.resolveMethodsFrom r fs =
      r.note (FunDecl.resolveMethods r.around r.scopes fs)
  | [], _ => r.note_none.symm
  | m :: rest, ⟨hm, hrest⟩ => by
    rw [FunDecl.resolveMethodsFrom, m.resolveFrom_eq _ r hm, FunDecl.resolveMethodsFrom_eq _ rest hrest,
      Resolution.note_note, FunDecl.resolveMethods]
    rfl

end

def Resolution.found (program : List Stmt) : Findings :=
  (Stmt.resolveAllFrom .start program).findings

theorem Stmt.resolveAllFrom_append (r : Resolution) (first second : List Stmt) :
    Stmt.resolveAllFrom r (first ++ second) =
      Stmt.resolveAllFrom (Stmt.resolveAllFrom r first) second := by
  induction first generalizing r with
  | nil => rfl
  | cons s rest ih =>
    rw [List.cons_append, Stmt.resolveAllFrom, Stmt.resolveAllFrom, ih]

theorem Stmt.resolveAllFrom_start (program : List Stmt) :
    Stmt.resolveAllFrom .start program = start.after (found program) := by
  have hbalanced := Stmt.resolveAllFrom_balanced .start program
  have hscopes : (Stmt.resolveAllFrom .start program).scopes = [] :=
    List.eq_nil_of_length_eq_zero hbalanced.scopes.depth
  have haround : (Stmt.resolveAllFrom .start program).around = start.around :=
    congrArg₂ Surroundings.mk hbalanced.function hbalanced.cls
  have hfound : start.after (found program) = ⟨[], start.around, found program⟩ :=
    congrArg (Resolution.mk [] start.around) (Findings.append_none _)
  rw [hfound, ← hscopes, ← haround]
  rfl

theorem Resolution.found_append (first second : List Stmt) :
    found (first ++ second) = found first ++ found second := by
  rw [found, Stmt.resolveAllFrom_append, Stmt.resolveAllFrom_start, Stmt.resolveAllFrom_after]
  rfl

theorem Resolution.found_eq_resolve {program : List Stmt} (h : Stmt.OrderlyAll program) :
    found program = resolve program := by
  rw [found, Stmt.resolveAllFrom_eq start program h]
  rfl

/-- A walk with a stack is balanced at every node, whatever its stack and its findings are: the stack is as
deep as before, only names that the node declares are new in the innermost scope, and the walk is in the
same function and the same class. So programs that follow each other are resolved as if each were alone,
and a program of the parser is resolved as `resolve` does it. -/
theorem resolution_balanced :
    (∀ (r : Resolution) (e : Expr), r.Balanced (e.resolveFrom r) []) ∧
      (∀ (r : Resolution) (s : Stmt), r.Balanced (s.resolveFrom r) s.bound) ∧
      (∀ first second : List Stmt,
        (found (first ++ second)).errors = (found first).errors ++ (found second).errors ∧
          (found (first ++ second)).hops = (found first).hops ++ (found second).hops) ∧
      ∀ tokens program, parse tokens = .ok program → found program = resolve program := by
  refine ⟨Expr.resolveFrom_balanced, Stmt.resolveFrom_balanced, ?_, ?_⟩
  · intro first second
    rw [found_append]
    exact ⟨Findings.errors_append _ _, Findings.hops_append _ _⟩
  · intro tokens program hparse
    exact found_eq_resolve (orderly_of_parse hparse)

/-- Functions and classes inside each other, and an error at every place where a walk could lose its way. -/
theorem resolution_balanced_violations :
    let source := "\x7b var b = b; class A < A \x7b init() \x7b fun f(p, p) \x7b return 1; \x7d " ++
      "return super.m(this); \x7d \x7d print b; \x7d this; return b;"
    ∃ tokens program, tokens = (Lox.scan 0 source).tokens.toList ∧
      parse tokens = .ok program ∧ found program = resolve program ∧
      (found program).errors.map (fun e => (e.token.lexeme, e.fault)) =
        [("b", .readInOwnInitializer), ("A", .inheritsFromItself), ("p", .alreadyDeclared),
          ("return", .valueFromInitializer), ("this", .thisOutsideClass),
          ("return", .returnOutsideFunction)] ∧
      (found program).hops.map (fun hop => (hop.token.lexeme, hop.distance)) =
        [("b", 0), ("A", 0), ("super", 2), ("this", 1), ("b", 0)] := by
  intro source
  obtain ⟨tokens, htokens⟩ : ∃ tokens, tokens = (Lox.scan 0 source).tokens.toList := ⟨_, rfl⟩
  have hreported : (parse tokens).toOption.map (fun program =>
      ((resolve program).errors.map fun e => (e.token.lexeme, e.fault),
        (resolve program).hops.map fun hop => (hop.token.lexeme, hop.distance))) =
      some ([("b", .readInOwnInitializer), ("A", .inheritsFromItself), ("p", .alreadyDeclared),
          ("return", .valueFromInitializer), ("this", .thisOutsideClass),
          ("return", .returnOutsideFunction)],
        [("b", 0), ("A", 0), ("super", 2), ("this", 1), ("b", 0)]) := by
    rw [htokens]
    decide +kernel
  cases hparse : parse tokens with
  | error faults =>
    rw [hparse] at hreported
    contradiction
  | ok program =>
    rw [hparse] at hreported
    have hfound := resolution_balanced.2.2.2 tokens program hparse
    obtain ⟨herrors, hhops⟩ := Prod.mk.inj (Option.some.inj hreported)
    rw [← hfound] at herrors hhops
    exact ⟨tokens, program, htokens, hparse, hfound, herrors, hhops⟩

end Lox
