import Lox.Proofs.Desugaring.Syntax

/-!
The parser of surface trees. It takes the same tokens as the parser of desugared ones, and they build
trees that belong to each other.
-/
namespace Lox

namespace Surface

namespace Parse

open Lox.Parse (exhausted peek? skip acceptIf accept require recover expression optionalExpression
  parameters superclassClause)

variable {α : Type}

def varDecl (build : Token → Option Expr → α) (fuel : Nat) : Lox.Parse.Procedure α := do
  let name ← require .variableName
  match ← accept .equal with
  | none =>
    let _ ← require .variableEnd
    return build name none
  | some _ =>
    let value ← expression fuel
    let _ ← require .variableEnd
    return build name (some value)

def expressionStatement (build : Expr → α) (fuel : Nat) : Lox.Parse.Procedure α := do
  let e ← expression fuel
  let _ ← require .expressionEnd
  return build e

def forInitializer (fuel : Nat) : Lox.Parse.Procedure (Option Initializer) := do
  match ← acceptIf ([Kind.semicolon, .kwVar].contains ·) with
  | none => return some (← expressionStatement .expr fuel)
  | some t => if t.kind = .kwVar then return some (← varDecl .var fuel) else return none

mutual

def declaration : Nat → Lox.Parse.Procedure (Option Decl)
  | 0 => exhausted
  | fuel + 1 => recover do
    match ← acceptIf ([Kind.kwClass, .kwFun, .kwVar].contains ·) with
    | none => return .stmt (← statement fuel)
    | some t =>
      match t.kind with
      | .kwClass => classDecl fuel
      | .kwFun => return .function (← function fuel .function)
      | _ => varDecl .var fuel

def classDecl : Nat → Lox.Parse.Procedure Decl
  | 0 => exhausted
  | fuel + 1 => do
    let name ← require .className
    let superclass ← superclassClause
    let _ ← require .classBody
    let members ← methods fuel
    let _ ← require .classEnd
    return .cls name superclass members

def methods : Nat → Lox.Parse.Procedure (List FunDecl)
  | 0 => exhausted
  | fuel + 1 => do
    let next ← peek?
    if next.all (·.kind = .rightBrace) then return []
    else
      let first ← function fuel .method
      return first :: (← methods fuel)

def function : Nat → Role → Lox.Parse.Procedure FunDecl
  | 0, _ => exhausted
  | fuel + 1, role => do
    let name ← require (.functionName role)
    let _ ← require (.parametersStart role)
    let params ← parameters fuel
    let _ ← require .parametersEnd
    let _ ← require (.functionBody role)
    return ⟨name, params, ← block fuel⟩

def block : Nat → Lox.Parse.Procedure (List Decl)
  | 0 => exhausted
  | fuel + 1 => do
    let body ← declarations fuel
    let _ ← require .blockEnd
    return body

def declarations : Nat → Lox.Parse.Procedure (List Decl)
  | 0 => exhausted
  | fuel + 1 => do
    let next ← peek?
    if next.all (·.kind = .rightBrace) then return []
    else
      let first ← declaration fuel
      return first.toList ++ (← declarations fuel)

def statement : Nat → Lox.Parse.Procedure Stmt
  | 0 => exhausted
  | fuel + 1 => do
    let some keyword ← peek? | expressionStatement .expr fuel
    match keyword.kind with
    | .kwIf =>
      skip
      let _ ← require .ifStart
      let condition ← expression fuel
      let _ ← require .ifEnd
      let yes ← statement fuel
      match ← accept .kwElse with
      | none => return .ifThen condition yes
      | some _ => return .ifElse condition yes (← statement fuel)
    | .kwPrint =>
      skip
      let value ← expression fuel
      let _ ← require .printEnd
      return .print keyword value
    | .kwReturn =>
      skip
      let value ← optionalExpression fuel .semicolon
      let _ ← require .returnEnd
      return .ret keyword value
    | .kwWhile =>
      skip
      let _ ← require .whileStart
      let condition ← expression fuel
      let _ ← require .whileEnd
      return .whileLoop condition (← statement fuel)
    | .kwFor =>
      skip
      let _ ← require .forStart
      let initializer ← forInitializer fuel
      let condition ← optionalExpression fuel .semicolon
      let _ ← require .forConditionEnd
      let increment ← optionalExpression fuel .rightParen
      let _ ← require .forEnd
      return .forLoop initializer condition increment (← statement fuel)
    | .leftBrace =>
      skip
      return .block (← block fuel)
    | _ => expressionStatement .expr fuel

end

def program : Nat → Lox.Parse.Procedure (List Decl)
  | 0 => exhausted
  | fuel + 1 => do
    if (← peek?).isNone then return []
    else
      let first ← declaration fuel
      return first.toList ++ (← program fuel)

end Parse

/-- Reads a program as a surface tree; it has none if any fault was noted. -/
def parse (tokens : List Token) : Except (List SyntaxError) (List Decl) :=
  match Parse.program (Lox.Parse.depthFor tokens) tokens with
  | .ok decls [] _ => .ok decls
  | .ok _ noted _ => .error noted
  | .fail error noted _ => .error (noted ++ [error])
  | .exhausted => .error []

end Surface

namespace Parse

variable {α β γ δ : Type}

def Outcome.map (g : α → β) : Outcome α → Outcome β
  | .ok value noted rest => .ok (g value) noted rest
  | .fail error noted rest => .fail error noted rest
  | .exhausted => .exhausted

/-- A procedure takes the same tokens as another one, and its results are what becomes of those of the
other one. -/
def Builds (g : α → β) (p : Procedure α) (q : Procedure β) : Prop := ∀ ts, q ts = (p ts).map g

section Rules

theorem Outcome.map_after (g : α → β) (noted : List SyntaxError) (o : Outcome α) :
    (o.after noted).map g = (o.map g).after noted := by
  cases o <;> rfl

theorem Builds.bind {g : α → β} {h : γ → δ} {p : Procedure α} {q : Procedure β}
    {next : α → Procedure γ} {next' : β → Procedure δ} (hp : Builds g p q)
    (hnext : ∀ value, Builds h (next value) (next' (g value))) :
    Builds h (p >>= next) (q >>= next') := by
  intro ts
  rw [bind_run, bind_run, hp ts]
  cases p ts with
  | ok value noted rest =>
    rw [andThen_ok, Outcome.map_after, ← hnext value rest]
    rfl
  | fail error noted rest => rfl
  | exhausted => rfl

theorem builds_behind {h : γ → δ} (p : Procedure α) {next : α → Procedure γ}
    {next' : α → Procedure δ} (hnext : ∀ value, Builds h (next value) (next' value)) :
    Builds h (p >>= next) (p >>= next') := by
  have hp : Builds id p p := by
    intro ts
    cases p ts <;> rfl
  exact hp.bind hnext

theorem Builds.wrap {g : α → β} {g' : γ → β} {p : Procedure α} {q : Procedure β}
    (hp : Builds g p q) {f : α → γ} (h : ∀ value, g' (f value) = g value) :
    Builds g' (p >>= fun value => pure (f value)) q := by
  intro ts
  rw [bind_run, hp ts]
  cases p ts with
  | ok value noted rest =>
    rw [andThen_ok, pure_run, Outcome.after, List.append_nil, Outcome.map, Outcome.map, h]
  | fail error noted rest => rfl
  | exhausted => rfl

theorem Builds.ite {g : α → β} {p p' : Procedure α} {q q' : Procedure β} {c : Prop} [Decidable c]
    (hp : Builds g p q) (hp' : Builds g p' q') :
    Builds g (if c then p else p') (if c then q else q') := by
  split
  · exact hp
  · exact hp'

theorem builds_pure {g : α → β} {value : α} {value' : β} (h : value' = g value) :
    Builds g (pure value) (pure value') := by
  rw [h]
  intro ts
  rfl

theorem builds_exhausted {g : α → β} : Builds g (exhausted : Procedure α) exhausted := fun _ => rfl

theorem Builds.recover {g : α → β} {p : Procedure α} {q : Procedure β} (h : Builds g p q) :
    Builds (Option.map g) (recover p) (recover q) := by
  intro ts
  unfold Parse.recover
  rw [h ts]
  cases p ts <;> rfl

end Rules

open Surface (Initializer Decl)

theorem varDecl_builds (build : Token → Option Expr → α) (g : α → Stmt)
    (h : ∀ name value, g (build name value) = .varDecl name value) (fuel : Nat) :
    Builds g (Surface.Parse.varDecl build fuel) (varDecl fuel) := by
  apply builds_behind
  intro name
  apply builds_behind
  intro equals?
  cases equals? with
  | none =>
    apply builds_behind
    intro _
    exact builds_pure (h name none).symm
  | some _ =>
    apply builds_behind
    intro value
    apply builds_behind
    intro _
    exact builds_pure (h name (some value)).symm

theorem expressionStatement_builds (build : Expr → α) (g : α → Stmt)
    (h : ∀ e, g (build e) = .expr e) (fuel : Nat) :
    Builds g (Surface.Parse.expressionStatement build fuel) (expressionStatement fuel) := by
  apply builds_behind
  intro e
  apply builds_behind
  intro _
  exact builds_pure (h e).symm

theorem forInitializer_builds (fuel : Nat) :
    Builds (Option.map Initializer.desugar) (Surface.Parse.forInitializer fuel)
      (forInitializer fuel) := by
  apply builds_behind
  intro t?
  cases t? with
  | none =>
    apply (expressionStatement_builds Initializer.expr Initializer.desugar (fun _ => rfl) fuel).bind
    intro e
    exact builds_pure rfl
  | some t =>
    apply Builds.ite
    · apply (varDecl_builds Initializer.var Initializer.desugar (fun _ _ => rfl) fuel).bind
      intro v
      exact builds_pure rfl
    · exact builds_pure rfl

mutual

theorem declaration_builds (fuel : Nat) :
    Builds (Option.map Decl.desugar) (Surface.Parse.declaration fuel) (declaration fuel) := by
  cases fuel with
  | zero => exact builds_exhausted
  | succ fuel =>
    rw [declaration, Surface.Parse.declaration]
    apply Builds.recover
    apply builds_behind
    intro t?
    cases t? with
    | none => exact (statement_builds fuel).wrap fun _ => rfl
    | some t =>
      dsimp only
      cases t.kind
      case kwClass => exact classDecl_builds fuel
      case kwFun =>
        apply (function_builds fuel .function).bind
        intro f
        exact builds_pure rfl
      all_goals exact varDecl_builds Decl.var Decl.desugar (fun _ _ => rfl) fuel
termination_by fuel
decreasing_by all_goals omega

theorem classDecl_builds (fuel : Nat) :
    Builds Decl.desugar (Surface.Parse.classDecl fuel) (classDecl fuel) := by
  cases fuel with
  | zero => exact builds_exhausted
  | succ fuel =>
    rw [classDecl, Surface.Parse.classDecl]
    apply builds_behind
    intro name
    apply builds_behind
    intro superclass
    apply builds_behind
    intro _
    apply (methods_builds fuel).bind
    intro members
    apply builds_behind
    intro _
    apply builds_pure
    rw [Decl.desugar, Surface.FunDecl.desugarAll_eq_map]
termination_by fuel
decreasing_by all_goals omega

theorem methods_builds (fuel : Nat) :
    Builds (List.map Surface.FunDecl.desugar) (Surface.Parse.methods fuel) (methods fuel) := by
  cases fuel with
  | zero => exact builds_exhausted
  | succ fuel =>
    rw [methods, Surface.Parse.methods]
    apply builds_behind
    intro next
    apply Builds.ite
    · exact builds_pure rfl
    · apply (function_builds fuel .method).bind
      intro first
      apply (methods_builds fuel).bind
      intro rest
      exact builds_pure rfl
termination_by fuel
decreasing_by all_goals omega

theorem function_builds (fuel : Nat) (role : Role) :
    Builds Surface.FunDecl.desugar (Surface.Parse.function fuel role) (function fuel role) := by
  cases fuel with
  | zero => exact builds_exhausted
  | succ fuel =>
    rw [function, Surface.Parse.function]
    apply builds_behind
    intro name
    apply builds_behind
    intro _
    apply builds_behind
    intro params
    apply builds_behind
    intro _
    apply builds_behind
    intro _
    apply (block_builds fuel).bind
    intro body
    apply builds_pure
    rw [Surface.FunDecl.desugar, Decl.desugarAll_eq_map]
termination_by fuel
decreasing_by all_goals omega

theorem block_builds (fuel : Nat) :
    Builds (List.map Decl.desugar) (Surface.Parse.block fuel) (block fuel) := by
  cases fuel with
  | zero => exact builds_exhausted
  | succ fuel =>
    rw [block, Surface.Parse.block]
    apply (declarations_builds fuel).bind
    intro body
    apply builds_behind
    intro _
    exact builds_pure rfl
termination_by fuel
decreasing_by all_goals omega

theorem declarations_builds (fuel : Nat) :
    Builds (List.map Decl.desugar) (Surface.Parse.declarations fuel) (declarations fuel) := by
  cases fuel with
  | zero => exact builds_exhausted
  | succ fuel =>
    rw [declarations, Surface.Parse.declarations]
    apply builds_behind
    intro next
    apply Builds.ite
    · exact builds_pure rfl
    · apply (declaration_builds fuel).bind
      intro first
      apply (declarations_builds fuel).bind
      intro rest
      apply builds_pure
      rw [List.map_append, ← Option.toList_map]
termination_by fuel
decreasing_by all_goals omega

theorem statement_builds (fuel : Nat) :
    Builds Surface.Stmt.desugar (Surface.Parse.statement fuel) (statement fuel) := by
  cases fuel with
  | zero => exact builds_exhausted
  | succ fuel =>
    rw [statement, Surface.Parse.statement]
    apply builds_behind
    intro t?
    cases t? with
    | none => exact expressionStatement_builds .expr Surface.Stmt.desugar (fun _ => rfl) fuel
    | some t =>
      dsimp only
      cases t.kind
      case kwIf =>
        apply builds_behind
        intro _
        apply builds_behind
        intro _
        apply builds_behind
        intro condition
        apply builds_behind
        intro _
        apply (statement_builds fuel).bind
        intro yes
        apply builds_behind
        intro els?
        cases els? with
        | none => exact builds_pure rfl
        | some els =>
          apply (statement_builds fuel).bind
          intro no
          exact builds_pure rfl
      case kwPrint =>
        apply builds_behind
        intro _
        apply builds_behind
        intro value
        apply builds_behind
        intro _
        exact builds_pure rfl
      case kwReturn =>
        apply builds_behind
        intro _
        apply builds_behind
        intro value
        apply builds_behind
        intro _
        exact builds_pure rfl
      case kwWhile =>
        apply builds_behind
        intro _
        apply builds_behind
        intro _
        apply builds_behind
        intro condition
        apply builds_behind
        intro _
        apply (statement_builds fuel).bind
        intro body
        exact builds_pure rfl
      case kwFor =>
        apply builds_behind
        intro _
        apply builds_behind
        intro _
        apply (forInitializer_builds fuel).bind
        intro initializer
        apply builds_behind
        intro condition
        apply builds_behind
        intro _
        apply builds_behind
        intro increment
        apply builds_behind
        intro _
        apply (statement_builds fuel).bind
        intro body
        exact builds_pure rfl
      case leftBrace =>
        apply builds_behind
        intro _
        apply (block_builds fuel).bind
        intro body
        apply builds_pure
        rw [Surface.Stmt.desugar, Decl.desugarAll_eq_map]
      all_goals exact expressionStatement_builds .expr Surface.Stmt.desugar (fun _ => rfl) fuel
termination_by fuel
decreasing_by all_goals omega

end

theorem program_builds (fuel : Nat) :
    Builds (List.map Decl.desugar) (Surface.Parse.program fuel) (program fuel) := by
  induction fuel with
  | zero => exact builds_exhausted
  | succ fuel ih =>
    rw [program, Surface.Parse.program]
    apply builds_behind
    intro next
    apply Builds.ite
    · exact builds_pure rfl
    · apply (declaration_builds fuel).bind
      intro first
      apply ih.bind
      intro rest
      apply builds_pure
      rw [List.map_append, ← Option.toList_map]

end Parse

/-- Every tree that the parser builds is what becomes of a surface tree of the same tokens. -/
theorem exists_surface_of_parse {tokens : List Token} {program : List Stmt}
    (h : parse tokens = .ok program) :
    ∃ tree, Surface.parse tokens = .ok tree ∧ Surface.Decl.desugarAll tree = program := by
  have hbuilds := Parse.program_builds (Parse.depthFor tokens) tokens
  unfold parse at h
  unfold Surface.parse
  rw [hbuilds] at h
  cases hrun : Surface.Parse.program (Parse.depthFor tokens) tokens with
  | ok tree noted rest =>
    rw [hrun] at h
    cases noted with
    | nil =>
      cases h
      exact ⟨tree, rfl, Surface.Decl.desugarAll_eq_map tree⟩
    | cons e noted => contradiction
  | fail error noted rest =>
    rw [hrun] at h
    contradiction
  | exhausted =>
    rw [hrun] at h
    contradiction

end Lox
