import Lox.Proofs.Parsing.Outcome
import Lox.Proofs.Relabelling.Syntax

/-!
Parsing asks tokens for what they say only, so it commutes with every relabelling: relabelled tokens give
the relabelled tree or the relabelled errors.
-/
namespace Lox

variable {r : Relabelling} {α β γ δ : Type}

theorem Level.join_relabel (r : Relabelling) (level : Level) (left right : Expr) (op : Token) :
    (level.join left op right).relabel r = level.join (left.relabel r) (r op) (right.relabel r) := by
  cases level <;> rfl

theorem Expr.assigned?_relabel (r : Relabelling) (target value : Expr) :
    (target.relabel r).assigned? (value.relabel r) =
      (target.assigned? value).map (·.relabel r) := by
  cases target <;> rfl

theorem Stmt.forLoop_relabel (r : Relabelling) (initializer : Option Stmt)
    (condition increment : Option Expr) (body : Stmt) :
    (Stmt.forLoop initializer condition increment body).relabel r =
      Stmt.forLoop (initializer.map (·.relabel r)) (condition.map (·.relabel r))
        (increment.map (·.relabel r)) (body.relabel r) := by
  cases initializer <;> cases condition <;> cases increment <;> rfl

namespace Parse

def Outcome.relabel (r : Relabelling) (g : α → β) : Outcome α → Outcome β
  | .ok value noted rest => .ok (g value) (noted.map (·.relabel r)) (rest.map r)
  | .fail error noted rest => .fail (error.relabel r) (noted.map (·.relabel r)) (rest.map r)
  | .exhausted => .exhausted

/-- A procedure does on relabelled tokens what another one does on the tokens. -/
def Natural (r : Relabelling) (g : α → β) (p : Procedure α) (q : Procedure β) : Prop :=
  ∀ ts, q (ts.map r) = (p ts).relabel r g

section Rules

theorem after_relabel (r : Relabelling) (g : α → β) (noted : List SyntaxError) (o : Outcome α) :
    (o.after noted).relabel r g = (o.relabel r g).after (noted.map (·.relabel r)) := by
  cases o <;> simp [Outcome.after, Outcome.relabel]

theorem Natural.bind {g : α → β} {h : γ → δ} {p : Procedure α} {q : Procedure β}
    {next : α → Procedure γ} {next' : β → Procedure δ} (hp : Natural r g p q)
    (hnext : ∀ value, Natural r h (next value) (next' (g value))) :
    Natural r h (p >>= next) (q >>= next') := by
  intro ts
  rw [bind_run, bind_run, hp ts]
  cases p ts with
  | ok value noted rest =>
    rw [andThen_ok, after_relabel, ← hnext value rest]
    rfl
  | fail error noted rest => rfl
  | exhausted => rfl

theorem Natural.ite {g : α → β} {p p' : Procedure α} {q q' : Procedure β} {c c' : Prop}
    [Decidable c] [Decidable c'] (hc : c ↔ c') (hp : Natural r g p q) (hp' : Natural r g p' q') :
    Natural r g (if c then p else p') (if c' then q else q') := by
  by_cases h : c
  · rwa [if_pos h, if_pos (hc.1 h)]
  · rwa [if_neg h, if_neg (mt hc.2 h)]

theorem natural_pure {g : α → β} (value : α) :
    Natural r g (pure value : Procedure α) (pure (g value) : Procedure β) := fun _ => rfl

theorem natural_exhausted {g : α → β} :
    Natural r g (exhausted : Procedure α) (exhausted : Procedure β) := fun _ => rfl

theorem natural_fail {g : α → β} (fault : SyntaxFault) :
    Natural r g (fail fault : Procedure α) (fail fault : Procedure β) := by
  intro ts
  simp [fail_run, Outcome.relabel, SyntaxError.relabel]

theorem natural_peek? : Natural r (Option.map r) peek? peek? := by
  intro ts
  simp [peek?_run, Outcome.relabel]

theorem natural_skip : Natural r id skip skip := by
  intro ts
  simp [skip_run, Outcome.relabel]

theorem natural_noteAt (t : Token) (fault : SyntaxFault) :
    Natural r id (noteAt t fault) (noteAt (r t) fault) := fun _ => rfl

theorem natural_noteExcess (count : Nat) (fault : SyntaxFault) :
    Natural r id (noteExcess count fault) (noteExcess count fault) := by
  intro ts
  unfold noteExcess Grammar.excess
  split
  · simp [Outcome.relabel, SyntaxError.relabel]
  · rfl

theorem natural_acceptIf (p : Kind → Bool) : Natural r (Option.map r) (acceptIf p) (acceptIf p) := by
  intro ts
  cases ts with
  | nil => rfl
  | cons t rest =>
    cases h : p t.kind with
    | true => simp [acceptIf, h, Outcome.relabel]
    | false => simp [acceptIf, h, Outcome.relabel]

theorem natural_accept (kind : Kind) : Natural r (Option.map r) (accept kind) (accept kind) :=
  natural_acceptIf _

theorem natural_require (what : Expectation) : Natural r r (require what) (require what) := by
  intro ts
  cases ts with
  | nil => rfl
  | cons t rest =>
    by_cases h : t.kind = what.kind
    · simp [require, h, Outcome.relabel]
    · simp [require, h, Outcome.relabel, SyntaxError.relabel]

theorem synchronize_map (r : Relabelling) (ts : List Token) :
    synchronize (ts.map r) = (synchronize ts).map r := by
  induction ts with
  | nil => rfl
  | cons t rest ih =>
    have hhead : (rest.map r).head?.any (startsStatement ·.kind) =
        rest.head?.any (startsStatement ·.kind) := by
      cases rest <;> rfl
    rw [List.map_cons, synchronize, synchronize, hhead, ih, Relabelling.apply_kind]
    split
    · rfl
    · split <;> rfl

theorem Natural.recover {g : α → β} {p : Procedure α} {q : Procedure β} (h : Natural r g p q) :
    Natural r (Option.map g) (recover p) (recover q) := by
  intro ts
  unfold Parse.recover
  rw [h ts]
  cases p ts with
  | ok value noted rest => rfl
  | fail error noted rest => simp [Outcome.relabel, synchronize_map]
  | exhausted => rfl

end Rules

mutual

theorem expression_natural (fuel : Nat) :
    Natural r (·.relabel r) (expression fuel) (expression fuel) := by
  cases fuel with
  | zero => exact natural_exhausted
  | succ fuel =>
    rw [expression]
    apply Natural.bind (chain_natural fuel .or)
    intro target
    apply Natural.bind (natural_accept .equal)
    intro equals?
    cases equals? with
    | none => exact natural_pure target
    | some equals =>
      apply Natural.bind (expression_natural fuel)
      intro value
      rw [Expr.assigned?_relabel]
      cases target.assigned? value with
      | none =>
        apply Natural.bind (natural_noteAt equals _)
        intro _
        exact natural_pure target
      | some e => exact natural_pure e
termination_by fuel
decreasing_by all_goals omega

theorem chain_natural (fuel : Nat) (level : Level) :
    Natural r (·.relabel r) (chain fuel level) (chain fuel level) := by
  cases fuel with
  | zero => exact natural_exhausted
  | succ fuel =>
    rw [chain]
    apply Natural.bind (operand_natural fuel level)
    intro left
    exact chainRest_natural fuel level left
termination_by fuel
decreasing_by all_goals omega

theorem chainRest_natural (fuel : Nat) (level : Level) (left : Expr) :
    Natural r (·.relabel r) (chainRest fuel level left) (chainRest fuel level (left.relabel r)) := by
  cases fuel with
  | zero => exact natural_exhausted
  | succ fuel =>
    rw [chainRest, chainRest]
    apply Natural.bind (natural_acceptIf _)
    intro op?
    cases op? with
    | none => exact natural_pure left
    | some op =>
      apply Natural.bind (operand_natural fuel level)
      intro right
      rw [← Level.join_relabel]
      exact chainRest_natural fuel level _
termination_by fuel
decreasing_by all_goals omega

theorem operand_natural (fuel : Nat) (level : Level) :
    Natural r (·.relabel r) (operand fuel level) (operand fuel level) := by
  cases fuel with
  | zero => exact natural_exhausted
  | succ fuel =>
    rw [operand]
    cases level.next? with
    | none => exact unary_natural fuel
    | some next => exact chain_natural fuel next
termination_by fuel
decreasing_by all_goals omega

theorem unary_natural (fuel : Nat) : Natural r (·.relabel r) (unary fuel) (unary fuel) := by
  cases fuel with
  | zero => exact natural_exhausted
  | succ fuel =>
    rw [unary]
    apply Natural.bind (natural_acceptIf _)
    intro op?
    cases op? with
    | none =>
      apply Natural.bind (primary_natural fuel)
      intro callee
      exact callRest_natural fuel callee
    | some op =>
      apply Natural.bind (unary_natural fuel)
      intro operand
      exact natural_pure (Expr.unary op operand)
termination_by fuel
decreasing_by all_goals omega

theorem callRest_natural (fuel : Nat) (e : Expr) :
    Natural r (·.relabel r) (callRest fuel e) (callRest fuel (e.relabel r)) := by
  cases fuel with
  | zero => exact natural_exhausted
  | succ fuel =>
    rw [callRest, callRest]
    apply Natural.bind (natural_acceptIf _)
    intro t?
    cases t? with
    | none => exact natural_pure e
    | some t =>
      apply Natural.ite Iff.rfl
      · apply Natural.bind (natural_require _)
        intro property
        exact callRest_natural fuel (.get e property)
      · apply Natural.bind (arguments_natural fuel)
        intro args
        apply Natural.bind (natural_require _)
        intro paren
        have hcall := callRest_natural fuel (.call e paren args)
        rwa [Expr.relabel, Expr.relabelAll_eq_map] at hcall
termination_by fuel
decreasing_by all_goals omega

theorem arguments_natural (fuel : Nat) :
    Natural r (List.map (·.relabel r)) (arguments fuel) (arguments fuel) := by
  cases fuel with
  | zero => exact natural_exhausted
  | succ fuel =>
    rw [arguments]
    apply Natural.bind natural_peek?
    intro next
    rw [Option.any_map]
    apply Natural.ite Iff.rfl
    · exact natural_pure []
    · exact argumentList_natural fuel 0
termination_by fuel
decreasing_by all_goals omega

theorem argumentList_natural (fuel count : Nat) :
    Natural r (List.map (·.relabel r)) (argumentList fuel count) (argumentList fuel count) := by
  cases fuel with
  | zero => exact natural_exhausted
  | succ fuel =>
    rw [argumentList_succ]
    apply Natural.bind (natural_noteExcess count _)
    intro _
    apply Natural.bind (expression_natural fuel)
    intro first
    apply Natural.bind (natural_accept _)
    intro comma?
    cases comma? with
    | none => exact natural_pure [first]
    | some comma =>
      apply Natural.bind (argumentList_natural fuel (count + 1))
      intro rest
      exact natural_pure (first :: rest)
termination_by fuel
decreasing_by all_goals omega

theorem primary_natural (fuel : Nat) : Natural r (·.relabel r) (primary fuel) (primary fuel) := by
  cases fuel with
  | zero => exact natural_exhausted
  | succ fuel =>
    rw [primary]
    apply Natural.bind natural_peek?
    intro t?
    cases t? with
    | none => exact natural_fail _
    | some t =>
      dsimp only [Option.map_some, Relabelling.apply_kind, Relabelling.apply_literal]
      split
      case h_1 | h_2 | h_3 | h_4 | h_5 =>
        apply Natural.bind natural_skip
        intro _
        exact natural_pure (Expr.literal t.literal)
      case h_6 =>
        apply Natural.bind natural_skip
        intro _
        exact natural_pure (Expr.var t)
      case h_7 =>
        apply Natural.bind natural_skip
        intro _
        exact natural_pure (Expr.this t)
      case h_8 =>
        apply Natural.bind natural_skip
        intro _
        apply Natural.bind (natural_require _)
        intro dot
        apply Natural.bind (natural_require _)
        intro method
        exact natural_pure (Expr.super t method)
      case h_9 =>
        apply Natural.bind natural_skip
        intro _
        apply Natural.bind (expression_natural fuel)
        intro inner
        apply Natural.bind (natural_require _)
        intro finish
        exact natural_pure (Expr.group inner)
      case h_10 => exact natural_fail _
termination_by fuel
decreasing_by all_goals omega

end

theorem optionalExpression_natural (fuel : Nat) (stop : Kind) :
    Natural r (Option.map (·.relabel r)) (optionalExpression fuel stop)
      (optionalExpression fuel stop) := by
  unfold optionalExpression
  apply Natural.bind natural_peek?
  intro next
  rw [Option.any_map]
  apply Natural.ite Iff.rfl
  · exact natural_pure none
  · apply Natural.bind (expression_natural fuel)
    intro e
    exact natural_pure (some e)

theorem parameterList_natural (fuel count : Nat) :
    Natural r (List.map r) (parameterList fuel count) (parameterList fuel count) := by
  induction fuel generalizing count with
  | zero => exact natural_exhausted
  | succ fuel ih =>
    rw [parameterList_succ]
    apply Natural.bind (natural_noteExcess count _)
    intro _
    apply Natural.bind (natural_require _)
    intro first
    apply Natural.bind (natural_accept _)
    intro comma?
    cases comma? with
    | none => exact natural_pure [first]
    | some comma =>
      apply Natural.bind (ih (count + 1))
      intro rest
      exact natural_pure (first :: rest)

theorem parameters_natural (fuel : Nat) :
    Natural r (List.map r) (parameters fuel) (parameters fuel) := by
  unfold parameters
  apply Natural.bind natural_peek?
  intro next
  rw [Option.any_map]
  apply Natural.ite Iff.rfl
  · exact natural_pure []
  · exact parameterList_natural fuel 0

theorem varDecl_natural (fuel : Nat) : Natural r (·.relabel r) (varDecl fuel) (varDecl fuel) := by
  unfold varDecl
  apply Natural.bind (natural_require _)
  intro name
  apply Natural.bind (natural_accept _)
  intro equals?
  cases equals? with
  | none =>
    apply Natural.bind (natural_require _)
    intro _
    exact natural_pure (Stmt.varDecl name none)
  | some equals =>
    apply Natural.bind (expression_natural fuel)
    intro init
    apply Natural.bind (natural_require _)
    intro _
    exact natural_pure (Stmt.varDecl name (some init))

theorem expressionStatement_natural (fuel : Nat) :
    Natural r (·.relabel r) (expressionStatement fuel) (expressionStatement fuel) := by
  unfold expressionStatement
  apply Natural.bind (expression_natural fuel)
  intro e
  apply Natural.bind (natural_require _)
  intro _
  exact natural_pure (Stmt.expr e)

theorem forInitializer_natural (fuel : Nat) :
    Natural r (Option.map (·.relabel r)) (forInitializer fuel) (forInitializer fuel) := by
  unfold forInitializer
  apply Natural.bind (natural_acceptIf _)
  intro t?
  cases t? with
  | none =>
    apply Natural.bind (expressionStatement_natural fuel)
    intro s
    exact natural_pure (some s)
  | some t =>
    apply Natural.ite Iff.rfl
    · apply Natural.bind (varDecl_natural fuel)
      intro s
      exact natural_pure (some s)
    · exact natural_pure none

theorem superclassClause_natural :
    Natural r (Option.map r) superclassClause superclassClause := by
  unfold superclassClause
  apply Natural.bind (natural_accept _)
  intro less?
  cases less? with
  | none => exact natural_pure none
  | some less =>
    apply Natural.bind (natural_require _)
    intro parent
    exact natural_pure (some parent)

mutual

theorem declaration_natural (fuel : Nat) :
    Natural r (Option.map (·.relabel r)) (declaration fuel) (declaration fuel) := by
  cases fuel with
  | zero => exact natural_exhausted
  | succ fuel =>
    rw [declaration]
    apply Natural.recover
    apply Natural.bind (natural_acceptIf _)
    intro t?
    cases t? with
    | none => exact statement_natural fuel
    | some t =>
      dsimp only [Option.map_some, Relabelling.apply_kind]
      split
      case h_1 => exact classDecl_natural fuel
      case h_2 =>
        apply Natural.bind (function_natural fuel .function)
        intro f
        exact natural_pure (Stmt.funDecl f)
      case h_3 => exact varDecl_natural fuel
termination_by fuel
decreasing_by all_goals omega

theorem classDecl_natural (fuel : Nat) :
    Natural r (·.relabel r) (classDecl fuel) (classDecl fuel) := by
  cases fuel with
  | zero => exact natural_exhausted
  | succ fuel =>
    rw [classDecl]
    apply Natural.bind (natural_require _)
    intro name
    apply Natural.bind superclassClause_natural
    intro superclass
    apply Natural.bind (natural_require _)
    intro _
    apply Natural.bind (methods_natural fuel)
    intro members
    apply Natural.bind (natural_require _)
    intro _
    have hclass := natural_pure (r := r) (g := Stmt.relabel r) (Stmt.classDecl name superclass members)
    rwa [Stmt.relabel, FunDecl.relabelAll_eq_map] at hclass
termination_by fuel
decreasing_by all_goals omega

theorem methods_natural (fuel : Nat) :
    Natural r (List.map (·.relabel r)) (methods fuel) (methods fuel) := by
  cases fuel with
  | zero => exact natural_exhausted
  | succ fuel =>
    rw [methods]
    apply Natural.bind natural_peek?
    intro next
    rw [Option.all_map]
    apply Natural.ite Iff.rfl
    · exact natural_pure []
    · apply Natural.bind (function_natural fuel .method)
      intro first
      apply Natural.bind (methods_natural fuel)
      intro rest
      exact natural_pure (first :: rest)
termination_by fuel
decreasing_by all_goals omega

theorem function_natural (fuel : Nat) (role : Role) :
    Natural r (·.relabel r) (function fuel role) (function fuel role) := by
  cases fuel with
  | zero => exact natural_exhausted
  | succ fuel =>
    rw [function]
    apply Natural.bind (natural_require _)
    intro name
    apply Natural.bind (natural_require _)
    intro _
    apply Natural.bind (parameters_natural fuel)
    intro params
    apply Natural.bind (natural_require _)
    intro _
    apply Natural.bind (natural_require _)
    intro _
    apply Natural.bind (block_natural fuel)
    intro body
    have hfunction := natural_pure (r := r) (g := FunDecl.relabel r) ⟨name, params, body⟩
    rwa [FunDecl.relabel, Stmt.relabelAll_eq_map] at hfunction
termination_by fuel
decreasing_by all_goals omega

theorem block_natural (fuel : Nat) :
    Natural r (List.map (·.relabel r)) (block fuel) (block fuel) := by
  cases fuel with
  | zero => exact natural_exhausted
  | succ fuel =>
    rw [block]
    apply Natural.bind (declarations_natural fuel)
    intro body
    apply Natural.bind (natural_require _)
    intro _
    exact natural_pure body
termination_by fuel
decreasing_by all_goals omega

theorem declarations_natural (fuel : Nat) :
    Natural r (List.map (·.relabel r)) (declarations fuel) (declarations fuel) := by
  cases fuel with
  | zero => exact natural_exhausted
  | succ fuel =>
    rw [declarations]
    apply Natural.bind natural_peek?
    intro next
    rw [Option.all_map]
    apply Natural.ite Iff.rfl
    · exact natural_pure []
    · apply Natural.bind (declaration_natural fuel)
      intro first
      apply Natural.bind (declarations_natural fuel)
      intro rest
      have hrest := natural_pure (r := r) (g := List.map (Stmt.relabel r)) (first.toList ++ rest)
      rwa [List.map_append, ← Option.toList_map] at hrest
termination_by fuel
decreasing_by all_goals omega

theorem statement_natural (fuel : Nat) :
    Natural r (·.relabel r) (statement fuel) (statement fuel) := by
  cases fuel with
  | zero => exact natural_exhausted
  | succ fuel =>
    rw [statement]
    apply Natural.bind natural_peek?
    intro t?
    cases t? with
    | none => exact expressionStatement_natural fuel
    | some t =>
      dsimp only [Option.map_some, Relabelling.apply_kind]
      split
      case h_1 =>
        apply Natural.bind natural_skip
        intro _
        apply Natural.bind (natural_require _)
        intro _
        apply Natural.bind (expression_natural fuel)
        intro condition
        apply Natural.bind (natural_require _)
        intro _
        apply Natural.bind (statement_natural fuel)
        intro yes
        apply Natural.bind (natural_accept _)
        intro els?
        cases els? with
        | none => exact natural_pure (Stmt.ifThen condition yes)
        | some els =>
          apply Natural.bind (statement_natural fuel)
          intro no
          exact natural_pure (Stmt.ifElse condition yes no)
      case h_2 =>
        apply Natural.bind natural_skip
        intro _
        apply Natural.bind (expression_natural fuel)
        intro value
        apply Natural.bind (natural_require _)
        intro _
        exact natural_pure (Stmt.print t value)
      case h_3 =>
        apply Natural.bind natural_skip
        intro _
        apply Natural.bind (optionalExpression_natural fuel _)
        intro value
        apply Natural.bind (natural_require _)
        intro _
        exact natural_pure (Stmt.ret t value)
      case h_4 =>
        apply Natural.bind natural_skip
        intro _
        apply Natural.bind (natural_require _)
        intro _
        apply Natural.bind (expression_natural fuel)
        intro condition
        apply Natural.bind (natural_require _)
        intro _
        apply Natural.bind (statement_natural fuel)
        intro body
        exact natural_pure (Stmt.whileLoop condition body)
      case h_5 =>
        apply Natural.bind natural_skip
        intro _
        apply Natural.bind (natural_require _)
        intro _
        apply Natural.bind (forInitializer_natural fuel)
        intro initializer
        apply Natural.bind (optionalExpression_natural fuel _)
        intro condition
        apply Natural.bind (natural_require _)
        intro _
        apply Natural.bind (optionalExpression_natural fuel _)
        intro increment
        apply Natural.bind (natural_require _)
        intro _
        apply Natural.bind (statement_natural fuel)
        intro body
        rw [← Stmt.forLoop_relabel]
        exact natural_pure (Stmt.forLoop initializer condition increment body)
      case h_6 =>
        apply Natural.bind natural_skip
        intro _
        apply Natural.bind (block_natural fuel)
        intro body
        have hblock := natural_pure (r := r) (g := Stmt.relabel r) (Stmt.block body)
        rwa [Stmt.relabel, Stmt.relabelAll_eq_map] at hblock
      case h_7 => exact expressionStatement_natural fuel
termination_by fuel
decreasing_by all_goals omega

end

theorem program_natural (fuel : Nat) :
    Natural r (List.map (·.relabel r)) (program fuel) (program fuel) := by
  induction fuel with
  | zero => exact natural_exhausted
  | succ fuel ih =>
    rw [program]
    apply Natural.bind natural_peek?
    intro next
    rw [Option.isNone_map]
    apply Natural.ite Iff.rfl
    · exact natural_pure []
    · apply Natural.bind (declaration_natural fuel)
      intro first
      apply Natural.bind ih
      intro rest
      have hrest := natural_pure (r := r) (g := List.map (Stmt.relabel r)) (first.toList ++ rest)
      rwa [List.map_append, ← Option.toList_map] at hrest

end Parse

def relabelParsed (r : Relabelling) :
    Except (List SyntaxError) (List Stmt) → Except (List SyntaxError) (List Stmt)
  | .ok program => .ok (program.map (·.relabel r))
  | .error errors => .error (errors.map (·.relabel r))

theorem parse_relabel (r : Relabelling) (ts : List Token) :
    parse (ts.map r) = relabelParsed r (parse ts) := by
  have hdepth : Parse.depthFor (ts.map r) = Parse.depthFor ts := by
    simp [Parse.depthFor]
  unfold parse
  rw [hdepth, Parse.program_natural _ ts]
  cases Parse.program (Parse.depthFor ts) ts with
  | ok statements noted rest =>
    cases noted with
    | nil => rfl
    | cons e noted => rfl
  | fail error noted rest => simp [Parse.Outcome.relabel, relabelParsed]
  | exhausted => rfl

end Lox
