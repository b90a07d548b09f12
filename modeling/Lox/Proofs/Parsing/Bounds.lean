import Lox.Proofs.Parsing.Walks

/-!
Bounds of parsing. A cursor on the tokens of a source and their end does what the parser does with the
tokens behind its position, at any depth that suffices for the parser. It reads nothing outside of the
stream, never moves back, and leaves every declaration behind where it entered it.
-/
namespace Lox

namespace Parse

variable {α β : Type}

section Procedures

variable {tokens : List Token} {spare : Nat}

mutual

theorem expression_walks {start : Nat} (fuel : Nat) :
    Walks tokens start 1 (Cursor.expression (fuel + spare)) (expression fuel) := by
  cases fuel with
  | zero => exact walks_exhausted
  | succ fuel =>
    rw [Nat.add_right_comm, Cursor.expression, expression]
    refine (chain_walks fuel .or).bind fun target mid _ => ?_
    refine walks_accept (fun equals => ?_) (walks_pure _)
    refine (expression_walks fuel).bind fun value rest _ => ?_
    cases target.assigned? value with
    | some e => exact walks_pure _
    | none => exact walks_noteAt (walks_pure _)
termination_by fuel
decreasing_by all_goals omega

theorem chain_walks {start : Nat} (fuel : Nat) (level : Level) :
    Walks tokens start 1 (Cursor.chain (fuel + spare) level) (chain fuel level) := by
  cases fuel with
  | zero => exact walks_exhausted
  | succ fuel =>
    rw [Nat.add_right_comm, Cursor.chain, chain]
    refine (operand_walks fuel level).bind fun left mid _ => ?_
    exact chainRest_walks fuel level left
termination_by fuel
decreasing_by all_goals omega

theorem chainRest_walks {start : Nat} (fuel : Nat) (level : Level) (left : Expr) :
    Walks tokens start 0 (Cursor.chainRest (fuel + spare) level left) (chainRest fuel level left) := by
  cases fuel with
  | zero => exact walks_exhausted
  | succ fuel =>
    rw [Nat.add_right_comm, Cursor.chainRest, chainRest]
    refine walks_acceptIf (fun op _ _ => ?_) (walks_pure _)
    refine (operand_walks fuel level).bind fun right mid _ => ?_
    exact chainRest_walks fuel level _
termination_by fuel
decreasing_by all_goals omega

theorem operand_walks {start : Nat} (fuel : Nat) (level : Level) :
    Walks tokens start 1 (Cursor.operand (fuel + spare) level) (operand fuel level) := by
  cases fuel with
  | zero => exact walks_exhausted
  | succ fuel =>
    rw [Nat.add_right_comm, Cursor.operand, operand]
    cases level.next? with
    | some next => exact chain_walks fuel next
    | none => exact unary_walks fuel
termination_by fuel
decreasing_by all_goals omega

theorem unary_walks {start : Nat} (fuel : Nat) :
    Walks tokens start 1 (Cursor.unary (fuel + spare)) (unary fuel) := by
  cases fuel with
  | zero => exact walks_exhausted
  | succ fuel =>
    rw [Nat.add_right_comm, Cursor.unary, unary]
    refine walks_acceptIf (fun op _ _ => ?_) ?_
    · exact (unary_walks fuel).bind fun e mid _ => walks_pure _
    · refine (primary_walks fuel).bind fun callee mid _ => ?_
      exact callRest_walks fuel callee
termination_by fuel
decreasing_by all_goals omega

theorem callRest_walks {start : Nat} (fuel : Nat) (callee : Expr) :
    Walks tokens start 0 (Cursor.callRest (fuel + spare) callee) (callRest fuel callee) := by
  cases fuel with
  | zero => exact walks_exhausted
  | succ fuel =>
    rw [Nat.add_right_comm, Cursor.callRest, callRest]
    refine walks_acceptIf (fun t _ _ => Walks.ite ?_ ?_) (walks_pure _)
    · refine walks_require fun property mid => ?_
      exact callRest_walks fuel _
    · refine (arguments_walks fuel).bind fun args mid _ => ?_
      refine walks_require fun paren mid' => ?_
      exact callRest_walks fuel _
termination_by fuel
decreasing_by all_goals omega

theorem arguments_walks {start : Nat} (fuel : Nat) :
    Walks tokens start 0 (Cursor.arguments (fuel + spare)) (arguments fuel) := by
  cases fuel with
  | zero => exact walks_exhausted
  | succ fuel =>
    rw [Nat.add_right_comm, Cursor.arguments, arguments]
    refine walks_peek? (Walks.ite (walks_pure _) ?_)
    exact (argumentList_walks fuel 0).mono (Nat.zero_le 1)
termination_by fuel
decreasing_by all_goals omega

theorem argumentList_walks {start : Nat} (fuel count : Nat) :
    Walks tokens start 1 (Cursor.argumentList (fuel + spare) count) (argumentList fuel count) := by
  cases fuel with
  | zero => exact walks_exhausted
  | succ fuel =>
    rw [Nat.add_right_comm, Cursor.argumentList, argumentList]
    refine walks_excess ?_
    refine (expression_walks fuel).bind fun first mid _ => ?_
    refine walks_accept (fun comma => ?_) (walks_pure _)
    exact (argumentList_walks fuel (count + 1)).bind fun args rest _ => walks_pure _
termination_by fuel
decreasing_by all_goals omega

theorem primary_walks {start : Nat} (fuel : Nat) :
    Walks tokens start 1 (Cursor.primary (fuel + spare)) (primary fuel) := by
  cases fuel with
  | zero => exact walks_exhausted
  | succ fuel =>
    rw [Nat.add_right_comm, Cursor.primary, primary]
    refine walks_peek? ?_
    cases ht : tokens[start]? with
    | none => exact walks_fail _
    | some t =>
      dsimp only
      cases t.kind with
      | number | string | kwTrue | kwFalse | kwNil | identifier | kwThis =>
        exact walks_skip ht (walks_pure _)
      | kwSuper =>
        refine walks_skip ht (walks_require fun dot mid => ?_)
        exact walks_require fun method mid' => walks_pure _
      | leftParen =>
        refine walks_skip ht ((expression_walks fuel).bind fun inner mid _ => ?_)
        exact walks_require fun finish mid' => walks_pure _
      | _ => exact walks_fail _
termination_by fuel
decreasing_by all_goals omega

end

theorem optionalExpression_walks {start : Nat} (fuel : Nat) (stop : Kind) :
    Walks tokens start 0 (Cursor.optionalExpression (fuel + spare) stop) (optionalExpression fuel stop) :=
  walks_peek? (Walks.ite (walks_pure _) ((expression_walks fuel).bind fun _ _ _ => walks_pure _))

theorem parameterList_walks {start : Nat} (fuel count : Nat) :
    Walks tokens start 1 (Cursor.parameterList (fuel + spare) count) (parameterList fuel count) := by
  induction fuel generalizing start count with
  | zero => exact walks_exhausted
  | succ fuel ih =>
    rw [Nat.add_right_comm, Cursor.parameterList, parameterList]
    refine walks_excess (walks_require fun first mid => ?_)
    refine walks_accept (fun comma => ?_) (walks_pure _)
    exact (ih (count + 1)).bind fun params rest _ => walks_pure _

theorem parameters_walks {start : Nat} (fuel : Nat) :
    Walks tokens start 0 (Cursor.parameters (fuel + spare)) (parameters fuel) :=
  walks_peek? (Walks.ite (walks_pure _) ((parameterList_walks fuel 0).mono (Nat.zero_le 1)))

theorem varDecl_walks {start : Nat} (fuel : Nat) :
    Walks tokens start 1 (Cursor.varDecl (fuel + spare)) (varDecl fuel) := by
  refine walks_require fun name mid => walks_accept (fun equals => ?_) ?_
  · refine (expression_walks fuel).bind fun value mid' _ => ?_
    exact walks_require fun finish rest => walks_pure _
  · exact walks_require fun finish rest => walks_pure _

theorem expressionStatement_walks {start : Nat} (fuel : Nat) :
    Walks tokens start 1 (Cursor.expressionStatement (fuel + spare)) (expressionStatement fuel) :=
  (expression_walks fuel).bind fun _ _ _ => walks_require fun _ _ => walks_pure _

theorem forInitializer_walks {start : Nat} (fuel : Nat) :
    Walks tokens start 1 (Cursor.forInitializer (fuel + spare)) (forInitializer fuel) := by
  refine walks_acceptIf (fun t _ _ => Walks.ite ?_ (walks_pure _)) ?_
  · exact (varDecl_walks fuel).bind fun s rest _ => walks_pure _
  · exact (expressionStatement_walks fuel).bind fun s rest _ => walks_pure _

theorem superclassClause_walks {start : Nat} :
    Walks tokens start 0 Cursor.superclassClause superclassClause :=
  walks_accept (fun _ => walks_require fun _ _ => walks_pure _) (walks_pure _)

mutual

theorem declaration_walks {start : Nat} (fuel : Nat) (hlt : start < tokens.length) :
    Walks tokens start 1 (Cursor.declaration (fuel + spare)) (declaration fuel) := by
  cases fuel with
  | zero => exact walks_exhausted
  | succ fuel =>
    rw [Nat.add_right_comm, Cursor.declaration, declaration]
    refine walks_declaration (walks_acceptIf (fun t _ _ => ?_) (statement_walks fuel)) hlt
    dsimp only
    cases t.kind with
    | kwClass => exact classDecl_walks fuel
    | kwFun => exact ((function_walks fuel .function).bind fun f rest _ => walks_pure _).mono (Nat.zero_le 1)
    | _ => exact (varDecl_walks fuel).mono (Nat.zero_le 1)
termination_by fuel
decreasing_by all_goals omega

theorem classDecl_walks {start : Nat} (fuel : Nat) :
    Walks tokens start 0 (Cursor.classDecl (fuel + spare)) (classDecl fuel) := by
  cases fuel with
  | zero => exact walks_exhausted
  | succ fuel =>
    rw [Nat.add_right_comm, Cursor.classDecl, classDecl]
    refine walks_require fun name mid => superclassClause_walks.bind fun superclass mid' _ => ?_
    refine walks_require fun start mid'' => (methods_walks fuel).bind fun members mid₃ _ => ?_
    exact walks_require fun finish rest => walks_pure _
termination_by fuel
decreasing_by all_goals omega

theorem methods_walks {start : Nat} (fuel : Nat) :
    Walks tokens start 0 (Cursor.methods (fuel + spare)) (methods fuel) := by
  cases fuel with
  | zero => exact walks_exhausted
  | succ fuel =>
    rw [Nat.add_right_comm, Cursor.methods, methods]
    refine walks_peek? (Walks.ite (walks_pure _) ?_)
    refine (function_walks fuel .method).bind fun f mid _ => ?_
    exact (methods_walks fuel).bind fun members rest _ => walks_pure _
termination_by fuel
decreasing_by all_goals omega

theorem function_walks {start : Nat} (fuel : Nat) (role : Role) :
    Walks tokens start 1 (Cursor.function (fuel + spare) role) (function fuel role) := by
  cases fuel with
  | zero => exact walks_exhausted
  | succ fuel =>
    rw [Nat.add_right_comm, Cursor.function, function]
    refine walks_require fun name mid => walks_require fun start mid' => ?_
    refine (parameters_walks fuel).bind fun params mid'' _ => ?_
    refine walks_require fun finish mid₃ => walks_require fun left mid₄ => ?_
    exact (block_walks fuel).bind fun body rest _ => walks_pure _
termination_by fuel
decreasing_by all_goals omega

theorem block_walks {start : Nat} (fuel : Nat) :
    Walks tokens start 0 (Cursor.block (fuel + spare)) (block fuel) := by
  cases fuel with
  | zero => exact walks_exhausted
  | succ fuel =>
    rw [Nat.add_right_comm, Cursor.block, block]
    refine (declarations_walks fuel).bind fun body mid _ => ?_
    exact walks_require fun finish rest => walks_pure _
termination_by fuel
decreasing_by all_goals omega

theorem declarations_walks {start : Nat} (fuel : Nat) :
    Walks tokens start 0 (Cursor.declarations (fuel + spare)) (declarations fuel) := by
  cases fuel with
  | zero => exact walks_exhausted
  | succ fuel =>
    rw [Nat.add_right_comm, Cursor.declarations, declarations]
    refine walks_peek? ?_
    cases ht : tokens[start]? with
    | none => exact walks_pure _
    | some t =>
      have hlt : start < tokens.length := (List.getElem?_eq_some_iff.1 ht).1
      refine Walks.ite (walks_pure _) ?_
      refine (declaration_walks fuel hlt).bind fun s? mid _ => ?_
      exact (declarations_walks fuel).bind fun body rest _ => walks_pure _
termination_by fuel
decreasing_by all_goals omega

theorem statement_walks {start : Nat} (fuel : Nat) :
    Walks tokens start 1 (Cursor.statement (fuel + spare)) (statement fuel) := by
  cases fuel with
  | zero => exact walks_exhausted
  | succ fuel =>
    rw [Nat.add_right_comm, Cursor.statement, statement]
    refine walks_peek? ?_
    cases ht : tokens[start]? with
    | none => exact expressionStatement_walks fuel
    | some keyword =>
      dsimp only
      cases keyword.kind with
      | kwIf =>
        refine walks_skip ht (walks_require fun start mid => ?_)
        refine (expression_walks fuel).bind fun c mid' _ => walks_require fun finish mid'' => ?_
        refine (statement_walks fuel).bind fun yes mid₃ _ => ?_
        refine walks_accept (fun els => ?_) (walks_pure _)
        exact (statement_walks fuel).bind fun no rest _ => walks_pure _
      | kwPrint =>
        refine walks_skip ht ((expression_walks fuel).bind fun e mid _ => ?_)
        exact walks_require fun finish rest => walks_pure _
      | kwReturn =>
        refine walks_skip ht ((optionalExpression_walks fuel _).bind fun e mid _ => ?_)
        exact walks_require fun finish rest => walks_pure _
      | kwWhile =>
        refine walks_skip ht (walks_require fun start mid => ?_)
        refine (expression_walks fuel).bind fun c mid' _ => walks_require fun finish mid'' => ?_
        exact (statement_walks fuel).bind fun body rest _ => walks_pure _
      | kwFor =>
        refine walks_skip ht (walks_require fun start mid => ?_)
        refine (forInitializer_walks fuel).bind fun init mid₁ _ => ?_
        refine (optionalExpression_walks fuel _).bind fun c mid₂ _ => walks_require fun middle mid₃ => ?_
        refine (optionalExpression_walks fuel _).bind fun inc mid₄ _ => walks_require fun finish mid₅ => ?_
        exact (statement_walks fuel).bind fun body rest _ => walks_pure _
      | leftBrace => exact walks_skip ht ((block_walks fuel).bind fun body mid _ => walks_pure _)
      | _ => exact expressionStatement_walks fuel
termination_by fuel
decreasing_by all_goals omega

end

theorem program_walks {start : Nat} (fuel : Nat) :
    Walks tokens start 0 (Cursor.program (fuel + spare)) (program fuel) := by
  induction fuel generalizing start with
  | zero => exact walks_exhausted
  | succ fuel ih =>
    rw [Nat.add_right_comm, Cursor.program, program]
    refine walks_peek? ?_
    cases ht : tokens[start]? with
    | none => exact walks_pure _
    | some t =>
      have hlt : start < tokens.length := (List.getElem?_eq_some_iff.1 ht).1
      refine (declaration_walks fuel hlt).bind fun s? mid _ => ?_
      exact ih.bind fun statements rest _ => walks_pure _

end Procedures

theorem exists_of_andThen_ok {o : Outcome α} {next : α → Procedure β} {value : β}
    {noted : List SyntaxError} {rest : List Token} (h : o.andThen next = .ok value noted rest) :
    ∃ first earlier mid later, o = .ok first earlier mid ∧ next first mid = .ok value later rest := by
  cases o with
  | ok first earlier mid =>
    rw [andThen_ok] at h
    cases hmid : next first mid with
    | ok value' later rest' =>
      rw [hmid] at h
      cases h
      exact ⟨first, earlier, mid, later, rfl, hmid⟩
    | fail | exhausted =>
      rw [hmid] at h
      contradiction
  | fail | exhausted => contradiction

theorem program_succ (fuel : Nat) (t : Token) (ts : List Token) :
    program (fuel + 1) (t :: ts) = (declaration fuel (t :: ts)).andThen fun first => do
      return first.toList ++ (← program fuel) := by
  rw [program, bind_run, peek?_run, andThen_ok, Outcome.after_nil]
  rfl

theorem program_rest {fuel : Nat} {ts rest : List Token} {statements : List Stmt}
    {noted : List SyntaxError} (h : program fuel ts = .ok statements noted rest) : rest = [] := by
  induction fuel generalizing ts statements noted with
  | zero => contradiction
  | succ fuel ih =>
    cases ts with
    | nil =>
      cases h
      rfl
    | cons t ts =>
      rw [program_succ] at h
      obtain ⟨first, _, mid, _, -, hmid⟩ := exists_of_andThen_ok h
      obtain ⟨statements', _, mid', _, hprogram, hpure⟩ := exists_of_andThen_ok hmid
      cases hpure
      exact ih hprogram

theorem exists_of_program {fuel : Nat} {ts : List Token} (h : program fuel ts ≠ .exhausted) :
    ∃ statements noted, program fuel ts = .ok statements noted [] := by
  cases hrun : program fuel ts with
  | ok statements noted rest =>
    have hrest := program_rest hrun
    subst hrest
    exact ⟨statements, noted, rfl⟩
  | fail error noted rest => exact absurd hrun (program_neverFails _ _ _ _ _)
  | exhausted => exact absurd hrun h

theorem exists_of_bind_walk {q : Cursor α} {next : α → Cursor β} {stream : List (Option Token)}
    {start finish : Nat} {value : β} {noted : List SyntaxError} {course : Course}
    (h : (q >>= next) stream start = ⟨.ok value noted, finish, course⟩) :
    ∃ first earlier mid before later after, q stream start = ⟨.ok first earlier, mid, before⟩ ∧
      next first stream mid = ⟨.ok value later, finish, after⟩ ∧ course = before ++ after := by
  obtain ⟨⟨answer, mid, before⟩, hq⟩ : ∃ walk, q stream start = walk := ⟨_, rfl⟩
  cases answer with
  | ok first earlier =>
    rw [bind_walk hq] at h
    obtain ⟨⟨answer, position, after⟩, hnext⟩ : ∃ walk, next first stream mid = walk := ⟨_, rfl⟩
    rw [hnext] at h
    cases answer with
    | ok value' later =>
      cases h
      exact ⟨first, earlier, mid, before, later, after, hq, hnext, rfl⟩
    | fail | exhausted | outOfRange => cases h
  | fail | exhausted | outOfRange =>
    change Cursor.bind q next stream start = _ at h
    unfold Cursor.bind at h
    rw [hq] at h
    cases h

theorem peek?_course {stream : List (Option Token)} {start finish : Nat} {value : Option Token}
    {noted : List SyntaxError} {course : Course}
    (h : Cursor.peek? stream start = ⟨.ok value noted, finish, course⟩) :
    finish = start ∧ start ∈ course.positions := by
  unfold Cursor.peek? Cursor.read at h
  split at h
  · cases h
    exact ⟨rfl, List.mem_cons_self⟩
  · cases h

theorem declaration_span {fuel : Nat} {stream : List (Option Token)} {start finish : Nat}
    {value : Option Stmt} {noted : List SyntaxError} {course : Course}
    (h : Cursor.declaration fuel stream start = ⟨.ok value noted, finish, course⟩) :
    ⟨start, finish⟩ ∈ course.declarations := by
  cases fuel with
  | zero =>
    rw [Cursor.declaration] at h
    cases h
  | succ fuel =>
    rw [Cursor.declaration] at h
    obtain ⟨-, rfl, rfl⟩ := Walk.mk.inj h
    exact List.mem_append_right _ List.mem_cons_self

theorem program_course {fuel : Nat} {stream : List (Option Token)} {start finish : Nat}
    {statements : List Stmt} {noted : List SyntaxError} {course : Course}
    (h : Cursor.program fuel stream start = ⟨.ok statements noted, finish, course⟩) :
    start ∈ course.positions ∧
      ∀ k, start ≤ k → k < finish → ∃ d ∈ course.declarations, d.start ≤ k ∧ k < d.finish := by
  induction fuel generalizing start statements noted course with
  | zero =>
    rw [Cursor.program] at h
    cases h
  | succ fuel ih =>
    rw [Cursor.program] at h
    obtain ⟨next, _, mid, _, _, rest, hpeek, hrest, rfl⟩ := exists_of_bind_walk h
    obtain ⟨rfl, hstart⟩ := peek?_course hpeek
    refine ⟨List.mem_append_left _ hstart, fun k hk hk' => ?_⟩
    cases next with
    | none =>
      cases hrest
      exact absurd hk' (Nat.not_lt_of_le hk)
    | some t =>
      obtain ⟨first, _, mid', before, _, after, hdeclaration, hbehind, rfl⟩ := exists_of_bind_walk hrest
      obtain ⟨later, _, _, behind, _, _, hprogram, hpure, rfl⟩ := exists_of_bind_walk hbehind
      cases hpure
      by_cases hfirst : k < mid'
      · refine ⟨_, List.mem_append_right _ (List.mem_append_left _ (declaration_span hdeclaration)), hk,
          hfirst⟩
      · obtain ⟨d, hd, hcovers⟩ := (ih hprogram).2 k (Nat.le_of_not_lt hfirst) hk'
        refine ⟨d, ?_, hcovers⟩
        exact List.mem_append_right _ (List.mem_append_right _ (List.mem_append_left _ hd))

theorem Agrees.exists_of_ok {tokens rest : List Token} {start count : Nat} {walk : Walk α} {value : α}
    {noted : List SyntaxError} (h : Agrees tokens start count walk (.ok value noted rest)) :
    ∃ finish course, walk = ⟨.ok value noted, finish, course⟩ ∧ rest = tokens.drop finish ∧
      start + count ≤ finish ∧ course.Forward tokens start finish := by
  generalize ho : Outcome.ok value noted rest = o at h
  cases h with
  | ok hcount hforward =>
    cases ho
    exact ⟨_, _, rfl, rfl, hcount, hforward⟩
  | fail | exhausted => contradiction

theorem Agrees.unique {tokens : List Token} {start count : Nat} {walk : Walk α} {o o' : Outcome α}
    (h : Agrees tokens start count walk o) (h' : Agrees tokens start count walk o')
    (ho : o ≠ .exhausted) (ho' : o' ≠ .exhausted) : o = o' := by
  cases h with
  | ok =>
    cases h' with
    | ok => rfl
    | exhausted => exact absurd rfl ho'
  | fail =>
    cases h' with
    | fail => rfl
    | exhausted => exact absurd rfl ho'
  | exhausted => exact absurd rfl ho

theorem program_unique {fuel fuel' : Nat} {ts : List Token} (h : program fuel ts ≠ .exhausted)
    (h' : program fuel' ts ≠ .exhausted) : program fuel ts = program fuel' ts := by
  have hwalks : Agrees ts 0 0 (Cursor.program (fuel + fuel') (stream ts) 0) (program fuel ts) :=
    program_walks fuel (Nat.zero_le _)
  have hwalks' : Agrees ts 0 0 (Cursor.program (fuel' + fuel) (stream ts) 0) (program fuel' ts) :=
    program_walks fuel' (Nat.zero_le _)
  rw [Nat.add_comm] at hwalks'
  exact hwalks.unique hwalks' h h'

end Parse

open Parse

theorem parse_of_run {fuel : Nat} {tokens rest : List Token} {statements : List Stmt}
    {noted : List SyntaxError} (h : program fuel tokens = .ok statements noted rest) :
    parse tokens = if noted = [] then .ok statements else .error noted := by
  have hdepth : program fuel tokens ≠ .exhausted := by simp [h]
  unfold parse
  rw [program_unique (program_ne_exhausted tokens) hdepth, h]
  cases noted <;> rfl

/-- A cursor on the tokens of a source ends, at any depth that suffices, with what the parser comes to. It
reads nothing outside of the stream, only moves forward, from the start up to the end, and every declaration
that is entered before the end leaves it behind where it was entered. The declarations have no gaps. -/
theorem parse_stays_in_bounds (tokens : List Token) (spare : Nat) :
    ∃ statements noted course,
      Cursor.program (depthFor tokens + spare) (stream tokens) 0 =
        ⟨.ok statements noted, tokens.length, course⟩ ∧
      parse tokens = (if noted = [] then .ok statements else .error noted) ∧
      course.positions.Pairwise (· ≤ ·) ∧ (∀ k, k ∈ course.positions ↔ k ≤ tokens.length) ∧
      (∀ d ∈ course.declarations, d.start < tokens.length → d.start < d.finish) ∧
      ∀ k < tokens.length, ∃ d ∈ course.declarations, d.start ≤ k ∧ k < d.finish := by
  obtain ⟨statements, noted, hrun⟩ := exists_of_program (program_ne_exhausted tokens)
  -- The cursor does what the parser does, so all that is left is to read off its course.
  have hwalks : Agrees tokens 0 0 (Cursor.program (depthFor tokens + spare) (stream tokens) 0)
      (program (depthFor tokens) tokens) := program_walks (depthFor tokens) (Nat.zero_le _)
  rw [hrun] at hwalks
  obtain ⟨finish, course, hwalk, hrest, -, hforward⟩ := hwalks.exists_of_ok
  have hfinish : finish = tokens.length :=
    Nat.le_antisymm hforward.inside (List.drop_eq_nil_iff.1 hrest.symm)
  subst hfinish
  obtain ⟨hstart, hspans⟩ := program_course hwalk
  refine ⟨statements, noted, course, hwalk, parse_of_run hrun, hforward.sorted, fun k => ?_,
    hforward.progress, fun k hk => hspans k (Nat.zero_le k) hk⟩
  constructor
  · exact fun hk => (hforward.within k hk).2
  · intro hk
    rcases Nat.eq_zero_or_pos k with rfl | hpos
    · exact hstart
    · exact hforward.gapless k hpos hk

/-- Neither a missing value nor a brace without a block keeps a cursor where it is. -/
example :
    let tokens : List Token := [.sample .kwPrint, .sample .semicolon, .sample .rightBrace]
    let walk := Cursor.program (depthFor tokens) (stream tokens) 0
    walk.course.declarations.map (fun d => (d.start, d.finish)) = [(0, 2), (2, 3)] ∧
      walk.position = 3 := by
  exact ⟨rfl, rfl⟩

end Lox
