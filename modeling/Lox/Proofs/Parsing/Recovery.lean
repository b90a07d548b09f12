import Lox.Proofs.Parsing.Panics

/-!
Where parsing goes on behind a panic. The procedures that can recover are run once more with a log of
their recoveries, which changes nothing that they do. Every panic among the faults of a program is in the
log, with the place at which it arose and the place at which parsing goes on.
-/
namespace Lox

namespace Parse

variable {α β : Type}

structure Recovery where
  error : SyntaxError
  /-- The tokens left where the error arose. -/
  failed : List Token
  /-- The tokens left where parsing goes on. -/
  resumed : List Token

def Logged (α : Type) := List Token → Outcome α × List Recovery

namespace Logged

@[inline] def pure (value : α) : Logged α := fun tokens => (.ok value [] tokens, [])

@[inline] def bind (q : Logged α) (next : α → Logged β) : Logged β := fun tokens =>
  match q tokens with
  | (.ok value noted rest, log) =>
    let (outcome, later) := next value rest
    (outcome.after noted, log ++ later)
  | (.fail error noted rest, log) => (.fail error noted rest, log)
  | (.exhausted, log) => (.exhausted, log)

instance : Monad Logged where
  pure := Logged.pure
  bind := Logged.bind

def lift (p : Procedure α) : Logged α := fun tokens => (p tokens, [])

instance : MonadLift Procedure Logged := ⟨Logged.lift⟩

def recover (q : Logged α) : Logged (Option α) := fun tokens =>
  match q tokens with
  | (.ok value noted rest, log) => (.ok (some value) noted rest, log)
  | (.fail error noted rest, log) =>
    (.ok none (noted ++ [error]) (synchronize rest), log ++ [⟨error, rest, synchronize rest⟩])
  | (.exhausted, log) => (.exhausted, log)

mutual

def declaration : Nat → Logged (Option Stmt)
  | 0 => lift exhausted
  | fuel + 1 => recover do
    match ← acceptIf ([Kind.kwClass, .kwFun, .kwVar].contains ·) with
    | none => statement fuel
    | some t =>
      match t.kind with
      | .kwClass => classDecl fuel
      | .kwFun => return .funDecl (← function fuel .function)
      | _ => varDecl fuel

def classDecl : Nat → Logged Stmt
  | 0 => lift exhausted
  | fuel + 1 => do
    let name ← require .className
    let superclass ← superclassClause
    let _ ← require .classBody
    let members ← methods fuel
    let _ ← require .classEnd
    return .classDecl name superclass members

def methods : Nat → Logged (List FunDecl)
  | 0 => lift exhausted
  | fuel + 1 => do
    let next ← peek?
    if next.all (·.kind = .rightBrace) then return []
    else
      let first ← function fuel .method
      return first :: (← methods fuel)

def function : Nat → Role → Logged FunDecl
  | 0, _ => lift exhausted
  | fuel + 1, role => do
    let name ← require (.functionName role)
    let _ ← require (.parametersStart role)
    let params ← parameters fuel
    let _ ← require .parametersEnd
    let _ ← require (.functionBody role)
    return ⟨name, params, ← block fuel⟩

def block : Nat → Logged (List Stmt)
  | 0 => lift exhausted
  | fuel + 1 => do
    let body ← declarations fuel
    let _ ← require .blockEnd
    return body

def declarations : Nat → Logged (List Stmt)
  | 0 => lift exhausted
  | fuel + 1 => do
    let next ← peek?
    if next.all (·.kind = .rightBrace) then return []
    else
      let first ← declaration fuel
      return first.toList ++ (← declarations fuel)

def statement : Nat → Logged Stmt
  | 0 => lift exhausted
  | fuel + 1 => do
    let some keyword ← peek? | lift (expressionStatement fuel)
    match keyword.kind with
    | .kwIf =>
      skip
      let _ ← require .ifStart
      let condition ← expression fuel
      let _ ← require .ifEnd
      let yes ← statement fuel
      match ← accept .kwElse with
      | none => return .ifThen condition yes
      | some _ => return .ifElse condition yes (← statement fuel)
    | .kwPrint =>
      skip
      let value ← expression fuel
      let _ ← require .printEnd
      return .print keyword value
    | .kwReturn =>
      skip
      let value ← optionalExpression fuel .semicolon
      let _ ← require .returnEnd
      return .ret keyword value
    | .kwWhile =>
      skip
      let _ ← require .whileStart
      let condition ← expression fuel
      let _ ← require .whileEnd
      return .whileLoop condition (← statement fuel)
    | .kwFor =>
      skip
      let _ ← require .forStart
      let initializer ← forInitializer fuel
      let condition ← optionalExpression fuel .semicolon
      let _ ← require .forConditionEnd
      let increment ← optionalExpression fuel .rightParen
      let _ ← require .forEnd
      return .forLoop initializer condition increment (← statement fuel)
    | .leftBrace =>
      skip
      return .block (← block fuel)
    | _ => expressionStatement fuel

end

def program : Nat → Logged (List Stmt)
  | 0 => lift exhausted
  | fuel + 1 => do
    if (← peek?).isNone then return []
    else
      let first ← declaration fuel
      return first.toList ++ (← program fuel)

end Logged

/-- Whether parsing may go on at a position behind a panic at another one: in front of a token that starts
a statement, at the end, or behind a semicolon that is not in front of the panic. -/
def Boundary (tokens : List Token) (panic position : Nat) : Prop :=
  (∀ t ∈ tokens[position]?, startsStatement t.kind = true) ∨
    (panic < position ∧ ∃ t ∈ tokens[position - 1]?, t.kind = .semicolon)

theorem boundary_drop (tokens : List Token) (k r : Nat) :
    Boundary (tokens.drop k) 0 r ↔ Boundary tokens k (k + r) := by
  have hlast : 0 < r → (tokens.drop k)[r - 1]? = tokens[k + r - 1]? := by
    intro hr
    rw [List.getElem?_drop, Nat.add_sub_assoc hr]
  unfold Boundary
  rw [List.getElem?_drop]
  apply or_congr Iff.rfl
  constructor
  · rintro ⟨hr, hsemicolon⟩
    exact ⟨Nat.lt_add_of_pos_right hr, by rwa [← hlast hr]⟩
  · rintro ⟨hr, hsemicolon⟩
    have hpos : 0 < r := Nat.pos_of_lt_add_right hr
    exact ⟨hpos, by rwa [hlast hpos]⟩

theorem boundary_cons {t : Token} {rest : List Token} {r : Nat} (hr : 0 < r) :
    Boundary (t :: rest) 0 (r + 1) ↔ Boundary rest 0 r := by
  have hdrop := boundary_drop (t :: rest) 1 r
  rw [List.drop_succ_cons, List.drop_zero, Nat.add_comm] at hdrop
  rw [hdrop]
  unfold Boundary
  simp [hr]

theorem synchronize_eq_drop (t : Token) (rest : List Token) :
    ∃ r, 0 < r ∧ r ≤ (t :: rest).length ∧ synchronize (t :: rest) = (t :: rest).drop r ∧
      Boundary (t :: rest) 0 r ∧ ∀ m, 0 < m → Boundary (t :: rest) 0 m → r ≤ m := by
  induction rest generalizing t with
  | nil =>
    refine ⟨1, Nat.one_pos, Nat.le_refl _, ?_, .inl (by simp), fun m hm _ => hm⟩
    rw [synchronize]
    split <;> rfl
  | cons u rest ih =>
    rw [synchronize]
    split
    · rename_i hsemicolon
      exact ⟨1, Nat.one_pos, by simp, rfl, .inr ⟨Nat.one_pos, t, rfl, hsemicolon⟩, fun m hm _ => hm⟩
    · rename_i hsemicolon
      split
      · rename_i hstart
        exact ⟨1, Nat.one_pos, by simp, rfl, .inl (by simpa using hstart), fun m hm _ => hm⟩
      · rename_i hstart
        obtain ⟨r, hpos, hle, hdrop, hboundary, hleast⟩ := ih u
        refine ⟨r + 1, Nat.succ_pos r, Nat.succ_le_succ hle, hdrop, (boundary_cons hpos).2 hboundary, ?_⟩
        intro m hm hboundary'
        obtain _ | _ | m := m
        · contradiction
        · rcases hboundary' with hboundary' | ⟨-, v, hv, hsemicolon'⟩
          · exact absurd (hboundary' u rfl) (by simpa using hstart)
          · cases hv
            exact absurd hsemicolon' hsemicolon
        · exact Nat.succ_le_succ (hleast _ (Nat.succ_pos m) ((boundary_cons (Nat.succ_pos m)).1 hboundary'))

theorem synchronize_suffix (ts : List Token) : synchronize ts <:+ ts := by
  cases ts with
  | nil => exact List.suffix_refl _
  | cons t rest =>
    obtain ⟨r, -, -, hdrop, -⟩ := synchronize_eq_drop t rest
    rw [hdrop]
    exact List.drop_suffix r (t :: rest)

def panics (errors : List SyntaxError) : List SyntaxError := errors.filter (·.fault.panics)

theorem panics_eq_nil_of_clean {noted : List SyntaxError} (h : Clean noted) : panics noted = [] := by
  rw [panics, List.filter_eq_nil_iff]
  intro e he
  rw [h e he]
  exact Bool.false_ne_true

/-- A recovery from an error at the first of some of the last tokens, which are then synchronized. -/
structure Recovery.Within (ts : List Token) (x : Recovery) : Prop where
  failed : x.failed <:+ ts
  token : x.error.token? = x.failed.head?
  resumed : x.resumed = synchronize x.failed

/-- A log accounts for the panics among the faults that an outcome notes. A failure is a panic at the first
of the tokens that it leaves, and the log does not have it yet. -/
inductive Accounts (ts : List Token) : Outcome α → List Recovery → Prop
  | ok {value noted rest log} (hrest : rest <:+ ts) (hlog : ∀ x ∈ log, x.Within ts)
      (hnoted : log.map (·.error) = panics noted) : Accounts ts (.ok value noted rest) log
  | fail {error noted rest log} (hrest : rest <:+ ts) (hlog : ∀ x ∈ log, x.Within ts)
      (hnoted : log.map (·.error) = panics noted) (hpanics : error.fault.panics = true)
      (htoken : error.token? = rest.head?) : Accounts ts (.fail error noted rest) log
  | exhausted {log} : Accounts ts .exhausted log

/-- A procedure recovers from nothing: what it notes are no panics. -/
def Regular (p : Procedure α) : Prop := ∀ ts, Accounts ts (p ts) []

/-- A procedure that keeps a log does what another one does, and its log accounts for it. -/
def Logs (q : Logged α) (p : Procedure α) : Prop := ∀ ts, ∃ log, q ts = (p ts, log) ∧ Accounts ts (p ts) log

section Rules

variable {ts : List Token}

theorem Accounts.after {mid : List Token} {noted : List SyntaxError} {o : Outcome α}
    {log later : List Recovery} (hmid : mid <:+ ts) (hlog : ∀ x ∈ log, x.Within ts)
    (hnoted : log.map (·.error) = panics noted) (h : Accounts mid o later) :
    Accounts ts (o.after noted) (log ++ later) := by
  have happend : ∀ {noted' : List SyntaxError}, later.map (·.error) = panics noted' →
      (log ++ later).map (·.error) = panics (noted ++ noted') := by
    intro noted' hlater
    rw [List.map_append, hnoted, hlater, panics, panics, panics, List.filter_append]
  have hboth : (∀ x ∈ later, x.Within mid) → ∀ x ∈ log ++ later, x.Within ts := by
    intro hlater x hx
    rcases List.mem_append.1 hx with hx | hx
    · exact hlog x hx
    · exact ⟨(hlater x hx).failed.trans hmid, (hlater x hx).token, (hlater x hx).resumed⟩
  cases h with
  | ok hrest hlater hnoted' => exact .ok (hrest.trans hmid) (hboth hlater) (happend hnoted')
  | fail hrest hlater hnoted' hpanics htoken =>
    exact .fail (hrest.trans hmid) (hboth hlater) (happend hnoted') hpanics htoken
  | exhausted => exact .exhausted

theorem Regular.bind {p : Procedure α} {next : α → Procedure β} (h : Regular p)
    (hnext : ∀ value, Regular (next value)) : Regular (p >>= next) := by
  intro ts
  have hp := h ts
  rw [bind_run]
  generalize p ts = o at hp
  cases hp with
  | ok hrest hlog hnoted => exact .after hrest hlog hnoted (hnext _ _)
  | fail hrest hlog hnoted hpanics htoken => exact .fail hrest hlog hnoted hpanics htoken
  | exhausted => exact .exhausted

theorem accounts_note {value : α} {noted : List SyntaxError} {rest : List Token} (hrest : rest <:+ ts)
    (hclean : Clean noted) : Accounts ts (.ok value noted rest) [] :=
  .ok hrest (by simp) (panics_eq_nil_of_clean hclean).symm

theorem regular_exhausted : Regular (exhausted : Procedure α) := fun _ => .exhausted

theorem regular_pure (value : α) : Regular (pure value) :=
  fun _ => accounts_note (List.suffix_refl _) clean_nil

theorem regular_peek? : Regular peek? := fun _ => accounts_note (List.suffix_refl _) clean_nil

theorem regular_skip : Regular skip := fun ts => accounts_note (List.tail_suffix ts) clean_nil

theorem regular_fail {fault : SyntaxFault} (h : fault.panics = true) :
    Regular (fail fault : Procedure α) :=
  fun _ => .fail (List.suffix_refl _) (by simp) rfl h rfl

theorem regular_noteAt {t : Token} {fault : SyntaxFault} (h : fault.panics = false) :
    Regular (noteAt t fault) :=
  fun _ => accounts_note (List.suffix_refl _) ((clean_singleton _).2 h)

theorem regular_noteExcess (count : Nat) {fault : SyntaxFault} (h : fault.panics = false) :
    Regular (noteExcess count fault) :=
  fun _ => accounts_note (List.suffix_refl _) (Grammar.clean_excess _ _ h)

theorem regular_require (what : Expectation) : Regular (require what) := by
  intro ts
  rcases require_cases what ts with ⟨t, rest, rfl, -, hrun⟩ | hrun
  · rw [hrun]
    exact accounts_note (List.suffix_cons t rest) clean_nil
  · rw [hrun]
    exact .fail (List.suffix_refl _) (by simp) rfl rfl rfl

theorem regular_acceptIf (p : Kind → Bool) : Regular (acceptIf p) := by
  intro ts
  rcases acceptIf_cases p ts with ⟨t, rest, rfl, -, hrun⟩ | ⟨-, hrun⟩
  · rw [hrun]
    exact accounts_note (List.suffix_cons t rest) clean_nil
  · rw [hrun]
    exact accounts_note (List.suffix_refl _) clean_nil

theorem Logs.bind {q : Logged α} {p : Procedure α} {next : α → Logged β} {next' : α → Procedure β}
    (h : Logs q p) (hnext : ∀ value, Logs (next value) (next' value)) :
    Logs (q >>= next) (p >>= next') := by
  intro ts
  obtain ⟨log, hq, hp⟩ := h ts
  change ∃ log', Logged.bind q next ts = ((p ts).andThen next', log') ∧
    Accounts ts ((p ts).andThen next') log'
  unfold Logged.bind
  rw [hq]
  generalize p ts = o at hp
  cases hp with
  | @ok value noted rest _ hrest hlog hnoted =>
    obtain ⟨later, hrun, hlater⟩ := hnext value rest
    refine ⟨log ++ later, ?_, .after hrest hlog hnoted hlater⟩
    dsimp only
    rw [hrun]
    rfl
  | fail hrest hlog hnoted hpanics htoken =>
    exact ⟨log, rfl, .fail hrest hlog hnoted hpanics htoken⟩
  | exhausted => exact ⟨log, rfl, .exhausted⟩

theorem logs_lift {p : Procedure α} (h : Regular p) : Logs (Logged.lift p) p :=
  fun ts => ⟨[], rfl, h ts⟩

theorem logs_lift_bind {p : Procedure α} {next : α → Logged β} {next' : α → Procedure β}
    (h : Regular p) (hnext : ∀ value, Logs (next value) (next' value)) :
    Logs (liftM p >>= next) (p >>= next') :=
  (logs_lift h).bind hnext

theorem logs_pure (value : α) : Logs (pure value) (pure value) := logs_lift (regular_pure value)

theorem Logs.recover {q : Logged α} {p : Procedure α} (h : Logs q p) : Logs q.recover (recover p) := by
  intro ts
  obtain ⟨log, hq, hp⟩ := h ts
  unfold Logged.recover
  rw [hq, recover_run]
  generalize p ts = o at hp
  cases hp with
  | ok hrest hlog hnoted => exact ⟨log, rfl, .ok hrest hlog hnoted⟩
  | @fail error noted rest _ hrest hlog hnoted hpanics htoken =>
    refine ⟨log ++ [⟨error, rest, synchronize rest⟩], rfl, .ok ?_ ?_ ?_⟩
    · exact (synchronize_suffix rest).trans hrest
    · intro x hx
      rcases List.mem_append.1 hx with hx | hx
      · exact hlog x hx
      · rw [List.mem_singleton.1 hx]
        exact ⟨hrest, htoken, rfl⟩
    · rw [List.map_append, hnoted, panics, panics, List.filter_append]
      simp [hpanics]
  | exhausted => exact ⟨log, rfl, .exhausted⟩

end Rules

mutual

theorem expression_regular (fuel : Nat) : Regular (expression fuel) := by
  cases fuel with
  | zero => exact regular_exhausted
  | succ fuel =>
    rw [expression]
    refine (chain_regular fuel .or).bind fun target => (regular_acceptIf _).bind fun equals? => ?_
    cases equals? with
    | none => exact regular_pure _
    | some equals =>
      refine (expression_regular fuel).bind fun value => ?_
      cases target.assigned? value with
      | some e => exact regular_pure _
      | none => exact (regular_noteAt rfl).bind fun _ => regular_pure _
termination_by fuel
decreasing_by all_goals omega

theorem chain_regular (fuel : Nat) (level : Level) : Regular (chain fuel level) := by
  cases fuel with
  | zero => exact regular_exhausted
  | succ fuel =>
    rw [chain]
    exact (operand_regular fuel level).bind fun left => chainRest_regular fuel level left
termination_by fuel
decreasing_by all_goals omega

theorem chainRest_regular (fuel : Nat) (level : Level) (left : Expr) :
    Regular (chainRest fuel level left) := by
  cases fuel with
  | zero => exact regular_exhausted
  | succ fuel =>
    rw [chainRest]
    refine (regular_acceptIf _).bind fun op? => ?_
    cases op? with
    | none => exact regular_pure _
    | some op => exact (operand_regular fuel level).bind fun right => chainRest_regular fuel level _
termination_by fuel
decreasing_by all_goals omega

theorem operand_regular (fuel : Nat) (level : Level) : Regular (operand fuel level) := by
  cases fuel with
  | zero => exact regular_exhausted
  | succ fuel =>
    rw [operand]
    cases level.next? with
    | some next => exact chain_regular fuel next
    | none => exact unary_regular fuel
termination_by fuel
decreasing_by all_goals omega

theorem unary_regular (fuel : Nat) : Regular (unary fuel) := by
  cases fuel with
  | zero => exact regular_exhausted
  | succ fuel =>
    rw [unary]
    refine (regular_acceptIf _).bind fun op? => ?_
    cases op? with
    | some op => exact (unary_regular fuel).bind fun e => regular_pure _
    | none => exact (primary_regular fuel).bind fun callee => callRest_regular fuel callee
termination_by fuel
decreasing_by all_goals omega

theorem callRest_regular (fuel : Nat) (callee : Expr) : Regular (callRest fuel callee) := by
  cases fuel with
  | zero => exact regular_exhausted
  | succ fuel =>
    rw [callRest]
    refine (regular_acceptIf _).bind fun t? => ?_
    cases t? with
    | none => exact regular_pure _
    | some t =>
      dsimp only
      split
      · exact (regular_require _).bind fun property => callRest_regular fuel _
      · exact (arguments_regular fuel).bind fun args =>
          (regular_require _).bind fun paren => callRest_regular fuel _
termination_by fuel
decreasing_by all_goals omega

theorem arguments_regular (fuel : Nat) : Regular (arguments fuel) := by
  cases fuel with
  | zero => exact regular_exhausted
  | succ fuel =>
    rw [arguments]
    refine regular_peek?.bind fun next => ?_
    split
    · exact regular_pure _
    · exact argumentList_regular fuel 0
termination_by fuel
decreasing_by all_goals omega

theorem argumentList_regular (fuel count : Nat) : Regular (argumentList fuel count) := by
  cases fuel with
  | zero => exact regular_exhausted
  | succ fuel =>
    rw [argumentList_succ]
    refine (regular_noteExcess count rfl).bind fun _ => ?_
    refine (expression_regular fuel).bind fun first => (regular_acceptIf _).bind fun comma? => ?_
    cases comma? with
    | none => exact regular_pure _
    | some comma => exact (argumentList_regular fuel (count + 1)).bind fun args => regular_pure _
termination_by fuel
decreasing_by all_goals omega

theorem primary_regular (fuel : Nat) : Regular (primary fuel) := by
  cases fuel with
  | zero => exact regular_exhausted
  | succ fuel =>
    rw [primary]
    refine regular_peek?.bind fun next => ?_
    cases next with
    | none => exact regular_fail rfl
    | some t =>
      dsimp only
      split
      case h_8 =>
        exact regular_skip.bind fun _ => (regular_require _).bind fun dot =>
          (regular_require _).bind fun method => regular_pure _
      case h_9 =>
        exact regular_skip.bind fun _ => (expression_regular fuel).bind fun inner =>
          (regular_require _).bind fun finish => regular_pure _
      case h_10 => exact regular_fail rfl
      all_goals exact regular_skip.bind fun _ => regular_pure _
termination_by fuel
decreasing_by all_goals omega

end

theorem optionalExpression_regular (fuel : Nat) (stop : Kind) :
    Regular (optionalExpression fuel stop) := by
  refine regular_peek?.bind fun next => ?_
  split
  · exact regular_pure _
  · exact (expression_regular fuel).bind fun e => regular_pure _

theorem parameterList_regular (fuel count : Nat) : Regular (parameterList fuel count) := by
  induction fuel generalizing count with
  | zero => exact regular_exhausted
  | succ fuel ih =>
    rw [parameterList_succ]
    refine (regular_noteExcess count rfl).bind fun _ => ?_
    refine (regular_require _).bind fun first => (regular_acceptIf _).bind fun comma? => ?_
    cases comma? with
    | none => exact regular_pure _
    | some comma => exact (ih (count + 1)).bind fun params => regular_pure _

theorem parameters_regular (fuel : Nat) : Regular (parameters fuel) := by
  refine regular_peek?.bind fun next => ?_
  split
  · exact regular_pure _
  · exact parameterList_regular fuel 0

theorem varDecl_regular (fuel : Nat) : Regular (varDecl fuel) := by
  refine (regular_require _).bind fun name => (regular_acceptIf _).bind fun equals? => ?_
  cases equals? with
  | none => exact (regular_require _).bind fun finish => regular_pure _
  | some equals =>
    exact (expression_regular fuel).bind fun e => (regular_require _).bind fun finish => regular_pure _

theorem expressionStatement_regular (fuel : Nat) : Regular (expressionStatement fuel) :=
  (expression_regular fuel).bind fun _ => (regular_require _).bind fun _ => regular_pure _

theorem forInitializer_regular (fuel : Nat) : Regular (forInitializer fuel) := by
  refine (regular_acceptIf _).bind fun t? => ?_
  cases t? with
  | none => exact (expressionStatement_regular fuel).bind fun s => regular_pure _
  | some t =>
    dsimp only
    split
    · exact (varDecl_regular fuel).bind fun s => regular_pure _
    · exact regular_pure _

theorem superclassClause_regular : Regular superclassClause := by
  refine (regular_acceptIf _).bind fun less? => ?_
  cases less? with
  | none => exact regular_pure _
  | some less => exact (regular_require _).bind fun parent => regular_pure _

mutual

theorem declaration_logs (fuel : Nat) : Logs (Logged.declaration fuel) (declaration fuel) := by
  cases fuel with
  | zero => exact logs_lift regular_exhausted
  | succ fuel =>
    rw [Logged.declaration, declaration]
    refine Logs.recover (logs_lift_bind (regular_acceptIf _) fun t? => ?_)
    cases t? with
    | none => exact statement_logs fuel
    | some t =>
      dsimp only
      cases t.kind
      case kwClass => exact classDecl_logs fuel
      case kwFun => exact (function_logs fuel .function).bind fun f => logs_pure _
      all_goals exact logs_lift (varDecl_regular fuel)
termination_by fuel
decreasing_by all_goals omega

theorem classDecl_logs (fuel : Nat) : Logs (Logged.classDecl fuel) (classDecl fuel) := by
  cases fuel with
  | zero => exact logs_lift regular_exhausted
  | succ fuel =>
    rw [Logged.classDecl, classDecl]
    refine logs_lift_bind (regular_require _) fun name => ?_
    refine logs_lift_bind superclassClause_regular fun superclass => ?_
    refine logs_lift_bind (regular_require _) fun start => ?_
    refine (methods_logs fuel).bind fun members => ?_
    exact logs_lift_bind (regular_require _) fun finish => logs_pure _
termination_by fuel
decreasing_by all_goals omega

theorem methods_logs (fuel : Nat) : Logs (Logged.methods fuel) (methods fuel) := by
  cases fuel with
  | zero => exact logs_lift regular_exhausted
  | succ fuel =>
    rw [Logged.methods, methods]
    refine logs_lift_bind regular_peek? fun next => ?_
    by_cases hend : next.all (·.kind = .rightBrace) = true
    · rw [if_pos hend, if_pos hend]
      exact logs_pure _
    · rw [if_neg hend, if_neg hend]
      exact (function_logs fuel .method).bind fun first =>
        (methods_logs fuel).bind fun members => logs_pure _
termination_by fuel
decreasing_by all_goals omega

theorem function_logs (fuel : Nat) (role : Role) :
    Logs (Logged.function fuel role) (function fuel role) := by
  cases fuel with
  | zero => exact logs_lift regular_exhausted
  | succ fuel =>
    rw [Logged.function, function]
    refine logs_lift_bind (regular_require _) fun name => ?_
    refine logs_lift_bind (regular_require _) fun start => ?_
    refine logs_lift_bind (parameters_regular fuel) fun params => ?_
    refine logs_lift_bind (regular_require _) fun finish => ?_
    refine logs_lift_bind (regular_require _) fun left => ?_
    exact (block_logs fuel).bind fun body => logs_pure _
termination_by fuel
decreasing_by all_goals omega

theorem block_logs (fuel : Nat) : Logs (Logged.block fuel) (block fuel) := by
  cases fuel with
  | zero => exact logs_lift regular_exhausted
  | succ fuel =>
    rw [Logged.block, block]
    refine (declarations_logs fuel).bind fun body => ?_
    exact logs_lift_bind (regular_require _) fun finish => logs_pure _
termination_by fuel
decreasing_by all_goals omega

theorem declarations_logs (fuel : Nat) : Logs (Logged.declarations fuel) (declarations fuel) := by
  cases fuel with
  | zero => exact logs_lift regular_exhausted
  | succ fuel =>
    rw [Logged.declarations, declarations]
    refine logs_lift_bind regular_peek? fun next => ?_
    by_cases hend : next.all (·.kind = .rightBrace) = true
    · rw [if_pos hend, if_pos hend]
      exact logs_pure _
    · rw [if_neg hend, if_neg hend]
      exact (declaration_logs fuel).bind fun first =>
        (declarations_logs fuel).bind fun body => logs_pure _
termination_by fuel
decreasing_by all_goals omega

theorem statement_logs (fuel : Nat) : Logs (Logged.statement fuel) (statement fuel) := by
  cases fuel with
  | zero => exact logs_lift regular_exhausted
  | succ fuel =>
    rw [Logged.statement, statement]
    refine logs_lift_bind regular_peek? fun next => ?_
    cases next with
    | none => exact logs_lift (expressionStatement_regular fuel)
    | some keyword =>
      dsimp only
      cases keyword.kind
      case kwIf =>
        refine logs_lift_bind regular_skip fun _ => logs_lift_bind (regular_require _) fun start => ?_
        refine logs_lift_bind (expression_regular fuel) fun condition => ?_
        refine logs_lift_bind (regular_require _) fun finish => ?_
        refine (statement_logs fuel).bind fun yes => ?_
        refine logs_lift_bind (regular_acceptIf _) fun els? => ?_
        cases els? with
        | none => exact logs_pure _
        | some els => exact (statement_logs fuel).bind fun no => logs_pure _
      case kwPrint =>
        refine logs_lift_bind regular_skip fun _ => ?_
        refine logs_lift_bind (expression_regular fuel) fun value => ?_
        exact logs_lift_bind (regular_require _) fun finish => logs_pure _
      case kwReturn =>
        refine logs_lift_bind regular_skip fun _ => ?_
        refine logs_lift_bind (optionalExpression_regular fuel _) fun value => ?_
        exact logs_lift_bind (regular_require _) fun finish => logs_pure _
      case kwWhile =>
        refine logs_lift_bind regular_skip fun _ => logs_lift_bind (regular_require _) fun start => ?_
        refine logs_lift_bind (expression_regular fuel) fun condition => ?_
        refine logs_lift_bind (regular_require _) fun finish => ?_
        exact (statement_logs fuel).bind fun body => logs_pure _
      case kwFor =>
        refine logs_lift_bind regular_skip fun _ => logs_lift_bind (regular_require _) fun start => ?_
        refine logs_lift_bind (forInitializer_regular fuel) fun initializer => ?_
        refine logs_lift_bind (optionalExpression_regular fuel _) fun condition => ?_
        refine logs_lift_bind (regular_require _) fun middle => ?_
        refine logs_lift_bind (optionalExpression_regular fuel _) fun increment => ?_
        refine logs_lift_bind (regular_require _) fun finish => ?_
        exact (statement_logs fuel).bind fun body => logs_pure _
      case leftBrace =>
        refine logs_lift_bind regular_skip fun _ => ?_
        exact (block_logs fuel).bind fun body => logs_pure _
      all_goals exact logs_lift (expressionStatement_regular fuel)
termination_by fuel
decreasing_by all_goals omega

end

theorem program_logs (fuel : Nat) : Logs (Logged.program fuel) (program fuel) := by
  induction fuel with
  | zero => exact logs_lift regular_exhausted
  | succ fuel ih =>
    rw [Logged.program, program]
    refine logs_lift_bind regular_peek? fun next => ?_
    by_cases hend : next.isNone = true
    · rw [if_pos hend, if_pos hend]
      exact logs_pure _
    · rw [if_neg hend, if_neg hend]
      exact (declaration_logs fuel).bind fun first => ih.bind fun statements => logs_pure _

def NeverFails (p : Procedure α) : Prop := ∀ ts error noted rest, p ts ≠ .fail error noted rest

theorem neverFails_exhausted : NeverFails (exhausted : Procedure α) := by
  intro ts error noted rest hrun
  rw [exhausted_run] at hrun
  contradiction

theorem neverFails_pure (value : α) : NeverFails (pure value) := by
  intro ts error noted rest hrun
  rw [pure_run] at hrun
  contradiction

theorem neverFails_peek? : NeverFails peek? := by
  intro ts error noted rest hrun
  rw [peek?_run] at hrun
  contradiction

theorem NeverFails.bind {p : Procedure α} {next : α → Procedure β} (h : NeverFails p)
    (hnext : ∀ value, NeverFails (next value)) : NeverFails (p >>= next) := by
  intro ts error noted rest hrun
  rw [bind_run] at hrun
  cases hp : p ts with
  | ok value first mid =>
    rw [hp, andThen_ok] at hrun
    cases hmid : next value mid with
    | fail error' noted' rest' => exact hnext value mid error' noted' rest' hmid
    | ok | exhausted =>
      rw [hmid] at hrun
      contradiction
  | fail error' noted' rest' => exact h ts error' noted' rest' hp
  | exhausted =>
    rw [hp] at hrun
    contradiction

theorem neverFails_recover (p : Procedure α) : NeverFails (recover p) := by
  intro ts error noted rest hrun
  rw [recover_run] at hrun
  generalize p ts = o at hrun
  cases o <;> contradiction

theorem program_neverFails (fuel : Nat) : NeverFails (program fuel) := by
  induction fuel with
  | zero => exact neverFails_exhausted
  | succ fuel ih =>
    have hdeclaration : NeverFails (declaration fuel) := by
      cases fuel with
      | zero => exact neverFails_exhausted
      | succ fuel =>
        rw [declaration]
        exact neverFails_recover _
    rw [program]
    refine neverFails_peek?.bind fun next => ?_
    split
    · exact neverFails_pure _
    · exact hdeclaration.bind fun first => ih.bind fun statements => neverFails_pure _

/-- Parsing goes on at a position behind a panic at another one: at the first boundary that leaves the
token of the panic behind. -/
structure Resumes (tokens : List Token) (panic position : Nat) : Prop where
  le : position ≤ tokens.length
  boundary : Boundary tokens panic position
  behind : panic < tokens.length → panic < position
  least : ∀ m, panic < m → Boundary tokens panic m → position ≤ m

/-- Unless the token of the panic starts a statement, that is the first boundary from it on. -/
theorem Resumes.least_of_not_start {tokens : List Token} {k r : Nat} (h : Resumes tokens k r)
    (hstart : ∀ t ∈ tokens[k]?, startsStatement t.kind = false) {m : Nat} (hm : k ≤ m)
    (hboundary : Boundary tokens k m) : r ≤ m := by
  rcases Nat.lt_or_eq_of_le hm with hm | rfl
  · exact h.least m hm hboundary
  · rcases hboundary with hboundary | ⟨hlt, -⟩
    · cases ht : tokens[k]? with
      | none => exact Nat.le_trans h.le (List.getElem?_eq_none_iff.1 ht)
      | some t =>
        have htrue := hboundary t ht
        rw [hstart t ht] at htrue
        contradiction
    · exact absurd hlt (Nat.lt_irrefl k)

theorem exists_resumes {tokens : List Token} {x : Recovery} (h : x.Within tokens) :
    ∃ k r, k ≤ tokens.length ∧ x.error.token? = tokens[k]? ∧ x.failed = tokens.drop k ∧
      x.resumed = tokens.drop r ∧ Resumes tokens k r := by
  obtain ⟨used, hused⟩ := h.failed
  have hk : used.length ≤ tokens.length := by simp [← hused]
  have hfailed : x.failed = tokens.drop used.length := by rw [← hused, List.drop_left]
  have htoken : x.error.token? = tokens[used.length]? := by
    rw [h.token, hfailed, List.head?_drop]
  cases hrest : tokens.drop used.length with
  | nil =>
    have hend : used.length = tokens.length := Nat.le_antisymm hk (List.drop_eq_nil_iff.1 hrest)
    refine ⟨used.length, used.length, hk, htoken, hfailed, ?_, hk, .inl ?_, ?_, ?_⟩
    · rw [h.resumed, hfailed, hrest]
      rfl
    · simp [hend]
    · exact fun hlt => absurd hend (Nat.ne_of_lt hlt)
    · exact fun m hm _ => Nat.le_of_lt hm
  | cons t rest =>
    obtain ⟨r, hpos, hle, hdrop, hboundary, hleast⟩ := synchronize_eq_drop t rest
    rw [← hrest] at hle hdrop hboundary hleast
    rw [List.length_drop] at hle
    refine ⟨used.length, used.length + r, hk, htoken, hfailed, ?_, by omega, ?_, ?_, ?_⟩
    · rw [h.resumed, hfailed, hdrop, List.drop_drop]
    · exact (boundary_drop tokens used.length r).1 hboundary
    · exact fun _ => Nat.lt_add_of_pos_right hpos
    · intro m hm hm'
      obtain ⟨d, rfl⟩ := Nat.exists_eq_add_of_lt hm
      have hd := hleast (d + 1) (Nat.succ_pos d) ((boundary_drop tokens used.length (d + 1)).2 hm')
      omega

end Parse

open Parse

/-- Every panic among the faults of a program is recovered from, in order. Parsing goes on at the first
boundary behind the token of the panic, or at the end of the tokens if the panic is there. -/
theorem parse_resumes_at_boundaries (tokens : List Token) :
    ∃ statements noted rest log,
      parse tokens = (if noted = [] then .ok statements else .error noted) ∧
      program (depthFor tokens) tokens = .ok statements noted rest ∧
      Logged.program (depthFor tokens) tokens = (.ok statements noted rest, log) ∧
      log.map (·.error) = noted.filter (·.fault.panics) ∧
      ∀ x ∈ log, ∃ k r, k ≤ tokens.length ∧ x.error.token? = tokens[k]? ∧ x.failed = tokens.drop k ∧
        x.resumed = tokens.drop r ∧ Resumes tokens k r ∧
        ((∀ t ∈ tokens[k]?, startsStatement t.kind = false) →
          ∀ m, k ≤ m → Boundary tokens k m → r ≤ m) := by
  obtain ⟨log, hlogged, haccounts⟩ := program_logs (depthFor tokens) tokens
  cases hrun : program (depthFor tokens) tokens with
  | ok statements noted rest =>
    rw [hrun] at hlogged haccounts
    cases haccounts with
    | ok hrest hlog hnoted =>
      refine ⟨statements, noted, rest, log, ?_, rfl, hlogged, hnoted, ?_⟩
      · unfold parse
        rw [hrun]
        cases noted <;> rfl
      · intro x hx
        obtain ⟨k, r, hk, htoken, hfailed, hresumed, hresumes⟩ := exists_resumes (hlog x hx)
        exact ⟨k, r, hk, htoken, hfailed, hresumed, hresumes,
          fun hstart m hm => hresumes.least_of_not_start hstart hm⟩
  | fail error noted rest => exact absurd hrun (program_neverFails _ _ _ _ _)
  | exhausted => exact absurd hrun (program_ne_exhausted tokens)

/-- A declaration that a missing semicolon precedes is lost with its keyword: its own panic is not among
the faults. -/
example :
    let tokens : List Token := [.sample .kwPrint, .sample .number, .sample .kwVar, .sample .equal,
      .sample .number, .sample .semicolon]
    parse tokens = .error [⟨some (.sample .kwVar), .expected .printEnd⟩] ∧
      (Logged.program (depthFor tokens) tokens).2.map (·.resumed) = [[]] ∧
      parse (tokens.drop 2) = .error [⟨some (.sample .equal), .expected .variableName⟩] := by
  exact ⟨rfl, rfl, rfl⟩

end Lox
