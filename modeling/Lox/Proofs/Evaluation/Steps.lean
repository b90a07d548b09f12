import Lox.Proofs.Evaluation.Basic
import Lox.Proofs.Scoping.Mention
import Lox.Session

/-!
An evaluator over its steps. Evaluators that keep more than a world walk through a program as `evaluate` and
`execute` do, and differ in a few steps: what happens at a node, how names are found, how frames are opened
and calls let in. They are one evaluator with steps of their own. What relates every step to what the plain
evaluator does in its place relates the whole evaluations.
-/
namespace Lox

/-- Steps of an evaluator that hands something down and ends in a monad of its own. -/
structure Steps (C : Type) (M : Type → Type) where
  /-- What happens around the evaluation of an expression or a statement. -/
  node {α : Type} : M α → M α
  env : C → M Environment
  readVariable : Access → C → Token → M Value
  readSuper : C → Token → Token → M Value
  assignVariable : C → Token → Value → M Unit
  readProperty : Value → Token → M Value
  /-- A method that the class has under a name, bound to a receiver. -/
  bindMethod : Class → Closure → Value → String → M Closure
  declareClass : C → Token → Option Class → List FunDecl → M Flow
  /-- Lets a call in, if there are not too many. -/
  invoke : C → Token → Callable → List Value → (C → M Value) → M Value
  /-- Runs code with a frame of its own inside an environment. -/
  scope : C → Opener → Bindings Value → Environment → (C → M Flow) → M Flow

namespace Steps

section Evaluator

variable {C : Type} {M : Type → Type} [Monad M] [MonadLift Evaluation M] (steps : Steps C M)

def define (c : C) (name : Token) (value : Value) : M Unit := do
  defineVariable (← steps.env c) name.lexeme value

def makeClosure (c : C) (f : FunDecl) : M Value := do
  makeFunction ⟨f, ← steps.env c, false⟩

mutual

def evaluate : Nat → C → Expr → M Value
  | 0, _, _ => liftM (Evaluation.exhausted : Evaluation Value)
  | fuel + 1, c, e => steps.node <|
    match e with
    | .literal value => return .ofLiteral value
    | .var name => steps.readVariable .variable c name
    | .this keyword => steps.readVariable .this c keyword
    | .super keyword method => steps.readSuper c keyword method
    | .group inner => evaluate fuel c inner
    | .assign name value => do
      let value ← evaluate fuel c value
      steps.assignVariable c name value
      return value
    | .unary op operand => do
      let operand ← evaluate fuel c operand
      Evaluation.lift op (unaryOperation op.kind operand)
    | .binary left op right => do
      let left ← evaluate fuel c left
      let right ← evaluate fuel c right
      Evaluation.lift op (binaryOperation op.kind left right)
    | .logical left op right => do
      let left ← evaluate fuel c left
      if settles op.kind left then return left
      else evaluate fuel c right
    | .get object property => do
      let object ← evaluate fuel c object
      steps.readProperty object property
    | .set object property value => do
      match ← evaluate fuel c object with
      | .object id _ =>
        let value ← evaluate fuel c value
        setField id property.lexeme value
        return value
      | _ => liftM (Evaluation.raise property .noFields : Evaluation Value)
    | .call callee paren args => do
      let callee ← evaluate fuel c callee
      let args ← evaluateAll fuel c args
      match callee with
      | .callable f =>
        if f.arity ≠ args.length then
          liftM (Evaluation.raise paren (.wrongArity f.arity args.length) : Evaluation Value)
        else steps.invoke c paren f args fun c => call fuel c f args
      | _ => liftM (Evaluation.raise paren .notCallable : Evaluation Value)

def evaluateAll : Nat → C → List Expr → M (List Value)
  | 0, _, _ => liftM (Evaluation.exhausted : Evaluation (List Value))
  | fuel + 1, c, es =>
    match es with
    | [] => return []
    | e :: rest => do
      let value ← evaluate fuel c e
      let values ← evaluateAll fuel c rest
      return value :: values

def call : Nat → C → Callable → List Value → M Value
  | 0, _, _, _ => liftM (Evaluation.exhausted : Evaluation Value)
  | fuel + 1, c, f, args =>
    match f with
    | .native .clock => liftM readClock
    | .function _ closure => runBody fuel c closure args
    | .cls cls => do
      let object ← makeObject cls
      match cls.findMethod? initializerName with
      | none => return object
      | some method =>
        let init ← steps.bindMethod cls method object initializerName
        let _ ← runBody fuel c init args
        return object

def runBody : Nat → C → Closure → List Value → M Value
  | 0, _, _, _ => liftM (Evaluation.exhausted : Evaluation Value)
  | fuel + 1, c, closure, args => do
    let params := closure.decl.params.map Token.lexeme
    let flow ← steps.scope c (.function closure.decl.name) (.ofList (params.zip args)) closure.env
      fun c => executeAll fuel c closure.decl.body
    if closure.isInitializer then liftM (receiver closure)
    else
      match flow with
      | .returned value => return value
      | .normal => return .nil

def execute : Nat → C → Stmt → M Flow
  | 0, _, _ => liftM (Evaluation.exhausted : Evaluation Flow)
  | fuel + 1, c, s => steps.node <|
    match s with
    | .expr e => do
      let _ ← evaluate fuel c e
      return .normal
    | .print keyword value => do
      let value ← evaluate fuel c value
      printLine keyword value.text
      return .normal
    | .varDecl name init => do
      match init with
      | none => steps.define c name .nil
      | some init =>
        let value ← evaluate fuel c init
        steps.define c name value
      return .normal
    | .block body => do
      let env ← steps.env c
      steps.scope c (.block body) .empty env fun c => executeAll fuel c body
    | .ifThen condition yes => do
      let condition ← evaluate fuel c condition
      if condition.isTruthy then execute fuel c yes else return .normal
    | .ifElse condition yes no => do
      let condition ← evaluate fuel c condition
      if condition.isTruthy then execute fuel c yes else execute fuel c no
    | .whileLoop condition body => do
      let holds ← evaluate fuel c condition
      if holds.isTruthy then
        match ← execute fuel c body with
        | .normal => execute fuel c (.whileLoop condition body)
        | .returned value => return .returned value
      else return .normal
    | .ret _ value => do
      match value with
      | none => return .returned .nil
      | some value => return .returned (← evaluate fuel c value)
    | .funDecl function => do
      let value ← steps.makeClosure c function
      steps.define c function.name value
      return .normal
    | .classDecl name superclass methods =>
      match superclass with
      | none => steps.declareClass c name none methods
      | some parent => do
        match ← steps.readVariable .variable c parent with
        | .callable (.cls cls) => steps.declareClass c name (some cls) methods
        | _ => liftM (Evaluation.raise parent .superclassMustBeClass : Evaluation Flow)

def executeAll : Nat → C → List Stmt → M Flow
  | 0, _, _ => liftM (Evaluation.exhausted : Evaluation Flow)
  | fuel + 1, c, ss =>
    match ss with
    | [] => return .normal
    | s :: rest => do
      match ← execute fuel c s with
      | .normal => executeAll fuel c rest
      | .returned value => return .returned value

end

def executeTop (fuel : Nat) (c : C) : List Stmt → M Unit
  | [] => return ()
  | s :: rest => do
    let _ ← steps.execute fuel c s
    executeTop fuel c rest

end Evaluator

end Steps

namespace Result

variable {α : Type}

def overflow? : Result α → Option Token
  | .error e _ => if e.fault = .stackOverflow then some e.token else none
  | .ok _ _ | .exhausted => none

end Result

/-- An evaluation that refuses no call. -/
def Quiet {α : Type} (m : Evaluation α) : Prop := ∀ w, (m w).overflow? = none

namespace Quiet

variable {α β : Type}

theorem pure (value : α) : Quiet (Pure.pure value : Evaluation α) := fun _ => rfl

theorem exhausted : Quiet (Evaluation.exhausted : Evaluation α) := fun _ => rfl

theorem raise (token : Token) {fault : RuntimeFault} (h : fault ≠ .stackOverflow) :
    Quiet (Evaluation.raise token fault : Evaluation α) := by
  intro w
  cases fault <;> first | rfl | contradiction

theorem bind {m : Evaluation α} {next : α → Evaluation β} (hm : Quiet m)
    (hnext : ∀ value, Quiet (next value)) : Quiet (m >>= next) := by
  intro w
  have hfirst := hm w
  rw [Evaluation.bind_run]
  cases hrun : m w with
  | ok value w' => exact hnext value w'
  | error e w' =>
    rw [hrun] at hfirst
    exact hfirst
  | exhausted => rfl

theorem lift (token : Token) {operation : Except RuntimeFault α}
    (h : operation ≠ .error .stackOverflow) : Quiet (Evaluation.lift token operation) := by
  cases operation with
  | ok value => exact pure value
  | error fault => exact raise token fun hfault => h (hfault ▸ rfl)

end Quiet

theorem Operated.ne_overflow {operation : Except RuntimeFault Value} (h : Operated operation) :
    operation ≠ .error .stackOverflow := by
  rintro rfl
  exact h

section Actions

theorem readVariable_quiet (ctx : Context) (name : Token) : Quiet (readVariable ctx name) := by
  intro w
  unfold readVariable
  cases ctx.find? w.frames name <;> rfl

theorem assignVariable_quiet (ctx : Context) (name : Token) (value : Value) :
    Quiet (assignVariable ctx name value) := by
  intro w
  unfold assignVariable
  cases ctx.assign? w.frames name value <;> rfl

theorem assignDeclared_quiet (env : Environment) (name : Token) (value : Value) :
    Quiet (assignDeclared env name value) := by
  intro w
  unfold assignDeclared
  cases w.frames.assign env name.lexeme value <;> rfl

theorem methodOf_quiet (c : Class) (property : Token) (receiver : Value) :
    Quiet (methodOf c property receiver) := by
  unfold methodOf
  cases c.findMethod? property.lexeme with
  | none => exact .raise property (by simp)
  | some method => exact fun _ => rfl

theorem readProperty_quiet (v : Value) (property : Token) : Quiet (readProperty v property) := by
  cases v with
  | object id c =>
    apply Quiet.bind fun _ => rfl
    intro field
    cases field with
    | none => exact methodOf_quiet c property _
    | some value => exact .pure value
  | nil | bool _ | num _ | str _ | callable _ => exact .raise property (by simp)

theorem readSuper_quiet (ctx : Context) (keyword method : Token) :
    Quiet (readSuper ctx keyword method) := by
  intro w
  unfold readSuper
  split
  · exact methodOf_quiet _ _ _ _
  · rfl

theorem printLine_quiet (keyword : Token) (text : String) : Quiet (printLine keyword text) := by
  intro w
  unfold printLine
  rcases w.console.print (text ++ "\n") with ⟨refusal, console⟩
  cases refusal <;> rfl

theorem declareClass_quiet (ctx : Context) (name : Token) (superclass : Option Class)
    (methods : List FunDecl) : Quiet (declareClass ctx name superclass methods) := by
  rw [declareClass_eq]
  apply Quiet.bind fun _ => rfl
  intro _
  apply Quiet.bind
  · cases superclass <;> exact fun _ => rfl
  · intro env
    apply Quiet.bind fun _ => rfl
    intro id
    exact (assignDeclared_quiet _ _ _).bind fun _ => .pure _

end Actions

/-- A relation to plain evaluations that all steps respect. What the steps refuse is left to `invoke`. -/
structure Steps.Respects {C : Type} {M : Type → Type} [Monad M] [MonadLift Evaluation M]
    (steps : Steps C M) (R : (α : Type) → (C → M α) → (Context → Evaluation α) → Prop) : Prop where
  action {α : Type} {m : Evaluation α} (h : Quiet m) : R α (fun _ => liftM m) fun _ => m
  pure {α : Type} (value : α) : R α (fun _ => Pure.pure value) fun _ => Pure.pure value
  bind {α β : Type} {m : C → M α} {m' : Context → Evaluation α} {next : α → C → M β}
    {next' : α → Context → Evaluation β} (hm : R α m m') (hnext : ∀ value, R β (next value) (next' value)) :
    R β (fun c => m c >>= fun value => next value c) fun ctx => m' ctx >>= fun value => next' value ctx
  node {α : Type} {m : C → M α} {m' : Context → Evaluation α} (hm : R α m m') :
    R α (fun c => steps.node (m c)) m'
  env : R Environment steps.env fun ctx => Pure.pure ctx.env
  readVariable (access : Access) (name : Token) :
    R Value (steps.readVariable access · name) (Lox.readVariable · name)
  readSuper (keyword method : Token) :
    R Value (steps.readSuper · keyword method) (Lox.readSuper · keyword method)
  assignVariable (name : Token) (value : Value) :
    R Unit (steps.assignVariable · name value) (Lox.assignVariable · name value)
  readProperty (v : Value) (property : Token) :
    R Value (fun _ => steps.readProperty v property) fun _ => Lox.readProperty v property
  bindMethod (cls : Class) (method : Closure) (object : Value) (name : String) :
    R Closure (fun _ => steps.bindMethod cls method object name) fun _ => Lox.bindMethod method object
  declareClass (name : Token) (superclass : Option Class) (methods : List FunDecl) :
    R Flow (steps.declareClass · name superclass methods) (Lox.declareClass · name superclass methods)
  invoke {m : C → M Value} {m' : Context → Evaluation Value} (hm : R Value m m') (paren : Token)
    {f : Callable} {args : List Value} (hfits : f.arity = args.length) :
    R Value (fun c => steps.invoke c paren f args m) fun ctx =>
      if maxCallDepth ≤ ctx.depth then Evaluation.raise paren .stackOverflow
      else m' { ctx with depth := ctx.depth + 1 }
  scope {m : C → M Flow} {m' : Context → Evaluation Flow} (hm : R Flow m m') (opener : Opener)
    (bindings : Bindings Value) (enclosing : Environment) :
    R Flow (fun c => steps.scope c opener bindings enclosing m) fun ctx =>
      makeFrame bindings enclosing >>= fun env => m' { ctx with env }

namespace Steps

section Respects

variable {C : Type} {M : Type → Type} [Monad M] [MonadLift Evaluation M] {steps : Steps C M}
  {R : (α : Type) → (C → M α) → (Context → Evaluation α) → Prop}

omit [Monad M] [MonadLift Evaluation M] in
theorem related_ite {α : Type} {m n : C → M α} {m' n' : Context → Evaluation α} {p : Prop} [Decidable p]
    (hm : R α m m') (hn : R α n n') :
    R α (fun c => if p then m c else n c) fun ctx => if p then m' ctx else n' ctx := by
  by_cases hp : p
  · simpa only [if_pos hp] using hm
  · simpa only [if_neg hp] using hn

theorem Respects.withEnv (h : steps.Respects R) {α : Type} {next : Environment → C → M α}
    {next' : Environment → Context → Evaluation α} (hnext : ∀ env, R α (next env) (next' env)) :
    R α (fun c => steps.env c >>= fun env => next env c) fun ctx => next' ctx.env ctx :=
  h.bind h.env hnext

theorem Respects.define (h : steps.Respects R) (name : Token) (value : Value) :
    R Unit (steps.define · name value) fun ctx => defineVariable ctx.env name.lexeme value :=
  h.withEnv fun env => h.action (m := defineVariable env name.lexeme value) fun _ => rfl

theorem Respects.makeClosure (h : steps.Respects R) (f : FunDecl) :
    R Value (steps.makeClosure · f) fun ctx => makeFunction ⟨f, ctx.env, false⟩ :=
  h.withEnv fun env => h.action (m := makeFunction ⟨f, env, false⟩) fun _ => rfl

/-- The evaluations of a depth are related as the steps are. -/
structure DepthRespects (steps : Steps C M)
    (R : (α : Type) → (C → M α) → (Context → Evaluation α) → Prop) (fuel : Nat) : Prop where
  evaluate (e : Expr) : R Value (steps.evaluate fuel · e) (Lox.evaluate fuel · e)
  evaluateAll (es : List Expr) : R (List Value) (steps.evaluateAll fuel · es) (Lox.evaluateAll fuel · es)
  call (f : Callable) (args : List Value) :
    R Value (steps.call fuel · f args) (Lox.call fuel · f args)
  runBody (closure : Closure) (args : List Value) :
    R Value (steps.runBody fuel · closure args) (Lox.runBody fuel · closure args)
  execute (s : Stmt) : R Flow (steps.execute fuel · s) (Lox.execute fuel · s)
  executeAll (ss : List Stmt) : R Flow (steps.executeAll fuel · ss) (Lox.executeAll fuel · ss)

section Step

variable (h : steps.Respects R) {fuel : Nat} (ih : DepthRespects steps R fuel)

include h ih

theorem evaluate_respects (e : Expr) :
    R Value (steps.evaluate (fuel + 1) · e) (Lox.evaluate (fuel + 1) · e) := by
  cases e with
  | literal value => exact h.node (h.pure _)
  | var name => exact h.node (h.readVariable _ name)
  | this keyword => exact h.node (h.readVariable _ keyword)
  | super keyword method => exact h.node (h.readSuper keyword method)
  | group inner => exact h.node (ih.evaluate inner)
  | assign name value =>
    refine h.node (h.bind (ih.evaluate value) fun value => ?_)
    exact h.bind (h.assignVariable name value) fun _ => h.pure value
  | unary op operand =>
    refine h.node (h.bind (ih.evaluate operand) fun operand => ?_)
    exact h.action (.lift op (unaryOperation_operated _ _).ne_overflow)
  | binary left op right =>
    refine h.node (h.bind (ih.evaluate left) fun left => h.bind (ih.evaluate right) fun right => ?_)
    exact h.action (.lift op (binaryOperation_operated _ _ _).ne_overflow)
  | logical left op right =>
    refine h.node (h.bind (ih.evaluate left) fun left => ?_)
    exact related_ite (h.pure left) (ih.evaluate right)
  | get object property =>
    exact h.node (h.bind (ih.evaluate object) fun object => h.readProperty object property)
  | set object property value =>
    refine h.node (h.bind (ih.evaluate object) fun object => ?_)
    cases object with
    | object id c =>
      refine h.bind (ih.evaluate value) fun value => ?_
      exact h.bind (h.action fun _ => rfl) fun _ => h.pure value
    | nil | bool _ | num _ | str _ | callable _ => exact h.action (.raise property (by simp))
  | call callee paren args =>
    refine h.node (h.bind (ih.evaluate callee) fun callee => h.bind (ih.evaluateAll args) fun args => ?_)
    cases callee with
    | callable f =>
      -- Only calls with as many arguments as the callable takes are let in or refused.
      by_cases hfits : f.arity = args.length
      · simp only [if_neg (not_not_intro hfits)]
        exact h.invoke (ih.call f args) paren hfits
      · simp only [if_pos hfits]
        exact h.action (.raise paren (by simp))
    | nil | bool _ | num _ | str _ | object _ _ => exact h.action (.raise paren (by simp))

theorem evaluateAll_respects (es : List Expr) :
    R (List Value) (steps.evaluateAll (fuel + 1) · es) (Lox.evaluateAll (fuel + 1) · es) := by
  cases es with
  | nil => exact h.pure []
  | cons e rest =>
    refine h.bind (ih.evaluate e) fun value => h.bind (ih.evaluateAll rest) fun values => ?_
    exact h.pure (value :: values)

theorem call_respects (f : Callable) (args : List Value) :
    R Value (steps.call (fuel + 1) · f args) (Lox.call (fuel + 1) · f args) := by
  cases f with
  | native f =>
    cases f
    exact h.action fun _ => rfl
  | function id closure => exact ih.runBody closure args
  | cls c =>
    simp only [Steps.call, Lox.call]
    refine h.bind (h.action fun _ => rfl) fun object => ?_
    cases c.findMethod? initializerName with
    | none => exact h.pure object
    | some method =>
      refine h.bind (h.bindMethod c method object initializerName) fun init => ?_
      exact h.bind (ih.runBody init args) fun _ => h.pure object

theorem runBody_respects (closure : Closure) (args : List Value) :
    R Value (steps.runBody (fuel + 1) · closure args) (Lox.runBody (fuel + 1) · closure args) := by
  -- The frame and the body are one step, which the plain evaluator does in two.
  simp only [Steps.runBody, Lox.runBody, ← Evaluation.bind_assoc]
  refine h.bind (h.scope (ih.executeAll closure.decl.body) _ _ closure.env) fun flow => ?_
  refine related_ite (h.action fun _ => rfl) ?_
  cases flow with
  | normal => exact h.pure Value.nil
  | returned value => exact h.pure value

theorem execute_respects (s : Stmt) :
    R Flow (steps.execute (fuel + 1) · s) (Lox.execute (fuel + 1) · s) := by
  cases s with
  | expr e => exact h.node (h.bind (ih.evaluate e) fun _ => h.pure Flow.normal)
  | print keyword value =>
    refine h.node (h.bind (ih.evaluate value) fun value => ?_)
    exact h.bind (h.action (printLine_quiet keyword value.text)) fun _ => h.pure Flow.normal
  | varDecl name init =>
    cases init with
    | none => exact h.node (h.bind (h.define name .nil) fun _ => h.pure Flow.normal)
    | some init =>
      refine h.node (h.bind (ih.evaluate init) fun value => ?_)
      exact h.bind (h.define name value) fun _ => h.pure Flow.normal
  | block body =>
    exact h.node (h.withEnv fun env => h.scope (ih.executeAll body) (.block body) .empty env)
  | ifThen condition yes =>
    refine h.node (h.bind (ih.evaluate condition) fun condition => ?_)
    exact related_ite (ih.execute yes) (h.pure Flow.normal)
  | ifElse condition yes no =>
    refine h.node (h.bind (ih.evaluate condition) fun condition => ?_)
    exact related_ite (ih.execute yes) (ih.execute no)
  | whileLoop condition body =>
    refine h.node (h.bind (ih.evaluate condition) fun holds => ?_)
    refine related_ite (h.bind (ih.execute body) fun flow => ?_) (h.pure Flow.normal)
    cases flow with
    | normal => exact ih.execute (.whileLoop condition body)
    | returned value => exact h.pure (Flow.returned value)
  | ret keyword value =>
    cases value with
    | none => exact h.node (h.pure (Flow.returned .nil))
    | some value => exact h.node (h.bind (ih.evaluate value) fun value => h.pure (Flow.returned value))
  | funDecl function =>
    refine h.node (h.bind (h.makeClosure function) fun value => ?_)
    exact h.bind (h.define function.name value) fun _ => h.pure Flow.normal
  | classDecl name superclass methods =>
    cases superclass with
    | none => exact h.node (h.declareClass name none methods)
    | some parent =>
      refine h.node (h.bind (h.readVariable _ parent) fun value => ?_)
      cases value with
      | callable f =>
        cases f with
        | cls c => exact h.declareClass name (some c) methods
        | native _ | function _ _ => exact h.action (.raise parent (by simp))
      | nil | bool _ | num _ | str _ | object _ _ => exact h.action (.raise parent (by simp))

theorem executeAll_respects (ss : List Stmt) :
    R Flow (steps.executeAll (fuel + 1) · ss) (Lox.executeAll (fuel + 1) · ss) := by
  cases ss with
  | nil => exact h.pure Flow.normal
  | cons s rest =>
    refine h.bind (ih.execute s) fun flow => ?_
    cases flow with
    | normal => exact ih.executeAll rest
    | returned value => exact h.pure (Flow.returned value)

end Step

theorem depthRespects (h : steps.Respects R) (fuel : Nat) : DepthRespects steps R fuel := by
  induction fuel with
  | zero => constructor <;> intros <;> exact h.action .exhausted
  | succ fuel ih =>
    constructor
    case evaluate => exact evaluate_respects h ih
    case evaluateAll => exact evaluateAll_respects h ih
    case call => exact call_respects h ih
    case runBody => exact runBody_respects h ih
    case execute => exact execute_respects h ih
    case executeAll => exact executeAll_respects h ih

theorem executeTop_respects (h : steps.Respects R) (fuel : Nat) (program : List Stmt) :
    R Unit (steps.executeTop fuel · program) (Session.executeTop fuel · program) := by
  induction program with
  | nil => exact h.pure ()
  | cons s rest ih => exact h.bind ((depthRespects h fuel).execute s) fun _ => ih

end Respects

end Steps

end Lox
