import Lox.Proofs.Evaluation.Basic

/-!
What an evaluation comes across. The evaluator asks itself for values, calls and statements; every such
request is a job, and a job starts others, each in the world that the ones before it have left. What the
jobs before it gave is what the evaluator gives: nothing is evaluated a second way. An undefined variable
is met by a job that the run comes across.
-/
namespace Lox

inductive Job where
  | evaluate (ctx : Context) (e : Expr)
  | evaluateAll (ctx : Context) (es : List Expr)
  | call (ctx : Context) (f : Callable) (args : List Value)
  | runBody (ctx : Context) (closure : Closure) (args : List Value)
  | execute (ctx : Context) (s : Stmt)
  | executeAll (ctx : Context) (ss : List Stmt)

def Expr.first? : Expr → Option Expr
  | .group e | .assign _ e | .unary _ e | .binary e _ _ | .logical e _ _ | .get e _ | .set e _ _
  | .call e _ _ => some e
  | .literal _ | .var _ | .this _ | .super _ _ => none

def Stmt.first? : Stmt → Option Expr
  | .expr e | .print _ e | .ifThen e _ | .ifElse e _ _ | .whileLoop e _ => some e
  | .varDecl _ e? | .ret _ e? => e?
  | .block _ | .funDecl _ | .classDecl _ _ _ => none

/-- A job of depth `fuel + 1` starts another one, of depth `fuel`, in a world of its own. -/
inductive Starts (fuel : Nat) : Job → World → Job → World → Prop
  | first {ctx e part w} (h : Expr.first? e = some part) :
      Starts fuel (.evaluate ctx e) w (.evaluate ctx part) w
  | rightOperand {ctx left op right w v w'} (h : evaluate fuel ctx left w = .ok v w') :
      Starts fuel (.evaluate ctx (.binary left op right)) w (.evaluate ctx right) w'
  | rightCondition {ctx left op right w v w'} (h : evaluate fuel ctx left w = .ok v w')
      (hopen : settles op.kind v = false) :
      Starts fuel (.evaluate ctx (.logical left op right)) w (.evaluate ctx right) w'
  | fieldValue {ctx object property value w id c w'}
      (h : evaluate fuel ctx object w = .ok (.object id c) w') :
      Starts fuel (.evaluate ctx (.set object property value)) w (.evaluate ctx value) w'
  | arguments {ctx callee paren args w v w'} (h : evaluate fuel ctx callee w = .ok v w') :
      Starts fuel (.evaluate ctx (.call callee paren args)) w (.evaluateAll ctx args) w'
  | call {ctx callee paren args w f w₁ values w₂}
      (hcallee : evaluate fuel ctx callee w = .ok (.callable f) w₁)
      (hargs : evaluateAll fuel ctx args w₁ = .ok values w₂)
      (harity : f.arity = values.length) (hdepth : ctx.depth < maxCallDepth) :
      Starts fuel (.evaluate ctx (.call callee paren args)) w
        (.call { ctx with depth := ctx.depth + 1 } f values) w₂
  | argument {ctx e rest w} :
      Starts fuel (.evaluateAll ctx (e :: rest)) w (.evaluate ctx e) w
  | restArguments {ctx e rest w v w'} (h : evaluate fuel ctx e w = .ok v w') :
      Starts fuel (.evaluateAll ctx (e :: rest)) w (.evaluateAll ctx rest) w'
  | function {ctx id closure args w} :
      Starts fuel (.call ctx (.function id closure) args) w (.runBody ctx closure args) w
  | initializer {ctx c args w object w₁ method init w₂} (hobject : makeObject c w = .ok object w₁)
      (hmethod : c.findMethod? initializerName = some method)
      (hinit : bindMethod method object w₁ = .ok init w₂) :
      Starts fuel (.call ctx (.cls c) args) w (.runBody ctx init args) w₂
  | body {ctx closure args w env w'}
      (henv : makeFrame (.ofList ((closure.decl.params.map Token.lexeme).zip args)) closure.env w =
        .ok env w') :
      Starts fuel (.runBody ctx closure args) w (.executeAll { ctx with env } closure.decl.body) w'
  | expression {ctx s e w} (h : Stmt.first? s = some e) :
      Starts fuel (.execute ctx s) w (.evaluate ctx e) w
  | block {ctx body w env w'} (henv : makeFrame .empty ctx.env w = .ok env w') :
      Starts fuel (.execute ctx (.block body)) w (.executeAll { ctx with env } body) w'
  | onlyBranch {ctx condition yes w v w'} (h : evaluate fuel ctx condition w = .ok v w')
      (hv : v.isTruthy = true) :
      Starts fuel (.execute ctx (.ifThen condition yes)) w (.execute ctx yes) w'
  | thenBranch {ctx condition yes no w v w'} (h : evaluate fuel ctx condition w = .ok v w')
      (hv : v.isTruthy = true) :
      Starts fuel (.execute ctx (.ifElse condition yes no)) w (.execute ctx yes) w'
  | elseBranch {ctx condition yes no w v w'} (h : evaluate fuel ctx condition w = .ok v w')
      (hv : v.isTruthy = false) :
      Starts fuel (.execute ctx (.ifElse condition yes no)) w (.execute ctx no) w'
  | turn {ctx condition body w v w'} (h : evaluate fuel ctx condition w = .ok v w')
      (hv : v.isTruthy = true) :
      Starts fuel (.execute ctx (.whileLoop condition body)) w (.execute ctx body) w'
  | nextTurn {ctx condition body w v w₁ w₂} (h : evaluate fuel ctx condition w = .ok v w₁)
      (hv : v.isTruthy = true) (hbody : execute fuel ctx body w₁ = .ok .normal w₂) :
      Starts fuel (.execute ctx (.whileLoop condition body)) w
        (.execute ctx (.whileLoop condition body)) w₂
  | statement {ctx s rest w} :
      Starts fuel (.executeAll ctx (s :: rest)) w (.execute ctx s) w
  | restStatements {ctx s rest w w'} (h : execute fuel ctx s w = .ok .normal w') :
      Starts fuel (.executeAll ctx (s :: rest)) w (.executeAll ctx rest) w'

/-- The jobs that a job comes across, itself among them. -/
inductive Reaches : Nat → Job → World → Nat → Job → World → Prop
  | refl {fuel job w} : Reaches fuel job w fuel job w
  | next {fuel job w job₁ w₁ fuel' job' w'} (h : Starts fuel job w job₁ w₁)
      (hrest : Reaches fuel job₁ w₁ fuel' job' w') : Reaches (fuel + 1) job w fuel' job' w'

def RuntimeError.undefined? (e : RuntimeError) : Option Token :=
  match e.fault with
  | .undefinedVariable _ => some e.token
  | _ => none

def Result.undefined? {α : Type} : Result α → Option Token
  | .error e _ => e.undefined?
  | .ok _ _ | .exhausted => none

def Job.undefined? (fuel : Nat) (w : World) : Job → Option Token
  | .evaluate ctx e => (Lox.evaluate fuel ctx e w).undefined?
  | .evaluateAll ctx es => (Lox.evaluateAll fuel ctx es w).undefined?
  | .call ctx f args => (Lox.call fuel ctx f args w).undefined?
  | .runBody ctx closure args => (Lox.runBody fuel ctx closure args w).undefined?
  | .execute ctx s => (Lox.execute fuel ctx s w).undefined?
  | .executeAll ctx ss => (Lox.executeAll fuel ctx ss w).undefined?

/-- A job meets an undefined variable in what it does itself. -/
inductive Misses (fuel : Nat) : Job → World → Token → Prop
  | var {ctx name w} (h : ctx.find? w.frames name = none) :
      Misses fuel (.evaluate ctx (.var name)) w name
  | this {ctx keyword w} (h : ctx.find? w.frames keyword = none) :
      Misses fuel (.evaluate ctx (.this keyword)) w keyword
  | super {ctx keyword method w t} (h : (readSuper ctx keyword method w).undefined? = some t) :
      Misses fuel (.evaluate ctx (.super keyword method)) w t
  | assign {ctx name value w v w'} (hvalue : evaluate fuel ctx value w = .ok v w')
      (h : ctx.assign? w'.frames name v = none) :
      Misses fuel (.evaluate ctx (.assign name value)) w name
  | superclass {ctx name parent methods w} (h : ctx.find? w.frames parent = none) :
      Misses fuel (.execute ctx (.classDecl name (some parent) methods)) w parent
  | baseClass {ctx name methods w t}
      (h : (declareClass ctx name none methods w).undefined? = some t) :
      Misses fuel (.execute ctx (.classDecl name none methods)) w t
  | derivedClass {ctx name parent methods w c t}
      (hparent : readVariable ctx parent w = .ok (.callable (.cls c)) w)
      (h : (declareClass ctx name (some c) methods w).undefined? = some t) :
      Misses fuel (.execute ctx (.classDecl name (some parent) methods)) w t

section Undefined

variable {α β : Type} {w : World} {t : Token}

theorem Result.undefined?_andThen {result : Result α} {next : α → Evaluation β}
    (h : (result.andThen next).undefined? = some t) :
    result.undefined? = some t ∨
      ∃ value w', result = .ok value w' ∧ (next value w').undefined? = some t := by
  cases result with
  | ok value w' => exact .inr ⟨value, w', rfl, h⟩
  | error e w' => exact .inl h
  | exhausted => contradiction

theorem Result.undefined?_andThen_left {result : Result α} {next : α → Evaluation β}
    (h : result.undefined? = some t) : (result.andThen next).undefined? = some t := by
  cases result with
  | ok value w' => contradiction
  | error e w' => exact h
  | exhausted => contradiction

theorem readVariable_undefined {ctx : Context} {name : Token}
    (h : (readVariable ctx name w).undefined? = some t) :
    t = name ∧ ctx.find? w.frames name = none := by
  unfold readVariable at h
  split at h
  · contradiction
  · cases h
    exact ⟨rfl, ‹_›⟩

theorem readVariable_world {ctx : Context} {name : Token} {value : Value} {w' : World}
    (h : readVariable ctx name w = .ok value w') : w = w' := by
  unfold readVariable at h
  split at h
  · cases h
    rfl
  · contradiction

theorem assignVariable_undefined {ctx : Context} {name : Token} {value : Value}
    (h : (assignVariable ctx name value w).undefined? = some t) :
    t = name ∧ ctx.assign? w.frames name value = none := by
  unfold assignVariable at h
  split at h
  · contradiction
  · cases h
    exact ⟨rfl, ‹_›⟩

theorem Operated.defined {operation : Except RuntimeFault Value} (h : Operated operation)
    (op : Token) : (Evaluation.lift op operation w).undefined? = none := by
  cases operation with
  | ok value => rfl
  | error fault => cases fault <;> first | rfl | contradiction

theorem methodOf_defined (c : Class) (property : Token) (receiver : Value) :
    (methodOf c property receiver w).undefined? = none := by
  unfold methodOf
  cases c.findMethod? property.lexeme with
  | none => rfl
  | some method => rfl

theorem readProperty_defined (v : Value) (property : Token) :
    (readProperty v property w).undefined? = none := by
  cases v with
  | object id c =>
    simp only [readProperty, Evaluation.bind_run, readField?, Result.andThen]
    cases w.objects[id]?.bind (·.get? property.lexeme) with
    | none => exact methodOf_defined c property _
    | some value => rfl
  | nil | bool _ | num _ | str _ | callable _ => rfl

theorem printLine_defined (keyword : Token) (text : String) :
    (printLine keyword text w).undefined? = none := by
  unfold printLine
  dsimp only
  split <;> rfl

/-- An undefined variable is met by the job itself or by one that it starts. -/
def Blames (fuel : Nat) (job : Job) (w : World) (t : Token) : Prop :=
  Misses fuel job w t ∨ ∃ job' w', Starts fuel job w job' w' ∧ job'.undefined? fuel w' = some t

theorem evaluate_blames {fuel : Nat} {ctx : Context} {e : Expr}
    (h : (Job.evaluate ctx e).undefined? (fuel + 1) w = some t) :
    Blames fuel (.evaluate ctx e) w t := by
  cases e with
  | literal value => contradiction
  | var name =>
    obtain ⟨rfl, hnone⟩ := readVariable_undefined h
    exact .inl (.var hnone)
  | this keyword =>
    obtain ⟨rfl, hnone⟩ := readVariable_undefined h
    exact .inl (.this hnone)
  | super keyword method => exact .inl (.super h)
  | group inner => exact .inr ⟨_, _, .first rfl, h⟩
  | assign name value =>
    simp only [Job.undefined?, evaluate, Evaluation.bind_run] at h
    rcases Result.undefined?_andThen h with h | ⟨v, w', hvalue, h⟩
    · exact .inr ⟨_, _, .first rfl, h⟩
    · rcases Result.undefined?_andThen h with h | ⟨_, _, _, h⟩
      · obtain ⟨rfl, hnone⟩ := assignVariable_undefined h
        exact .inl (.assign hvalue hnone)
      · contradiction
  | unary op operand =>
    simp only [Job.undefined?, evaluate, Evaluation.bind_run] at h
    rcases Result.undefined?_andThen h with h | ⟨v, w', hoperand, h⟩
    · exact .inr ⟨_, _, .first rfl, h⟩
    · rw [(unaryOperation_operated op.kind v).defined] at h
      contradiction
  | binary left op right =>
    simp only [Job.undefined?, evaluate, Evaluation.bind_run] at h
    rcases Result.undefined?_andThen h with h | ⟨v, w', hleft, h⟩
    · exact .inr ⟨_, _, .first rfl, h⟩
    · rcases Result.undefined?_andThen h with h | ⟨v', w'', hright, h⟩
      · exact .inr ⟨_, _, .rightOperand hleft, h⟩
      · rw [(binaryOperation_operated op.kind v v').defined] at h
        contradiction
  | logical left op right =>
    simp only [Job.undefined?, evaluate, Evaluation.bind_run] at h
    rcases Result.undefined?_andThen h with h | ⟨v, w', hleft, h⟩
    · exact .inr ⟨_, _, .first rfl, h⟩
    · cases hopen : settles op.kind v with
      | true =>
        rw [if_pos hopen] at h
        contradiction
      | false =>
        rw [if_neg (by simp [hopen])] at h
        exact .inr ⟨_, _, .rightCondition hleft hopen, h⟩
  | get object property =>
    simp only [Job.undefined?, evaluate, Evaluation.bind_run] at h
    rcases Result.undefined?_andThen h with h | ⟨v, w', hobject, h⟩
    · exact .inr ⟨_, _, .first rfl, h⟩
    · rw [readProperty_defined] at h
      contradiction
  | set object property value =>
    simp only [Job.undefined?, evaluate, Evaluation.bind_run] at h
    rcases Result.undefined?_andThen h with h | ⟨v, w', hobject, h⟩
    · exact .inr ⟨_, _, .first rfl, h⟩
    · cases v with
      | object id c =>
        rcases Result.undefined?_andThen h with h | ⟨_, _, _, h⟩
        · exact .inr ⟨_, _, .fieldValue hobject, h⟩
        · contradiction
      | nil | bool _ | num _ | str _ | callable _ => contradiction
  | call callee paren args =>
    simp only [Job.undefined?, evaluate, Evaluation.bind_run] at h
    rcases Result.undefined?_andThen h with h | ⟨v, w₁, hcallee, h⟩
    · exact .inr ⟨_, _, .first rfl, h⟩
    rcases Result.undefined?_andThen h with h | ⟨values, w₂, hargs, h⟩
    · exact .inr ⟨_, _, .arguments hcallee, h⟩
    cases v with
    | callable f =>
      dsimp only at h
      split at h
      · contradiction
      · split at h
        · contradiction
        · rename_i harity hdepth
          have harity' := Decidable.of_not_not harity
          exact .inr ⟨_, _, .call hcallee hargs harity' (Nat.lt_of_not_le hdepth), h⟩
    | nil | bool _ | num _ | str _ | object _ _ => contradiction

theorem execute_blames {fuel : Nat} {ctx : Context} {s : Stmt}
    (h : (Job.execute ctx s).undefined? (fuel + 1) w = some t) :
    Blames fuel (.execute ctx s) w t := by
  cases s with
  | expr e =>
    simp only [Job.undefined?, execute, Evaluation.bind_run] at h
    rcases Result.undefined?_andThen h with h | ⟨_, _, _, h⟩
    · exact .inr ⟨_, _, .expression rfl, h⟩
    · contradiction
  | print keyword value =>
    simp only [Job.undefined?, execute, Evaluation.bind_run] at h
    rcases Result.undefined?_andThen h with h | ⟨v, w', hvalue, h⟩
    · exact .inr ⟨_, _, .expression rfl, h⟩
    · rcases Result.undefined?_andThen h with h | ⟨_, _, _, h⟩
      · rw [printLine_defined] at h
        contradiction
      · contradiction
  | varDecl name init =>
    cases init with
    | none => contradiction
    | some init =>
      simp only [Job.undefined?, execute, Evaluation.bind_run] at h
      rcases Result.undefined?_andThen h with h | ⟨_, _, _, h⟩
      · exact .inr ⟨_, _, .expression rfl, h⟩
      · contradiction
  | block body =>
    simp only [Job.undefined?, execute, Evaluation.bind_run] at h
    rcases Result.undefined?_andThen h with h | ⟨env, w', henv, h⟩
    · contradiction
    · exact .inr ⟨_, _, .block henv, h⟩
  | ifThen condition yes =>
    simp only [Job.undefined?, execute, Evaluation.bind_run] at h
    rcases Result.undefined?_andThen h with h | ⟨v, w', hcondition, h⟩
    · exact .inr ⟨_, _, .expression rfl, h⟩
    split at h
    · rename_i hv
      exact .inr ⟨_, _, .onlyBranch hcondition hv, h⟩
    · contradiction
  | ifElse condition yes no =>
    simp only [Job.undefined?, execute, Evaluation.bind_run] at h
    rcases Result.undefined?_andThen h with h | ⟨v, w', hcondition, h⟩
    · exact .inr ⟨_, _, .expression rfl, h⟩
    split at h
    · rename_i hv
      exact .inr ⟨_, _, .thenBranch hcondition hv, h⟩
    · rename_i hv
      exact .inr ⟨_, _, .elseBranch hcondition (eq_false_of_ne_true hv), h⟩
  | whileLoop condition body =>
    simp only [Job.undefined?, execute, Evaluation.bind_run] at h
    rcases Result.undefined?_andThen h with h | ⟨v, w₁, hcondition, h⟩
    · exact .inr ⟨_, _, .expression rfl, h⟩
    split at h
    · rename_i hv
      rcases Result.undefined?_andThen h with h | ⟨flow, w₂, hbody, h⟩
      · exact .inr ⟨_, _, .turn hcondition hv, h⟩
      · cases flow with
        | normal => exact .inr ⟨_, _, .nextTurn hcondition hv hbody, h⟩
        | returned value => contradiction
    · contradiction
  | ret keyword value =>
    cases value with
    | none => contradiction
    | some value =>
      simp only [Job.undefined?, execute, Evaluation.bind_run] at h
      rcases Result.undefined?_andThen h with h | ⟨_, _, _, h⟩
      · exact .inr ⟨_, _, .expression rfl, h⟩
      · contradiction
  | funDecl function => contradiction
  | classDecl name parent methods =>
    cases parent with
    | none =>
      exact .inl (.baseClass h)
    | some parent =>
      simp only [Job.undefined?, execute, Evaluation.bind_run] at h
      rcases Result.undefined?_andThen h with h | ⟨v, w', hparent, h⟩
      · obtain ⟨rfl, hnone⟩ := readVariable_undefined h
        exact .inl (.superclass hnone)
      · obtain rfl := readVariable_world hparent
        cases v with
        | callable f =>
          cases f with
          | cls c => exact .inl (.derivedClass hparent h)
          | native _ | function _ _ => contradiction
        | nil | bool _ | num _ | str _ | object _ _ => contradiction

theorem blames_of_undefined {fuel : Nat} {job : Job} (h : job.undefined? (fuel + 1) w = some t) :
    Blames fuel job w t := by
  cases job with
  | evaluate ctx e => exact evaluate_blames h
  | evaluateAll ctx es =>
    cases es with
    | nil => contradiction
    | cons e rest =>
      simp only [Job.undefined?, evaluateAll, Evaluation.bind_run] at h
      rcases Result.undefined?_andThen h with h | ⟨v, w', hfirst, h⟩
      · exact .inr ⟨_, _, .argument, h⟩
      · rcases Result.undefined?_andThen h with h | ⟨_, _, _, h⟩
        · exact .inr ⟨_, _, .restArguments hfirst, h⟩
        · contradiction
  | call ctx f args =>
    cases f with
    | native f =>
      cases f
      contradiction
    | function id closure => exact .inr ⟨_, _, .function, h⟩
    | cls c =>
      simp only [Job.undefined?, call, Evaluation.bind_run] at h
      rcases Result.undefined?_andThen h with h | ⟨object, w₁, hobject, h⟩
      · contradiction
      cases hmethod : c.findMethod? initializerName with
      | none =>
        rw [hmethod] at h
        contradiction
      | some method =>
        rw [hmethod] at h
        simp only [Evaluation.bind_run] at h
        rcases Result.undefined?_andThen h with h | ⟨init, w₂, hinit, h⟩
        · contradiction
        · rcases Result.undefined?_andThen h with h | ⟨_, _, _, h⟩
          · exact .inr ⟨_, _, .initializer hobject hmethod hinit, h⟩
          · contradiction
  | runBody ctx closure args =>
    simp only [Job.undefined?, runBody, Evaluation.bind_run] at h
    rcases Result.undefined?_andThen h with h | ⟨env, w', henv, h⟩
    · contradiction
    rcases Result.undefined?_andThen h with h | ⟨flow, _, _, h⟩
    · exact .inr ⟨_, _, .body henv, h⟩
    · split at h
      · contradiction
      · cases flow <;> contradiction
  | execute ctx s => exact execute_blames h
  | executeAll ctx ss =>
    cases ss with
    | nil => contradiction
    | cons s rest =>
      simp only [Job.undefined?, executeAll, Evaluation.bind_run] at h
      rcases Result.undefined?_andThen h with h | ⟨flow, w', hfirst, h⟩
      · exact .inr ⟨_, _, .statement, h⟩
      · cases flow with
        | normal => exact .inr ⟨_, _, .restStatements hfirst, h⟩
        | returned value => contradiction

theorem Expr.undefined_first {fuel : Nat} {ctx : Context} {e part : Expr}
    (hfirst : e.first? = some part) (h : (evaluate fuel ctx part w).undefined? = some t) :
    (evaluate (fuel + 1) ctx e w).undefined? = some t := by
  cases e <;> cases hfirst <;> simp only [evaluate, Evaluation.bind_run] <;>
    first | exact h | exact Result.undefined?_andThen_left h

theorem Stmt.undefined_first {fuel : Nat} {ctx : Context} {s : Stmt} {e : Expr}
    (hfirst : s.first? = some e) (h : (evaluate fuel ctx e w).undefined? = some t) :
    (execute (fuel + 1) ctx s w).undefined? = some t := by
  cases s <;> cases hfirst <;> simp only [execute, Evaluation.bind_run] <;>
    exact Result.undefined?_andThen_left h

theorem Starts.undefined {fuel : Nat} {job job' : Job} {w' : World} (h : Starts fuel job w job' w')
    (ht : job'.undefined? fuel w' = some t) : job.undefined? (fuel + 1) w = some t := by
  cases h with
  | first hfirst => exact Expr.undefined_first hfirst ht
  | rightOperand hleft =>
    simp only [Job.undefined?, evaluate, Evaluation.bind_run, hleft, Result.andThen]
    exact Result.undefined?_andThen_left ht
  | rightCondition hleft hopen =>
    simp only [Job.undefined?, evaluate, Evaluation.bind_run, hleft, Result.andThen, hopen]
    exact ht
  | fieldValue hobject =>
    simp only [Job.undefined?, evaluate, Evaluation.bind_run, hobject, Result.andThen]
    exact Result.undefined?_andThen_left ht
  | arguments hcallee =>
    simp only [Job.undefined?, evaluate, Evaluation.bind_run, hcallee, Result.andThen]
    exact Result.undefined?_andThen_left ht
  | call hcallee hargs harity hdepth =>
    simp only [Job.undefined?, evaluate, Evaluation.bind_run, hcallee, hargs, Result.andThen]
    rw [if_neg (not_not_intro harity), if_neg (Nat.not_le_of_lt hdepth)]
    exact ht
  | argument => exact Result.undefined?_andThen_left ht
  | restArguments hfirst =>
    simp only [Job.undefined?, evaluateAll, Evaluation.bind_run, hfirst, Result.andThen]
    exact Result.undefined?_andThen_left ht
  | function => exact ht
  | initializer hobject hmethod hinit =>
    simp only [Job.undefined?, Lox.call, Evaluation.bind_run, hobject, hmethod, Result.andThen]
    simp only [hinit]
    exact Result.undefined?_andThen_left ht
  | body henv =>
    simp only [Job.undefined?, runBody, Evaluation.bind_run, henv, Result.andThen]
    exact Result.undefined?_andThen_left ht
  | expression hfirst => exact Stmt.undefined_first hfirst ht
  | block henv =>
    simp only [Job.undefined?, execute, Evaluation.bind_run, henv, Result.andThen]
    exact ht
  | onlyBranch hcondition hv | thenBranch hcondition hv =>
    simp only [Job.undefined?, execute, Evaluation.bind_run, hcondition, Result.andThen]
    rw [if_pos hv]
    exact ht
  | elseBranch hcondition hv =>
    simp only [Job.undefined?, execute, Evaluation.bind_run, hcondition, Result.andThen]
    rw [if_neg (ne_true_of_eq_false hv)]
    exact ht
  | turn hcondition hv =>
    simp only [Job.undefined?, execute, Evaluation.bind_run, hcondition, Result.andThen]
    rw [if_pos hv]
    exact Result.undefined?_andThen_left ht
  | nextTurn hcondition hv hbody =>
    simp only [Job.undefined?, execute, Evaluation.bind_run, hcondition, Result.andThen]
    rw [if_pos hv]
    simp only [Evaluation.bind_run, hbody, Result.andThen]
    exact ht
  | statement => exact Result.undefined?_andThen_left ht
  | restStatements hfirst =>
    simp only [Job.undefined?, executeAll, Evaluation.bind_run, hfirst, Result.andThen]
    exact ht

theorem Misses.undefined {fuel : Nat} {job : Job} (h : Misses fuel job w t) :
    job.undefined? (fuel + 1) w = some t := by
  cases h with
  | var hnone | this hnone =>
    simp only [Job.undefined?, evaluate, readVariable, hnone]
    rfl
  | super h => exact h
  | assign hvalue hnone =>
    simp only [Job.undefined?, evaluate, Evaluation.bind_run, hvalue, Result.andThen, assignVariable,
      hnone]
    rfl
  | superclass hnone =>
    simp only [Job.undefined?, execute, Evaluation.bind_run, readVariable, hnone]
    rfl
  | baseClass h => exact h
  | derivedClass hparent h =>
    simp only [Job.undefined?, execute, Evaluation.bind_run, hparent, Result.andThen]
    exact h

/-- An evaluation meets an undefined variable where it comes across a job that misses it. -/
theorem undefined_iff_reaches {fuel : Nat} {job : Job} :
    job.undefined? fuel w = some t ↔
      ∃ fuel' job' w', Reaches fuel job w (fuel' + 1) job' w' ∧ Misses fuel' job' w' t := by
  constructor
  · intro h
    induction fuel generalizing job w with
    | zero => cases job <;> contradiction
    | succ fuel ih =>
      rcases blames_of_undefined h with hmisses | ⟨job₁, w₁, hstarts, h₁⟩
      · exact ⟨fuel, job, w, .refl, hmisses⟩
      · obtain ⟨fuel', job', w', hreaches, hmisses⟩ := ih h₁
        exact ⟨fuel', job', w', .next hstarts hreaches, hmisses⟩
  · rintro ⟨fuel', job', w', hreaches, hmisses⟩
    generalize hdepth : fuel' + 1 = depth at hreaches
    induction hreaches with
    | refl =>
      cases hdepth
      exact hmisses.undefined
    | next hstarts _ ih => exact hstarts.undefined (ih hmisses hdepth)

end Undefined

end Lox
