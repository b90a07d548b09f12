import Lox.Proofs.Evaluation.Printing

/-!
Evaluations by another clock. Calls of one native function read the clock, and nothing else does: a job that
comes across no such call ends by any clock as it does by the one of its world.
-/
namespace Lox

variable {α β : Type}

/-- A job comes across a call that reads the clock. -/
def Job.CallsClock (job : Job) (fuel : Nat) (w : World) : Prop :=
  ∃ fuel' ctx args w', Reaches fuel job w (fuel' + 1) (.call ctx (.native .clock) args) w'

theorem Job.not_callsClock_of_starts {fuel : Nat} {job next : Job} {w w' : World}
    (h : ¬ job.CallsClock (fuel + 1) w) (hstart : Starts fuel job w next w') : ¬ next.CallsClock fuel w' := by
  rintro ⟨fuel', ctx, args, w'', hreaches⟩
  exact h ⟨fuel', ctx, args, w'', .next hstart hreaches⟩

theorem Job.CallsClock.starts {fuel : Nat} {job : Job} {w : World} (h : job.CallsClock fuel w) :
    (∃ ctx args, job = .call ctx (.native .clock) args) ∨
      ∃ less next w', fuel = less + 1 ∧ Starts less job w next w' ∧ next.CallsClock less w' := by
  obtain ⟨fuel', ctx, args, w', hreaches⟩ := h
  cases hreaches with
  | refl => exact .inl ⟨ctx, args, rfl⟩
  | next hstart hrest => exact .inr ⟨_, _, _, rfl, hstart, fuel', ctx, args, w', hrest⟩

def World.withClock (w : World) (clock : Clock) : World := { w with clock }

def Result.withClock (clock : Clock) : Result α → Result α
  | .ok value w => .ok value (w.withClock clock)
  | .error e w => .error e (w.withClock clock)
  | .exhausted => .exhausted

namespace Evaluation

/-- The step ends alike by any clock in place of the one of the world, and does not move it on. -/
def TimelessAt (m : Evaluation α) (w : World) : Prop :=
  ∀ clock, m (w.withClock clock) = (m w).withClock clock

variable {m : Evaluation α} {next : α → Evaluation β} {w : World}

theorem Silent.timelessAt (h : m.Silent) : m.TimelessAt w := by
  intro clock
  have hsame : m w = (m w).beside w.console w.clock := h w w.console w.clock
  have hother : m (w.withClock clock) = (m w).beside w.console clock := h w w.console clock
  rw [hother, hsame]
  cases m w <;> rfl

theorem TimelessAt.bind (hm : m.TimelessAt w)
    (hnext : ∀ value w', m w = .ok value w' → (next value).TimelessAt w') : (m >>= next).TimelessAt w := by
  intro clock
  rw [bind_run, bind_run, hm clock]
  cases hrun : m w with
  | ok value w' => exact hnext value w' hrun clock
  | error e w' => rfl
  | exhausted => rfl

theorem TimelessAt.bind_silent (hm : m.TimelessAt w) (hnext : ∀ value, (next value).Silent) :
    (m >>= next).TimelessAt w :=
  hm.bind fun value _ _ => (hnext value).timelessAt

theorem Silent.bind_timelessAt (hm : m.Silent)
    (hnext : ∀ value w', m w = .ok value w' → (next value).TimelessAt w') : (m >>= next).TimelessAt w :=
  hm.timelessAt.bind hnext

theorem timelessAt_exhausted : (exhausted : Evaluation α).TimelessAt w := fun _ => rfl

end Evaluation

open Evaluation

theorem printLine_timelessAt (keyword : Token) (text : String) (w : World) :
    (printLine keyword text).TimelessAt w := by
  intro clock
  unfold printLine
  dsimp only [World.withClock]
  rcases w.console.print (text ++ "\n") with ⟨refusal, console⟩
  cases refusal <;> rfl

structure DepthTimeless (fuel : Nat) : Prop where
  evaluate : ∀ {ctx : Context} {e : Expr} {w : World}, ¬ (Job.evaluate ctx e).CallsClock fuel w →
    (evaluate fuel ctx e).TimelessAt w
  evaluateAll : ∀ {ctx : Context} {es : List Expr} {w : World},
    ¬ (Job.evaluateAll ctx es).CallsClock fuel w → (evaluateAll fuel ctx es).TimelessAt w
  call : ∀ {ctx : Context} {f : Callable} {args : List Value} {w : World},
    ¬ (Job.call ctx f args).CallsClock fuel w → (call fuel ctx f args).TimelessAt w
  runBody : ∀ {ctx : Context} {closure : Closure} {args : List Value} {w : World},
    ¬ (Job.runBody ctx closure args).CallsClock fuel w → (runBody fuel ctx closure args).TimelessAt w
  execute : ∀ {ctx : Context} {s : Stmt} {w : World}, ¬ (Job.execute ctx s).CallsClock fuel w →
    (execute fuel ctx s).TimelessAt w
  executeAll : ∀ {ctx : Context} {ss : List Stmt} {w : World},
    ¬ (Job.executeAll ctx ss).CallsClock fuel w → (executeAll fuel ctx ss).TimelessAt w

section Step

open Job

variable {fuel : Nat} (ih : DepthTimeless fuel) {ctx : Context} {w : World}

include ih

theorem evaluate_timelessAt {e : Expr} (h : ¬ (Job.evaluate ctx e).CallsClock (fuel + 1) w) :
    (evaluate (fuel + 1) ctx e).TimelessAt w := by
  have hfirst : ∀ part, Expr.first? e = some part → (evaluate fuel ctx part).TimelessAt w :=
    fun part hpart => ih.evaluate (not_callsClock_of_starts h (.first hpart))
  cases e with
  | literal value => exact (silent_pure _).timelessAt
  | var name | this name => exact (readVariable_silent ctx name).timelessAt
  | super keyword method => exact (readSuper_silent ctx keyword method).timelessAt
  | group inner => exact hfirst inner rfl
  | assign name value =>
    exact (hfirst value rfl).bind_silent fun v =>
      (assignVariable_silent ctx name v).bind fun _ => silent_pure v
  | unary op operand => exact (hfirst operand rfl).bind_silent fun _ => silent_lift op _
  | get object property => exact (hfirst object rfl).bind_silent fun v => readProperty_silent v property
  | binary left op right =>
    refine (hfirst left rfl).bind fun v w₁ hleft => ?_
    have hright := ih.evaluate (not_callsClock_of_starts h (.rightOperand hleft))
    exact hright.bind_silent fun _ => silent_lift op _
  | logical left op right =>
    refine (hfirst left rfl).bind fun v w₁ hleft => ?_
    cases hsettled : settles op.kind v with
    | true => exact (silent_pure v).timelessAt
    | false => exact ih.evaluate (not_callsClock_of_starts h (.rightCondition hleft hsettled))
  | set object property value =>
    refine (hfirst object rfl).bind fun v w₁ hobject => ?_
    cases v with
    | object id c =>
      have hvalue := ih.evaluate (not_callsClock_of_starts h (.fieldValue hobject))
      exact hvalue.bind_silent fun v => (setField_silent id property.lexeme v).bind fun _ => silent_pure v
    | nil | bool _ | num _ | str _ | callable _ => exact (silent_raise _ _).timelessAt
  | call callee paren args =>
    refine (hfirst callee rfl).bind fun called w₁ hcallee => ?_
    refine (ih.evaluateAll (not_callsClock_of_starts h (.arguments hcallee))).bind fun values w₂ hargs => ?_
    cases called with
    | callable f =>
      dsimp only
      split
      · exact (silent_raise _ _).timelessAt
      · rename_i harity
        split
        · exact (silent_raise _ _).timelessAt
        · rename_i hdepth
          exact ih.call (not_callsClock_of_starts h
            (.call hcallee hargs (Decidable.of_not_not harity) (Nat.lt_of_not_le hdepth)))
    | nil | bool _ | num _ | str _ | object _ _ => exact (silent_raise _ _).timelessAt

theorem evaluateAll_timelessAt {es : List Expr}
    (h : ¬ (Job.evaluateAll ctx es).CallsClock (fuel + 1) w) :
    (evaluateAll (fuel + 1) ctx es).TimelessAt w := by
  cases es with
  | nil => exact (silent_pure ([] : List Value)).timelessAt
  | cons e rest =>
    refine (ih.evaluate (not_callsClock_of_starts h .argument)).bind fun v w₁ hfirst => ?_
    have hrest := ih.evaluateAll (not_callsClock_of_starts h (.restArguments hfirst))
    exact hrest.bind_silent fun values => silent_pure (v :: values)

theorem call_timelessAt {f : Callable} {args : List Value}
    (h : ¬ (Job.call ctx f args).CallsClock (fuel + 1) w) : (call (fuel + 1) ctx f args).TimelessAt w := by
  cases f with
  | native f =>
    cases f with
    | clock => exact absurd ⟨fuel, ctx, args, w, .refl⟩ h
  | function id closure => exact ih.runBody (not_callsClock_of_starts h .function)
  | cls c =>
    refine (makeObject_silent c).bind_timelessAt fun object w₁ hobject => ?_
    cases hmethod : c.findMethod? initializerName with
    | none => exact (silent_pure object).timelessAt
    | some method =>
      refine (bindMethod_silent method object).bind_timelessAt fun init w₂ hinit => ?_
      have hbody := ih.runBody (not_callsClock_of_starts h (.initializer hobject hmethod hinit))
      exact hbody.bind_silent fun _ => silent_pure object

theorem runBody_timelessAt {closure : Closure} {args : List Value}
    (h : ¬ (Job.runBody ctx closure args).CallsClock (fuel + 1) w) :
    (runBody (fuel + 1) ctx closure args).TimelessAt w := by
  refine (makeFrame_silent _ _).bind_timelessAt fun env w₁ henv => ?_
  refine (ih.executeAll (not_callsClock_of_starts h (.body henv))).bind_silent fun flow => ?_
  split
  · exact receiver_silent closure
  · cases flow <;> exact silent_pure _

theorem execute_timelessAt {s : Stmt} (h : ¬ (Job.execute ctx s).CallsClock (fuel + 1) w) :
    (execute (fuel + 1) ctx s).TimelessAt w := by
  have hfirst : ∀ e, Stmt.first? s = some e → (evaluate fuel ctx e).TimelessAt w :=
    fun e he => ih.evaluate (not_callsClock_of_starts h (.expression he))
  cases s with
  | expr e => exact (hfirst e rfl).bind_silent fun _ => silent_pure Flow.normal
  | print keyword value =>
    refine (hfirst value rfl).bind fun v w₁ _ => ?_
    exact (printLine_timelessAt keyword v.text w₁).bind_silent fun _ => silent_pure Flow.normal
  | varDecl name init =>
    cases init with
    | none =>
      have hsilent := defineVariable_silent ctx.env name.lexeme .nil
      exact (hsilent.bind fun _ => silent_pure Flow.normal).timelessAt
    | some init =>
      exact (hfirst init rfl).bind_silent fun v =>
        (defineVariable_silent ctx.env name.lexeme v).bind fun _ => silent_pure Flow.normal
  | block body =>
    refine (makeFrame_silent _ _).bind_timelessAt fun env w₁ henv => ?_
    exact ih.executeAll (not_callsClock_of_starts h (.block henv))
  | ifThen condition yes =>
    refine (hfirst condition rfl).bind fun v w₁ hcondition => ?_
    cases hv : v.isTruthy with
    | true => exact ih.execute (not_callsClock_of_starts h (.onlyBranch hcondition hv))
    | false => exact (silent_pure Flow.normal).timelessAt
  | ifElse condition yes no =>
    refine (hfirst condition rfl).bind fun v w₁ hcondition => ?_
    cases hv : v.isTruthy with
    | true => exact ih.execute (not_callsClock_of_starts h (.thenBranch hcondition hv))
    | false => exact ih.execute (not_callsClock_of_starts h (.elseBranch hcondition hv))
  | whileLoop condition body =>
    refine (hfirst condition rfl).bind fun v w₁ hcondition => ?_
    cases hv : v.isTruthy with
    | true =>
      refine (ih.execute (not_callsClock_of_starts h (.turn hcondition hv))).bind fun flow w₂ hbody => ?_
      cases flow with
      | normal => exact ih.execute (not_callsClock_of_starts h (.nextTurn hcondition hv hbody))
      | returned value => exact (silent_pure (Flow.returned value)).timelessAt
    | false => exact (silent_pure Flow.normal).timelessAt
  | ret keyword value =>
    cases value with
    | none => exact (silent_pure (Flow.returned .nil)).timelessAt
    | some value => exact (hfirst value rfl).bind_silent fun v => silent_pure (Flow.returned v)
  | funDecl function =>
    exact ((makeFunction_silent _).bind fun v =>
      (defineVariable_silent ctx.env function.name.lexeme v).bind fun _ => silent_pure Flow.normal).timelessAt
  | classDecl name superclass methods =>
    cases superclass with
    | none => exact (declareClass_silent ctx name none methods).timelessAt
    | some parent =>
      refine ((readVariable_silent ctx parent).bind fun v => ?_).timelessAt
      split
      · exact declareClass_silent ctx name _ methods
      · exact silent_raise _ _

theorem executeAll_timelessAt {ss : List Stmt}
    (h : ¬ (Job.executeAll ctx ss).CallsClock (fuel + 1) w) :
    (executeAll (fuel + 1) ctx ss).TimelessAt w := by
  cases ss with
  | nil => exact (silent_pure Flow.normal).timelessAt
  | cons s rest =>
    refine (ih.execute (not_callsClock_of_starts h .statement)).bind fun flow w₁ hfirst => ?_
    cases flow with
    | normal => exact ih.executeAll (not_callsClock_of_starts h (.restStatements hfirst))
    | returned value => exact (silent_pure (Flow.returned value)).timelessAt

end Step

theorem depthTimeless (fuel : Nat) : DepthTimeless fuel := by
  induction fuel with
  | zero => constructor <;> (intros; exact timelessAt_exhausted)
  | succ fuel ih =>
    constructor
    case evaluate => exact evaluate_timelessAt ih
    case evaluateAll => exact evaluateAll_timelessAt ih
    case call => exact call_timelessAt ih
    case runBody => exact runBody_timelessAt ih
    case execute => exact execute_timelessAt ih
    case executeAll => exact executeAll_timelessAt ih

end Lox
