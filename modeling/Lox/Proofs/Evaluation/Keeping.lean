import Lox.Proofs.Evaluation.Binding
import Lox.Proofs.Evaluation.Jobs

/-!
Names on the way. Whatever a frame binds when a job is started was bound or has come to be bound since the
job began that started it, and is bound still when that one ends.
-/
namespace Lox

def World.Keeps (w w' : World) : Prop :=
  ∀ frame name, (w.frames.getIn frame name).isSome = true → (w'.frames.getIn frame name).isSome = true

namespace World.Keeps

variable {w w' w'' : World}

theorem of_frames (h : w'.frames = w.frames) : w.Keeps w' := by
  intro frame name hbound
  rw [h]
  exact hbound

theorem refl (w : World) : w.Keeps w := of_frames rfl

theorem trans (h : w.Keeps w') (h' : w'.Keeps w'') : w.Keeps w'' :=
  fun frame name hbound => h' frame name (h frame name hbound)

end World.Keeps

def Job.world? (fuel : Nat) (w : World) : Job → Option World
  | .evaluate ctx e => (Lox.evaluate fuel ctx e w).world?
  | .evaluateAll ctx es => (Lox.evaluateAll fuel ctx es w).world?
  | .call ctx f args => (Lox.call fuel ctx f args w).world?
  | .runBody ctx closure args => (Lox.runBody fuel ctx closure args w).world?
  | .execute ctx s => (Lox.execute fuel ctx s w).world?
  | .executeAll ctx ss => (Lox.executeAll fuel ctx ss w).world?

section Rules

variable {α β : Type} {env : Environment} {names : List String} {m : Evaluation α} {w w' : World}

theorem Binds.keeps (h : Binds env names m) (hrun : (m w).world? = some w') : w.Keeps w' :=
  (h w w' hrun).kept

theorem Binds.keeps_ok (h : Binds env names m) {value : α} (hrun : m w = .ok value w') : w.Keeps w' :=
  h.keeps (by rw [hrun]; rfl)

theorem ends_of_bind (env : Environment) (names : List String) {next : α → Evaluation β}
    (hnext : ∀ value, Binds env names (next value))
    (h : ((m >>= next) w).world? = some w') : ∃ w₁, (m w).world? = some w₁ ∧ w₁.Keeps w' := by
  rw [Evaluation.bind_run] at h
  cases hrun : m w with
  | ok value w₁ =>
    rw [hrun] at h
    exact ⟨w₁, rfl, (hnext value).keeps h⟩
  | error e w₁ =>
    rw [hrun] at h
    cases h
    exact ⟨w', rfl, .refl w'⟩
  | exhausted =>
    rw [hrun] at h
    contradiction

end Rules

theorem Job.keeps {fuel : Nat} {job : Job} {w w' : World} (h : job.world? fuel w = some w') :
    w.Keeps w' := by
  cases job with
  | evaluate ctx e => exact (evaluate_binds fuel ctx e []).keeps h
  | evaluateAll ctx es => exact (evaluateAll_binds fuel ctx es []).keeps h
  | call ctx f args => exact (call_binds fuel ctx f args []).keeps h
  | runBody ctx closure args => exact (runBody_binds fuel ctx closure args []).keeps h
  | execute ctx s => exact (execute_binds fuel ctx s).keeps h
  | executeAll ctx ss => exact (executeAll_binds fuel ctx ss).keeps h

theorem Starts.keeps {fuel : Nat} {job next : Job} {w w' : World} (h : Starts fuel job w next w') :
    w.Keeps w' := by
  have hevaluate : ∀ {ctx e value w w'}, evaluate fuel ctx e w = .ok value w' → w.Keeps w' :=
    fun hrun => (evaluate_binds fuel _ _ []).keeps_ok hrun
  have hexecute : ∀ {ctx s flow w w'}, execute fuel ctx s w = .ok flow w' → w.Keeps w' :=
    fun hrun => (execute_binds fuel _ _).keeps_ok hrun
  have hframe : ∀ {bindings enclosing env w w'}, makeFrame bindings enclosing w = .ok env w' →
      w.Keeps w' := fun hrun => (@makeFrame_binds [] _ _).keeps_ok hrun
  cases h with
  | first _ | argument | function | expression _ | statement => exact .refl w
  | rightOperand h | rightCondition h _ | fieldValue h | arguments h | restArguments h | onlyBranch h _
  | thenBranch h _ | elseBranch h _ | turn h _ => exact hevaluate h
  | call hcallee hargs _ _ =>
    exact (hevaluate hcallee).trans ((evaluateAll_binds fuel _ _ []).keeps_ok hargs)
  | initializer hobject _ hinit =>
    have hmade : World.Keeps w _ := (@makeObject_binds [] [] _).keeps_ok hobject
    exact hmade.trans ((@bindMethod_binds [] [] _ _).keeps_ok hinit)
  | body henv | block henv => exact hframe henv
  | nextTurn h _ hbody => exact (hevaluate h).trans (hexecute hbody)
  | restStatements h => exact hexecute h

section Ends

variable {fuel : Nat} {ctx : Context} {w w' last : World}

theorem ends_of_first {e part : Expr} (h : Expr.first? e = some part)
    (hlast : (evaluate (fuel + 1) ctx e w).world? = some last) :
    ∃ w', (evaluate fuel ctx part w).world? = some w' ∧ w'.Keeps last := by
  cases e with
  | literal _ | var _ | this _ | super _ _ => contradiction
  | group inner =>
    cases h
    exact ⟨last, hlast, .refl last⟩
  | assign name value =>
    cases h
    simp only [evaluate] at hlast
    refine ends_of_bind [] [] (fun value => ?_) hlast
    exact (assignVariable_binds ctx name value).bind fun _ => binds_pure value
  | unary op operand =>
    cases h
    simp only [evaluate] at hlast
    exact ends_of_bind [] [] (fun _ => binds_lift _ _) hlast
  | binary left op right =>
    cases h
    simp only [evaluate] at hlast
    refine ends_of_bind [] [] (fun left => ?_) hlast
    exact (evaluate_binds fuel ctx right []).bind fun _ => binds_lift _ _
  | logical left op right =>
    cases h
    simp only [evaluate] at hlast
    exact ends_of_bind [] [] (fun left => .ite (binds_pure left) (evaluate_binds fuel ctx right [])) hlast
  | get object property =>
    cases h
    simp only [evaluate] at hlast
    exact ends_of_bind [] [] (fun object => readProperty_binds object property) hlast
  | set object property value =>
    cases h
    simp only [evaluate] at hlast
    refine ends_of_bind [] [] (fun object => ?_) hlast
    cases object with
    | object id c =>
      apply (evaluate_binds fuel ctx value []).bind
      exact fun value => (setField_binds id _ value).bind fun _ => binds_pure value
    | nil | bool _ | num _ | str _ | callable _ => exact binds_raise _ _
  | call callee paren args =>
    cases h
    simp only [evaluate] at hlast
    refine ends_of_bind [] [] (fun callee => ?_) hlast
    apply (evaluateAll_binds fuel ctx args []).bind
    intro args
    cases callee with
    | callable f =>
      apply Binds.ite
      · exact binds_raise _ _
      · exact .ite (binds_raise _ _) (call_binds fuel _ f args [])
    | nil | bool _ | num _ | str _ | object _ _ => exact binds_raise _ _

theorem ends_of_expression {s : Stmt} {e : Expr} (h : Stmt.first? s = some e)
    (hlast : (execute (fuel + 1) ctx s w).world? = some last) :
    ∃ w', (evaluate fuel ctx e w).world? = some w' ∧ w'.Keeps last := by
  cases s with
  | block _ | funDecl _ | classDecl _ _ _ => contradiction
  | expr e =>
    cases h
    simp only [execute] at hlast
    exact ends_of_bind [] [] (fun _ => binds_pure _) hlast
  | print keyword value =>
    cases h
    simp only [execute] at hlast
    refine ends_of_bind [] [] (fun value => ?_) hlast
    exact (printLine_binds keyword value.text).bind fun _ => binds_pure _
  | varDecl name init =>
    cases h
    simp only [execute] at hlast
    refine ends_of_bind ctx.env [name.lexeme] (fun value => ?_) hlast
    exact (defineVariable_binds ctx.env name.lexeme value).bind fun _ => binds_pure _
  | ifThen condition yes =>
    cases h
    simp only [execute] at hlast
    exact ends_of_bind ctx.env yes.bound (fun _ => .ite (execute_binds fuel ctx yes) (binds_pure _)) hlast
  | ifElse condition yes no =>
    cases h
    simp only [execute] at hlast
    refine ends_of_bind ctx.env (yes.bound ++ no.bound) (fun _ => .ite ?_ ?_) hlast
    · exact (execute_binds fuel ctx yes).mono (List.subset_append_left _ _)
    · exact (execute_binds fuel ctx no).mono (List.subset_append_right _ _)
  | whileLoop condition body =>
    cases h
    simp only [execute] at hlast
    refine ends_of_bind ctx.env body.bound (fun _ => .ite ?_ (binds_pure _)) hlast
    apply (execute_binds fuel ctx body).bind
    intro flow
    cases flow with
    | normal => exact execute_binds fuel ctx (.whileLoop _ body)
    | returned value => exact binds_pure _
  | ret keyword value =>
    cases h
    simp only [execute] at hlast
    exact ends_of_bind [] [] (fun _ => binds_pure _) hlast

theorem Starts.ends {job next : Job} (h : Starts fuel job w next w')
    (hlast : job.world? (fuel + 1) w = some last) :
    ∃ w₁, next.world? fuel w' = some w₁ ∧ w₁.Keeps last := by
  cases h with
  | first hpart => exact ends_of_first hpart hlast
  | expression hpart => exact ends_of_expression hpart hlast
  | @rightOperand ctx left op right _ v _ hleft =>
    simp only [Job.world?, evaluate, Evaluation.bind_run, hleft] at hlast
    exact ends_of_bind [] [] (fun _ => binds_lift _ _) hlast
  | rightCondition hleft hopen =>
    simp only [Job.world?, evaluate, Evaluation.bind_run, hleft, Result.andThen, hopen] at hlast
    exact ⟨last, hlast, .refl last⟩
  | @fieldValue ctx object property value _ id c _ hobject =>
    simp only [Job.world?, evaluate, Evaluation.bind_run, hobject] at hlast
    exact ends_of_bind [] [] (fun value => (setField_binds id _ value).bind fun _ => binds_pure value) hlast
  | arguments hcallee =>
    simp only [Job.world?, evaluate, Evaluation.bind_run, hcallee] at hlast
    refine ends_of_bind [] [] (fun args => ?_) hlast
    split
    · exact .ite (binds_raise _ _) (.ite (binds_raise _ _) (call_binds fuel _ _ args []))
    · exact binds_raise _ _
  | call hcallee hargs harity hdepth =>
    simp only [Job.world?, evaluate, Evaluation.bind_run, hcallee, hargs, Result.andThen] at hlast
    rw [if_neg (not_not_intro harity), if_neg (Nat.not_le.2 hdepth)] at hlast
    exact ⟨last, hlast, .refl last⟩
  | @argument ctx e rest =>
    simp only [Job.world?, evaluateAll] at hlast
    refine ends_of_bind [] [] (fun value => ?_) hlast
    exact (evaluateAll_binds fuel ctx rest []).bind fun _ => binds_pure _
  | restArguments hvalue =>
    simp only [Job.world?, evaluateAll, Evaluation.bind_run, hvalue] at hlast
    exact ends_of_bind [] [] (fun _ => binds_pure _) hlast
  | function => exact ⟨last, hlast, .refl last⟩
  | initializer hobject hmethod hinit =>
    simp only [Job.world?, Lox.call, Evaluation.bind_run, hobject] at hlast
    rw [Result.andThen, hmethod] at hlast
    simp only [Evaluation.bind_run, hinit] at hlast
    exact ends_of_bind [] [] (fun _ => binds_pure _) hlast
  | @body ctx closure args _ env _ henv =>
    simp only [Job.world?, runBody, Evaluation.bind_run, henv] at hlast
    refine ends_of_bind [] [] (fun flow => .ite (receiver_binds closure) ?_) hlast
    cases flow <;> exact binds_pure _
  | block henv =>
    simp only [Job.world?, execute, Evaluation.bind_run, henv] at hlast
    exact ⟨last, hlast, .refl last⟩
  | onlyBranch hcondition hv | thenBranch hcondition hv =>
    simp only [Job.world?, execute, Evaluation.bind_run, hcondition, Result.andThen, if_pos hv] at hlast
    exact ⟨last, hlast, .refl last⟩
  | elseBranch hcondition hv =>
    simp only [Job.world?, execute, Evaluation.bind_run, hcondition, Result.andThen, hv] at hlast
    exact ⟨last, hlast, .refl last⟩
  | @turn ctx condition body _ _ _ hcondition hv =>
    simp only [Job.world?, execute, Evaluation.bind_run, hcondition, Result.andThen, if_pos hv] at hlast
    refine ends_of_bind ctx.env body.bound (fun flow => ?_) hlast
    cases flow with
    | normal => exact execute_binds fuel ctx (.whileLoop condition body)
    | returned value => exact binds_pure _
  | nextTurn hcondition hv hbody =>
    simp only [Job.world?, execute, Evaluation.bind_run, hcondition, Result.andThen, if_pos hv, hbody]
      at hlast
    exact ⟨last, hlast, .refl last⟩
  | @statement ctx s rest =>
    simp only [Job.world?, executeAll] at hlast
    refine ends_of_bind ctx.env (Stmt.boundAll rest) (fun flow => ?_) hlast
    cases flow with
    | normal => exact executeAll_binds fuel ctx rest
    | returned value => exact binds_pure _
  | restStatements hs =>
    simp only [Job.world?, executeAll, Evaluation.bind_run, hs] at hlast
    exact ⟨last, hlast, .refl last⟩

theorem Reaches.keeps {fuel' : Nat} {job job' : Job} (h : Reaches fuel job w fuel' job' w') :
    w.Keeps w' := by
  induction h with
  | refl => exact .refl _
  | next hstart _ ih => exact hstart.keeps.trans ih

theorem Reaches.ends {fuel' : Nat} {job job' : Job} (h : Reaches fuel job w fuel' job' w')
    (hlast : job.world? fuel w = some last) :
    ∃ w₁, job'.world? fuel' w' = some w₁ ∧ w₁.Keeps last := by
  induction h generalizing last with
  | refl => exact ⟨last, hlast, .refl last⟩
  | next hstart _ ih =>
    obtain ⟨w₁, hnext, hkeeps⟩ := hstart.ends hlast
    obtain ⟨w₂, hended, hkeeps'⟩ := ih hnext
    exact ⟨w₂, hended, hkeeps'.trans hkeeps⟩

end Ends

end Lox
