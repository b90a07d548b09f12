import Lox.Proofs.Evaluation.Jobs
import Lox.Proofs.Session.Console

/-!
The lines that an evaluation prints. A `print` whose value has been found writes a line; the evaluation
writes what the jobs that it comes across write. All other steps leave the console alone.
-/
namespace Lox

/-- A `print` that has found its value: its keyword, the text of the value, and the world before the line
is written. -/
structure Printing where
  keyword : Token
  text : String
  world : World

def Printing.line (p : Printing) : String := p.text ++ "\n"

inductive Prints (fuel : Nat) : Job → World → Printing → Prop
  | print {ctx keyword value w v w'} (h : evaluate fuel ctx value w = .ok v w') :
      Prints fuel (.execute ctx (.print keyword value)) w ⟨keyword, v.text, w'⟩

def Job.Writes (job : Job) (fuel : Nat) (w : World) (p : Printing) : Prop :=
  ∃ fuel' job' w', Reaches fuel job w (fuel' + 1) job' w' ∧ Prints fuel' job' w' p

section Writes

variable {fuel : Nat} {ctx : Context} {w : World} {p : Printing}

theorem Job.not_writes_zero {job : Job} : ¬ job.Writes 0 w p := by
  rintro ⟨fuel', job', w', hreaches, -⟩
  cases hreaches

theorem Job.writes_succ {job : Job} :
    job.Writes (fuel + 1) w p ↔
      Prints fuel job w p ∨ ∃ job' w', Starts fuel job w job' w' ∧ job'.Writes fuel w' p := by
  constructor
  · rintro ⟨fuel', job', w', hreaches, hprints⟩
    cases hreaches with
    | refl => exact .inl hprints
    | next hstarts hrest => exact .inr ⟨_, _, hstarts, fuel', job', w', hrest, hprints⟩
  · rintro (hprints | ⟨job', w', hstarts, fuel'', job'', w'', hreaches, hprints⟩)
    · exact ⟨fuel, job, w, .refl, hprints⟩
    · exact ⟨fuel'', job'', w'', .next hstarts hreaches, hprints⟩

theorem Job.writes_iff_starts {job : Job} (h : ∀ q, ¬ Prints fuel job w q) :
    job.Writes (fuel + 1) w p ↔ ∃ job' w', Starts fuel job w job' w' ∧ job'.Writes fuel w' p := by
  rw [Job.writes_succ, or_iff_right (h p)]

end Writes

section Silent

variable {α β : Type}

namespace Result

def withConsole (c : Console) : Result α → Result α
  | .ok value w => .ok value { w with console := c }
  | .error e w => .error e { w with console := c }
  | .exhausted => .exhausted

def beside (c : Console) (clock : Clock) : Result α → Result α
  | .ok value w => .ok value { w with console := c, clock }
  | .error e w => .error e { w with console := c, clock }
  | .exhausted => .exhausted

end Result

namespace Evaluation

/-- The step neither asks the console nor changes it. -/
def Mute (m : Evaluation α) : Prop :=
  ∀ (w : World) (c : Console), m { w with console := c } = (m w).withConsole c

/-- The step neither asks the console or the clock nor changes them. -/
def Silent (m : Evaluation α) : Prop :=
  ∀ (w : World) (c : Console) (clock : Clock), m { w with console := c, clock } = (m w).beside c clock

theorem Mute.console {m : Evaluation α} (h : m.Mute) {w w' : World} (hw' : (m w).world? = some w') :
    w'.console = w.console := by
  have hsame : m w = (m w).withConsole w.console := h w w.console
  rw [hsame] at hw'
  cases hresult : m w with
  | ok value w₁ | error e w₁ =>
    rw [hresult] at hw'
    cases hw'
    rfl
  | exhausted =>
    rw [hresult] at hw'
    contradiction

theorem Silent.mute {m : Evaluation α} (h : m.Silent) : m.Mute := by
  intro w c
  have hsame : m w = (m w).beside w.console w.clock := h w w.console w.clock
  have hother : m { w with console := c } = (m w).beside c w.clock := h w c w.clock
  rw [hother, hsame]
  cases m w <;> rfl

theorem Silent.bind {m : Evaluation α} {next : α → Evaluation β} (hm : m.Silent)
    (hnext : ∀ value, (next value).Silent) : (m >>= next).Silent := by
  intro w c clock
  rw [bind_run, bind_run, hm w c clock]
  cases m w with
  | ok value w' => exact hnext value w' c clock
  | error e w' => rfl
  | exhausted => rfl

theorem silent_pure (value : α) : (pure value : Evaluation α).Silent := fun _ _ _ => rfl

theorem silent_raise (token : Token) (fault : RuntimeFault) :
    (raise token fault : Evaluation α).Silent := fun _ _ _ => rfl

theorem silent_lift (token : Token) (operation : Except RuntimeFault α) :
    (lift token operation).Silent := by
  cases operation with
  | ok value => exact silent_pure value
  | error fault => exact silent_raise token fault

end Evaluation

open Evaluation

variable (ctx : Context)

theorem makeFrame_silent (bindings : Bindings Value) (enclosing : Environment) :
    (makeFrame bindings enclosing).Silent := fun _ _ _ => rfl

theorem defineVariable_silent (env : Environment) (name : String) (value : Value) :
    (defineVariable env name value).Silent := fun _ _ _ => rfl

theorem readVariable_silent (name : Token) : (readVariable ctx name).Silent := by
  intro w c clock
  unfold readVariable
  cases ctx.find? w.frames name <;> rfl

theorem assignVariable_silent (name : Token) (value : Value) :
    (assignVariable ctx name value).Silent := by
  intro w c clock
  unfold assignVariable
  cases ctx.assign? w.frames name value <;> rfl

theorem assignDeclared_silent (env : Environment) (name : Token) (value : Value) :
    (assignDeclared env name value).Silent := by
  intro w c clock
  unfold assignDeclared
  cases w.frames.assign env name.lexeme value <;> rfl

theorem freshId_silent : freshId.Silent := fun _ _ _ => rfl

theorem makeObject_silent (c : Class) : (makeObject c).Silent := fun _ _ _ => rfl

theorem receiver_silent (method : Closure) : (receiver method).Silent := fun _ _ _ => rfl

theorem readField?_silent (id : Nat) (name : String) : (readField? id name).Silent := fun _ _ _ => rfl

theorem setField_silent (id : Nat) (name : String) (value : Value) :
    (setField id name value).Silent := fun _ _ _ => rfl

theorem readClock_mute : readClock.Mute := fun _ _ => rfl

theorem makeFunction_silent (closure : Closure) : (makeFunction closure).Silent :=
  freshId_silent.bind fun _ => silent_pure _

theorem bindMethod_silent (method : Closure) (receiver : Value) : (bindMethod method receiver).Silent :=
  (makeFrame_silent _ _).bind fun _ => silent_pure _

theorem methodOf_silent (c : Class) (property : Token) (receiver : Value) :
    (methodOf c property receiver).Silent := by
  unfold methodOf
  cases c.findMethod? property.lexeme with
  | none => exact silent_raise _ _
  | some method => exact (bindMethod_silent method receiver).bind fun _ => makeFunction_silent _

theorem readProperty_silent (value : Value) (property : Token) :
    (readProperty value property).Silent := by
  cases value with
  | object id c =>
    refine (readField?_silent id property.lexeme).bind fun field? => ?_
    cases field? with
    | none => exact methodOf_silent _ _ _
    | some field => exact silent_pure _
  | nil | bool _ | num _ | str _ | callable _ => exact silent_raise _ _

theorem readSuper_silent (keyword method : Token) : (readSuper ctx keyword method).Silent := by
  intro w c clock
  unfold readSuper
  dsimp only
  split
  · exact methodOf_silent _ _ _ w c clock
  · rfl

theorem methodsEnvironment_silent (superclass : Option Class) :
    (methodsEnvironment ctx superclass).Silent := by
  cases superclass with
  | none => exact silent_pure _
  | some parent => exact makeFrame_silent _ _

theorem declareClass_silent (name : Token) (superclass : Option Class) (methods : List FunDecl) :
    (declareClass ctx name superclass methods).Silent := by
  rw [declareClass_eq]
  refine (defineVariable_silent _ _ _).bind fun _ => ?_
  refine (methodsEnvironment_silent ctx superclass).bind fun env => ?_
  refine freshId_silent.bind fun id => ?_
  exact (assignDeclared_silent _ _ _).bind fun _ => silent_pure _

end Silent

end Lox
