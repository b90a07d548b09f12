import Lox.Proofs.Evaluation.Basic
import Lox.Proofs.Evaluation.Frames
import Lox.Proofs.Scoping.Occurrence

/-!
What evaluations bind. Frames and objects are never taken away, and a frame keeps the names that it binds.
It gains one only where a declaration is carried out in it: assignments change values, and what the calls
and blocks of a piece of code declare goes to frames that they have made themselves.
-/
namespace Lox

/-- A later world. Of the frames that were there already, only the first of the environment may bind more
names than it did, and these are among the given ones. -/
structure World.Gains (w : World) (env : Environment) (names : List String) (w' : World) : Prop where
  frames : w.frames.frames.size ≤ w'.frames.frames.size
  objects : w.objects.size ≤ w'.objects.size
  kept : ∀ frame name, (w.frames.getIn frame name).isSome = true →
    (w'.frames.getIn frame name).isSome = true
  gained : ∀ frame name, frame < w.frames.frames.size →
    (w'.frames.getIn frame name).isSome = true →
      (w.frames.getIn frame name).isSome = true ∨ env.head? = some frame ∧ name ∈ names

namespace World.Gains

variable {w w' w'' : World} {env : Environment} {names : List String}

theorem of_frames (hframes : w'.frames = w.frames) (hobjects : w.objects.size ≤ w'.objects.size) :
    w.Gains env names w' := by
  constructor
  case frames => exact Nat.le_of_eq (by rw [hframes])
  case objects => exact hobjects
  case kept =>
    rw [hframes]
    exact fun _ _ h => h
  case gained =>
    rw [hframes]
    exact fun _ _ _ h => .inl h

theorem refl : w.Gains env names w := of_frames rfl (Nat.le_refl _)

theorem trans (h : w.Gains env names w') (h' : w'.Gains env names w'') : w.Gains env names w'' := by
  refine ⟨Nat.le_trans h.frames h'.frames, Nat.le_trans h.objects h'.objects, fun frame name hbound => ?_,
    fun frame name hframe hbound => ?_⟩
  · exact h'.kept frame name (h.kept frame name hbound)
  · rcases h'.gained frame name (Nat.lt_of_lt_of_le hframe h.frames) hbound with hbound | hgained
    · exact h.gained frame name hframe hbound
    · exact .inr hgained

theorem mono (h : w.Gains env names w') {more : List String} (hnames : names ⊆ more) :
    w.Gains env more w' :=
  ⟨h.frames, h.objects, h.kept, fun frame name hframe hbound =>
    (h.gained frame name hframe hbound).imp_right fun hgained => ⟨hgained.1, hnames hgained.2⟩⟩

theorem create (w : World) (env : Environment) (bindings : Bindings Value) (enclosing : Environment) :
    w.Gains env [] { w with frames := (w.frames.create bindings enclosing).1 } := by
  have hold : ∀ {frame : FrameId} (name : String), frame < w.frames.frames.size →
      (w.frames.create bindings enclosing).1.getIn frame name = w.frames.getIn frame name := by
    intro frame name hframe
    rw [Frames.getIn_create, if_neg (Nat.ne_of_lt hframe)]
  constructor
  case frames =>
    simp only [Frames.create, Array.size_push]
    exact Nat.le_succ _
  case objects => exact Nat.le_refl _
  case kept =>
    intro frame name hbound
    dsimp only
    rw [hold name (Frames.lt_of_isSome_getIn hbound)]
    exact hbound
  case gained =>
    intro frame name hframe hbound
    dsimp only at hbound
    rw [hold name hframe] at hbound
    exact .inl hbound

theorem behind_create {bindings : Bindings Value} {enclosing : Environment}
    (h : World.Gains { w with frames := (w.frames.create bindings enclosing).1 }
      (w.frames.frames.size :: enclosing) names w') : w.Gains env [] w' := by
  have hcreated := create w env bindings enclosing
  refine ⟨Nat.le_trans hcreated.frames h.frames, h.objects, fun frame name hbound => ?_,
    fun frame name hframe hbound => ?_⟩
  · exact h.kept frame name (hcreated.kept frame name hbound)
  · rcases h.gained frame name (Nat.lt_of_lt_of_le hframe hcreated.frames) hbound with
      hbound | ⟨hnew, -⟩
    · exact hcreated.gained frame name hframe hbound
    · exact absurd (Option.some.inj hnew).symm (Nat.ne_of_lt hframe)

theorem defineIn {frame : FrameId} {name : String} (value : Value)
    (h : (w.frames.getIn frame name).isSome = true ∨ env.head? = some frame ∧ name ∈ names) :
    w.Gains env names { w with frames := w.frames.defineIn frame name value } := by
  constructor
  case frames =>
    simp only [Frames.defineIn, Array.size_modify]
    exact Nat.le_refl _
  case objects => exact Nat.le_refl _
  case kept => exact fun _ _ hbound => Frames.isSome_getIn_defineIn _ value hbound
  case gained =>
    intro other name' _ hbound
    dsimp only at hbound
    rw [Frames.getIn_defineIn] at hbound
    split at hbound
    · rename_i hsame
      rw [hsame.1, hsame.2]
      exact h
    · exact .inl hbound

end World.Gains

/-- However the evaluation ends, it has bound names only in the first frame of the environment, and only
the given ones. -/
def Binds {α : Type} (env : Environment) (names : List String) (m : Evaluation α) : Prop :=
  ∀ w w', (m w).world? = some w' → w.Gains env names w'

section Rules

variable {α β : Type} {env : Environment} {names more : List String} {m n : Evaluation α}

theorem binds_pure (value : α) : Binds env names (pure value) := by
  rintro w _ ⟨⟩
  exact .refl

theorem binds_exhausted : Binds env names (Evaluation.exhausted : Evaluation α) := nofun

theorem binds_raise (token : Token) (fault : RuntimeFault) :
    Binds env names (Evaluation.raise token fault : Evaluation α) := by
  rintro w _ ⟨⟩
  exact .refl

theorem binds_lift (token : Token) (operation : Except RuntimeFault α) :
    Binds env names (Evaluation.lift token operation) := by
  cases operation with
  | ok value => exact binds_pure value
  | error fault => exact binds_raise token fault

theorem Binds.bind {next : α → Evaluation β} (hm : Binds env names m)
    (hnext : ∀ value, Binds env names (next value)) : Binds env names (m >>= next) := by
  intro w w' hrun
  rw [Evaluation.bind_run] at hrun
  cases hfirst : m w with
  | ok value w₁ =>
    rw [hfirst] at hrun
    exact (hm w w₁ (by rw [hfirst]; rfl)).trans (hnext value w₁ w' hrun)
  | error e w₁ =>
    rw [hfirst] at hrun
    cases hrun
    exact hm w w' (by rw [hfirst]; rfl)
  | exhausted =>
    rw [hfirst] at hrun
    contradiction

theorem Binds.mono (h : Binds env names m) (hnames : names ⊆ more) : Binds env more m :=
  fun w w' hrun => (h w w' hrun).mono hnames

theorem Binds.of_nil (h : Binds env [] m) : Binds env names m := h.mono (List.nil_subset names)

theorem Binds.ite {c : Prop} [Decidable c] (hm : Binds env names m) (hn : Binds env names n) :
    Binds env names (if c then m else n) := by
  split
  · exact hm
  · exact hn

theorem Binds.inFrame {bindings : Bindings Value} {enclosing : Environment}
    {body : Environment → Evaluation β}
    (h : ∀ frame, Binds (frame :: enclosing) names (body (frame :: enclosing))) :
    Binds env [] (makeFrame bindings enclosing >>= body) := by
  intro w w' hrun
  exact (h w.frames.frames.size _ w' hrun).behind_create

end Rules

section Actions

variable {env : Environment} {names : List String}

theorem binds_of_frames {α : Type} {m : Evaluation α}
    (h : ∀ w w', (m w).world? = some w' →
      w'.frames = w.frames ∧ w.objects.size ≤ w'.objects.size) : Binds env names m :=
  fun w w' hrun => .of_frames (h w w' hrun).1 (h w w' hrun).2

theorem makeFrame_binds (bindings : Bindings Value) (enclosing : Environment) :
    Binds env [] (makeFrame bindings enclosing) := by
  rintro w _ ⟨⟩
  exact .create w env bindings enclosing

theorem defineVariable_binds (env : Environment) (name : String) (value : Value) :
    Binds env [name] (defineVariable env name value) := by
  rintro w _ ⟨⟩
  cases env with
  | nil => exact .refl
  | cons frame outer => exact .defineIn value (.inr ⟨rfl, List.mem_singleton_self name⟩)

theorem readVariable_binds (ctx : Context) (name : Token) :
    Binds env names (readVariable ctx name) := by
  intro w w' hrun
  unfold readVariable at hrun
  split at hrun <;> cases hrun <;> exact .refl

theorem gains_of_assign {w : World} {chain : Environment} {name : String} {value : Value}
    {frames : Frames Value} (h : w.frames.assign chain name value = some frames) :
    w.Gains env names { w with frames } := by
  obtain ⟨frame, hbound, rfl⟩ := Frames.bound_of_assign h
  exact .defineIn value (.inl hbound)

theorem assignVariable_binds (ctx : Context) (name : Token) (value : Value) :
    Binds env names (assignVariable ctx name value) := by
  intro w w' hrun
  unfold assignVariable at hrun
  split at hrun
  · rename_i frames hassigned
    cases hrun
    obtain ⟨frame, hbound, rfl⟩ := Context.bound_of_assign? hassigned
    exact .defineIn value (.inl hbound)
  · cases hrun
    exact .refl

theorem assignDeclared_binds (chain : Environment) (name : Token) (value : Value) :
    Binds env names (assignDeclared chain name value) := by
  intro w w' hrun
  unfold assignDeclared at hrun
  split at hrun
  · rename_i frames hassigned
    cases hrun
    exact gains_of_assign hassigned
  · cases hrun
    exact .refl

theorem freshId_binds : Binds env names freshId := by
  rintro w _ ⟨⟩
  exact .of_frames rfl (Nat.le_refl _)

theorem makeFunction_binds (closure : Closure) : Binds env names (makeFunction closure) :=
  freshId_binds.bind fun _ => binds_pure _

theorem makeObject_binds (c : Class) : Binds env names (makeObject c) := by
  apply binds_of_frames
  rintro w _ ⟨⟩
  refine ⟨rfl, ?_⟩
  rw [Array.size_push]
  exact Nat.le_succ _

theorem bindMethod_binds (method : Closure) (receiver : Value) :
    Binds env names (bindMethod method receiver) :=
  (makeFrame_binds _ method.env).of_nil.bind fun _ => binds_pure _

theorem receiver_binds (method : Closure) : Binds env names (receiver method) := by
  rintro w _ ⟨⟩
  exact .refl

theorem setField_binds (id : Nat) (name : String) (value : Value) :
    Binds env names (setField id name value) := by
  apply binds_of_frames
  rintro w _ ⟨⟩
  exact ⟨rfl, Nat.le_of_eq Array.size_modify.symm⟩

theorem methodOf_binds (c : Class) (property : Token) (receiver : Value) :
    Binds env names (methodOf c property receiver) := by
  unfold methodOf
  cases c.findMethod? property.lexeme with
  | none => exact binds_raise _ _
  | some method => exact (bindMethod_binds method receiver).bind fun bound => makeFunction_binds bound

theorem readProperty_binds (v : Value) (property : Token) :
    Binds env names (readProperty v property) := by
  cases v with
  | object id c =>
    have hread : Binds env names (readField? id property.lexeme) := by
      rintro w _ ⟨⟩
      exact .refl
    apply hread.bind
    intro field
    cases field with
    | none => exact methodOf_binds c property _
    | some value => exact binds_pure value
  | nil | bool _ | num _ | str _ | callable _ => exact binds_raise _ _

theorem readSuper_binds (ctx : Context) (keyword method : Token) :
    Binds env names (readSuper ctx keyword method) := by
  intro w w' hrun
  unfold readSuper at hrun
  split at hrun
  · exact methodOf_binds _ method _ w w' hrun
  · cases hrun
    exact .refl

theorem readClock_binds : Binds env names readClock := by
  rintro w _ ⟨⟩
  exact .of_frames rfl (Nat.le_refl _)

theorem printLine_binds (keyword : Token) (text : String) :
    Binds env names (printLine keyword text) := by
  intro w w' hrun
  unfold printLine at hrun
  dsimp only at hrun
  split at hrun <;> cases hrun <;> exact .of_frames rfl (Nat.le_refl _)

theorem declareClass_binds (ctx : Context) (name : Token) (superclass : Option Class)
    (methods : List FunDecl) :
    Binds ctx.env [name.lexeme] (declareClass ctx name superclass methods) := by
  rw [declareClass_eq]
  have hmethods : Binds ctx.env [name.lexeme] (methodsEnvironment ctx superclass) := by
    cases superclass with
    | none => exact binds_pure _
    | some parent => exact (makeFrame_binds _ ctx.env).of_nil
  apply (defineVariable_binds ctx.env name.lexeme .nil).bind
  intro _
  apply hmethods.bind
  intro _
  apply freshId_binds.bind
  intro _
  apply (assignDeclared_binds ctx.env name _).bind
  intro _
  exact binds_pure _

end Actions

mutual

/-- The names that a statement may bind in the frame it is carried out in. -/
def Stmt.bound : Stmt → List String
  | .varDecl name _ | .classDecl name _ _ => [name.lexeme]
  | .funDecl function => [function.name.lexeme]
  | .ifThen _ yes => yes.bound
  | .ifElse _ yes no => yes.bound ++ no.bound
  | .whileLoop _ body => body.bound
  | .expr _ | .print _ _ | .block _ | .ret _ _ => []

def Stmt.boundAll : List Stmt → List String
  | [] => []
  | s :: rest => s.bound ++ Stmt.boundAll rest

end

/-- Where branches and bodies of loops declare nothing, a statement binds what it declares itself. -/
theorem Stmt.bound_eq : ∀ {s : Stmt}, s.Orderly → s.bound = s.declared?.toList.map Token.lexeme
  | .varDecl _ _, _ | .classDecl _ _ _, _ | .funDecl _, _ | .expr _, _ | .print _ _, _ | .block _, _
  | .ret _ _, _ => rfl
  | .ifThen _ _, ⟨hnone, h⟩ | .whileLoop _ _, ⟨hnone, h⟩ => by
    rw [Stmt.bound, Stmt.bound_eq h, hnone]
    rfl
  | .ifElse _ _ _, ⟨⟨hnone, h⟩, hnone', h'⟩ => by
    rw [Stmt.bound, Stmt.bound_eq h, Stmt.bound_eq h', hnone, hnone']
    rfl

section Runs

mutual

theorem evaluate_binds (fuel : Nat) (ctx : Context) (e : Expr) (env : Environment) :
    Binds env [] (evaluate fuel ctx e) := by
  cases fuel with
  | zero => exact binds_exhausted
  | succ fuel =>
    cases e with
    | literal value => exact binds_pure _
    | var name => exact readVariable_binds ctx name
    | this keyword => exact readVariable_binds ctx keyword
    | super keyword method => exact readSuper_binds ctx keyword method
    | group inner => exact evaluate_binds fuel ctx inner env
    | assign name value =>
      simp only [evaluate]
      apply (evaluate_binds fuel ctx value env).bind
      intro value
      exact (assignVariable_binds ctx name value).bind fun _ => binds_pure value
    | unary op operand =>
      simp only [evaluate]
      apply (evaluate_binds fuel ctx operand env).bind
      exact fun _ => binds_lift _ _
    | binary left op right =>
      simp only [evaluate]
      apply (evaluate_binds fuel ctx left env).bind
      intro left
      apply (evaluate_binds fuel ctx right env).bind
      exact fun _ => binds_lift _ _
    | logical left op right =>
      simp only [evaluate]
      apply (evaluate_binds fuel ctx left env).bind
      exact fun left => .ite (binds_pure left) (evaluate_binds fuel ctx right env)
    | get object property =>
      simp only [evaluate]
      apply (evaluate_binds fuel ctx object env).bind
      exact fun object => readProperty_binds object property
    | set object property value =>
      simp only [evaluate]
      apply (evaluate_binds fuel ctx object env).bind
      intro object
      cases object with
      | object id c =>
        apply (evaluate_binds fuel ctx value env).bind
        exact fun value => (setField_binds id _ value).bind fun _ => binds_pure value
      | nil | bool _ | num _ | str _ | callable _ => exact binds_raise _ _
    | call callee paren args =>
      simp only [evaluate]
      apply (evaluate_binds fuel ctx callee env).bind
      intro callee
      apply (evaluateAll_binds fuel ctx args env).bind
      intro args
      cases callee with
      | callable f =>
        apply Binds.ite
        · exact binds_raise _ _
        · exact .ite (binds_raise _ _) (call_binds fuel _ f args env)
      | nil | bool _ | num _ | str _ | object _ _ => exact binds_raise _ _
termination_by fuel
decreasing_by all_goals omega

theorem evaluateAll_binds (fuel : Nat) (ctx : Context) (es : List Expr) (env : Environment) :
    Binds env [] (evaluateAll fuel ctx es) := by
  cases fuel with
  | zero => exact binds_exhausted
  | succ fuel =>
    cases es with
    | nil => exact binds_pure _
    | cons e rest =>
      simp only [evaluateAll]
      apply (evaluate_binds fuel ctx e env).bind
      intro value
      exact (evaluateAll_binds fuel ctx rest env).bind fun _ => binds_pure _
termination_by fuel
decreasing_by all_goals omega

theorem call_binds (fuel : Nat) (ctx : Context) (f : Callable) (args : List Value)
    (env : Environment) : Binds env [] (call fuel ctx f args) := by
  cases fuel with
  | zero => exact binds_exhausted
  | succ fuel =>
    cases f with
    | native f =>
      cases f
      exact readClock_binds
    | function id closure => exact runBody_binds fuel ctx closure args env
    | cls c =>
      simp only [call]
      apply (makeObject_binds c).bind
      intro object
      cases c.findMethod? initializerName with
      | none => exact binds_pure object
      | some method =>
        apply (bindMethod_binds method object).bind
        intro init
        exact (runBody_binds fuel ctx init args env).bind fun _ => binds_pure object
termination_by fuel
decreasing_by all_goals omega

/-- What the body of a function declares goes to the frame of the call. -/
theorem runBody_binds (fuel : Nat) (ctx : Context) (closure : Closure) (args : List Value)
    (env : Environment) : Binds env [] (runBody fuel ctx closure args) := by
  cases fuel with
  | zero => exact binds_exhausted
  | succ fuel =>
    simp only [runBody]
    apply Binds.inFrame
    intro frame
    apply (executeAll_binds fuel { ctx with env := frame :: closure.env } closure.decl.body).bind
    intro flow
    apply Binds.ite
    · exact receiver_binds closure
    · cases flow <;> exact binds_pure _
termination_by fuel
decreasing_by all_goals omega

theorem execute_binds (fuel : Nat) (ctx : Context) (s : Stmt) :
    Binds ctx.env s.bound (execute fuel ctx s) := by
  cases fuel with
  | zero => exact binds_exhausted
  | succ fuel =>
    cases s with
    | expr e =>
      simp only [execute]
      exact (evaluate_binds fuel ctx e ctx.env).of_nil.bind fun _ => binds_pure _
    | print keyword value =>
      simp only [execute]
      apply (evaluate_binds fuel ctx value ctx.env).of_nil.bind
      exact fun value => (printLine_binds keyword value.text).bind fun _ => binds_pure _
    | varDecl name init =>
      cases init with
      | none =>
        simp only [execute]
        exact (defineVariable_binds ctx.env name.lexeme .nil).bind fun _ => binds_pure _
      | some init =>
        simp only [execute]
        apply (evaluate_binds fuel ctx init ctx.env).of_nil.bind
        intro value
        exact (defineVariable_binds ctx.env name.lexeme value).bind fun _ => binds_pure _
    | block body =>
      simp only [execute]
      apply Binds.inFrame
      exact fun frame => executeAll_binds fuel { ctx with env := frame :: ctx.env } body
    | ifThen condition yes =>
      simp only [execute]
      apply (evaluate_binds fuel ctx condition ctx.env).of_nil.bind
      exact fun _ => .ite (execute_binds fuel ctx yes) (binds_pure _)
    | ifElse condition yes no =>
      simp only [execute]
      apply (evaluate_binds fuel ctx condition ctx.env).of_nil.bind
      intro _
      apply Binds.ite
      · exact (execute_binds fuel ctx yes).mono (List.subset_append_left _ _)
      · exact (execute_binds fuel ctx no).mono (List.subset_append_right _ _)
    | whileLoop condition body =>
      simp only [execute]
      apply (evaluate_binds fuel ctx condition ctx.env).of_nil.bind
      intro _
      apply Binds.ite
      · apply (execute_binds fuel ctx body).bind
        intro flow
        cases flow with
        | normal => exact execute_binds fuel ctx (.whileLoop condition body)
        | returned value => exact binds_pure _
      · exact binds_pure _
    | ret keyword value =>
      cases value with
      | none => exact binds_pure _
      | some value =>
        simp only [execute]
        exact (evaluate_binds fuel ctx value ctx.env).bind fun _ => binds_pure _
    | funDecl function =>
      simp only [execute]
      apply (makeFunction_binds _).bind
      intro value
      exact (defineVariable_binds ctx.env function.name.lexeme value).bind fun _ => binds_pure _
    | classDecl name superclass methods =>
      cases superclass with
      | none => exact declareClass_binds ctx name none methods
      | some parent =>
        simp only [execute]
        apply (readVariable_binds ctx parent).bind
        intro value
        cases value with
        | callable f =>
          cases f with
          | cls c => exact declareClass_binds ctx name (some c) methods
          | native _ | function _ _ => exact binds_raise _ _
        | nil | bool _ | num _ | str _ | object _ _ => exact binds_raise _ _
termination_by fuel
decreasing_by all_goals omega

theorem executeAll_binds (fuel : Nat) (ctx : Context) (ss : List Stmt) :
    Binds ctx.env (Stmt.boundAll ss) (executeAll fuel ctx ss) := by
  cases fuel with
  | zero => exact binds_exhausted
  | succ fuel =>
    cases ss with
    | nil => exact binds_pure _
    | cons s rest =>
      simp only [executeAll]
      apply ((execute_binds fuel ctx s).mono (List.subset_append_left _ _)).bind
      intro flow
      cases flow with
      | normal => exact (executeAll_binds fuel ctx rest).mono (List.subset_append_right _ _)
      | returned value => exact binds_pure _
termination_by fuel
decreasing_by all_goals omega

end

end Runs

end Lox
