import Lox.Proofs.Evaluation.Basic
import Lox.Proofs.Relabelling.Value

/-!
Evaluation commutes with relabelling. Two evaluations go side by side, one over relabelled syntax in a
relabelled world: where their hop tables agree at corresponding tokens and their consoles answer alike,
they end alike. An evaluation sees the index of a token only through the hop table, and the line of a
token only in errors.
-/
namespace Lox

variable {r : Relabelling} {C : Console → Console → Prop} {α β γ δ : Type}

def RuntimeError.relabel (r : Relabelling) (e : RuntimeError) : RuntimeError := ⟨r e.token, e.fault⟩

def Flow.relabel (r : Relabelling) : Flow → Flow
  | .normal => .normal
  | .returned value => .returned (value.relabel r)

/-- Consoles in the relation answer every print alike and stay in the relation. -/
def PrintsAlike (C : Console → Console → Prop) : Prop :=
  ∀ c c', C c c' → ∀ text, (c'.print text).1 = (c.print text).1 ∧ C (c.print text).2 (c'.print text).2

/-- A world and its relabelling, but for the consoles. -/
structure World.Alike (r : Relabelling) (C : Console → Console → Prop) (w w' : World) : Prop where
  frames : w'.frames = w.frames.map (·.relabel r)
  objects : w'.objects = w.objects.map (·.map (·.relabel r))
  nextId : w'.nextId = w.nextId
  clock : w'.clock = w.clock
  console : C w.console w'.console

theorem World.Alike.eq {r : Relabelling} {w w' w'' : World} (h : w.Alike r Eq w')
    (h' : w.Alike r Eq w'') : w' = w'' := by
  cases w'
  cases w''
  have hframes := h.frames.trans h'.frames.symm
  have hobjects := h.objects.trans h'.objects.symm
  have hnextId := h.nextId.trans h'.nextId.symm
  have hclock := h.clock.trans h'.clock.symm
  have hconsole := h.console.symm.trans h'.console
  simp_all

/-- Where every token stays where it is, worlds can only differ in their consoles. -/
theorem World.alike_stay {w : World} {c : Console} (h : C w.console c) :
    w.Alike .stay C { w with console := c } := by
  constructor
  case console => exact h
  all_goals simp

theorem World.Alike.eq_of_stay {w w' : World} (h : w.Alike .stay C w') :
    w' = { w with console := w'.console } ∧ C w.console w'.console := by
  obtain ⟨frames, objects, nextId, clock, console⟩ := w'
  obtain ⟨hframes, hobjects, hnextId, hclock, hconsole⟩ := h
  simp only [Value.relabel_stay, Frames.map_self, Bindings.map_self, Array.map_id'] at hframes hobjects
  subst hframes hobjects hnextId hclock
  exact ⟨rfl, hconsole⟩

def Addressing.Agree (r : Relabelling) : Addressing → Addressing → Prop
  | .distances hops, .distances hops' => ∀ t : Token, hops'[r.index t]? = hops[t.index]?
  | .search, .search => True
  | _, _ => False

structure Context.Alike (r : Relabelling) (ctx ctx' : Context) : Prop where
  addressing : ctx.addressing.Agree r ctx'.addressing
  env : ctx'.env = ctx.env
  depth : ctx'.depth = ctx.depth

theorem Context.alike_stay (ctx : Context) : ctx.Alike .stay ctx := by
  refine ⟨?_, rfl, rfl⟩
  cases ctx.addressing with
  | distances hops => exact fun _ => rfl
  | search => trivial

def Result.Alike (r : Relabelling) (C : Console → Console → Prop) (g : α → β) :
    Result α → Result β → Prop
  | .ok value w, .ok value' w' => value' = g value ∧ w.Alike r C w'
  | .error e w, .error e' w' => e' = e.relabel r ∧ w.Alike r C w'
  | .exhausted, .exhausted => True
  | _, _ => False

/-- An evaluation ends in a relabelled world as another one does in the world. -/
def Mirrors (r : Relabelling) (C : Console → Console → Prop) (g : α → β) (m : Evaluation α)
    (m' : Evaluation β) : Prop :=
  ∀ w w', w.Alike r C w' → Result.Alike r C g (m w) (m' w')

open Evaluation

section Rules

theorem mirrors_pure {g : α → β} (value : α) :
    Mirrors r C g (Pure.pure value : Evaluation α) (Pure.pure (g value) : Evaluation β) :=
  fun _ _ hw => ⟨rfl, hw⟩

theorem mirrors_exhausted {g : α → β} :
    Mirrors r C g (exhausted : Evaluation α) (exhausted : Evaluation β) := fun _ _ _ => trivial

theorem mirrors_raise {g : α → β} (t : Token) (fault : RuntimeFault) :
    Mirrors r C g (raise t fault : Evaluation α) (raise (r t) fault : Evaluation β) :=
  fun _ _ hw => ⟨rfl, hw⟩

theorem mirrors_lift {g : α → β} (t : Token) (value : Except RuntimeFault α) :
    Mirrors r C g (lift t value) (lift (r t) (value.map g)) := by
  cases value with
  | ok value => exact mirrors_pure value
  | error fault => exact mirrors_raise t fault

theorem Mirrors.bind {g : α → β} {h : γ → δ} {m : Evaluation α} {m' : Evaluation β}
    {next : α → Evaluation γ} {next' : β → Evaluation δ} (hm : Mirrors r C g m m')
    (hnext : ∀ value, Mirrors r C h (next value) (next' (g value))) :
    Mirrors r C h (m >>= next) (m' >>= next') := by
  intro w w' hw
  have hfirst := hm w w' hw
  change Result.Alike r C h (Evaluation.bind m next w) (Evaluation.bind m' next' w')
  unfold Evaluation.bind
  cases hrun : m w <;> cases hrun' : m' w' <;> rw [hrun, hrun'] at hfirst
  case ok.ok value v value' v' =>
    obtain ⟨rfl, hv⟩ := hfirst
    exact hnext value v v' hv
  case error.error => exact hfirst
  case exhausted.exhausted => trivial
  all_goals contradiction

theorem Mirrors.ite {g : α → β} {m n : Evaluation α} {m' n' : Evaluation β} {c c' : Prop}
    [Decidable c] [Decidable c'] (hc : c ↔ c') (hm : Mirrors r C g m m') (hn : Mirrors r C g n n') :
    Mirrors r C g (if c then m else n) (if c' then m' else n') := by
  by_cases h : c
  · rwa [if_pos h, if_pos (hc.1 h)]
  · rwa [if_neg h, if_neg (mt hc.2 h)]

end Rules

section Actions

variable {ctx ctx' : Context}

theorem Context.find?_relabel (h : ctx.Alike r ctx') (frames : Frames Value) (name : Token) :
    ctx'.find? (frames.map (·.relabel r)) (r name) = (ctx.find? frames name).map (·.relabel r) := by
  obtain ⟨haddressing, henv, -⟩ := h
  unfold Context.find?
  rw [henv]
  cases haddr : ctx.addressing <;> cases haddr' : ctx'.addressing <;>
    rw [haddr, haddr'] at haddressing
  case distances.distances hops hops' =>
    dsimp only
    rw [Relabelling.apply_index, haddressing name]
    cases hops[name.index]? with
    | none => exact Frames.get_map _ frames globalEnv name.lexeme
    | some distance => exact Frames.getAt_map _ frames ctx.env distance name.lexeme
  case search.search => exact Frames.get_map _ frames ctx.env name.lexeme
  all_goals contradiction

theorem Context.assign?_relabel (h : ctx.Alike r ctx') (frames : Frames Value) (name : Token)
    (value : Value) :
    ctx'.assign? (frames.map (·.relabel r)) (r name) (value.relabel r) =
      (ctx.assign? frames name value).map (·.map (·.relabel r)) := by
  obtain ⟨haddressing, henv, -⟩ := h
  unfold Context.assign?
  rw [henv]
  cases haddr : ctx.addressing <;> cases haddr' : ctx'.addressing <;>
    rw [haddr, haddr'] at haddressing
  case distances.distances hops hops' =>
    dsimp only
    rw [Relabelling.apply_index, haddressing name]
    cases hops[name.index]? with
    | none => exact Frames.assign_map (Value.relabel r) frames globalEnv name.lexeme value
    | some distance =>
      exact Frames.assignAt_map (Value.relabel r) frames ctx.env distance name.lexeme value
  case search.search =>
    exact Frames.assign_map (Value.relabel r) frames ctx.env name.lexeme value
  all_goals contradiction

theorem Context.findSuper?_relabel (h : ctx.Alike r ctx') (frames : Frames Value) (keyword : Token) :
    ctx'.findSuper? (frames.map (·.relabel r)) (r keyword) =
      (ctx.findSuper? frames keyword).map fun found => (found.1.relabel r, found.2.relabel r) := by
  obtain ⟨haddressing, henv, -⟩ := h
  unfold Context.findSuper?
  rw [henv]
  cases haddr : ctx.addressing <;> cases haddr' : ctx'.addressing <;>
    rw [haddr, haddr'] at haddressing
  case distances.distances hops hops' =>
    dsimp only
    rw [Relabelling.apply_index, haddressing keyword]
    cases hops[keyword.index]? with
    | none => rfl
    | some distance =>
      simp only [Option.bind_eq_bind, Option.bind_some, Frames.getAt_map]
      cases frames.getAt ctx.env distance "super" <;>
        cases frames.getAt ctx.env (distance - 1) "this" <;> rfl
  case search.search =>
    simp only [Option.bind_eq_bind, Frames.get_map]
    cases frames.get ctx.env "super" <;> cases frames.get ctx.env "this" <;> rfl
  all_goals contradiction

theorem readVariable_mirrors (h : ctx.Alike r ctx') (name : Token) :
    Mirrors r C (·.relabel r) (readVariable ctx name) (readVariable ctx' (r name)) := by
  intro w w' hw
  unfold readVariable
  rw [hw.frames, Context.find?_relabel h]
  cases ctx.find? w.frames name with
  | none => exact ⟨rfl, hw⟩
  | some value => exact ⟨rfl, hw⟩

theorem assignVariable_mirrors (h : ctx.Alike r ctx') (name : Token) (value : Value) :
    Mirrors r C id (assignVariable ctx name value)
      (assignVariable ctx' (r name) (value.relabel r)) := by
  intro w w' hw
  unfold assignVariable
  rw [hw.frames, Context.assign?_relabel h]
  cases ctx.assign? w.frames name value with
  | none => exact ⟨rfl, hw⟩
  | some frames => exact ⟨rfl, { hw with frames := rfl }⟩

theorem assignDeclared_mirrors (env : Environment) (name : Token) (value : Value) :
    Mirrors r C id (assignDeclared env name value)
      (assignDeclared env (r name) (value.relabel r)) := by
  intro w w' hw
  unfold assignDeclared
  rw [hw.frames, Relabelling.apply_lexeme,
    Frames.assign_map (Value.relabel r) w.frames env name.lexeme value]
  cases w.frames.assign env name.lexeme value with
  | none => exact ⟨rfl, hw⟩
  | some frames => exact ⟨rfl, { hw with frames := rfl }⟩

theorem makeFrame_mirrors (bindings : Bindings Value) (enclosing : Environment) :
    Mirrors r C id (makeFrame bindings enclosing)
      (makeFrame (bindings.map (·.relabel r)) enclosing) := by
  intro w w' hw
  unfold makeFrame
  rw [hw.frames, Frames.create_map]
  exact ⟨rfl, { hw with frames := rfl }⟩

theorem defineVariable_mirrors (env : Environment) (name : String) (value : Value) :
    Mirrors r C id (defineVariable env name value) (defineVariable env name (value.relabel r)) := by
  intro w w' hw
  unfold defineVariable
  rw [hw.frames, Frames.define_map (Value.relabel r) w.frames env name value]
  exact ⟨rfl, { hw with frames := rfl }⟩

theorem freshId_mirrors : Mirrors r C id freshId freshId := by
  intro w w' hw
  have hnext : w'.nextId + 1 = w.nextId + 1 := by rw [hw.nextId]
  exact ⟨hw.nextId, { hw with nextId := hnext }⟩

theorem makeFunction_mirrors (closure : Closure) :
    Mirrors r C (·.relabel r) (makeFunction closure) (makeFunction (closure.relabel r)) := by
  unfold makeFunction
  apply Mirrors.bind freshId_mirrors
  intro id
  exact mirrors_pure (Value.callable (.function id closure))

theorem makeObject_mirrors (c : Class) :
    Mirrors r C (·.relabel r) (makeObject c) (makeObject (c.relabel r)) := by
  intro w w' hw
  unfold makeObject
  rw [hw.objects, Array.size_map]
  have hobjects : (w.objects.map (·.map (·.relabel r))).push .empty =
      (w.objects.push .empty).map (·.map (·.relabel r)) := by
    simp
  exact ⟨rfl, { hw with objects := hobjects }⟩

theorem bindMethod_mirrors (method : Closure) (receiver : Value) :
    Mirrors r C (·.relabel r) (bindMethod method receiver)
      (bindMethod (method.relabel r) (receiver.relabel r)) := by
  unfold bindMethod
  have hframe : (Bindings.ofList [("this", receiver)]).map (·.relabel r) =
      .ofList [("this", receiver.relabel r)] :=
    Bindings.map_ofList _ _
  rw [← hframe]
  apply Mirrors.bind (makeFrame_mirrors _ method.env)
  intro env
  exact mirrors_pure { method with env }

theorem receiver_mirrors (method : Closure) :
    Mirrors r C (·.relabel r) (receiver method) (receiver (method.relabel r)) := by
  intro w w' hw
  unfold receiver
  rw [hw.frames, Closure.relabel_env, Frames.getAt_map]
  cases w.frames.getAt method.env 0 "this" with
  | none => exact ⟨rfl, hw⟩
  | some value => exact ⟨rfl, hw⟩

theorem readField?_mirrors (id : Nat) (name : String) :
    Mirrors r C (Option.map (·.relabel r)) (readField? id name) (readField? id name) := by
  intro w w' hw
  unfold readField?
  rw [hw.objects, Array.getElem?_map]
  refine ⟨?_, hw⟩
  cases w.objects[id]? with
  | none => rfl
  | some fields => exact Bindings.get?_map _ fields name

theorem setField_mirrors (object : Nat) (name : String) (value : Value) :
    Mirrors r C id (setField object name value) (setField object name (value.relabel r)) := by
  intro w w' hw
  unfold setField
  rw [hw.objects]
  have hobjects : (w.objects.map (·.map (·.relabel r))).modify object (·.insert name (value.relabel r)) =
      (w.objects.modify object (·.insert name value)).map (·.map (·.relabel r)) := by
    apply Array.ext
    · simp
    · intro i h h'
      simp only [Array.getElem_modify, Array.getElem_map]
      split <;> simp
  exact ⟨rfl, { hw with objects := hobjects }⟩

theorem methodOf_mirrors (c : Class) (property : Token) (receiver : Value) :
    Mirrors r C (·.relabel r) (methodOf c property receiver)
      (methodOf (c.relabel r) (r property) (receiver.relabel r)) := by
  unfold methodOf
  rw [Relabelling.apply_lexeme, Class.findMethod?_relabel]
  cases c.findMethod? property.lexeme with
  | none => exact mirrors_raise property _
  | some method =>
    apply Mirrors.bind (bindMethod_mirrors method receiver)
    intro closure
    exact makeFunction_mirrors closure

theorem readProperty_mirrors (v : Value) (property : Token) :
    Mirrors r C (·.relabel r) (readProperty v property)
      (readProperty (v.relabel r) (r property)) := by
  unfold readProperty
  cases v with
  | object id c =>
    apply Mirrors.bind (readField?_mirrors id property.lexeme)
    intro value?
    cases value? with
    | none => exact methodOf_mirrors c property (.object id c)
    | some value => exact mirrors_pure value
  | nil | bool _ | num _ | str _ | callable _ => exact mirrors_raise property _

theorem readSuper_mirrors (h : ctx.Alike r ctx') (keyword method : Token) :
    Mirrors r C (·.relabel r) (readSuper ctx keyword method)
      (readSuper ctx' (r keyword) (r method)) := by
  intro w w' hw
  unfold readSuper
  rw [hw.frames, Context.findSuper?_relabel h]
  have herror : Result.Alike r C (Value.relabel r)
      (.error ⟨keyword, .undefinedVariable keyword.lexeme⟩ w)
      (.error ⟨r keyword, .undefinedVariable keyword.lexeme⟩ w') :=
    ⟨rfl, hw⟩
  cases ctx.findSuper? w.frames keyword with
  | none => exact herror
  | some found =>
    obtain ⟨parent, receiver⟩ := found
    cases parent with
    | callable f =>
      cases f with
      | cls parent =>
        cases receiver with
        | object id c => exact methodOf_mirrors parent method (.object id c) w w' hw
        | nil | bool _ | num _ | str _ | callable _ => exact herror
      | native _ | function _ _ => exact herror
    | nil | bool _ | num _ | str _ | object _ _ => exact herror

theorem readClock_mirrors : Mirrors r C (·.relabel r) readClock readClock := by
  intro w w' hw
  unfold readClock
  rw [hw.clock]
  exact ⟨rfl, { hw with clock := rfl }⟩

theorem printLine_mirrors (hC : PrintsAlike C) (keyword : Token) (text : String) :
    Mirrors r C id (printLine keyword text) (printLine (r keyword) text) := by
  intro w w' hw
  obtain ⟨hrefusal, hconsole⟩ := hC _ _ hw.console (text ++ "\n")
  unfold printLine
  dsimp only
  rw [hrefusal]
  cases (w.console.print (text ++ "\n")).1 with
  | none => exact ⟨rfl, { hw with console := hconsole }⟩
  | some reason => exact ⟨rfl, { hw with console := hconsole }⟩

theorem methodTable_relabel (env : Environment) (methods : List FunDecl) :
    (methodTable env methods).map (·.relabel r) =
      methodTable env (FunDecl.relabelAll r methods) := by
  unfold methodTable
  rw [Bindings.map_ofList, FunDecl.relabelAll_eq_map]
  simp [Closure.relabel, Function.comp_def]

theorem methodsEnvironment_mirrors (h : ctx.Alike r ctx') (superclass : Option Class) :
    Mirrors r C id (methodsEnvironment ctx superclass)
      (methodsEnvironment ctx' (superclass.map (·.relabel r))) := by
  unfold methodsEnvironment
  rw [h.env]
  cases superclass with
  | none => exact mirrors_pure ctx.env
  | some parent =>
    have hframe : (Bindings.ofList [("super", Value.callable (.cls parent))]).map (·.relabel r) =
        .ofList [("super", .callable (.cls (parent.relabel r)))] :=
      Bindings.map_ofList _ _
    dsimp only [Option.map_some]
    rw [← hframe]
    exact makeFrame_mirrors _ ctx.env

theorem declareClass_mirrors (h : ctx.Alike r ctx') (name : Token) (superclass : Option Class)
    (methods : List FunDecl) :
    Mirrors r C (·.relabel r) (declareClass ctx name superclass methods)
      (declareClass ctx' (r name) (superclass.map (·.relabel r)) (FunDecl.relabelAll r methods)) := by
  rw [declareClass_eq, declareClass_eq, h.env]
  apply Mirrors.bind (defineVariable_mirrors ctx.env name.lexeme .nil)
  intro _
  apply Mirrors.bind (methodsEnvironment_mirrors h superclass)
  intro env
  apply Mirrors.bind freshId_mirrors
  intro number
  have hcls :
      (Value.callable (.cls ⟨number, name.lexeme, superclass, methodTable env methods⟩)).relabel r =
      .callable (.cls ⟨number, name.lexeme, superclass.map (·.relabel r),
        methodTable env (FunDecl.relabelAll r methods)⟩) := by
    cases superclass <;>
      simp only [Value.relabel, Callable.relabel, Class.relabel, methodTable_relabel,
        Option.map_none, Option.map_some]
  simp only [id_eq, Relabelling.apply_lexeme]
  rw [← hcls]
  apply Mirrors.bind (assignDeclared_mirrors ctx.env name _)
  intro _
  exact mirrors_pure Flow.normal

end Actions

theorem Context.Alike.inside {ctx ctx' : Context} (h : ctx.Alike r ctx') (env : Environment) :
    Context.Alike r { ctx with env } { ctx' with env } :=
  ⟨h.addressing, rfl, h.depth⟩

theorem Context.Alike.deeper {ctx ctx' : Context} (h : ctx.Alike r ctx') :
    Context.Alike r { ctx with depth := ctx.depth + 1 } { ctx' with depth := ctx'.depth + 1 } :=
  ⟨h.addressing, h.env, congrArg (· + 1) h.depth⟩

theorem classDecl_mirrors {fuel : Nat} {ctx ctx' : Context} (h : ctx.Alike r ctx') (name : Token)
    (superclass : Option Token) (methods : List FunDecl) :
    Mirrors r C (·.relabel r) (execute (fuel + 1) ctx (.classDecl name superclass methods))
      (execute (fuel + 1) ctx' (Stmt.relabel r (.classDecl name superclass methods))) := by
  cases superclass with
  | none =>
    simp only [Stmt.relabel, execute, Option.map_none]
    exact declareClass_mirrors h name none methods
  | some parent =>
    simp only [Stmt.relabel, execute, Option.map_some]
    apply Mirrors.bind (readVariable_mirrors h parent)
    intro value
    cases value with
    | callable f =>
      cases f with
      | cls c => exact declareClass_mirrors h name (some c) methods
      | native _ | function _ _ => exact mirrors_raise parent _
    | nil | bool _ | num _ | str _ | object _ _ => exact mirrors_raise parent _

mutual

theorem evaluate_mirrors (hC : PrintsAlike C) (fuel : Nat) {ctx ctx' : Context}
    (h : ctx.Alike r ctx') (e : Expr) :
    Mirrors r C (·.relabel r) (evaluate fuel ctx e) (evaluate fuel ctx' (e.relabel r)) := by
  cases fuel with
  | zero => exact mirrors_exhausted
  | succ fuel =>
    cases e with
    | literal value =>
      simp only [Expr.relabel, evaluate]
      have hliteral := mirrors_pure (r := r) (C := C) (g := Value.relabel r) (Value.ofLiteral value)
      rwa [Value.relabel_ofLiteral] at hliteral
    | var name =>
      simp only [Expr.relabel, evaluate]
      exact readVariable_mirrors h name
    | assign name value =>
      simp only [Expr.relabel, evaluate]
      apply Mirrors.bind (evaluate_mirrors hC fuel h value)
      intro value
      apply Mirrors.bind (assignVariable_mirrors h name value)
      intro _
      exact mirrors_pure value
    | unary op operand =>
      simp only [Expr.relabel, evaluate]
      apply Mirrors.bind (evaluate_mirrors hC fuel h operand)
      intro operand
      rw [Relabelling.apply_kind, unaryOperation_relabel]
      exact mirrors_lift op _
    | binary left op right =>
      simp only [Expr.relabel, evaluate]
      apply Mirrors.bind (evaluate_mirrors hC fuel h left)
      intro left
      apply Mirrors.bind (evaluate_mirrors hC fuel h right)
      intro right
      rw [Relabelling.apply_kind, binaryOperation_relabel]
      exact mirrors_lift op _
    | logical left op right =>
      simp only [Expr.relabel, evaluate]
      apply Mirrors.bind (evaluate_mirrors hC fuel h left)
      intro left
      rw [Relabelling.apply_kind, settles_relabel]
      apply Mirrors.ite Iff.rfl
      · exact mirrors_pure left
      · exact evaluate_mirrors hC fuel h right
    | group inner =>
      simp only [Expr.relabel, evaluate]
      exact evaluate_mirrors hC fuel h inner
    | call callee paren args =>
      simp only [Expr.relabel, evaluate]
      apply Mirrors.bind (evaluate_mirrors hC fuel h callee)
      intro callee
      apply Mirrors.bind (evaluateAll_mirrors hC fuel h args)
      intro args
      cases callee with
      | callable f =>
        simp only [Value.relabel, Callable.arity_relabel, List.length_map]
        apply Mirrors.ite Iff.rfl
        · exact mirrors_raise paren _
        · apply Mirrors.ite (by rw [h.depth])
          · exact mirrors_raise paren _
          · exact call_mirrors hC fuel h.deeper f args
      | nil | bool _ | num _ | str _ | object _ _ => exact mirrors_raise paren _
    | get object property =>
      simp only [Expr.relabel, evaluate]
      apply Mirrors.bind (evaluate_mirrors hC fuel h object)
      intro object
      exact readProperty_mirrors object property
    | set object property value =>
      simp only [Expr.relabel, evaluate]
      apply Mirrors.bind (evaluate_mirrors hC fuel h object)
      intro object
      cases object with
      | object id c =>
        simp only [Value.relabel, Relabelling.apply_lexeme]
        apply Mirrors.bind (evaluate_mirrors hC fuel h value)
        intro value
        apply Mirrors.bind (setField_mirrors id property.lexeme value)
        intro _
        exact mirrors_pure value
      | nil | bool _ | num _ | str _ | callable _ => exact mirrors_raise property _
    | this keyword =>
      simp only [Expr.relabel, evaluate]
      exact readVariable_mirrors h keyword
    | super keyword method =>
      simp only [Expr.relabel, evaluate]
      exact readSuper_mirrors h keyword method
termination_by fuel
decreasing_by all_goals omega

theorem evaluateAll_mirrors (hC : PrintsAlike C) (fuel : Nat) {ctx ctx' : Context}
    (h : ctx.Alike r ctx') (es : List Expr) :
    Mirrors r C (List.map (·.relabel r)) (evaluateAll fuel ctx es)
      (evaluateAll fuel ctx' (Expr.relabelAll r es)) := by
  cases fuel with
  | zero => exact mirrors_exhausted
  | succ fuel =>
    cases es with
    | nil =>
      simp only [Expr.relabelAll, evaluateAll]
      exact mirrors_pure []
    | cons e rest =>
      simp only [Expr.relabelAll, evaluateAll]
      apply Mirrors.bind (evaluate_mirrors hC fuel h e)
      intro value
      apply Mirrors.bind (evaluateAll_mirrors hC fuel h rest)
      intro values
      exact mirrors_pure (value :: values)
termination_by fuel
decreasing_by all_goals omega

theorem call_mirrors (hC : PrintsAlike C) (fuel : Nat) {ctx ctx' : Context} (h : ctx.Alike r ctx')
    (f : Callable) (args : List Value) :
    Mirrors r C (·.relabel r) (call fuel ctx f args)
      (call fuel ctx' (f.relabel r) (args.map (·.relabel r))) := by
  cases fuel with
  | zero => exact mirrors_exhausted
  | succ fuel =>
    cases f with
    | native f =>
      cases f
      simp only [Callable.relabel, call]
      exact readClock_mirrors
    | function id closure =>
      simp only [Callable.relabel, call]
      exact runBody_mirrors hC fuel h closure args
    | cls c =>
      simp only [Callable.relabel, call]
      apply Mirrors.bind (makeObject_mirrors c)
      intro object
      rw [Class.findMethod?_relabel]
      cases c.findMethod? initializerName with
      | none => exact mirrors_pure object
      | some method =>
        apply Mirrors.bind (bindMethod_mirrors method object)
        intro init
        apply Mirrors.bind (runBody_mirrors hC fuel h init args)
        intro _
        exact mirrors_pure object
termination_by fuel
decreasing_by all_goals omega

theorem runBody_mirrors (hC : PrintsAlike C) (fuel : Nat) {ctx ctx' : Context}
    (h : ctx.Alike r ctx') (closure : Closure) (args : List Value) :
    Mirrors r C (·.relabel r) (runBody fuel ctx closure args)
      (runBody fuel ctx' (closure.relabel r) (args.map (·.relabel r))) := by
  cases fuel with
  | zero => exact mirrors_exhausted
  | succ fuel =>
    have hbindings :
        (Bindings.ofList ((closure.decl.params.map Token.lexeme).zip args)).map (·.relabel r) =
        .ofList (((closure.decl.params.map r).map Token.lexeme).zip (args.map (·.relabel r))) := by
      rw [Bindings.map_ofList, List.map_map, List.zip_map_right]
      rfl
    simp only [runBody, Closure.relabel_decl, FunDecl.relabel_params, Closure.relabel_env,
      FunDecl.relabel_body, Closure.relabel_isInitializer]
    rw [← hbindings]
    apply Mirrors.bind (makeFrame_mirrors _ closure.env)
    intro env
    apply Mirrors.bind (executeAll_mirrors hC fuel (h.inside env) closure.decl.body)
    intro flow
    apply Mirrors.ite Iff.rfl
    · exact receiver_mirrors closure
    · cases flow with
      | normal => exact mirrors_pure Value.nil
      | returned value => exact mirrors_pure value
termination_by fuel
decreasing_by all_goals omega

theorem execute_mirrors (hC : PrintsAlike C) (fuel : Nat) {ctx ctx' : Context}
    (h : ctx.Alike r ctx') (s : Stmt) :
    Mirrors r C (·.relabel r) (execute fuel ctx s) (execute fuel ctx' (s.relabel r)) := by
  cases fuel with
  | zero => exact mirrors_exhausted
  | succ fuel =>
    cases s with
    | expr e =>
      simp only [Stmt.relabel, execute]
      apply Mirrors.bind (evaluate_mirrors hC fuel h e)
      intro _
      exact mirrors_pure Flow.normal
    | print keyword value =>
      simp only [Stmt.relabel, execute]
      apply Mirrors.bind (evaluate_mirrors hC fuel h value)
      intro value
      rw [Value.text_relabel]
      apply Mirrors.bind (printLine_mirrors hC keyword value.text)
      intro _
      exact mirrors_pure Flow.normal
    | varDecl name init =>
      cases init with
      | none =>
        simp only [Stmt.relabel, execute, Option.map_none]
        rw [h.env]
        apply Mirrors.bind (defineVariable_mirrors ctx.env name.lexeme .nil)
        intro _
        exact mirrors_pure Flow.normal
      | some init =>
        simp only [Stmt.relabel, execute, Option.map_some]
        apply Mirrors.bind (evaluate_mirrors hC fuel h init)
        intro value
        rw [h.env]
        apply Mirrors.bind (defineVariable_mirrors ctx.env name.lexeme value)
        intro _
        exact mirrors_pure Flow.normal
    | block body =>
      simp only [Stmt.relabel, execute]
      rw [h.env]
      apply Mirrors.bind (makeFrame_mirrors .empty ctx.env)
      intro env
      exact executeAll_mirrors hC fuel (h.inside env) body
    | ifThen condition yes =>
      simp only [Stmt.relabel, execute]
      apply Mirrors.bind (evaluate_mirrors hC fuel h condition)
      intro condition
      apply Mirrors.ite (by rw [Value.isTruthy_relabel])
      · exact execute_mirrors hC fuel h yes
      · exact mirrors_pure Flow.normal
    | ifElse condition yes no =>
      simp only [Stmt.relabel, execute]
      apply Mirrors.bind (evaluate_mirrors hC fuel h condition)
      intro condition
      apply Mirrors.ite (by rw [Value.isTruthy_relabel])
      · exact execute_mirrors hC fuel h yes
      · exact execute_mirrors hC fuel h no
    | whileLoop condition body =>
      simp only [Stmt.relabel, execute]
      apply Mirrors.bind (evaluate_mirrors hC fuel h condition)
      intro holds
      apply Mirrors.ite (by rw [Value.isTruthy_relabel])
      · apply Mirrors.bind (execute_mirrors hC fuel h body)
        intro flow
        cases flow with
        | normal => exact execute_mirrors hC fuel h (.whileLoop condition body)
        | returned value => exact mirrors_pure (Flow.returned value)
      · exact mirrors_pure Flow.normal
    | ret keyword value =>
      cases value with
      | none =>
        simp only [Stmt.relabel, execute, Option.map_none]
        exact mirrors_pure (Flow.returned .nil)
      | some value =>
        simp only [Stmt.relabel, execute, Option.map_some]
        apply Mirrors.bind (evaluate_mirrors hC fuel h value)
        intro value
        exact mirrors_pure (Flow.returned value)
    | funDecl function =>
      simp only [Stmt.relabel, execute, FunDecl.relabel_name, Relabelling.apply_lexeme]
      rw [h.env]
      apply Mirrors.bind (makeFunction_mirrors ⟨function, ctx.env, false⟩)
      intro value
      apply Mirrors.bind (defineVariable_mirrors ctx.env function.name.lexeme value)
      intro _
      exact mirrors_pure Flow.normal
    | classDecl name superclass methods => exact classDecl_mirrors h name superclass methods
termination_by fuel
decreasing_by all_goals omega

theorem executeAll_mirrors (hC : PrintsAlike C) (fuel : Nat) {ctx ctx' : Context}
    (h : ctx.Alike r ctx') (ss : List Stmt) :
    Mirrors r C (·.relabel r) (executeAll fuel ctx ss)
      (executeAll fuel ctx' (Stmt.relabelAll r ss)) := by
  cases fuel with
  | zero => exact mirrors_exhausted
  | succ fuel =>
    cases ss with
    | nil =>
      simp only [Stmt.relabelAll, executeAll]
      exact mirrors_pure Flow.normal
    | cons s rest =>
      simp only [Stmt.relabelAll, executeAll]
      apply Mirrors.bind (execute_mirrors hC fuel h s)
      intro flow
      cases flow with
      | normal => exact executeAll_mirrors hC fuel h rest
      | returned value => exact mirrors_pure (Flow.returned value)
termination_by fuel
decreasing_by all_goals omega

end

end Lox
