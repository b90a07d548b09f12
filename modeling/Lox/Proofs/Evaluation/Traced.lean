import Lox.Proofs.Evaluation.Steps

/-!
Evaluations that keep a history. They do what evaluations do and note besides what every frame was made
for, which declaration every class stems from and, whenever a variable, `this` or `super` is evaluated,
the state in which that happens. The history is kept also where an evaluation fails or takes too long.
-/
namespace Lox

/-- An evaluation of a node that reads a variable, with the state just before it. -/
structure Visit where
  access : Access
  token : Token
  ctx : Context
  world : World
  openers : Array Opener

structure History where
  /-- What the frames were made for, in the order of their creation. -/
  openers : Array Opener
  /-- The names in the declarations that classes stem from, by the identity of the class. -/
  classNames : Nat → Token
  /-- The mentions in the programs executed so far. -/
  mentions : List Mention
  visits : List Visit

/-- A world with the history that led to it. -/
structure Scene where
  history : History
  world : World

def Traced (α : Type) := Scene → Result α × History

namespace Traced

variable {α β : Type}

@[inline] def pure (value : α) : Traced α := fun scene => (.ok value scene.world, scene.history)

@[inline] def bind (m : Traced α) (next : α → Traced β) : Traced β := fun scene =>
  match m scene with
  | (.ok value world, history) => next value ⟨history, world⟩
  | (.error e world, history) => (.error e world, history)
  | (.exhausted, history) => (.exhausted, history)

instance : Monad Traced where
  pure := Traced.pure
  bind := Traced.bind

def lift (m : Evaluation α) : Traced α := fun scene => (m scene.world, scene.history)

instance : MonadLift Evaluation Traced := ⟨Traced.lift⟩

def visit (access : Access) (ctx : Context) (token : Token) : Traced Unit := fun scene =>
  let visit : Visit := ⟨access, token, ctx, scene.world, scene.history.openers⟩
  (.ok () scene.world, { scene.history with visits := visit :: scene.history.visits })

def openFrame (opener : Opener) (bindings : Bindings Value) (enclosing : Environment) :
    Traced Environment := fun scene =>
  (makeFrame bindings enclosing scene.world,
    { scene.history with openers := scene.history.openers.push opener })

/-- Notes that the next identity goes to a class. -/
def enroll (name : Token) : Traced Unit := fun scene =>
  let next := scene.world.nextId
  (.ok () scene.world,
    { scene.history with
      classNames := fun id => if id = next then name else scene.history.classNames id })

def className (id : Nat) : Traced Token := fun scene =>
  (.ok (scene.history.classNames id) scene.world, scene.history)

end Traced

/-- The class in the chain of superclasses that a method stems from. -/
def Class.declaring (name : String) : Class → Nat
  | ⟨id, _, superclass, methods⟩ =>
    match methods.get? name, superclass with
    | some _, _ => id
    | none, some parent => parent.declaring name
    | none, none => id

namespace Traced

def bindMethod (c : Class) (method : Closure) (receiver : Value) (name : String) :
    Traced Closure := do
  let cls ← className (c.declaring name)
  let env ← openFrame (.receiver cls) (.ofList [("this", receiver)]) method.env
  return { method with env }

def methodOf (c : Class) (property : Token) (receiver : Value) : Traced Value :=
  match c.findMethod? property.lexeme with
  | none => lift (Evaluation.raise property (.undefinedProperty property.lexeme))
  | some method => do
    let bound ← bindMethod c method receiver property.lexeme
    makeFunction bound

def readProperty (v : Value) (property : Token) : Traced Value :=
  match v with
  | .object id c => do
    match ← readField? id property.lexeme with
    | some value => return value
    | none => methodOf c property v
  | _ => lift (Evaluation.raise property .noProperties)

def readSuper (ctx : Context) (keyword method : Token) : Traced Value := fun scene =>
  match ctx.findSuper? scene.world.frames keyword with
  | some (.callable (.cls parent), .object id c) => methodOf parent method (.object id c) scene
  | _ => (.error ⟨keyword, .undefinedVariable keyword.lexeme⟩ scene.world, scene.history)

def methodsEnvironment (ctx : Context) (name : Token) : Option Class → Traced Environment
  | none => pure ctx.env
  | some parent =>
    openFrame (.superclass name) (.ofList [("super", .callable (.cls parent))]) ctx.env

def declareClass (ctx : Context) (name : Token) (superclass : Option Class) (methods : List FunDecl) :
    Traced Flow := do
  defineVariable ctx.env name.lexeme .nil
  let env ← methodsEnvironment ctx name superclass
  enroll name
  let id ← freshId
  assignDeclared ctx.env name
    (.callable (.cls ⟨id, name.lexeme, superclass, methodTable env methods⟩))
  return .normal

def steps : Steps Context Traced where
  node m := m
  env ctx := pure ctx.env
  readVariable access ctx name := do
    visit access ctx name
    readVariable ctx name
  readSuper ctx keyword method := do
    visit .super ctx keyword
    readSuper ctx keyword method
  assignVariable ctx name value := assignVariable ctx name value
  readProperty := readProperty
  bindMethod := bindMethod
  declareClass := declareClass
  invoke ctx paren _ _ m :=
    if maxCallDepth ≤ ctx.depth then lift (Evaluation.raise paren .stackOverflow)
    else m { ctx with depth := ctx.depth + 1 }
  scope ctx opener bindings enclosing m := do
    let env ← openFrame opener bindings enclosing
    m { ctx with env }

abbrev evaluate : Nat → Context → Expr → Traced Value := steps.evaluate

abbrev evaluateAll : Nat → Context → List Expr → Traced (List Value) := steps.evaluateAll

abbrev call : Nat → Context → Callable → List Value → Traced Value := steps.call

abbrev runBody : Nat → Context → Closure → List Value → Traced Value := steps.runBody

abbrev execute : Nat → Context → Stmt → Traced Flow := steps.execute

abbrev executeAll : Nat → Context → List Stmt → Traced Flow := steps.executeAll

abbrev executeTop : Nat → Context → List Stmt → Traced Unit := steps.executeTop

/-- A traced evaluation ends as an evaluation does. -/
def Erases (m : Traced α) (m' : Evaluation α) : Prop := ∀ scene, (m scene).1 = m' scene.world

variable {α β : Type}

section Rules

theorem erases_pure (value : α) : Erases (Pure.pure value : Traced α) (Pure.pure value) := fun _ => rfl

theorem erases_lift (m : Evaluation α) : Erases (Traced.lift m) m := fun _ => rfl

theorem erases_liftM (m : Evaluation α) : Erases (liftM m : Traced α) m := fun _ => rfl

theorem erases_openFrame (opener : Opener) (bindings : Bindings Value) (enclosing : Environment) :
    Erases (openFrame opener bindings enclosing) (makeFrame bindings enclosing) := fun _ => rfl

theorem Erases.bind {m : Traced α} {m' : Evaluation α} {next : α → Traced β}
    {next' : α → Evaluation β} (hm : Erases m m') (hnext : ∀ value, Erases (next value) (next' value)) :
    Erases (m >>= next) (m' >>= next') := by
  intro scene
  have hfirst := hm scene
  change (Traced.bind m next scene).1 = Evaluation.bind m' next' scene.world
  unfold Traced.bind Evaluation.bind
  rw [← hfirst]
  obtain ⟨result, history⟩ := m scene
  cases result with
  | ok value world => exact hnext value ⟨history, world⟩
  | error e world => rfl
  | exhausted => rfl

theorem Erases.note {note : Traced β} {m : Traced α} {m' : Evaluation α}
    (hnote : ∀ scene, ∃ value history, note scene = (.ok value scene.world, history))
    (hm : Erases m m') : Erases (note >>= fun _ => m) m' := by
  intro scene
  obtain ⟨value, history, hscene⟩ := hnote scene
  change (Traced.bind note (fun _ => m) scene).1 = m' scene.world
  unfold Traced.bind
  rw [hscene]
  exact hm ⟨history, scene.world⟩

theorem Erases.visit {m : Traced α} {m' : Evaluation α} (hm : Erases m m') (access : Access)
    (ctx : Context) (token : Token) : Erases (visit access ctx token >>= fun _ => m) m' :=
  hm.note fun _ => ⟨_, _, rfl⟩

theorem Erases.ite {m n : Traced α} {m' n' : Evaluation α} {c : Prop} [Decidable c] (hm : Erases m m')
    (hn : Erases n n') : Erases (if c then m else n) (if c then m' else n') := by
  split
  · exact hm
  · exact hn

end Rules

section Actions

theorem bindMethod_erases (c : Class) (method : Closure) (receiver : Value) (name : String) :
    Erases (bindMethod c method receiver name) (Lox.bindMethod method receiver) := by
  intro scene
  rfl

theorem methodOf_erases (c : Class) (property : Token) (receiver : Value) :
    Erases (methodOf c property receiver) (Lox.methodOf c property receiver) := by
  unfold methodOf Lox.methodOf
  cases c.findMethod? property.lexeme with
  | none => exact erases_lift _
  | some method =>
    apply Erases.bind (bindMethod_erases c method receiver property.lexeme)
    intro bound
    exact erases_liftM _

theorem readProperty_erases (v : Value) (property : Token) :
    Erases (readProperty v property) (Lox.readProperty v property) := by
  cases v with
  | object id c =>
    apply Erases.bind (erases_liftM (readField? id property.lexeme))
    intro field
    cases field with
    | none => exact methodOf_erases c property _
    | some value => exact erases_pure value
  | nil | bool _ | num _ | str _ | callable _ => exact erases_lift _

theorem readSuper_erases (ctx : Context) (keyword method : Token) :
    Erases (readSuper ctx keyword method) (Lox.readSuper ctx keyword method) := by
  intro scene
  unfold readSuper Lox.readSuper
  rcases ctx.findSuper? scene.world.frames keyword with _ | ⟨parent, receiver⟩
  · rfl
  · cases parent with
    | callable f =>
      cases f with
      | cls parent =>
        cases receiver with
        | object id c => exact methodOf_erases parent method (.object id c) scene
        | nil | bool _ | num _ | str _ | callable _ => rfl
      | native _ | function _ _ => rfl
    | nil | bool _ | num _ | str _ | object _ _ => rfl

theorem methodsEnvironment_erases (ctx : Context) (name : Token) (superclass : Option Class) :
    Erases (methodsEnvironment ctx name superclass) (Lox.methodsEnvironment ctx superclass) := by
  cases superclass with
  | none => exact erases_pure ctx.env
  | some parent => exact erases_openFrame _ _ _

theorem declareClass_erases (ctx : Context) (name : Token) (superclass : Option Class)
    (methods : List FunDecl) :
    Erases (declareClass ctx name superclass methods)
      (Lox.declareClass ctx name superclass methods) := by
  rw [declareClass_eq]
  apply Erases.bind (erases_liftM (defineVariable ctx.env name.lexeme .nil))
  intro _
  apply Erases.bind (methodsEnvironment_erases ctx name superclass)
  intro env
  apply Erases.note
  · intro scene
    exact ⟨_, _, rfl⟩
  · apply Erases.bind (erases_liftM freshId)
    intro id
    apply Erases.bind (erases_liftM _)
    intro _
    exact erases_pure Flow.normal

end Actions

theorem steps_erase : steps.Respects fun _ m m' => ∀ ctx, Erases (m ctx) (m' ctx) where
  action _ _ := erases_liftM _
  pure value _ := erases_pure value
  bind hm hnext ctx := (hm ctx).bind fun value => hnext value ctx
  node hm := hm
  env _ := erases_pure _
  readVariable access name ctx := (erases_liftM (readVariable ctx name)).visit access ctx name
  readSuper keyword method ctx := (readSuper_erases ctx keyword method).visit .super ctx keyword
  assignVariable _ _ _ := erases_liftM _
  readProperty v property _ := readProperty_erases v property
  bindMethod c method receiver name _ := bindMethod_erases c method receiver name
  declareClass name superclass methods ctx := declareClass_erases ctx name superclass methods
  invoke hm _ _ _ _ _ := .ite (erases_lift _) (hm _)
  scope hm opener bindings enclosing _ := (erases_openFrame opener bindings enclosing).bind fun _ => hm _

section Evaluations

variable (fuel : Nat) (ctx : Context)

theorem evaluate_erases (e : Expr) : Erases (evaluate fuel ctx e) (Lox.evaluate fuel ctx e) :=
  (Steps.depthRespects steps_erase fuel).evaluate e ctx

theorem evaluateAll_erases (es : List Expr) :
    Erases (evaluateAll fuel ctx es) (Lox.evaluateAll fuel ctx es) :=
  (Steps.depthRespects steps_erase fuel).evaluateAll es ctx

theorem execute_erases (s : Stmt) : Erases (execute fuel ctx s) (Lox.execute fuel ctx s) :=
  (Steps.depthRespects steps_erase fuel).execute s ctx

theorem executeTop_erases (program : List Stmt) :
    Erases (executeTop fuel ctx program) (Session.executeTop fuel ctx program) :=
  Steps.executeTop_respects steps_erase fuel program ctx

end Evaluations

end Traced

end Lox
