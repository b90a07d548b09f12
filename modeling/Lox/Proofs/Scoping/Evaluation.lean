import Lox.Proofs.Scoping.Actions

/-!
Evaluations in sound scenes. Where an evaluation starts with an environment that follows the stack of
scopes around the code, it ends in a sound scene, and every node it comes across on the way reads what
its mention was resolved to.
-/
namespace Lox

/-- An evaluation may start at a stack of scopes: its environment follows the stack, and the mentions in
its code are known. -/
structure Scene.Stands (hops : HopTable) (scene : Scene) (ctx : Context) (stack : ScopeStack)
    (ms : List Mention) : Prop where
  sound : scene.Sound hops
  addressing : ctx.addressing = .distances hops
  follows : scene.Follows ctx.env stack
  mentions : ∀ m ∈ ms, m ∈ scene.history.mentions

namespace Scene.Stands

variable {hops : HopTable} {scene scene' : Scene} {ctx : Context} {stack : ScopeStack}
  {ms ns : List Mention} {m : Mention}

theorem becomes (h : scene.Stands hops ctx stack ms) (hbecomes : scene.Becomes hops scene') :
    scene'.Stands hops ctx stack ms := by
  constructor
  · exact hbecomes.sound
  · exact h.addressing
  · exact h.follows.mono hbecomes.ext
  · intro m hm
    exact hbecomes.ext.mentions m (h.mentions m hm)

theorem left (h : scene.Stands hops ctx stack (ms ++ ns)) : scene.Stands hops ctx stack ms :=
  { h with mentions := fun m hm => h.mentions m (List.mem_append_left ns hm) }

theorem right (h : scene.Stands hops ctx stack (ms ++ ns)) : scene.Stands hops ctx stack ns :=
  { h with mentions := fun m hm => h.mentions m (List.mem_append_right ms hm) }

theorem head (h : scene.Stands hops ctx stack (m :: ms)) : m ∈ scene.history.mentions :=
  h.mentions m (List.mem_cons_self ..)

theorem tail (h : scene.Stands hops ctx stack (m :: ms)) : scene.Stands hops ctx stack ms :=
  { h with mentions := fun m' hm' => h.mentions m' (List.mem_cons_of_mem m hm') }

theorem deeper (h : scene.Stands hops ctx stack ms) :
    scene.Stands hops { ctx with depth := ctx.depth + 1 } stack ms :=
  ⟨h.sound, h.addressing, h.follows, h.mentions⟩

theorem inside (h : scene.Stands hops ctx stack ms) {env : Environment} {stack' : ScopeStack}
    (hfollows : scene.Follows env stack') : scene.Stands hops { ctx with env } stack' ms :=
  ⟨h.sound, h.addressing, hfollows, h.mentions⟩

theorem wellScoped (h : scene.Stands hops ctx stack (m :: ms)) : m.WellScoped :=
  (h.sound.known m h.head).1

end Scene.Stands

namespace Traced

variable {hops : HopTable} {scene : Scene}

theorem keeps_className (h : scene.Sound hops) (id : Nat) :
    Keeps hops (className id) scene fun cls scene' =>
      scene' = scene ∧ cls = scene.history.classNames id := ⟨h.refl, rfl, rfl⟩

theorem fits_receiver {cls : Token} {id : Nat} {c : Class} (hc : c.Sound scene) :
    scene.Fits (.receiver cls) (.ofList [("this", .object id c)]) := by
  constructor
  · intro name value hvalue
    rw [Bindings.get?_singleton] at hvalue
    split at hvalue
    · cases hvalue
      exact hc
    · contradiction
  · intro _ _
    exact ⟨id, c, rfl⟩
  · intro cls' hcls
    contradiction

theorem fits_superclass {cls : Token} {c : Class} (hc : c.Sound scene) :
    scene.Fits (.superclass cls) (.ofList [("super", .callable (.cls c))]) := by
  constructor
  · intro name value hvalue
    rw [Bindings.get?_singleton] at hvalue
    split at hvalue
    · cases hvalue
      exact hc
    · contradiction
  · intro cls' hcls
    contradiction
  · intro _ _
    exact ⟨c, rfl⟩

theorem keyword_ready {keyword : String} (value : Value) (name : String)
    (h : (keywordScope keyword).get? name = some true) :
    ((Bindings.ofList [(keyword, value)]).get? name).isSome = true := by
  rw [ScopeStack.get?_keywordScope] at h
  rw [Bindings.get?_singleton]
  split at h
  · rename_i hname
    rw [if_pos hname]
    rfl
  · contradiction

theorem keeps_bindMethod (h : scene.Sound hops) {c owner : Class} {id : Nat} {name : String}
    {method : Closure} (hc : c.Sound scene) (howner : owner.Sound scene)
    (hmethod : c.findMethod? name = some method) :
    Keeps hops (bindMethod c method (.object id owner) name) scene fun bound scene' =>
      bound.Sound scene' ∧ bound.decl = method.decl := by
  obtain ⟨-, stack, hfollows, hmentions⟩ := hc name method hmethod
  apply (keeps_className h (c.declaring name)).bind
  rintro cls _ hbecomes ⟨rfl, rfl⟩
  apply Keeps.bind (keeps_openFrame h (.receiver _) (fits_receiver howner) (keyword_ready _) hfollows)
  intro env scene' hbecomes' henv
  apply keeps_pure hbecomes'.sound
  exact ⟨⟨_, henv, fun m hm => hbecomes'.ext.mentions m (hmentions m hm)⟩, rfl⟩

theorem keeps_methodOf (h : scene.Sound hops) {c owner : Class} {id : Nat} (property : Token)
    (hc : c.Sound scene) (howner : owner.Sound scene) :
    Keeps hops (methodOf c property (.object id owner)) scene fun value scene' =>
      value.Sound scene' := by
  unfold methodOf
  cases hmethod : c.findMethod? property.lexeme with
  | none => exact keeps_raise h _ _
  | some method =>
    apply (keeps_bindMethod h hc howner hmethod).bind
    intro bound scene' hbecomes hbound
    apply (keeps_makeFunction hbecomes.sound bound).mono
    rintro value scene'' hbecomes' ⟨number, rfl⟩
    exact Closure.Sound.mono hbecomes'.ext hbound.1

theorem keeps_readProperty (h : scene.Sound hops) {v : Value} (property : Token)
    (hv : v.Sound scene) :
    Keeps hops (readProperty v property) scene fun value scene' => value.Sound scene' := by
  cases v with
  | object id c =>
    apply (keeps_readField? h id property.lexeme).bind
    rintro field _ hbecomes ⟨rfl, hfield⟩
    cases field with
    | none => exact keeps_methodOf h property hv hv
    | some value => exact keeps_pure h (hfield value rfl)
  | nil | bool _ | num _ | str _ | callable _ => exact keeps_raise h _ _

theorem readSuper_cases (ctx : Context) (keyword method : Token) (scene : Scene) :
    (∃ parent id c, ctx.findSuper? scene.world.frames keyword =
        some (.callable (.cls parent), .object id c) ∧
      readSuper ctx keyword method scene = methodOf parent method (.object id c) scene) ∨
    readSuper ctx keyword method scene =
      (.error ⟨keyword, .undefinedVariable keyword.lexeme⟩ scene.world, scene.history) := by
  unfold readSuper
  split
  · rename_i parent id c hfound
    exact .inl ⟨parent, id, c, hfound, rfl⟩
  · exact .inr rfl

theorem keeps_readSuper (h : scene.Sound hops) (ctx : Context) (keyword method : Token) :
    Keeps hops (readSuper ctx keyword method) scene fun value scene' => value.Sound scene' := by
  unfold Keeps
  rcases readSuper_cases ctx keyword method scene with ⟨parent, id, c, hfound, hrun⟩ | hrun
  · obtain ⟨⟨outer, -, hparent⟩, inner, -, hreceiver⟩ := Context.exists_of_findSuper? hfound
    rw [hrun]
    exact keeps_methodOf h method (h.values outer _ _ hparent) (h.values inner _ _ hreceiver)
  · rw [hrun]
    exact h.refl

/-- The scopes around the methods of a class, but for the one of `this`. -/
def outerStack (cls : Token) (stack : ScopeStack) : Option Class → ScopeStack
  | none => stack
  | some _ => .superclass cls :: stack

theorem keeps_methodsEnvironment (h : scene.Sound hops) {ctx : Context} {stack : ScopeStack}
    (hfollows : scene.Follows ctx.env stack) (name : Token) {superclass : Option Class}
    (hsuperclass : ∀ c, superclass = some c → c.Sound scene) :
    Keeps hops (methodsEnvironment ctx name superclass) scene fun env scene' =>
      scene'.Follows env (outerStack name stack superclass) := by
  cases superclass with
  | none => exact keeps_pure h hfollows
  | some parent =>
    exact keeps_openFrame h (.superclass name) (fits_superclass (hsuperclass parent rfl))
      (keyword_ready _) hfollows

theorem sound_of_methodTable {env : Environment} {stack : ScopeStack} {name : Token} {id : Nat}
    {superclass : Option Class} {methods : List FunDecl} (hfollows : scene.Follows env stack)
    (hid : id < scene.world.nextId) (hname : scene.history.classNames id = name)
    (hsuperclass : ∀ c, superclass = some c → c.Sound scene)
    (hmentions : ∀ m ∈ FunDecl.mentionsAll (.receiver name :: stack) methods,
      m ∈ scene.history.mentions) :
    Class.Sound scene ⟨id, name.lexeme, superclass, methodTable env methods⟩ := by
  intro property method hfind
  unfold Class.declaring
  rcases Class.own_or_inherited hfind with hown | ⟨hnone, parent, rfl, hinherited⟩
  · rw [hown]
    obtain ⟨f, hf, rfl⟩ := exists_of_methodTable hown
    refine ⟨hid, stack, hfollows, ?_⟩
    rw [hname]
    exact fun m hm => hmentions m (FunDecl.mem_mentionsAll hm hf)
  · rw [hnone]
    exact hsuperclass parent rfl property method hinherited

theorem keeps_declareClass (h : scene.Sound hops) {ctx : Context} {stack : ScopeStack}
    (hfollows : scene.Follows ctx.env stack) {name : Token} (hname : ¬ isScopeKeyword name.lexeme)
    {superclass : Option Class} {methods : List FunDecl}
    (hsuperclass : ∀ c, superclass = some c → c.Sound scene)
    (hmentions : ∀ m ∈ FunDecl.mentionsAll
        (.receiver name :: outerStack name (stack.bind name.lexeme true) superclass) methods,
      m ∈ scene.history.mentions) :
    Keeps hops (declareClass ctx name superclass methods) scene fun flow scene' =>
      flow = .normal ∧ scene'.Follows ctx.env (stack.bind name.lexeme true) := by
  have hnil : ∀ scene', scene.Extends scene' → scene'.Follows ctx.env (stack.bind name.lexeme true) →
      Value.nil.Sound scene' := fun _ _ _ => trivial
  apply Keeps.bind (keeps_defineVariable h hfollows hname hnil)
  intro _ scene₁ h₁ hinside
  have hparent : ∀ c, superclass = some c → c.Sound scene₁ :=
    fun c hc => (hsuperclass c hc).mono h₁.ext
  apply Keeps.bind (keeps_methodsEnvironment h₁.sound hinside name hparent)
  intro env scene₂ h₂ henv
  apply Keeps.bind (keeps_enroll h₂.sound name)
  intro _ scene₃ h₃ hclassName
  apply Keeps.bind (keeps_freshId h₃.sound)
  rintro id scene₄ h₄ ⟨rfl, hnextId, hhistory⟩
  have hext := ((h₁.trans h₂).trans (h₃.trans h₄)).ext
  have hsound : Value.Sound scene₄
      (.callable (.cls ⟨scene₃.world.nextId, name.lexeme, superclass, methodTable env methods⟩)) := by
    change Class.Sound scene₄ _
    apply sound_of_methodTable (henv.mono (h₃.trans h₄).ext)
    · rw [hnextId]
      exact Nat.lt_succ_self _
    · rw [hhistory]
      exact hclassName
    · intro c hc
      exact (hsuperclass c hc).mono hext
    · intro m hm
      exact hext.mentions m (hmentions m hm)
  apply Keeps.bind (keeps_assignDeclared h₄.sound ctx.env hname hsound)
  intro _ scene₅ h₅ _
  apply keeps_pure h₅.sound
  exact ⟨rfl, hinside.mono ((h₂.trans h₃).trans (h₄.trans h₅)).ext⟩

theorem isPlain_sound {value : Value} (h : value.IsPlain) : value.Sound scene := by
  cases value with
  | callable _ | object _ _ => exact h.elim
  | nil | bool _ | num _ | str _ => trivial

theorem keeps_operated {operation : Except RuntimeFault Value} (h : scene.Sound hops) (op : Token)
    (hoperated : Operated operation) :
    Keeps hops (liftM (Evaluation.lift op operation)) scene fun value scene' =>
      value.Sound scene' := by
  cases operation with
  | ok value => exact ⟨h.refl, isPlain_sound hoperated⟩
  | error fault => exact h.refl

variable {ctx : Context} {stack : ScopeStack}

theorem fits_function {name : Token} {params : List String} {args : List Value}
    (hargs : ∀ value ∈ args, value.Sound scene) :
    scene.Fits (.function name) (.ofList (params.zip args)) := by
  constructor
  · intro name value hvalue
    have hmem := Bindings.mem_of_get?_ofList hvalue
    exact hargs value (List.of_mem_zip hmem).2
  · intro cls hcls
    contradiction
  · intro cls hcls
    contradiction

theorem fits_block {body : List Stmt} : scene.Fits (.block body) .empty := by
  constructor
  · intro name value hvalue
    contradiction
  · intro cls hcls
    contradiction
  · intro cls hcls
    contradiction

def parameterScope (f : FunDecl) : OpenScope :=
  ⟨.function f.name, f.params.foldl (fun names param => names.insert param.lexeme true) .empty⟩

theorem bindAll_function (f : FunDecl) (stack : ScopeStack) :
    ScopeStack.bindAll (.function f.name :: stack) f.params = parameterScope f :: stack := by
  have hfold : ∀ (params : List Token) (names : Bindings Bool),
      ScopeStack.bindAll (⟨.function f.name, names⟩ :: stack) params =
        ⟨.function f.name, params.foldl (fun names param => names.insert param.lexeme true) names⟩ ::
          stack := by
    intro params
    induction params with
    | nil => exact fun _ => rfl
    | cons param rest ih => exact fun names => ih _
  exact hfold f.params .empty

theorem parameter_ready {f : FunDecl} {args : List Value} (hlength : f.params.length = args.length)
    {name : String} (h : (parameterScope f).names.get? name = some true) :
    ((Bindings.ofList ((f.params.map Token.lexeme).zip args)).get? name).isSome = true := by
  have hfold : ∀ (params : List Token) (names : Bindings Bool),
      (params.foldl (fun names param => names.insert param.lexeme true) names).get? name = some true →
      name ∈ params.map Token.lexeme ∨ names.get? name = some true := by
    intro params
    induction params with
    | nil => exact fun _ h => .inr h
    | cons param rest ih =>
      intro names h
      rcases ih _ h with h | h
      · exact .inl (List.mem_cons_of_mem _ h)
      · rw [Bindings.get?_insert] at h
        split at h
        · rename_i hname
          exact .inl (List.mem_cons.2 (.inl hname))
        · exact .inr h
  rcases hfold f.params .empty h with hmem | hempty
  · apply Bindings.isSome_get?_ofList
    rw [List.map_fst_zip]
    · exact hmem
    · exact Nat.le_of_eq (by rw [List.length_map, hlength])
  · contradiction

theorem mentions_body {f : FunDecl} {stack : ScopeStack} {m : Mention}
    (h : m ∈ Stmt.mentionsAll (parameterScope f :: stack) f.body) : m ∈ f.mentions stack := by
  rw [← bindAll_function] at h
  cases f with
  | mk name params body =>
    rw [FunDecl.mentions]
    exact List.mem_append_right _ h

theorem keeps_define (h : scene.Sound hops) {stack : ScopeStack} {name : Token} {value : Value}
    (hfollows : scene.Follows ctx.env stack) (hname : ¬ isScopeKeyword name.lexeme)
    (hvalue : ∀ scene', scene.Extends scene' → scene'.Follows ctx.env (stack.bind name.lexeme true) →
      value.Sound scene') :
    Keeps hops (steps.define ctx name value) scene fun _ scene' =>
      scene'.Follows ctx.env (stack.bind name.lexeme true) :=
  keeps_defineVariable h hfollows hname hvalue

theorem keeps_scope {Q : Flow → Scene → Prop} {m : Context → Traced Flow} (h : scene.Sound hops)
    (scope : OpenScope) {bindings : Bindings Value} {enclosing : Environment}
    (hfits : scene.Fits scope.opener bindings)
    (hready : ∀ name, scope.names.get? name = some true → (bindings.get? name).isSome = true)
    (hfollows : scene.Follows enclosing stack)
    (hm : ∀ env scene', scene.Becomes hops scene' → scene'.Follows env (scope :: stack) →
      Keeps hops (m { ctx with env }) scene' Q) :
    Keeps hops (steps.scope ctx scope.opener bindings enclosing m) scene Q :=
  (keeps_openFrame h scope hfits hready hfollows).bind hm

/-- The evaluations of a depth keep scenes sound. -/
structure DepthKeeps (hops : HopTable) (fuel : Nat) : Prop where
  evaluate {scene : Scene} {ctx : Context} {stack : ScopeStack} (e : Expr)
    (h : scene.Stands hops ctx stack (e.mentions stack)) :
    Keeps hops (evaluate fuel ctx e) scene fun value scene' => value.Sound scene'
  evaluateAll {scene : Scene} {ctx : Context} {stack : ScopeStack} (es : List Expr)
    (h : scene.Stands hops ctx stack (Expr.mentionsAll stack es)) :
    Keeps hops (evaluateAll fuel ctx es) scene fun values scene' =>
      ∀ value ∈ values, value.Sound scene'
  call {scene : Scene} {ctx : Context} {f : Callable} {args : List Value} (h : scene.Sound hops)
    (hctx : ctx.addressing = .distances hops) (harity : f.arity = args.length)
    (hf : Value.Sound scene (.callable f)) (hargs : ∀ value ∈ args, value.Sound scene) :
    Keeps hops (call fuel ctx f args) scene fun value scene' => value.Sound scene'
  runBody {scene : Scene} {ctx : Context} {closure : Closure} {args : List Value} (h : scene.Sound hops)
    (hctx : ctx.addressing = .distances hops) (hparams : closure.decl.params.length = args.length)
    (hclosure : closure.Sound scene) (hargs : ∀ value ∈ args, value.Sound scene) :
    Keeps hops (runBody fuel ctx closure args) scene fun value scene' => value.Sound scene'
  execute {scene : Scene} {ctx : Context} {stack : ScopeStack} (s : Stmt)
    (h : scene.Stands hops ctx stack (s.mentions stack)) :
    Keeps hops (execute fuel ctx s) scene fun flow scene' =>
      flow.Sound scene' ∧ (flow = .normal → scene'.Follows ctx.env (s.bindIn stack))
  executeAll {scene : Scene} {ctx : Context} {stack : ScopeStack} (ss : List Stmt)
    (h : scene.Stands hops ctx stack (Stmt.mentionsAll stack ss)) :
    Keeps hops (executeAll fuel ctx ss) scene fun flow scene' => flow.Sound scene'

section Step

variable {fuel : Nat} (ih : DepthKeeps hops fuel)

include ih

theorem callExpr_keeps {callee : Expr} {paren : Token} {args : List Expr}
    (h : scene.Stands hops ctx stack (Expr.mentions stack (.call callee paren args))) :
    Keeps hops (evaluate (fuel + 1) ctx (.call callee paren args)) scene fun value scene' =>
      value.Sound scene' := by
  apply Keeps.bind (ih.evaluate callee h.left)
  intro callee scene₁ h₁ hcallee
  apply Keeps.bind (ih.evaluateAll args (h.right.becomes h₁))
  intro args scene₂ h₂ hargs
  cases callee with
  | callable f =>
    dsimp only
    split
    · exact keeps_raise h₂.sound _ _
    · rename_i harity
      apply Keeps.ite (keeps_raise h₂.sound paren .stackOverflow)
      exact ih.call h₂.sound h.deeper.addressing (Decidable.of_not_not harity) (hcallee.mono h₂.ext) hargs
  | nil | bool _ | num _ | str _ | object _ _ => exact keeps_raise h₂.sound _ _

theorem evaluate_keeps (e : Expr) (h : scene.Stands hops ctx stack (e.mentions stack)) :
    Keeps hops (evaluate (fuel + 1) ctx e) scene fun value scene' => value.Sound scene' := by
  cases e with
  | literal value => exact keeps_pure h.sound (isPlain_sound (isPlain_ofLiteral value))
  | var name =>
    apply Keeps.bind (keeps_visit h.sound h.addressing h.head h.follows (.inl rfl))
    intro _ scene₁ h₁ _
    exact keeps_readVariable h₁.sound name
  | this keyword =>
    apply Keeps.bind (keeps_visit h.sound h.addressing h.head h.follows (.inr (.inl rfl)))
    intro _ scene₁ h₁ _
    exact keeps_readVariable h₁.sound keyword
  | super keyword method =>
    apply Keeps.bind (keeps_visit h.sound h.addressing h.head h.follows (.inr (.inr rfl)))
    intro _ scene₁ h₁ _
    exact keeps_readSuper h₁.sound ctx keyword method
  | group inner => exact ih.evaluate inner h
  | assign name value =>
    apply Keeps.bind (ih.evaluate value h.tail)
    intro value scene₁ h₁ hvalue
    apply Keeps.bind (keeps_assignVariable h₁.sound h.wellScoped hvalue)
    intro _ scene₂ h₂ _
    exact keeps_pure h₂.sound (hvalue.mono h₂.ext)
  | unary op operand =>
    apply Keeps.bind (ih.evaluate operand h)
    intro operand scene₁ h₁ _
    exact keeps_operated h₁.sound op (unaryOperation_operated op.kind operand)
  | binary left op right =>
    apply Keeps.bind (ih.evaluate left h.left)
    intro left scene₁ h₁ _
    apply Keeps.bind (ih.evaluate right (h.right.becomes h₁))
    intro right scene₂ h₂ _
    exact keeps_operated h₂.sound op (binaryOperation_operated op.kind left right)
  | logical left op right =>
    apply Keeps.bind (ih.evaluate left h.left)
    intro left scene₁ h₁ hleft
    exact .ite (keeps_pure h₁.sound hleft) (ih.evaluate right (h.right.becomes h₁))
  | get object property =>
    apply Keeps.bind (ih.evaluate object h)
    intro object scene₁ h₁ hobject
    exact keeps_readProperty h₁.sound property hobject
  | set object property value =>
    apply Keeps.bind (ih.evaluate object h.left)
    intro object scene₁ h₁ _
    cases object with
    | object id c =>
      apply Keeps.bind (ih.evaluate value (h.right.becomes h₁))
      intro value scene₂ h₂ hvalue
      apply Keeps.bind (keeps_setField h₂.sound id property.lexeme hvalue)
      intro _ scene₃ h₃ _
      exact keeps_pure h₃.sound (hvalue.mono h₃.ext)
    | nil | bool _ | num _ | str _ | callable _ => exact keeps_raise h₁.sound _ _
  | call callee paren args => exact callExpr_keeps ih h

theorem evaluateAll_keeps (es : List Expr) (h : scene.Stands hops ctx stack (Expr.mentionsAll stack es)) :
    Keeps hops (evaluateAll (fuel + 1) ctx es) scene fun values scene' =>
      ∀ value ∈ values, value.Sound scene' := by
  cases es with
  | nil => exact keeps_pure h.sound (List.forall_mem_nil _)
  | cons e rest =>
    apply Keeps.bind (ih.evaluate e h.left)
    intro value scene₁ h₁ hvalue
    apply Keeps.bind (ih.evaluateAll rest (h.right.becomes h₁))
    intro values scene₂ h₂ hvalues
    exact keeps_pure h₂.sound (List.forall_mem_cons.2 ⟨hvalue.mono h₂.ext, hvalues⟩)

theorem call_keeps {f : Callable} {args : List Value} (h : scene.Sound hops)
    (hctx : ctx.addressing = .distances hops) (harity : f.arity = args.length)
    (hf : Value.Sound scene (.callable f)) (hargs : ∀ value ∈ args, value.Sound scene) :
    Keeps hops (call (fuel + 1) ctx f args) scene fun value scene' => value.Sound scene' := by
  cases f with
  | native f =>
    cases f
    exact keeps_readClock h
  | function id closure => exact ih.runBody h hctx harity hf hargs
  | cls c =>
    apply Keeps.bind (keeps_makeObject h hf)
    rintro _ scene₁ h₁ ⟨hobject, id, rfl⟩
    cases hmethod : c.findMethod? initializerName with
    | none => exact keeps_pure h₁.sound hobject
    | some method =>
      have hparams : method.decl.params.length = args.length := by
        rw [← harity, Callable.arity, hmethod]
        rfl
      apply Keeps.bind (keeps_bindMethod h₁.sound (hf.mono h₁.ext) hobject hmethod)
      rintro init scene₂ h₂ ⟨hinit, hdecl⟩
      rw [← hdecl] at hparams
      apply Keeps.bind (ih.runBody h₂.sound hctx hparams hinit
        fun value hvalue => (hargs value hvalue).mono (h₁.trans h₂).ext)
      intro _ scene₃ h₃ _
      exact keeps_pure h₃.sound (hobject.mono (h₂.trans h₃).ext)

theorem runBody_keeps {closure : Closure} {args : List Value} (h : scene.Sound hops)
    (hctx : ctx.addressing = .distances hops) (hparams : closure.decl.params.length = args.length)
    (hclosure : closure.Sound scene) (hargs : ∀ value ∈ args, value.Sound scene) :
    Keeps hops (runBody (fuel + 1) ctx closure args) scene fun value scene' => value.Sound scene' := by
  obtain ⟨stack, hfollows, hmentions⟩ := hclosure
  have hrun : Keeps hops (steps.scope ctx (.function closure.decl.name)
      (.ofList ((closure.decl.params.map Token.lexeme).zip args)) closure.env
        fun ctx => executeAll fuel ctx closure.decl.body) scene fun flow scene' => flow.Sound scene' := by
    apply keeps_scope h (parameterScope closure.decl) (fits_function hargs)
      (fun name => parameter_ready hparams) hfollows
    intro env scene₁ h₁ henv
    exact ih.executeAll _ ⟨h₁.sound, hctx, henv, fun m hm =>
      h₁.ext.mentions m (hmentions m (mentions_body hm))⟩
  apply hrun.bind
  intro flow scene₂ h₂ hflow
  apply Keeps.ite (keeps_receiver h₂.sound closure)
  cases flow with
  | normal => exact keeps_pure h₂.sound trivial
  | returned value => exact keeps_pure h₂.sound hflow

theorem DepthKeeps.branch (s : Stmt) (h : scene.Stands hops ctx stack (s.mentions stack)) :
    Keeps hops (Traced.execute fuel ctx s) scene fun flow scene' =>
      flow.Sound scene' ∧ (flow = .normal → scene'.Follows ctx.env stack) :=
  (ih.execute s h).mono fun _ _ hbecomes hflow => ⟨hflow.1, fun _ => h.follows.mono hbecomes.ext⟩

theorem varDecl_keeps {name : Token} {init : Option Expr}
    (h : scene.Stands hops ctx stack (Stmt.mentions stack (.varDecl name init))) :
    Keeps hops (execute (fuel + 1) ctx (.varDecl name init)) scene fun flow scene' =>
      flow.Sound scene' ∧ (flow = .normal → scene'.Follows ctx.env (stack.bind name.lexeme true)) := by
  cases init with
  | none =>
    have hnil : ∀ scene', scene.Extends scene' → scene'.Follows ctx.env (stack.bind name.lexeme true) →
        Value.nil.Sound scene' := fun _ _ _ => trivial
    apply Keeps.bind (keeps_define h.sound h.follows h.wellScoped hnil)
    intro _ scene₁ h₁ hinside
    exact keeps_pure h₁.sound ⟨trivial, fun _ => hinside⟩
  | some init =>
    apply Keeps.bind (ih.evaluate init (h.tail.inside (h.follows.bind_false name.lexeme)))
    intro value scene₁ h₁ hvalue
    apply Keeps.bind (keeps_define h₁.sound (h.follows.mono h₁.ext) h.wellScoped
      fun _ hext _ => hvalue.mono hext)
    intro _ scene₂ h₂ hinside
    exact keeps_pure h₂.sound ⟨trivial, fun _ => hinside⟩

theorem whileLoop_keeps {condition : Expr} {body : Stmt}
    (h : scene.Stands hops ctx stack (Stmt.mentions stack (.whileLoop condition body))) :
    Keeps hops (execute (fuel + 1) ctx (.whileLoop condition body)) scene fun flow scene' =>
      flow.Sound scene' ∧ (flow = .normal → scene'.Follows ctx.env stack) := by
  apply Keeps.bind (ih.evaluate condition h.left)
  intro holds scene₁ h₁ _
  apply Keeps.ite
  · apply Keeps.bind (ih.execute body (h.right.becomes h₁))
    intro flow scene₂ h₂ hflow
    cases flow with
    | normal => exact ih.execute _ (h.becomes (h₁.trans h₂))
    | returned value => exact keeps_pure h₂.sound ⟨hflow.1, nofun⟩
  · exact keeps_pure h₁.sound ⟨trivial, fun _ => h.follows.mono h₁.ext⟩

omit ih in
theorem funDecl_keeps {f : FunDecl} (h : scene.Stands hops ctx stack (Stmt.mentions stack (.funDecl f))) :
    Keeps hops (execute (fuel + 1) ctx (.funDecl f)) scene fun flow scene' =>
      flow.Sound scene' ∧ (flow = .normal → scene'.Follows ctx.env (stack.bind f.name.lexeme true)) := by
  apply Keeps.bind (keeps_makeFunction h.sound ⟨f, ctx.env, false⟩)
  rintro _ scene₁ h₁ ⟨id, rfl⟩
  -- The function is sound once its own name is bound, since its body may use it.
  have hclosure : ∀ scene', scene₁.Extends scene' →
      scene'.Follows ctx.env (stack.bind f.name.lexeme true) →
      Value.Sound scene' (.callable (.function id ⟨f, ctx.env, false⟩)) := by
    intro scene' hext hinside
    exact ⟨_, hinside, fun m hm => hext.mentions m (h₁.ext.mentions m (h.tail.mentions m hm))⟩
  apply Keeps.bind (keeps_define h₁.sound (h.follows.mono h₁.ext) h.wellScoped hclosure)
  intro _ scene₂ h₂ hinside
  exact keeps_pure h₂.sound ⟨trivial, fun _ => hinside⟩

omit ih in
theorem classDecl_keeps {name : Token} {superclass : Option Token} {methods : List FunDecl}
    (h : scene.Stands hops ctx stack (Stmt.mentions stack (.classDecl name superclass methods))) :
    Keeps hops (execute (fuel + 1) ctx (.classDecl name superclass methods)) scene fun flow scene' =>
      flow.Sound scene' ∧ (flow = .normal → scene'.Follows ctx.env (stack.bind name.lexeme true)) := by
  cases superclass with
  | none =>
    rw [Stmt.mentions] at h
    have hnone : ∀ c : Class, none = some c → c.Sound scene := nofun
    apply (keeps_declareClass h.sound h.follows h.wellScoped hnone h.tail.mentions).mono
    rintro _ scene₁ h₁ ⟨rfl, hinside⟩
    exact ⟨trivial, fun _ => hinside⟩
  | some parent =>
    rw [Stmt.mentions] at h
    have hread : Keeps hops (steps.readVariable .variable ctx parent) scene
        fun value scene' => value.Sound scene' := by
      apply Keeps.bind (keeps_visit h.sound h.addressing h.tail.head
        (h.follows.bind_false name.lexeme) (.inl rfl))
      intro _ scene₁ h₁ _
      exact keeps_readVariable h₁.sound parent
    apply hread.bind
    intro value scene₁ h₁ hvalue
    have hinside := h.becomes h₁
    cases value with
    | callable f =>
      cases f with
      | cls c =>
        have hparent : ∀ c', some c = some c' → c'.Sound scene₁ := by
          rintro _ ⟨⟩
          exact hvalue
        apply (keeps_declareClass hinside.sound hinside.follows hinside.wellScoped hparent
          hinside.tail.tail.mentions).mono
        rintro _ scene₂ h₂ ⟨rfl, hbound⟩
        exact ⟨trivial, fun _ => hbound⟩
      | native _ | function _ _ => exact keeps_raise h₁.sound _ _
    | nil | bool _ | num _ | str _ | object _ _ => exact keeps_raise h₁.sound _ _

theorem execute_keeps (s : Stmt) (h : scene.Stands hops ctx stack (s.mentions stack)) :
    Keeps hops (execute (fuel + 1) ctx s) scene fun flow scene' =>
      flow.Sound scene' ∧ (flow = .normal → scene'.Follows ctx.env (s.bindIn stack)) := by
  cases s with
  | expr e =>
    apply Keeps.bind (ih.evaluate e h)
    intro _ scene₁ h₁ _
    exact keeps_pure h₁.sound ⟨trivial, fun _ => h.follows.mono h₁.ext⟩
  | print keyword value =>
    apply Keeps.bind (ih.evaluate value h)
    intro value scene₁ h₁ _
    apply Keeps.bind (keeps_printLine h₁.sound keyword value.text)
    intro _ scene₂ h₂ _
    exact keeps_pure h₂.sound ⟨trivial, fun _ => h.follows.mono (h₁.trans h₂).ext⟩
  | varDecl name init => exact varDecl_keeps ih h
  | block body =>
    have hrun : Keeps hops (steps.scope ctx (.block body) .empty ctx.env fun ctx => executeAll fuel ctx body)
        scene fun flow scene' => flow.Sound scene' :=
      keeps_scope h.sound (.block body) fits_block nofun h.follows fun env scene₁ h₁ henv =>
        ih.executeAll body ((h.becomes h₁).inside henv)
    exact hrun.mono fun _ _ hbecomes hflow => ⟨hflow, fun _ => h.follows.mono hbecomes.ext⟩
  | ifThen condition yes =>
    apply Keeps.bind (ih.evaluate condition h.left)
    intro condition scene₁ h₁ _
    apply Keeps.ite (ih.branch yes (h.right.becomes h₁))
    exact keeps_pure h₁.sound ⟨trivial, fun _ => h.follows.mono h₁.ext⟩
  | ifElse condition yes no =>
    apply Keeps.bind (ih.evaluate condition h.left.left)
    intro condition scene₁ h₁ _
    exact .ite (ih.branch yes (h.left.right.becomes h₁)) (ih.branch no (h.right.becomes h₁))
  | whileLoop condition body => exact whileLoop_keeps ih h
  | ret keyword value =>
    cases value with
    | none => exact keeps_pure h.sound ⟨trivial, nofun⟩
    | some value =>
      apply Keeps.bind (ih.evaluate value h)
      intro value scene₁ h₁ hvalue
      exact keeps_pure h₁.sound ⟨hvalue, nofun⟩
  | funDecl function => exact funDecl_keeps h
  | classDecl name superclass methods => exact classDecl_keeps h

theorem executeAll_keeps (ss : List Stmt) (h : scene.Stands hops ctx stack (Stmt.mentionsAll stack ss)) :
    Keeps hops (executeAll (fuel + 1) ctx ss) scene fun flow scene' => flow.Sound scene' := by
  cases ss with
  | nil => exact keeps_pure h.sound trivial
  | cons s rest =>
    apply Keeps.bind (ih.execute s h.left)
    intro flow scene₁ h₁ hflow
    cases flow with
    | normal => exact ih.executeAll rest ((h.right.becomes h₁).inside (hflow.2 rfl))
    | returned value => exact keeps_pure h₁.sound hflow.1

end Step

theorem depthKeeps (hops : HopTable) (fuel : Nat) : DepthKeeps hops fuel := by
  induction fuel with
  | zero =>
    constructor
    case call | runBody => exact fun h _ _ _ _ => keeps_exhausted h
    all_goals exact fun _ h => keeps_exhausted h.sound
  | succ fuel ih =>
    constructor
    case evaluate => exact evaluate_keeps ih
    case evaluateAll => exact evaluateAll_keeps ih
    case call => exact call_keeps ih
    case runBody => exact runBody_keeps ih
    case execute => exact execute_keeps ih
    case executeAll => exact executeAll_keeps ih

end Traced

end Lox
