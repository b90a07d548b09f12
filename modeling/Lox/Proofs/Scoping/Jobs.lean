import Lox.Proofs.Evaluation.Jobs
import Lox.Proofs.Scoping.Evaluation

/-!
Jobs in sound scenes. What an evaluation starts from, every job starts from that it comes across: the
environment follows the scopes around the code, whose mentions are known, and arguments are as many as
there are parameters. So whatever holds where code is evaluated holds at every node and in every call.
-/
namespace Lox

variable {hops : HopTable} {scene : Scene} {ctx : Context} {stack : ScopeStack}

namespace Scene.Stands

theorem first {e part : Expr} (h : scene.Stands hops ctx stack (e.mentions stack))
    (hfirst : e.first? = some part) : scene.Stands hops ctx stack (part.mentions stack) := by
  cases e with
  | literal _ | var _ | this _ | super _ _ => contradiction
  | group _ | unary _ _ | get _ _ =>
    cases hfirst
    exact h
  | assign _ _ =>
    cases hfirst
    exact h.tail
  | binary _ _ _ | logical _ _ _ | set _ _ _ | call _ _ _ =>
    cases hfirst
    exact h.left

/-- An initializer stands where its variable is declared and not ready. -/
theorem expression {s : Stmt} {e : Expr} (h : scene.Stands hops ctx stack (s.mentions stack))
    (hfirst : s.first? = some e) : ∃ stack', scene.Stands hops ctx stack' (e.mentions stack') := by
  cases s with
  | block _ | funDecl _ | classDecl _ _ _ => contradiction
  | expr _ | print _ _ =>
    cases hfirst
    exact ⟨stack, h⟩
  | ifThen _ _ | whileLoop _ _ =>
    cases hfirst
    exact ⟨stack, h.left⟩
  | ifElse _ _ _ =>
    cases hfirst
    exact ⟨stack, h.left.left⟩
  | varDecl name _ =>
    cases hfirst
    exact ⟨_, h.tail.inside (h.follows.bind_false name.lexeme)⟩
  | ret _ _ =>
    cases hfirst
    exact ⟨stack, h⟩

end Scene.Stands

structure Scene.Takes (hops : HopTable) (scene : Scene) (ctx : Context) (params : Nat)
    (args : List Value) : Prop where
  sound : scene.Sound hops
  addressing : ctx.addressing = .distances hops
  arity : params = args.length
  args : ∀ value ∈ args, value.Sound scene

def Job.Ready (hops : HopTable) (scene : Scene) : Job → Prop
  | .evaluate ctx e => ∃ stack, scene.Stands hops ctx stack (e.mentions stack)
  | .evaluateAll ctx es => ∃ stack, scene.Stands hops ctx stack (Expr.mentionsAll stack es)
  | .call ctx f args => scene.Takes hops ctx f.arity args ∧ Value.Sound scene (.callable f)
  | .runBody ctx closure args =>
    scene.Takes hops ctx closure.decl.params.length args ∧ closure.Sound scene
  | .execute ctx s => ∃ stack, scene.Stands hops ctx stack (s.mentions stack)
  | .executeAll ctx ss => ∃ stack, scene.Stands hops ctx stack (Stmt.mentionsAll stack ss)

theorem Traced.Keeps.run {α : Type} {m : Traced α} {m' : Evaluation α} {Q : α → Scene → Prop}
    (h : Traced.Keeps hops m scene Q) (herases : Traced.Erases m m') {value : α} {w : World}
    (hrun : m' scene.world = .ok value w) :
    ∃ history, scene.Becomes hops ⟨history, w⟩ ∧ Q value ⟨history, w⟩ := by
  have hsame := herases scene
  unfold Keeps at h
  rcases htraced : m scene with ⟨result, history⟩
  rw [htraced] at h hsame
  dsimp only at hsame
  rw [hrun] at hsame
  subst hsame
  exact ⟨history, h⟩

namespace Scene.Stands

variable {fuel : Nat} {v : Value} {w : World}

theorem evaluated {e : Expr} (h : scene.Stands hops ctx stack (e.mentions stack))
    (hrun : evaluate fuel ctx e scene.world = .ok v w) :
    ∃ history, scene.Becomes hops ⟨history, w⟩ ∧ v.Sound ⟨history, w⟩ :=
  ((Traced.depthKeeps hops fuel).evaluate e h).run (Traced.evaluate_erases fuel ctx e) hrun

theorem evaluatedAll {es : List Expr} {values : List Value}
    (h : scene.Stands hops ctx stack (Expr.mentionsAll stack es))
    (hrun : evaluateAll fuel ctx es scene.world = .ok values w) :
    ∃ history, scene.Becomes hops ⟨history, w⟩ ∧ ∀ value ∈ values, value.Sound ⟨history, w⟩ :=
  ((Traced.depthKeeps hops fuel).evaluateAll es h).run (Traced.evaluateAll_erases fuel ctx es) hrun

theorem executed {s : Stmt} (h : scene.Stands hops ctx stack (s.mentions stack))
    (hrun : execute fuel ctx s scene.world = .ok .normal w) :
    ∃ history, scene.Becomes hops ⟨history, w⟩ ∧ Follows ⟨history, w⟩ ctx.env (s.bindIn stack) := by
  obtain ⟨history, hbecomes, -, hfollows⟩ :=
    ((Traced.depthKeeps hops fuel).execute s h).run (Traced.execute_erases fuel ctx s) hrun
  exact ⟨history, hbecomes, hfollows rfl⟩

end Scene.Stands

theorem Starts.ready {fuel : Nat} {job job' : Job} {w w' : World} (h : Starts fuel job w job' w')
    {history : History} (hready : job.Ready hops ⟨history, w⟩) :
    ∃ history', history'.mentions = history.mentions ∧ job'.Ready hops ⟨history', w'⟩ := by
  cases h with
  | first hfirst =>
    obtain ⟨stack, hstands⟩ := hready
    exact ⟨history, rfl, stack, hstands.first hfirst⟩
  | rightOperand hleft | rightCondition hleft _ | fieldValue hleft =>
    obtain ⟨stack, hstands⟩ := hready
    obtain ⟨history₁, hbecomes, -⟩ := hstands.left.evaluated hleft
    exact ⟨history₁, hbecomes.mentions, stack, hstands.right.becomes hbecomes⟩
  | arguments hcallee =>
    obtain ⟨stack, hstands⟩ := hready
    obtain ⟨history₁, hbecomes, -⟩ := hstands.left.evaluated hcallee
    exact ⟨history₁, hbecomes.mentions, stack, hstands.right.becomes hbecomes⟩
  | call hcallee hargs harity _ =>
    obtain ⟨stack, hstands⟩ := hready
    obtain ⟨history₁, h₁, hf⟩ := hstands.left.evaluated hcallee
    obtain ⟨history₂, h₂, hvalues⟩ := (hstands.right.becomes h₁).evaluatedAll hargs
    exact ⟨history₂, (h₁.trans h₂).mentions, ⟨h₂.sound, hstands.addressing, harity, hvalues⟩,
      hf.mono h₂.ext⟩
  | argument =>
    obtain ⟨stack, hstands⟩ := hready
    exact ⟨history, rfl, stack, hstands.left⟩
  | restArguments hfirst =>
    obtain ⟨stack, hstands⟩ := hready
    obtain ⟨history₁, hbecomes, -⟩ := hstands.left.evaluated hfirst
    exact ⟨history₁, hbecomes.mentions, stack, hstands.right.becomes hbecomes⟩
  | function => exact ⟨history, rfl, hready⟩
  | @initializer ctx c args _ _ _ method _ _ hobject hmethod hinit =>
    obtain ⟨htakes, hclass⟩ := hready
    obtain ⟨history₁, h₁, hsound, id, rfl⟩ :=
      (Traced.keeps_makeObject htakes.sound hclass).run (Traced.erases_liftM _) hobject
    obtain ⟨history₂, h₂, hbound, hdecl⟩ :=
      (Traced.keeps_bindMethod h₁.sound (Class.Sound.mono h₁.ext hclass) hsound hmethod).run
        (Traced.bindMethod_erases c method _ initializerName) hinit
    have hparams : method.decl.params.length = args.length := by
      rw [← htakes.arity, Callable.arity, hmethod]
      rfl
    rw [← hdecl] at hparams
    have hargs : ∀ value ∈ args, value.Sound ⟨history₂, w'⟩ := fun value hvalue =>
      (htakes.args value hvalue).mono (h₁.trans h₂).ext
    exact ⟨history₂, (h₁.trans h₂).mentions, ⟨h₂.sound, htakes.addressing, hparams, hargs⟩, hbound⟩
  | @body ctx closure _ _ _ _ henv =>
    obtain ⟨htakes, stack, hfollows, hmentions⟩ := hready
    obtain ⟨history₁, h₁, hinside⟩ :=
      (Traced.keeps_openFrame htakes.sound (Traced.parameterScope closure.decl)
        (Traced.fits_function htakes.args) (fun _ => Traced.parameter_ready htakes.arity)
        hfollows).run (Traced.erases_openFrame _ _ _) henv
    exact ⟨history₁, h₁.mentions, _, h₁.sound, htakes.addressing, hinside, fun m hm =>
      h₁.ext.mentions m (hmentions m (Traced.mentions_body hm))⟩
  | expression hfirst =>
    obtain ⟨stack, hstands⟩ := hready
    exact ⟨history, rfl, hstands.expression hfirst⟩
  | @block ctx body _ _ _ henv =>
    obtain ⟨stack, hstands⟩ := hready
    have hempty : ∀ name, (OpenScope.block body).names.get? name = some true →
        ((Bindings.empty : Bindings Value).get? name).isSome = true := by
      intro name hname
      contradiction
    obtain ⟨history₁, h₁, hinside⟩ :=
      (Traced.keeps_openFrame hstands.sound (.block body) Traced.fits_block hempty
        hstands.follows).run (Traced.erases_openFrame _ _ _) henv
    exact ⟨history₁, h₁.mentions, _, (hstands.becomes h₁).inside hinside⟩
  | onlyBranch hcondition _ | turn hcondition _ =>
    obtain ⟨stack, hstands⟩ := hready
    obtain ⟨history₁, hbecomes, -⟩ := hstands.left.evaluated hcondition
    exact ⟨history₁, hbecomes.mentions, stack, hstands.right.becomes hbecomes⟩
  | thenBranch hcondition _ =>
    obtain ⟨stack, hstands⟩ := hready
    obtain ⟨history₁, hbecomes, -⟩ := hstands.left.left.evaluated hcondition
    exact ⟨history₁, hbecomes.mentions, stack, hstands.left.right.becomes hbecomes⟩
  | elseBranch hcondition _ =>
    obtain ⟨stack, hstands⟩ := hready
    obtain ⟨history₁, hbecomes, -⟩ := hstands.left.left.evaluated hcondition
    exact ⟨history₁, hbecomes.mentions, stack, hstands.right.becomes hbecomes⟩
  | nextTurn hcondition _ hbody =>
    obtain ⟨stack, hstands⟩ := hready
    obtain ⟨history₁, h₁, -⟩ := hstands.left.evaluated hcondition
    obtain ⟨history₂, h₂, -⟩ := (hstands.right.becomes h₁).executed hbody
    exact ⟨history₂, (h₁.trans h₂).mentions, stack, hstands.becomes (h₁.trans h₂)⟩
  | statement =>
    obtain ⟨stack, hstands⟩ := hready
    exact ⟨history, rfl, stack, hstands.left⟩
  | restStatements hfirst =>
    obtain ⟨stack, hstands⟩ := hready
    obtain ⟨history₁, hbecomes, hfollows⟩ := hstands.left.executed hfirst
    exact ⟨history₁, hbecomes.mentions, _, (hstands.right.becomes hbecomes).inside hfollows⟩

theorem Reaches.ready {fuel fuel' : Nat} {job job' : Job} {w w' : World}
    (h : Reaches fuel job w fuel' job' w') {history : History}
    (hready : job.Ready hops ⟨history, w⟩) :
    ∃ history', history'.mentions = history.mentions ∧ job'.Ready hops ⟨history', w'⟩ := by
  induction h generalizing history with
  | refl => exact ⟨history, rfl, hready⟩
  | next hstarts _ ih =>
    obtain ⟨history₁, hmentions₁, hready₁⟩ := hstarts.ready hready
    obtain ⟨history₂, hmentions₂, hready₂⟩ := ih hready₁
    exact ⟨history₂, hmentions₂.trans hmentions₁, hready₂⟩

end Lox
