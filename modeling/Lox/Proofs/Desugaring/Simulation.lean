import Lox.Proofs.Desugaring.Agreement

/-!
The two runs agree on every construct. One lemma shows for each construct of surface trees that the
desugared construct agrees with it where their parts do; the depths are such that the run with depth to
spare keeps it in every part.
-/
namespace Lox.Surface

variable {tables : Tables} {ample : Ample}

abbrev ValuesAlike (tables : Tables) (origins : Origins) : List Value → List Lox.Value → Prop :=
  List.Forall₂ (Value.Alike tables origins)

theorem forall₂_zip {origins : Origins} (names : List String) {vs : List Value}
    {vs' : List Lox.Value} (h : ValuesAlike tables origins vs vs') :
    List.Forall₂ (fun entry entry' => entry.1 = entry'.1 ∧
      Value.Alike tables origins entry.2 entry'.2) (names.zip vs) (names.zip vs') := by
  induction h generalizing names with
  | nil => simp
  | cons hv _ ih =>
    cases names with
    | nil => exact .nil
    | cons name names => exact .cons ⟨rfl, hv⟩ (ih names)

section Parts

variable {origins : Origins} {t : Thinning} {ctx : Context} {ctx' : Lox.Context}
  {eval : Expr → Evaluation Value} {n' : Nat}

theorem condition_agrees {condition : Option Expr} (hstop : n' = 0 → ample = .surface)
    (heval : ∀ e, condition = some e →
      Agrees tables ample origins (eval e) (Lox.evaluate n' ctx' e) (Value.Alike tables)) :
    Agrees tables ample origins (evaluateOption eval (.bool true) condition)
      (Lox.evaluate n' ctx' (loopCondition condition)) (Value.Alike tables) := by
  cases condition with
  | some e => exact heval e rfl
  | none =>
    cases n' with
    | zero => exact agrees_coreStops (hstop rfl)
    | succ n' => exact agrees_pure (.constant (.bool true))

theorem declareVariable_agrees {name : Token} {value : Option Expr} (ht : t.Declares)
    (henv : EnvironmentWoven origins t ctx.env ctx'.env) (hstop : n' = 0 → ample = .surface)
    (heval : ∀ e, value = some e → ∀ k', n' = k' + 1 →
      Agrees tables ample origins (eval e) (Lox.evaluate k' ctx' e) (Value.Alike tables)) :
    Agrees tables ample origins (declareVariable eval ctx.env name value)
      (Lox.execute n' ctx' (.varDecl name value)) fun _ _ flow' => flow' = .normal := by
  cases n' with
  | zero => exact agrees_coreStops (hstop rfl)
  | succ k' =>
    cases value with
    | none =>
      apply (defineVariable_agrees henv ht name.lexeme (.constant .nil)).behind
      intro later _ _ _ _
      exact agrees_pure rfl
    | some e =>
      apply (heval e rfl k' rfl).bind
      intro later v v' hlater hv
      apply (defineVariable_agrees (henv.mono hlater) ht name.lexeme hv).behind
      intro later _ _ _ _
      exact agrees_pure rfl

theorem runInitializer_agrees {i : Initializer} (ht : t.Declares)
    (h : Stands tables origins t ctx ctx' (i.uses t)) (hstop : n' = 0 → ample = .surface)
    (heval : ∀ e, Stands tables origins t ctx ctx' (usesIn t e) → ∀ k', n' = k' + 1 →
      Agrees tables ample origins (eval e) (Lox.evaluate k' ctx' e) (Value.Alike tables)) :
    Agrees tables ample origins (runInitializer eval ctx.env i) (Lox.execute n' ctx' i.desugar)
      fun _ _ flow' => flow' = .normal := by
  cases i with
  | var name value =>
    apply declareVariable_agrees ht h.environment hstop
    rintro e rfl k' hk'
    exact heval e h k' hk'
  | expr e =>
    cases n' with
    | zero => exact agrees_coreStops (hstop rfl)
    | succ k' =>
      apply (heval e h k' rfl).bind
      intro later _ _ _ _
      exact agrees_pure rfl

theorem Agrees.only {m : Evaluation Flow} {s : Lox.Stmt} (hstop : n' < 2 → ample = .surface)
    (hm : ∀ k', n' = k' + 1 →
      Agrees tables ample origins m (Lox.execute k' ctx' s) (Flow.Alike tables)) :
    Agrees tables ample origins m (Lox.executeAll n' ctx' [s]) (Flow.Alike tables) := by
  cases n' with
  | zero => exact agrees_coreStops (hstop (by omega))
  | succ k' =>
    apply (hm k' rfl).behind
    rintro later flow flow' _ (_ | hv)
    · cases k' with
      | zero => exact agrees_coreStops (hstop (by omega))
      | succ k' => exact agrees_pure .normal
    · exact agrees_pure (.returned hv)

theorem turn_agrees {increment : Option Expr} {body : Stmt} {run : Evaluation Flow}
    (h : Stands tables origins t ctx ctx'
      (body.uses (bodyThinning t increment) ++ usesInOption (.added :: t) increment))
    (hstop : n' < 4 → ample = .surface)
    (hrun : ∀ later t₁ ctx₁' k', n' ≤ k' + 2 → k' ≤ n' →
      Stands tables later t₁ ctx ctx₁' (body.uses t₁) →
      Agrees tables ample later run (Lox.execute k' ctx₁' body.desugar) (Flow.Alike tables))
    (heval : ∀ later t₁ ctx₁' e k', n' = k' + 4 → Stands tables later t₁ ctx ctx₁' (usesIn t₁ e) →
      Agrees tables ample later (eval e) (Lox.evaluate k' ctx₁' e) (Value.Alike tables)) :
    Agrees tables ample origins (turn eval run increment)
      (Lox.execute n' ctx' (loopBody increment body.desugar)) (Flow.Alike tables) := by
  cases increment with
  | none =>
    apply (hrun origins t ctx' n' (by omega) (Nat.le_refl _) h.left).ahead
    rintro later flow flow' _ (_ | hv)
    · exact agrees_pure .normal
    · exact agrees_pure (.returned hv)
  | some e =>
    -- The desugared run makes the frame of the block, in which nothing is declared.
    match n', hstop with
    | 0, hstop => exact agrees_coreStops (hstop (by omega))
    | 1, hstop =>
      apply Agrees.added h.environment
      intro _ _ _ _
      exact agrees_coreStops (hstop (by omega))
    | k' + 2, hstop =>
      apply Agrees.added h.environment
      intro later inner' hlater henv
      have hinside := (h.mono hlater).inside henv
      apply (hrun later _ _ k' (by omega) (by omega) hinside.left).bind
      rintro latest flow flow' hlatest (_ | hv)
      · apply Agrees.only fun hless => hstop (by omega)
        rintro j' rfl
        cases j' with
        | zero => exact agrees_coreStops (hstop (by omega))
        | succ i' =>
          apply (heval latest _ _ e i' rfl (hinside.right.mono hlatest)).bind
          intro last _ _ _ _
          exact agrees_pure .normal
      · exact agrees_pure (.returned hv)

theorem declare_agrees {run : Stmt → Evaluation Flow} {d : Decl} (ht : t.Declares)
    (h : Stands tables origins t ctx ctx' (d.uses t)) (hstop : n' = 0 → ample = .surface)
    (heval : ∀ e, Stands tables origins t ctx ctx' (usesIn t e) → ∀ k', n' = k' + 1 →
      Agrees tables ample origins (eval e) (Lox.evaluate k' ctx' e) (Value.Alike tables))
    (hrun : ∀ s : Stmt, Stands tables origins t ctx ctx' (s.uses t) →
      Agrees tables ample origins (run s) (Lox.execute n' ctx' s.desugar) (Flow.Alike tables)) :
    Agrees tables ample origins (declare eval run ctx d) (Lox.execute n' ctx' d.desugar)
      (Flow.Alike tables) := by
  cases d with
  | var name value =>
    have hvalue : ∀ e, value = some e → ∀ k', n' = k' + 1 →
        Agrees tables ample origins (eval e) (Lox.evaluate k' ctx' e) (Value.Alike tables) := by
      rintro e rfl k' hk'
      exact heval e h k' hk'
    apply (declareVariable_agrees ht h.environment hstop hvalue).ahead
    rintro later _ _ _ rfl
    exact agrees_pure .normal
  | function f =>
    cases n' with
    | zero => exact agrees_coreStops (hstop rfl)
    | succ k' =>
      have hclosure : Closure.Alike [] tables origins ⟨f, ctx.env, false⟩
          ⟨f.desugar, ctx'.env, false⟩ := ⟨rfl, rfl, t, h.environment, ht, h.link⟩
      rw [Decl.desugar, Lox.execute, FunDecl.desugar_name]
      apply (makeFunction_agrees hclosure).bind
      intro later v v' hlater hv
      apply (defineVariable_agrees (h.environment.mono hlater) ht f.name.lexeme hv).bind
      intro latest _ _ _ _
      exact agrees_pure .normal
  | cls name superclass methods =>
    cases n' with
    | zero => exact agrees_coreStops (hstop rfl)
    | succ k' =>
      cases superclass with
      | none => exact declareClass_agrees h ht name .none h.link
      | some parent =>
        apply (readVariable_agrees h).bind
        intro later v v' hlater hv
        cases hv with
        | constant l => cases l <;> exact agrees_raise _ _
        | object _ _ => exact agrees_raise _ _
        | callable hf =>
          cases hf with
          | native _ | function _ _ => exact agrees_raise _ _
          | cls hc =>
            exact declareClass_agrees (h.mono hlater) ht name (.some hc)
              fun u hu => h.link u (List.mem_cons_of_mem _ hu)
  | stmt s => exact hrun s h

end Parts

mutual

theorem evaluate_agrees {n n' : Nat} (hn : ample.Permits n n') {origins : Origins} {t : Thinning}
    {ctx : Context} {ctx' : Lox.Context} (e : Expr)
    (h : Stands tables origins t ctx ctx' (usesIn t e)) :
    Agrees tables ample origins (evaluate n ctx e) (Lox.evaluate n' ctx' e) (Value.Alike tables) := by
  obtain ⟨hample, rfl⟩ | ⟨hample, rfl⟩ | ⟨k, k', rfl, rfl, -, hk⟩ := hn.cases
  · exact agrees_surfaceStops hample
  · exact agrees_coreStops hample
  cases e with
  | literal value => exact agrees_pure (.constant value)
  | var name => exact readVariable_agrees h
  | this keyword => exact readVariable_agrees h
  | super keyword method => exact readSuper_agrees h method
  | group inner => exact evaluate_agrees hk inner h
  | assign name value =>
    apply (evaluate_agrees hk value h.left).bind
    intro later v v' hlater hv
    apply (assignVariable_agrees (h.right.mono hlater) hv).bind
    intro latest _ _ hlatest _
    exact agrees_pure (hv.mono hlatest)
  | unary op operand =>
    apply (evaluate_agrees hk operand h).bind
    intro later v v' _ hv
    rw [unaryOperation_alike hv]
    exact agrees_lift (unaryOperation_operated op.kind v.outline) op
  | binary left op right =>
    apply (evaluate_agrees hk left h.left).bind
    intro later v v' hlater hv
    apply (evaluate_agrees hk right (h.right.mono hlater)).bind
    intro latest x x' hlatest hx
    rw [binaryOperation_alike (hv.mono hlatest) hx]
    exact agrees_lift (binaryOperation_operated op.kind v.outline x.outline) op
  | logical left op right =>
    apply (evaluate_agrees hk left h.left).bind
    intro later v v' hlater hv
    apply Agrees.ite (by rw [settles_alike hv])
    · exact agrees_pure hv
    · exact evaluate_agrees hk right (h.right.mono hlater)
  | get object property =>
    apply (evaluate_agrees hk object h).bind
    intro later v v' _ hv
    exact readProperty_agrees hv property
  | set object property value =>
    apply (evaluate_agrees hk object h.right).bind
    intro later v v' hlater hv
    cases hv with
    | constant l => cases l <;> exact agrees_raise _ _
    | callable _ => exact agrees_raise _ _
    | object id _ =>
      apply (evaluate_agrees hk value (h.left.mono hlater)).bind
      intro latest x x' _ hx
      apply (setField_agrees id property.lexeme hx).bind
      intro last _ _ hlast _
      exact agrees_pure (hx.mono hlast)
  | call callee paren args =>
    apply (evaluate_agrees hk callee h.left).bind
    intro later v v' hlater hv
    apply (evaluateAll_agrees hk args (h.right.mono hlater)).bind
    intro latest vs vs' hlatest hvs
    have hlength : vs'.length = vs.length := hvs.length_eq.symm
    cases hv with
    | constant l => cases l <;> exact agrees_raise _ _
    | object _ _ => exact agrees_raise _ _
    | @callable f f' hf =>
      dsimp only
      rw [hf.arity, hlength, h.depth]
      have hcallee : tables.Link [] := nofun
      apply Agrees.ite Iff.rfl
      · exact agrees_raise _ _
      · apply Agrees.ite Iff.rfl
        · exact agrees_raise _ _
        · have hcall := call_agrees hk ((h.mono (hlater.trans hlatest)).deeper.uses hcallee)
            (hf.mono hlatest) hvs
          rwa [h.depth] at hcall
termination_by n + n'
decreasing_by all_goals omega

theorem evaluateAll_agrees {n n' : Nat} (hn : ample.Permits n n') {origins : Origins} {t : Thinning}
    {ctx : Context} {ctx' : Lox.Context} (es : List Expr)
    (h : Stands tables origins t ctx ctx' (usesInAll t es)) :
    Agrees tables ample origins (evaluateAll n ctx es) (Lox.evaluateAll n' ctx' es)
      (ValuesAlike tables) := by
  obtain ⟨hample, rfl⟩ | ⟨hample, rfl⟩ | ⟨k, k', rfl, rfl, -, hk⟩ := hn.cases
  · exact agrees_surfaceStops hample
  · exact agrees_coreStops hample
  cases es with
  | nil => exact agrees_pure .nil
  | cons e rest =>
    apply (evaluate_agrees hk e h.left).bind
    intro later v v' hlater hv
    apply (evaluateAll_agrees hk rest (h.right.mono hlater)).bind
    intro latest vs vs' hlatest hvs
    exact agrees_pure (.cons (hv.mono hlatest) hvs)
termination_by n + n'
decreasing_by all_goals omega

theorem call_agrees {n n' : Nat} (hn : ample.Permits n n') {origins : Origins} {t : Thinning}
    {ctx : Context} {ctx' : Lox.Context} (h : Stands tables origins t ctx ctx' [])
    {f : Callable} {f' : Lox.Callable} (hf : Callable.Alike tables origins f f') {args : List Value}
    {args' : List Lox.Value} (hargs : ValuesAlike tables origins args args') :
    Agrees tables ample origins (call n ctx f args) (Lox.call n' ctx' f' args')
      (Value.Alike tables) := by
  obtain ⟨hample, rfl⟩ | ⟨hample, rfl⟩ | ⟨k, k', rfl, rfl, -, hk⟩ := hn.cases
  · exact agrees_surfaceStops hample
  · exact agrees_coreStops hample
  cases hf with
  | native f =>
    cases f
    exact readClock_agrees
  | function id hclosure => exact runBody_agrees hk h hclosure hargs
  | @cls c c' hc =>
    apply (makeObject_agrees hc).bind
    intro later object object' hlater hobject
    obtain ⟨hnone, hnone'⟩ | ⟨method, method', hsome, hsome', hmethod⟩ :=
      rel_cases (hc.methods initializerName)
    · rw [hnone, hnone']
      exact agrees_pure hobject
    · rw [hsome, hsome']
      apply (bindMethod_agrees (hmethod.mono hlater) hobject).bind
      intro origins₂ init init' h₂ hinit
      have hargs₂ : ValuesAlike tables origins₂ args args' :=
        hargs.imp fun _ _ hv => hv.mono (hlater.trans h₂)
      apply (runBody_agrees hk (h.mono (hlater.trans h₂)) hinit hargs₂).bind
      intro origins₃ _ _ h₃ _
      exact agrees_pure (hobject.mono (h₂.trans h₃))
termination_by n + n'
decreasing_by all_goals omega

theorem runBody_agrees {n n' : Nat} (hn : ample.Permits n n') {origins : Origins} {t : Thinning}
    {ctx : Context} {ctx' : Lox.Context} (h : Stands tables origins t ctx ctx' [])
    {closure : Closure} {closure' : Lox.Closure}
    (hclosure : Closure.Alike [] tables origins closure closure') {args : List Value}
    {args' : List Lox.Value} (hargs : ValuesAlike tables origins args args') :
    Agrees tables ample origins (runBody n ctx closure args) (Lox.runBody n' ctx' closure' args')
      (Value.Alike tables) := by
  obtain ⟨hample, rfl⟩ | ⟨hample, rfl⟩ | ⟨k, k', rfl, rfl, -, hk⟩ := hn.cases
  · exact agrees_surfaceStops hample
  · exact agrees_coreStops hample
  obtain ⟨t₁, henv, hdeclares, hlink⟩ := hclosure.environment
  have hparams : Bindings.Related (Value.Alike tables origins)
      (.ofList ((closure.decl.params.map Token.lexeme).zip args))
      (.ofList ((closure'.decl.params.map Token.lexeme).zip args')) := by
    rw [hclosure.decl, FunDecl.desugar_params]
    exact Bindings.related_ofList (forall₂_zip _ hargs)
  rw [List.nil_append, FunDecl.uses_eq] at hlink
  have hdesugared : closure'.decl.body = Decl.desugarAll closure.decl.body := by
    rw [hclosure.decl, FunDecl.desugar_body]
  rw [runBody, Lox.runBody, hdesugared, hclosure.isInitializer]
  apply (makeFrame_agrees henv hparams).bind
  intro later env env' hlater henv₁
  have hinside := ((h.mono hlater).inside henv₁).uses hlink
  apply (declareAll_agrees hk t₁.declares_shared closure.decl.body hinside).bind
  intro latest flow flow' hlatest hflow
  apply Agrees.ite Iff.rfl
  · exact receiver_agrees (henv.mono (hlater.trans hlatest)) hdeclares
  · cases hflow with
    | normal => exact agrees_pure (.constant .nil)
    | returned hv => exact agrees_pure hv
termination_by n + n'
decreasing_by all_goals omega

theorem execute_agrees {n n' : Nat} (hn : ample.Permits n n') {origins : Origins} {t : Thinning}
    {ctx : Context} {ctx' : Lox.Context} (s : Stmt) (h : Stands tables origins t ctx ctx' (s.uses t)) :
    Agrees tables ample origins (execute n ctx s) (Lox.execute n' ctx' s.desugar)
      (Flow.Alike tables) := by
  obtain ⟨hample, rfl⟩ | ⟨hample, rfl⟩ | ⟨k, k', rfl, rfl, hn, hk⟩ := hn.cases
  · exact agrees_surfaceStops hample
  · exact agrees_coreStops hample
  cases s with
  | expr e =>
    apply (evaluate_agrees hk e h).bind
    intro later _ _ _ _
    exact agrees_pure .normal
  | print keyword value =>
    apply (evaluate_agrees hk value h).bind
    intro later v v' _ hv
    rw [hv.text]
    apply (printLine_agrees keyword v.outline.text).bind
    intro latest _ _ _ _
    exact agrees_pure .normal
  | block body =>
    apply (makeFrame_agrees h.environment Bindings.related_empty).bind
    intro later env env' hlater henv
    exact declareAll_agrees hk t.declares_shared body ((h.mono hlater).inside henv)
  | ifThen condition yes =>
    apply (evaluate_agrees hk condition h.left).bind
    intro later v v' hlater hv
    apply Agrees.ite (by rw [hv.isTruthy])
    · exact execute_agrees hk yes (h.right.mono hlater)
    · exact agrees_pure .normal
  | ifElse condition yes no =>
    apply (evaluate_agrees hk condition h.left.left).bind
    intro later v v' hlater hv
    apply Agrees.ite (by rw [hv.isTruthy])
    · exact execute_agrees hk yes (h.left.right.mono hlater)
    · exact execute_agrees hk no (h.right.mono hlater)
  | whileLoop condition body =>
    apply (evaluate_agrees hk condition h.left).bind
    intro later v v' hlater hv
    apply Agrees.ite (by rw [hv.isTruthy])
    · apply (execute_agrees hk body (h.right.mono hlater)).bind
      intro latest flow flow' hlatest hflow
      cases hflow with
      | normal => exact execute_agrees hk (.whileLoop condition body) (h.mono (hlater.trans hlatest))
      | returned hv => exact agrees_pure (.returned hv)
    · exact agrees_pure .normal
  | forLoop initializer condition increment body =>
    cases initializer with
    | none =>
      rw [Stmt.uses_forLoop_none] at h
      rw [Stmt.desugar, Option.map_none, forLoop_none, loop]
      apply (condition_agrees (fun hzero => hn.eq_surface (by omega)) fun e he =>
        evaluate_agrees hk e (by subst he; exact h.left)).bind
      intro later v v' hlater hv
      apply Agrees.ite (by rw [hv.isTruthy])
      · apply (turn_agrees (h.right.mono hlater) (fun hless => hn.eq_surface (by omega))
          (fun _ _ _ j' hj hj' hs =>
            execute_agrees (hn.sub (by omega) (by omega) (by omega) (by omega)) body hs)
          fun _ _ _ e j' hj he =>
            evaluate_agrees (hn.sub (by omega) (by omega) (by omega) (by omega)) e he).bind
        intro latest flow flow' hlatest hflow
        cases hflow with
        | normal =>
          rw [← Stmt.uses_forLoop_none] at h
          have hrest := execute_agrees hk (.forLoop none condition increment body)
            (h.mono (hlater.trans hlatest))
          rwa [Stmt.desugar, Option.map_none, forLoop_none, loop] at hrest
        | returned hv => exact agrees_pure (.returned hv)
      · exact agrees_pure .normal
    | some i =>
      rw [Stmt.uses_forLoop_some] at h
      rw [Stmt.desugar, Option.map_some, forLoop_some]
      apply (makeFrame_agrees h.environment Bindings.related_empty).bind
      intro later env env' hlater henv
      have hinside := (h.mono hlater).inside henv
      cases k' with
      | zero => exact agrees_coreStops (hn.eq_surface (by omega))
      | succ j' =>
        apply (runInitializer_agrees t.declares_shared hinside.left
          (fun hzero => hn.eq_surface (by omega)) fun e he i' hi' =>
            evaluate_agrees (hn.sub (by omega) (by omega) (by omega) (by omega)) e he).bind
        rintro latest _ _ hlatest rfl
        apply Agrees.only (fun hless => hn.eq_surface (by omega))
        rintro i' rfl
        have hi' : ample.Permits k i' := hn.sub (by omega) (by omega) (by omega) (by omega)
        have hrest := execute_agrees hi' (.forLoop none condition increment body)
          (hinside.right.mono hlatest)
        rwa [Stmt.desugar, Option.map_none, forLoop_none] at hrest
  | ret keyword value =>
    cases value with
    | none => exact agrees_pure (.returned (.constant .nil))
    | some e =>
      apply (evaluate_agrees hk e h).bind
      intro later v v' _ hv
      exact agrees_pure (.returned hv)
termination_by n + n'
decreasing_by all_goals omega

theorem declareAll_agrees {n n' : Nat} (hn : ample.Permits n n') {origins : Origins} {t : Thinning}
    {ctx : Context} {ctx' : Lox.Context} (ht : t.Declares) (ds : List Decl)
    (h : Stands tables origins t ctx ctx' (Decl.usesAll t ds)) :
    Agrees tables ample origins (declareAll n ctx ds) (Lox.executeAll n' ctx' (Decl.desugarAll ds))
      (Flow.Alike tables) := by
  obtain ⟨hample, rfl⟩ | ⟨hample, rfl⟩ | ⟨k, k', rfl, rfl, hn, hk⟩ := hn.cases
  · exact agrees_surfaceStops hample
  · exact agrees_coreStops hample
  cases ds with
  | nil => exact agrees_pure .normal
  | cons d rest =>
    have heval : ∀ e, Stands tables origins t ctx ctx' (usesIn t e) → ∀ j', k' = j' + 1 →
        Agrees tables ample origins (evaluate k ctx e) (Lox.evaluate j' ctx' e) (Value.Alike tables) :=
      fun e he j' hj' => evaluate_agrees (hn.sub (by omega) (by omega) (by omega) (by omega)) e he
    have hrun : ∀ s : Stmt, Stands tables origins t ctx ctx' (s.uses t) →
        Agrees tables ample origins (execute k ctx s) (Lox.execute k' ctx' s.desugar)
          (Flow.Alike tables) :=
      fun s hs => execute_agrees hk s hs
    apply (declare_agrees ht h.left (fun hzero => hn.eq_surface (by omega)) heval hrun).bind
    intro later flow flow' hlater hflow
    cases hflow with
    | normal => exact declareAll_agrees hk ht rest (h.right.mono hlater)
    | returned hv => exact agrees_pure (.returned hv)
termination_by n + n'
decreasing_by all_goals omega

end

end Lox.Surface
