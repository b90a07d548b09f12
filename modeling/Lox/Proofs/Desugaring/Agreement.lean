import Lox.Proofs.Desugaring.Correspondence

/-!
Evaluations of the two runs that agree. From worlds that correspond they end alike: with corresponding
values in corresponding worlds, or with the same error and the same output. One side has more depth than
the other can use up, so only the other one may stop for want of depth.
-/
namespace Lox.Surface

/-- The run that has depth to spare. -/
inductive Ample where
  | surface | core
deriving DecidableEq

/-- Depths of which the one is so much greater that it outlasts the other. -/
def Ample.Permits : Ample → Nat → Nat → Prop
  | .surface, n, n' => 8 * n' ≤ n
  | .core, n, n' => 8 * n ≤ n'

namespace Ample

variable {ample : Ample} {n n' k k' : Nat}

theorem Permits.sub (h : ample.Permits n n') (hk : k < n) (hk' : k' < n') (hn : n ≤ k + 8)
    (hn' : n' ≤ k' + 8) : ample.Permits k k' := by
  cases ample <;> simp only [Permits] at h ⊢ <;> omega

/-- Where the surface run has used up little of its depth and the desugared run has used up all of its own,
the surface run is the one with depth to spare. -/
theorem Permits.eq_surface (h : ample.Permits (n + 1) n') (hn' : n' < 8) : ample = .surface := by
  cases ample
  case surface => rfl
  case core =>
    simp only [Permits] at h
    omega

theorem Permits.eq_core (h : ample.Permits n (n' + 1)) (hn : n < 8) : ample = .core := by
  cases ample
  case surface =>
    simp only [Permits] at h
    omega
  case core => rfl

theorem Permits.cases (h : ample.Permits n n') :
    (ample = .core ∧ n = 0) ∨ (ample = .surface ∧ n' = 0) ∨
      ∃ k k', n = k + 1 ∧ n' = k' + 1 ∧ ample.Permits (k + 1) (k' + 1) ∧ ample.Permits k k' := by
  cases n with
  | zero =>
    cases n' with
    | zero => cases ample <;> simp
    | succ k' => exact .inl ⟨h.eq_core (by omega), rfl⟩
  | succ k =>
    cases n' with
    | zero => exact .inr (.inl ⟨h.eq_surface (by omega), rfl⟩)
    | succ k' =>
      have hk : ample.Permits k k' := h.sub (by omega) (by omega) (by omega) (by omega)
      exact .inr (.inr ⟨k, k', rfl, rfl, h, hk⟩)

end Ample

variable {α β γ δ : Type}

/-- Results that are alike. Behind values the origins have grown, and the values are as claimed. -/
inductive Meets (tables : Tables) (ample : Ample) (origins : Origins) (Q : Origins → α → β → Prop) :
    Option (Except RuntimeError α × World) → Result β → Prop
  | value {later v v' w w'} (hlater : origins <+: later) (hworld : World.Alike tables later w w')
      (hvalue : Q later v v') : Meets tables ample origins Q (some (.ok v, w)) (.ok v' w')
  | error {w w'} (e : RuntimeError) (hconsole : w'.console = w.console) :
      Meets tables ample origins Q (some (.error e, w)) (.error e w')
  | surfaceStops (h : ample = .core) (result : Result β) : Meets tables ample origins Q none result
  | coreStops (h : ample = .surface) (result : Option (Except RuntimeError α × World)) :
      Meets tables ample origins Q result .exhausted

/-- Evaluations that end alike from all worlds that correspond. -/
def Agrees (tables : Tables) (ample : Ample) (origins : Origins) (m : Evaluation α)
    (m' : Lox.Evaluation β) (Q : Origins → α → β → Prop) : Prop :=
  ∀ w w', World.Alike tables origins w w' → Meets tables ample origins Q (m w) (m' w')

section Rules

variable {tables : Tables} {ample : Ample} {origins : Origins} {m : Evaluation α}
  {m' : Lox.Evaluation β} {Q : Origins → α → β → Prop} {R : Origins → γ → δ → Prop}

theorem Meets.mono {later : Origins} {r : Option (Except RuntimeError α × World)} {r' : Result β}
    (h : Meets tables ample later Q r r') (hlater : origins <+: later) :
    Meets tables ample origins Q r r' := by
  cases h with
  | value hlatest hworld hvalue => exact .value (hlater.trans hlatest) hworld hvalue
  | error e hconsole => exact .error e hconsole
  | surfaceStops h _ => exact .surfaceStops h _
  | coreStops h _ => exact .coreStops h _

theorem agrees_pure {v : α} {v' : β} (h : Q origins v v') :
    Agrees tables ample origins (pure v) (pure v') Q :=
  fun _ _ hw => .value (List.prefix_refl _) hw h

theorem agrees_raise (token : Token) (fault : RuntimeFault) :
    Agrees tables ample origins (Evaluation.raise token fault) (Lox.Evaluation.raise token fault) Q :=
  fun _ _ hw => .error _ hw.console

theorem agrees_surfaceStops (h : ample = .core) :
    Agrees tables ample origins Evaluation.exhausted m' Q := fun _ _ _ => .surfaceStops h _

theorem agrees_coreStops (h : ample = .surface) :
    Agrees tables ample origins m Lox.Evaluation.exhausted Q := fun _ _ _ => .coreStops h _

theorem Agrees.bind {next : α → Evaluation γ} {next' : β → Lox.Evaluation δ}
    (hm : Agrees tables ample origins m m' Q)
    (hnext : ∀ later v v', origins <+: later → Q later v v' →
      Agrees tables ample later (next v) (next' v') R) :
    Agrees tables ample origins (m >>= next) (m' >>= next') R := by
  intro w w' hw
  have hmeets := hm w w' hw
  change Meets _ _ _ _ (Evaluation.bind m next w) _
  rw [Lox.Evaluation.bind_run]
  unfold Evaluation.bind
  generalize m w = result at hmeets ⊢
  generalize m' w' = result' at hmeets ⊢
  cases hmeets with
  | value hlater hworld hvalue => exact (hnext _ _ _ hlater hvalue _ _ hworld).mono hlater
  | error e hconsole => exact .error e hconsole
  | surfaceStops h result' => exact .surfaceStops h _
  | coreStops h result => exact .coreStops h _

theorem Agrees.behind {next' : β → Lox.Evaluation δ} {R : Origins → α → δ → Prop}
    (hm : Agrees tables ample origins m m' Q)
    (hnext : ∀ later v v', origins <+: later → Q later v v' →
      Agrees tables ample later (pure v) (next' v') R) :
    Agrees tables ample origins m (m' >>= next') R := by
  have hbind := hm.bind hnext
  have hpure : m >>= pure = m := by
    funext w
    change Evaluation.bind m Evaluation.pure w = m w
    unfold Evaluation.bind
    split <;> simp_all [Evaluation.pure]
  rwa [hpure] at hbind

theorem Agrees.ahead {next : α → Evaluation γ} {R : Origins → γ → β → Prop}
    (hm : Agrees tables ample origins m m' Q)
    (hnext : ∀ later v v', origins <+: later → Q later v v' →
      Agrees tables ample later (next v) (pure v') R) :
    Agrees tables ample origins (m >>= next) m' R := by
  have hbind := hm.bind hnext
  have hpure : m' >>= pure = m' := by
    funext w'
    rw [Lox.Evaluation.bind_run]
    cases m' w' <;> rfl
  rwa [hpure] at hbind

theorem Agrees.ite {n : Evaluation α} {n' : Lox.Evaluation β} {c c' : Prop} [Decidable c]
    [Decidable c'] (hc : c' ↔ c) (hm : Agrees tables ample origins m m' Q)
    (hn : Agrees tables ample origins n n' Q) :
    Agrees tables ample origins (if c then m else n) (if c' then m' else n') Q := by
  by_cases h : c
  · rwa [if_pos h, if_pos (hc.2 h)]
  · rwa [if_neg h, if_neg (mt hc.1 h)]

theorem agrees_lift {operation : Except RuntimeFault Lox.Value} (h : Operated operation) (op : Token) :
    Agrees tables ample origins (Evaluation.lift op operation) (Lox.Evaluation.lift op operation)
      (Value.Alike tables) := by
  cases operation with
  | ok v =>
    have hconstant : Lox.Value.ofLiteral (constantOf v) = v := by
      cases v with
      | nil | bool _ | num _ | str _ => rfl
      | callable _ | object _ _ => exact h.elim
    have halike : Value.Alike tables origins (.constant (constantOf v)) (.ofLiteral (constantOf v)) :=
      .constant _
    rw [hconstant] at halike
    exact agrees_pure halike
  | error fault => exact agrees_raise op fault

end Rules

structure Stands (tables : Tables) (origins : Origins) (t : Thinning) (ctx : Context)
    (ctx' : Lox.Context) (us : List Use) : Prop where
  hops : ctx.hops = tables.surface
  addressing : ctx'.addressing = .distances tables.core
  environment : EnvironmentWoven origins t ctx.env ctx'.env
  depth : ctx'.depth = ctx.depth
  link : tables.Link us

namespace Stands

variable {tables : Tables} {origins later : Origins} {t t₁ : Thinning} {ctx : Context}
  {ctx' : Lox.Context} {us vs : List Use} {u : Use}

theorem mono (h : Stands tables origins t ctx ctx' us) (hlater : origins <+: later) :
    Stands tables later t ctx ctx' us := { h with environment := h.environment.mono hlater }

theorem uses (h : Stands tables origins t ctx ctx' us) (hvs : tables.Link vs) :
    Stands tables origins t ctx ctx' vs := { h with link := hvs }

theorem left (h : Stands tables origins t ctx ctx' (us ++ vs)) : Stands tables origins t ctx ctx' us :=
  h.uses fun u hu => h.link u (List.mem_append_left vs hu)

theorem right (h : Stands tables origins t ctx ctx' (us ++ vs)) : Stands tables origins t ctx ctx' vs :=
  h.uses fun u hu => h.link u (List.mem_append_right us hu)

theorem head (h : Stands tables origins t ctx ctx' (u :: us)) : u.Linked tables.surface tables.core :=
  h.link u (List.mem_cons_self ..)

theorem inside (h : Stands tables origins t ctx ctx' us) {env env' : Environment}
    (henv : EnvironmentWoven later t₁ env env') :
    Stands tables later t₁ { ctx with env } { ctx' with env := env' } us :=
  { h with environment := henv }

theorem deeper (h : Stands tables origins t ctx ctx' us) :
    Stands tables origins t { ctx with depth := ctx.depth + 1 }
      { ctx' with depth := ctx'.depth + 1 } us :=
  { h with depth := congrArg (· + 1) h.depth }

end Stands

section Variables

variable {tables : Tables} {ample : Ample} {origins : Origins} {t : Thinning} {ctx : Context}
  {ctx' : Lox.Context} {us : List Use} {w : World} {w' : Lox.World}

theorem get_global (hw : World.Alike tables origins w w') (name : String) :
    Option.Rel (Value.Alike tables origins) (w.frames.get globalEnv name)
      (w'.frames.get globalEnv name) := by
  have hshared := hw.shared hw.global name
  unfold Frames.get globalEnv
  rw [List.findSome?_singleton, List.findSome?_singleton]
  exact hshared

theorem getAt_alike (henv : EnvironmentWoven origins t ctx.env ctx'.env)
    (hw : World.Alike tables origins w w') {d d' : Nat} (himage : t.image? d = some d') (name : String) :
    Option.Rel (Value.Alike tables origins) (w.frames.getAt ctx.env d name)
      (w'.frames.getAt ctx'.env d' name) := by
  obtain ⟨frame, frame', hframe, hframe', horigin⟩ := henv.frames_at himage
  rw [Frames.getAt, Frames.getAt, hframe, hframe']
  exact hw.shared horigin name

theorem find?_alike {access : Access} {name : Token}
    (h : Stands tables origins t ctx ctx' (⟨access, name, t⟩ :: us))
    (hw : World.Alike tables origins w w') :
    Option.Rel (Value.Alike tables origins) (ctx.find? w.frames name)
      (ctx'.find? w'.frames name) := by
  unfold Context.find? Lox.Context.find?
  rw [h.addressing, h.hops]
  dsimp only
  obtain ⟨hnone, hnone'⟩ | ⟨d, d', hd, hd', himage, -⟩ := h.head
  · rw [hnone, hnone']
    exact get_global hw name.lexeme
  · rw [hd, hd']
    exact getAt_alike h.environment hw himage name.lexeme

theorem readVariable_agrees {access : Access} {name : Token}
    (h : Stands tables origins t ctx ctx' (⟨access, name, t⟩ :: us)) :
    Agrees tables ample origins (readVariable ctx name) (Lox.readVariable ctx' name)
      (Value.Alike tables) := by
  intro w w' hw
  unfold readVariable Lox.readVariable
  obtain ⟨hnone, hnone'⟩ | ⟨v, v', hsome, hsome', hv⟩ := rel_cases (find?_alike h hw)
  · rw [hnone, hnone']
    exact .error _ hw.console
  · rw [hsome, hsome']
    exact .value (List.prefix_refl _) hw hv

def FramesAlike (tables : Tables) (origins : Origins) (w : World) (w' : Lox.World)
    (frames : Frames Value) (frames' : Frames Lox.Value) : Prop :=
  World.Alike tables origins { w with frames } { w' with frames := frames' }

theorem assignIn_alike (hw : World.Alike tables origins w w') {frame frame' : FrameId}
    (horigin : origins[frame']? = some (some frame)) (name : String) {v : Value} {v' : Lox.Value}
    (hv : Value.Alike tables origins v v') :
    Option.Rel (FramesAlike tables origins w w') (w.frames.assignIn frame name v)
      (w'.frames.assignIn frame' name v') := by
  unfold Frames.assignIn
  obtain ⟨hnone, hnone'⟩ | ⟨old, old', hsome, hsome', -⟩ := rel_cases (hw.shared horigin name)
  · rw [hnone, hnone']
    exact .none
  · rw [hsome, hsome']
    exact .some (hw.defineIn horigin name hv)

theorem assign_alike (hw : World.Alike tables origins w w') {env env' : Environment}
    (henv : EnvironmentWoven origins t env env') (name : String) {v : Value} {v' : Lox.Value}
    (hv : Value.Alike tables origins v v') :
    Option.Rel (FramesAlike tables origins w w') (w.frames.assign env name v)
      (w'.frames.assign env' name v') := by
  have hfind : Option.Rel (fun frame frame' => origins[frame']? = some (some frame))
      (env.find? fun frame => (w.frames.getIn frame name).isSome)
      (env'.find? fun frame' => (w'.frames.getIn frame' name).isSome) := by
    have hbound : ∀ {frame frame' : FrameId}, origins[frame']? = some (some frame) →
        (w'.frames.getIn frame' name).isSome = (w.frames.getIn frame name).isSome := by
      intro frame frame' horigin
      obtain ⟨hnone, hnone'⟩ | ⟨_, _, hsome, hsome', -⟩ := rel_cases (hw.shared horigin name)
      · rw [hnone, hnone']
        rfl
      · rw [hsome, hsome', Option.isSome_some, Option.isSome_some]
    induction henv with
    | global =>
      unfold globalEnv
      rw [List.find?_cons, List.find?_cons, hbound hw.global]
      cases (w.frames.getIn 0 name).isSome with
      | false => exact .none
      | true => exact .some hw.global
    | @shared t env env' frame frame' horigin _ ih =>
      rw [List.find?_cons, List.find?_cons, hbound horigin]
      cases (w.frames.getIn frame name).isSome with
      | false => exact ih
      | true => exact .some horigin
    | @added t env env' frame' horigin _ ih =>
      rw [List.find?_cons, hw.added horigin name]
      exact ih
  unfold Frames.assign
  obtain ⟨hnone, hnone'⟩ | ⟨frame, frame', hsome, hsome', horigin⟩ := rel_cases hfind
  · rw [hnone, hnone']
    exact .none
  · rw [hsome, hsome']
    exact .some (hw.defineIn horigin name hv)

theorem assign?_alike {access : Access} {name : Token}
    (h : Stands tables origins t ctx ctx' (⟨access, name, t⟩ :: us))
    (hw : World.Alike tables origins w w') {v : Value} {v' : Lox.Value}
    (hv : Value.Alike tables origins v v') :
    Option.Rel (FramesAlike tables origins w w') (ctx.assign? w.frames name v)
      (ctx'.assign? w'.frames name v') := by
  unfold Context.assign? Lox.Context.assign?
  rw [h.addressing, h.hops]
  dsimp only
  obtain ⟨hnone, hnone'⟩ | ⟨d, d', hd, hd', himage, -⟩ := h.head
  · rw [hnone, hnone']
    exact assign_alike hw .global name.lexeme hv
  · rw [hd, hd']
    obtain ⟨frame, frame', hframe, hframe', horigin⟩ := h.environment.frames_at himage
    dsimp only
    rw [Frames.assignAt, Frames.assignAt, hframe, hframe']
    exact assignIn_alike hw horigin name.lexeme hv

theorem assignVariable_agrees {access : Access} {name : Token}
    (h : Stands tables origins t ctx ctx' (⟨access, name, t⟩ :: us)) {v : Value} {v' : Lox.Value}
    (hv : Value.Alike tables origins v v') :
    Agrees tables ample origins (assignVariable ctx name v) (Lox.assignVariable ctx' name v')
      fun _ _ _ => True := by
  intro w w' hw
  unfold assignVariable Lox.assignVariable
  obtain ⟨hnone, hnone'⟩ | ⟨frames, frames', hsome, hsome', hframes⟩ :=
    rel_cases (assign?_alike h hw hv)
  · rw [hnone, hnone']
    exact .error _ hw.console
  · rw [hsome, hsome']
    exact .value (List.prefix_refl _) hframes trivial

theorem assignDeclared_agrees {env env' : Environment} (henv : EnvironmentWoven origins t env env')
    (name : Token) {v : Value} {v' : Lox.Value} (hv : Value.Alike tables origins v v') :
    Agrees tables ample origins (assignDeclared env name v) (Lox.assignDeclared env' name v')
      fun _ _ _ => True := by
  intro w w' hw
  unfold assignDeclared Lox.assignDeclared
  obtain ⟨hnone, hnone'⟩ | ⟨frames, frames', hsome, hsome', hframes⟩ :=
    rel_cases (assign_alike hw henv name.lexeme hv)
  · rw [hnone, hnone']
    exact .error _ hw.console
  · rw [hsome, hsome']
    exact .value (List.prefix_refl _) hframes trivial

theorem defineVariable_agrees {env env' : Environment} (henv : EnvironmentWoven origins t env env')
    (ht : t.Declares) (name : String) {v : Value} {v' : Lox.Value}
    (hv : Value.Alike tables origins v v') :
    Agrees tables ample origins (defineVariable env name v) (Lox.defineVariable env' name v')
      fun _ _ _ => True := by
  intro w w' hw
  obtain ⟨frame, frame', outer, outer', rfl, rfl, horigin⟩ := henv.innermost ht hw.global
  exact .value (List.prefix_refl _) (hw.defineIn horigin name hv) trivial

end Variables

section Making

variable {tables : Tables} {ample : Ample} {origins : Origins} {t : Thinning}
  {env env' : Environment}

theorem makeFrame_agrees (henv : EnvironmentWoven origins t env env') {bindings : Bindings Value}
    {bindings' : Bindings Lox.Value}
    (hbindings : Bindings.Related (Value.Alike tables origins) bindings bindings') :
    Agrees tables ample origins (makeFrame bindings env) (Lox.makeFrame bindings' env')
      fun later env env' => EnvironmentWoven later (.shared :: t) env env' := by
  intro w w' hw
  have hlater : origins <+: origins ++ [some w.frames.frames.size] := List.prefix_append _ _
  have hframe : (origins ++ [some w.frames.frames.size])[w'.frames.frames.size]? =
      some (some w.frames.frames.size) := by
    rw [← hw.size, List.getElem?_concat_length]
  exact .value hlater (hw.create hbindings env env') (.shared hframe (henv.mono hlater))

theorem Agrees.added {m : Evaluation α} {next' : Environment → Lox.Evaluation β}
    {Q : Origins → α → β → Prop} (henv : EnvironmentWoven origins t env env')
    (hnext : ∀ later inner', origins <+: later → EnvironmentWoven later (.added :: t) env inner' →
      Agrees tables ample later m (next' inner') Q) :
    Agrees tables ample origins m (Lox.makeFrame .empty env' >>= next') Q := by
  intro w w' hw
  have hlater : origins <+: origins ++ [none] := List.prefix_append _ _
  have hframe : (origins ++ [none])[w'.frames.frames.size]? = some none := by
    rw [← hw.size, List.getElem?_concat_length]
  exact (hnext _ _ hlater (.added hframe (henv.mono hlater)) w _ (hw.add env')).mono hlater

theorem freshId_agrees :
    Agrees tables ample origins freshId Lox.freshId fun _ id id' => id' = id := by
  intro w w' hw
  exact .value (List.prefix_refl _) { hw with nextId := congrArg (· + 1) hw.nextId } hw.nextId

theorem makeFunction_agrees {c : Closure} {c' : Lox.Closure} (hc : Closure.Alike [] tables origins c c') :
    Agrees tables ample origins (makeFunction c) (Lox.makeFunction c') (Value.Alike tables) := by
  apply freshId_agrees.bind
  intro later id id' hlater hid
  rw [hid]
  exact agrees_pure (.callable (.function id (hc.mono hlater)))

theorem makeObject_agrees {c : Class} {c' : Lox.Class} (hc : Class.Alike tables origins c c') :
    Agrees tables ample origins (makeObject c) (Lox.makeObject c') (Value.Alike tables) := by
  intro w w' hw
  have hobject : Value.Alike tables origins (.object w.objects.size c) (.object w'.objects.size c') := by
    rw [hw.count]
    exact .object _ hc
  refine .value (List.prefix_refl _) { hw with count := ?_, fields := ?_ } hobject
  · simp only [Array.size_push, hw.count]
  · intro id name
    have hold := hw.fields id name
    dsimp only
    rw [Array.getElem?_push, Array.getElem?_push, hw.count]
    split
    · exact .none
    · exact hold

theorem bindMethod_agrees {method : Closure} {method' : Lox.Closure}
    (hmethod : Closure.Alike [.shared] tables origins method method') {receiver : Value}
    {receiver' : Lox.Value} (hreceiver : Value.Alike tables origins receiver receiver') :
    Agrees tables ample origins (bindMethod method receiver) (Lox.bindMethod method' receiver')
      (Closure.Alike [] tables) := by
  obtain ⟨t, henv, hdeclares, hlink⟩ := hmethod.environment
  apply (makeFrame_agrees henv (Bindings.related_singleton "this" hreceiver)).bind
  intro later env env' _ henv'
  exact agrees_pure ⟨hmethod.decl, hmethod.isInitializer, _, henv', hdeclares, hlink⟩

theorem receiver_agrees {method : Closure} {method' : Lox.Closure}
    (henv : EnvironmentWoven origins t method.env method'.env) (ht : t.Declares) :
    Agrees tables ample origins (receiver method) (Lox.receiver method') (Value.Alike tables) := by
  intro w w' hw
  obtain ⟨frame, frame', outer, outer', henv, henv', horigin⟩ := henv.innermost ht hw.global
  refine .value (List.prefix_refl _) hw ?_
  rw [henv, henv']
  change Value.Alike tables origins ((w.frames.getIn frame "this").getD _)
    ((w'.frames.getIn frame' "this").getD _)
  obtain ⟨hnone, hnone'⟩ | ⟨v, v', hsome, hsome', hv⟩ := rel_cases (hw.shared horigin "this")
  · rw [hnone, hnone']
    exact .constant .nil
  · rw [hsome, hsome']
    exact hv

theorem readField?_agrees (id : Nat) (name : String) :
    Agrees tables ample origins (readField? id name) (Lox.readField? id name)
      fun later => Option.Rel (Value.Alike tables later) := by
  intro w w' hw
  exact .value (List.prefix_refl _) hw (hw.fields id name)

theorem setField_agrees (id : Nat) (name : String) {v : Value} {v' : Lox.Value}
    (hv : Value.Alike tables origins v v') :
    Agrees tables ample origins (setField id name v) (Lox.setField id name v')
      fun _ _ _ => True := by
  intro w w' hw
  refine .value (List.prefix_refl _) { hw with count := ?_, fields := ?_ } trivial
  · simp only [Array.size_modify, hw.count]
  · intro other name'
    have hold := hw.fields other name'
    dsimp only
    rw [Array.getElem?_modify, Array.getElem?_modify]
    split
    · by_cases hlt : other < w.objects.size
      · have hlt' : other < w'.objects.size := hw.count ▸ hlt
        rw [Array.getElem?_eq_getElem hlt, Array.getElem?_eq_getElem hlt'] at hold ⊢
        simp only [Option.map_some, Option.bind_some, Bindings.get?_insert] at hold ⊢
        split
        · exact .some hv
        · exact hold
      · have hlt' : ¬ other < w'.objects.size := hw.count ▸ hlt
        rw [Array.getElem?_eq_none (Nat.le_of_not_lt hlt),
          Array.getElem?_eq_none (Nat.le_of_not_lt hlt')]
        exact .none
    · exact hold

theorem methodOf_agrees {c : Class} {c' : Lox.Class} (hc : Class.Alike tables origins c c')
    (property : Token) {receiver : Value} {receiver' : Lox.Value}
    (hreceiver : Value.Alike tables origins receiver receiver') :
    Agrees tables ample origins (methodOf c property receiver) (Lox.methodOf c' property receiver')
      (Value.Alike tables) := by
  unfold methodOf Lox.methodOf
  obtain ⟨hnone, hnone'⟩ | ⟨method, method', hsome, hsome', hmethod⟩ :=
    rel_cases (hc.methods property.lexeme)
  · rw [hnone, hnone']
    exact agrees_raise _ _
  · rw [hsome, hsome']
    apply (bindMethod_agrees hmethod hreceiver).bind
    intro later bound bound' _ hbound
    exact makeFunction_agrees hbound

theorem readProperty_agrees {v : Value} {v' : Lox.Value} (hv : Value.Alike tables origins v v')
    (property : Token) :
    Agrees tables ample origins (readProperty v property) (Lox.readProperty v' property)
      (Value.Alike tables) := by
  cases hv with
  | constant value => cases value <;> exact agrees_raise _ _
  | callable _ => exact agrees_raise _ _
  | object id hc =>
    apply (readField?_agrees id property.lexeme).bind
    intro later field field' hlater hfield
    cases hfield with
    | none => exact methodOf_agrees (hc.mono hlater) property (.object id (hc.mono hlater))
    | some hvalue => exact agrees_pure hvalue

theorem readClock_agrees :
    Agrees tables ample origins readClock Lox.readClock (Value.Alike tables) := by
  intro w w' hw
  refine .value (List.prefix_refl _) { hw with clock := ?_ } ?_
  · dsimp only
    rw [hw.clock]
  · rw [hw.clock]
    exact .constant (.num w.clock.now)

theorem printLine_agrees (keyword : Token) (text : String) :
    Agrees tables ample origins (printLine keyword text) (Lox.printLine keyword text)
      fun _ _ _ => True := by
  intro w w' hw
  unfold printLine Lox.printLine
  rw [hw.console]
  cases w.console.print (text ++ "\n") with
  | mk refusal console =>
    cases refusal with
    | none => exact .value (List.prefix_refl _) { hw with console := rfl } trivial
    | some reason => exact .error _ rfl

end Making

section Classes

variable {tables : Tables} {ample : Ample} {origins : Origins} {t : Thinning} {ctx : Context}
  {ctx' : Lox.Context} {us : List Use}

theorem findSuper?_alike {keyword : Token} {w : World} {w' : Lox.World}
    (h : Stands tables origins t ctx ctx' (⟨.super, keyword, t⟩ :: us))
    (hw : World.Alike tables origins w w') :
    Option.Rel (fun found found' => Value.Alike tables origins found.1 found'.1 ∧
        Value.Alike tables origins found.2 found'.2)
      (ctx.findSuper? w.frames keyword) (ctx'.findSuper? w'.frames keyword) := by
  unfold Context.findSuper? Lox.Context.findSuper?
  rw [h.addressing, h.hops]
  obtain ⟨hnone, hnone'⟩ | ⟨d, d', hd, hd', himage, hsuper⟩ := h.head
  · simp only [hnone, hnone']
    exact .none
  · obtain ⟨e, e', rfl, rfl, hinner⟩ := hsuper rfl
    simp only [hd, hd', Option.bind_eq_bind, Option.bind_some, Nat.add_sub_cancel]
    have houter := getAt_alike h.environment hw himage "super"
    have hinner := getAt_alike h.environment hw hinner "this"
    obtain ⟨hnone, hnone'⟩ | ⟨parent, parent', hsome, hsome', hparent⟩ := rel_cases houter
    · simp only [hnone, hnone']
      exact .none
    · obtain ⟨hnone, hnone'⟩ | ⟨this, this', hthis, hthis', hreceiver⟩ := rel_cases hinner
      · simp only [hsome, hsome', hnone, hnone']
        exact .none
      · simp only [hsome, hsome', hthis, hthis']
        exact .some ⟨hparent, hreceiver⟩

theorem readSuper_agrees {keyword : Token}
    (h : Stands tables origins t ctx ctx' (⟨.super, keyword, t⟩ :: us)) (method : Token) :
    Agrees tables ample origins (readSuper ctx keyword method) (Lox.readSuper ctx' keyword method)
      (Value.Alike tables) := by
  intro w w' hw
  unfold readSuper Lox.readSuper
  obtain ⟨hnone, hnone'⟩ | ⟨⟨parent, this⟩, ⟨parent', this'⟩, hsome, hsome', hparent, hthis⟩ :=
    rel_cases (findSuper?_alike h hw)
  · rw [hnone, hnone']
    exact .error _ hw.console
  · rw [hsome, hsome']
    cases hparent with
    | constant value => cases value <;> exact .error _ hw.console
    | object _ _ => exact .error _ hw.console
    | callable hf =>
      cases hf with
      | native _ | function _ _ => exact .error _ hw.console
      | cls hc =>
        cases hthis with
        | constant value => cases value <;> exact .error _ hw.console
        | callable _ => exact .error _ hw.console
        | object id hobject => exact methodOf_agrees hc method (.object id hobject) w w' hw

theorem methodsEnvironment_agrees (h : Stands tables origins t ctx ctx' us) {superclass : Option Class}
    {superclass' : Option Lox.Class}
    (hsuperclass : Option.Rel (Class.Alike tables origins) superclass superclass') :
    Agrees tables ample origins (methodsEnvironment ctx superclass)
      (Lox.methodsEnvironment ctx' superclass') fun later env env' =>
        EnvironmentWoven later (superclass.elim t fun _ => .shared :: t) env env' := by
  cases hsuperclass with
  | none => exact agrees_pure h.environment
  | some hc =>
    exact makeFrame_agrees h.environment (Bindings.related_singleton "super" (.callable (.cls hc)))

inductive Flow.Alike (tables : Tables) (origins : Origins) : Flow → Lox.Flow → Prop
  | normal : Alike tables origins .normal .normal
  | returned {v v'} (h : Value.Alike tables origins v v') :
      Alike tables origins (.returned v) (.returned v')

theorem declareClass_agrees (h : Stands tables origins t ctx ctx' us) (ht : t.Declares) (name : Token)
    {superclass : Option Class} {superclass' : Option Lox.Class}
    (hsuperclass : Option.Rel (Class.Alike tables origins) superclass superclass')
    {methods : List FunDecl}
    (hlink : tables.Link
      (FunDecl.usesAll (.shared :: superclass.elim t fun _ => .shared :: t) methods)) :
    Agrees tables ample origins (declareClass ctx name superclass methods)
      (Lox.declareClass ctx' name superclass' (FunDecl.desugarAll methods)) (Flow.Alike tables) := by
  rw [Lox.declareClass_eq, declareClass]
  apply (defineVariable_agrees h.environment ht name.lexeme (.constant .nil)).bind
  intro origins₁ _ _ h₁ _
  have hsuperclass₁ := rel_imp hsuperclass fun _ _ hc => Class.Alike.mono hc h₁
  apply (methodsEnvironment_agrees (h.mono h₁) hsuperclass₁).bind
  intro origins₂ env env' h₂ henv
  apply freshId_agrees.bind
  intro origins₃ id id' h₃ hid
  rw [hid]
  have hsuperclass₃ := rel_imp hsuperclass₁ fun _ _ hc => Class.Alike.mono hc (h₂.trans h₃)
  have hclass : Class.Alike tables origins₃ ⟨id, name.lexeme, superclass, methodTable env methods⟩
      ⟨id, name.lexeme, superclass', Lox.methodTable env' (FunDecl.desugarAll methods)⟩ :=
    Class.alike_mk hsuperclass₃ (methodTable_alike (henv.mono h₃) hlink)
  have henv₃ := h.environment.mono (h₁.trans (h₂.trans h₃))
  apply (assignDeclared_agrees henv₃ name (.callable (.cls hclass))).bind
  intro origins₄ _ _ _ _
  exact agrees_pure .normal

end Classes

end Lox.Surface
