import Lox.Proofs.Evaluation.Controlled
import Lox.Session

/-!
Control state over an evaluation. However an evaluation ends, the registers are as they were. While it
runs the calls in progress are those begun and not finished, and there are never too many: a call that
would be one too many is refused, and nothing else is refused so.
-/
namespace Lox

def begun (log : List Moment) : Nat := log.countP (·.event matches .begin)

def finished (log : List Moment) : Nat := log.countP (·.event matches .finish)

/-- So many calls are in progress behind what a log says, and not too many. -/
def InProgress (depth : Nat) (log : List Moment) : Prop :=
  depth + finished log = begun log ∧ depth ≤ maxCallDepth

/-- At every moment the calls in progress are those begun and not finished. -/
def CountedThroughout : List Moment → Prop
  | [] => True
  | m :: earlier => InProgress m.depth (m :: earlier) ∧ CountedThroughout earlier

/-- Only calls with as many arguments as the callable takes are attempted. -/
def Moment.Fits (m : Moment) : Prop :=
  match m.event with
  | .attempt _ f args => f.arity = args.length
  | .node | .begin | .finish => True

structure Control.Sound (c : Control) : Prop where
  globals : c.globals = globalEnv
  counted : InProgress c.depth c.log
  throughout : CountedThroughout c.log
  fitting : ∀ m ∈ c.log, m.Fits

/-- A call is refused while the most calls that may be are in progress. -/
def Refused (token : Token) (log : List Moment) : Prop :=
  ∃ f args, ⟨.attempt token f args, maxCallDepth⟩ ∈ log

/-- What an evaluation does to the registers by the time it stops, with a value, an error or no
answer. -/
structure Control.Keeps {α : Type} (c : Control) (result : Result α) (after : Control) : Prop where
  sound : after.Sound
  restored : result ≠ .exhausted →
    after.globals = c.globals ∧ after.env = c.env ∧ after.depth = c.depth
  logged : ∃ new, after.log = new ++ c.log ∧
    ∀ token, result.overflow? = some token ↔ Refused token new

namespace Control

variable {c after last : Control} {α β : Type}

theorem sound_initial : initial.Sound := by
  refine ⟨rfl, ⟨rfl, Nat.zero_le _⟩, trivial, ?_⟩
  intro m hm
  contradiction

theorem Sound.note (h : c.Sound) {event : Event} {depth : Nat}
    (hcount : InProgress depth (⟨event, depth⟩ :: c.log)) (hfits : Moment.Fits ⟨event, depth⟩) :
    ({ c with depth }.note event).Sound := by
  refine ⟨h.globals, hcount, ⟨hcount, h.throughout⟩, ?_⟩
  intro m hm
  rcases List.mem_cons.1 hm with rfl | hm
  · exact hfits
  · exact h.fitting m hm

theorem Sound.node (h : c.Sound) : (c.note .node).Sound := h.note h.counted trivial

theorem Sound.attempt (h : c.Sound) {f : Callable} {args : List Value} (paren : Token)
    (hfits : f.arity = args.length) : (c.note (.attempt paren f args)).Sound :=
  h.note h.counted hfits

theorem Sound.begin (h : c.Sound) (hdepth : c.depth < maxCallDepth) :
    ({ c with depth := c.depth + 1 }.note .begin).Sound := by
  have hcount : InProgress (c.depth + 1) (⟨.begin, c.depth + 1⟩ :: c.log) := by
    have hbefore := h.counted.1
    refine ⟨?_, hdepth⟩
    simp only [begun, finished, List.countP_cons, if_true, Bool.false_eq_true, if_false] at hbefore ⊢
    omega
  exact h.note hcount trivial

theorem Sound.finish (h : c.Sound) (hdepth : 0 < c.depth) :
    ({ c with depth := c.depth - 1 }.note .finish).Sound := by
  have hcount : InProgress (c.depth - 1) (⟨.finish, c.depth - 1⟩ :: c.log) := by
    obtain ⟨hbefore, hbound⟩ := h.counted
    refine ⟨?_, by omega⟩
    simp only [begun, finished, List.countP_cons, if_true, Bool.false_eq_true, if_false] at hbefore ⊢
    omega
  exact h.note hcount trivial

theorem Sound.setEnv (h : c.Sound) (env : Environment) : ({ c with env } : Control).Sound :=
  ⟨h.globals, h.counted, h.throughout, h.fitting⟩

theorem refused_append {token : Token} {log earlier : List Moment} :
    Refused token (log ++ earlier) ↔ Refused token log ∨ Refused token earlier := by
  simp only [Refused, List.mem_append, exists_or]

theorem refused_cons {token : Token} {m : Moment} {log : List Moment} :
    Refused token (m :: log) ↔
      (∃ f args, m = ⟨.attempt token f args, maxCallDepth⟩) ∨ Refused token log := by
  simp only [Refused, List.mem_cons, exists_or, eq_comm]

theorem not_refused_nil (token : Token) : ¬ Refused token [] := by
  rintro ⟨f, args, hmem⟩
  contradiction

theorem Keeps.refl (h : c.Sound) {result : Result α} (hquiet : result.overflow? = none) :
    c.Keeps result c := by
  refine ⟨h, fun _ => ⟨rfl, rfl, rfl⟩, [], rfl, ?_⟩
  intro token
  rw [hquiet]
  exact ⟨nofun, fun h => absurd h (not_refused_nil token)⟩

theorem Keeps.node (h : c.Sound) (w : World) : c.Keeps (.ok () w) (c.note .node) := by
  refine ⟨h.node, fun _ => ⟨rfl, rfl, rfl⟩, [⟨.node, c.depth⟩], rfl, ?_⟩
  intro token
  refine ⟨nofun, fun hrefused => ?_⟩
  rcases refused_cons.1 hrefused with ⟨f, args, hnode⟩ | hrefused
  · cases hnode
  · exact absurd hrefused (not_refused_nil token)

theorem Keeps.within {env : Environment} {result : Result α}
    (h : Control.Keeps { c with env } result after) :
    c.Keeps result { after with env := c.env } := by
  refine ⟨h.sound.setEnv c.env, fun hends => ?_, h.logged⟩
  obtain ⟨hglobals, -, hdepth⟩ := h.restored hends
  exact ⟨hglobals, rfl, hdepth⟩

theorem Keeps.trans {value : α} {w : World} {result : Result β} (h : c.Keeps (.ok value w) after)
    (hnext : after.Keeps result last) : c.Keeps result last := by
  obtain ⟨new, hnew, hrefused⟩ := h.logged
  obtain ⟨newer, hnewer, hlast⟩ := hnext.logged
  refine ⟨hnext.sound, ?_, newer ++ new, ?_, ?_⟩
  · intro hends
    obtain ⟨hglobals, henv, hdepth⟩ := h.restored nofun
    obtain ⟨hglobals', henv', hdepth'⟩ := hnext.restored hends
    exact ⟨hglobals'.trans hglobals, henv'.trans henv, hdepth'.trans hdepth⟩
  · rw [hnewer, hnew, List.append_assoc]
  · intro token
    have hnone : ¬ Refused token new := fun hnew => nomatch (hrefused token).2 hnew
    rw [refused_append, hlast token]
    exact ⟨.inl, fun h => h.resolve_right hnone⟩

theorem Keeps.error {e : RuntimeError} {w : World} (h : c.Keeps (.error e w : Result α) after) :
    c.Keeps (.error e w : Result β) after :=
  ⟨h.sound, fun _ => h.restored nofun, h.logged⟩

theorem Keeps.exhausted (h : c.Keeps (.exhausted : Result α) after) :
    c.Keeps (.exhausted : Result β) after :=
  ⟨h.sound, fun hends => absurd rfl hends, h.logged⟩

def entered (c : Control) (paren : Token) (f : Callable) (args : List Value) : Control :=
  { c.note (.attempt paren f args) with depth := c.depth + 1 }.note .begin

section Calls

variable {paren : Token} {f : Callable} {args : List Value} {result : Result α}

theorem Keeps.refuse (h : c.Sound) (hfits : f.arity = args.length) (hdepth : maxCallDepth ≤ c.depth)
    (w : World) :
    c.Keeps (.error ⟨paren, .stackOverflow⟩ w : Result α) (c.note (.attempt paren f args)) := by
  refine ⟨h.attempt paren hfits, fun _ => ⟨rfl, rfl, rfl⟩, [⟨.attempt paren f args, c.depth⟩], rfl, ?_⟩
  intro token
  rw [refused_cons, Nat.le_antisymm h.counted.2 hdepth]
  constructor
  · intro htoken
    cases htoken
    exact .inl ⟨f, args, rfl⟩
  · rintro (⟨g, values, hattempt⟩ | hrefused)
    · injection hattempt with hattempt
      injection hattempt with htoken
      rw [htoken]
      rfl
    · exact absurd hrefused (not_refused_nil token)

theorem Keeps.logged_entered (hdepth : c.depth < maxCallDepth)
    (h : (c.entered paren f args).Keeps result after) :
    ∃ new, after.log = new ++ c.log ∧
      ∀ token, result.overflow? = some token ↔ Refused token new := by
  obtain ⟨new, hnew, hrefused⟩ := h.logged
  refine ⟨new ++ [⟨.begin, c.depth + 1⟩, ⟨.attempt paren f args, c.depth⟩], ?_, ?_⟩
  · rw [hnew, List.append_assoc]
    rfl
  · intro token
    rw [refused_append, hrefused token, refused_cons, refused_cons]
    constructor
    · exact .inl
    · rintro (hnew | ⟨g, values, hbegin⟩ | ⟨g, values, hattempt⟩ | hrefused)
      · exact hnew
      · cases hbegin
      · injection hattempt with _ hfull
        exact absurd hfull (Nat.ne_of_lt hdepth)
      · exact absurd hrefused (not_refused_nil token)

theorem Keeps.abandon (hdepth : c.depth < maxCallDepth)
    (h : (c.entered paren f args).Keeps (.exhausted : Result α) after) :
    c.Keeps (.exhausted : Result α) after :=
  ⟨h.sound, fun hends => absurd rfl hends, h.logged_entered hdepth⟩

theorem Keeps.finish (hdepth : c.depth < maxCallDepth)
    (h : (c.entered paren f args).Keeps result after) (hends : result ≠ .exhausted) :
    c.Keeps result ({ after with depth := after.depth - 1 }.note .finish) := by
  obtain ⟨hglobals, henv, hafter⟩ := h.restored hends
  have hpositive : 0 < after.depth := by
    rw [hafter]
    exact Nat.succ_pos c.depth
  refine ⟨h.sound.finish hpositive, fun _ => ⟨hglobals, henv, ?_⟩, ?_⟩
  · change after.depth - 1 = c.depth
    rw [hafter]
    rfl
  · obtain ⟨new, hnew, hrefused⟩ := h.logged_entered hdepth
    refine ⟨⟨.finish, after.depth - 1⟩ :: new, ?_, ?_⟩
    · change ⟨.finish, after.depth - 1⟩ :: after.log = _
      rw [hnew]
      rfl
    · intro token
      rw [hrefused token, refused_cons]
      constructor
      · exact .inr
      · rintro (⟨g, values, hfinish⟩ | hrefused)
        · cases hfinish
        · exact hrefused

end Calls

end Control

/-- A controlled evaluation ends as an evaluation does whose context is read off the registers, and keeps
the registers. -/
def Restores {α : Type} (hops : HopTable) (m : Controlled α) (m' : Context → Evaluation α) : Prop :=
  ∀ c w, c.Sound → (m c w).1 = m' (c.context hops) w ∧ c.Keeps (m c w).1 (m c w).2

section Rules

variable {α β : Type} {hops : HopTable} {m n : Controlled α} {m' n' : Context → Evaluation α}

theorem Restores.of_run (hrun : ∀ c w, c.globals = globalEnv → m c w = (m' (c.context hops) w, c))
    (hquiet : ∀ ctx, Quiet (m' ctx)) : Restores hops m m' := by
  intro c w hc
  rw [hrun c w hc.globals]
  exact ⟨rfl, .refl hc (hquiet _ w)⟩

theorem Restores.pure (value : α) : Restores hops (Pure.pure value) fun _ => Pure.pure value :=
  .of_run (fun _ _ _ => rfl) fun _ => .pure value

theorem Restores.liftM {action : Evaluation α} (hquiet : Quiet action) :
    Restores hops (MonadLiftT.monadLift action : Controlled α) fun _ => action :=
  .of_run (fun _ _ _ => rfl) fun _ => hquiet

theorem Controlled.bind_run (m : Controlled α) (next : α → Controlled β) (c : Control) (w : World) :
    (m >>= next) c w =
      match m c w with
      | (.ok value w, c) => next value c w
      | (.error e w, c) => (.error e w, c)
      | (.exhausted, c) => (.exhausted, c) := rfl

theorem Restores.bind {next : α → Controlled β} {next' : α → Context → Evaluation β}
    (hm : Restores hops m m') (hnext : ∀ value, Restores hops (next value) (next' value)) :
    Restores hops (m >>= next) fun ctx => m' ctx >>= fun value => next' value ctx := by
  intro c w hc
  obtain ⟨hresult, hkeeps⟩ := hm c w hc
  rcases hrun : m c w with ⟨result, after⟩
  rw [hrun] at hresult hkeeps
  change ((m >>= next) c w).1 =
      (m' (c.context hops) w).andThen (fun value => next' value (c.context hops)) ∧
    c.Keeps ((m >>= next) c w).1 ((m >>= next) c w).2
  rw [Controlled.bind_run, hrun, ← hresult]
  cases result with
  | ok value w' =>
    obtain ⟨hlast, hlastKeeps⟩ := hnext value after w' hkeeps.sound
    obtain ⟨-, henv, hdepth⟩ := hkeeps.restored (by simp)
    have hcontext : after.context hops = c.context hops := by
      rw [Control.context, henv, hdepth, Control.context]
    rw [hcontext] at hlast
    exact ⟨hlast, hkeeps.trans hlastKeeps⟩
  | error e w' => exact ⟨rfl, hkeeps.error⟩
  | exhausted => exact ⟨rfl, hkeeps.exhausted⟩

theorem Restores.behindNode (hm : Restores hops m m') :
    Restores hops (Controlled.node >>= fun _ => m) m' := by
  intro c w hc
  obtain ⟨hresult, hkeeps⟩ := hm (c.note .node) w hc.node
  exact ⟨hresult, (Control.Keeps.node hc w).trans hkeeps⟩

theorem Restores.within (hm : Restores hops m m') (env : Environment) :
    Restores hops (Controlled.within env m) fun ctx => m' { ctx with env } := by
  intro c w hc
  obtain ⟨hresult, hkeeps⟩ := hm { c with env } w (hc.setEnv env)
  exact ⟨hresult, hkeeps.within⟩

theorem Controlled.invoke_run (m : Controlled α) (paren : Token) (f : Callable) (args : List Value)
    (c : Control) (w : World) :
    Controlled.invoke paren f args m c w =
      if maxCallDepth ≤ c.depth then (.error ⟨paren, .stackOverflow⟩ w, c.note (.attempt paren f args))
      else
        match m (c.entered paren f args) w with
        | (.exhausted, c) => (.exhausted, c)
        | (result, c) => (result, { c with depth := c.depth - 1 }.note .finish) := rfl

/-- Calls are where evaluations are refused. -/
theorem Restores.invoke (hm : Restores hops m m') (paren : Token) {f : Callable} {args : List Value}
    (hfits : f.arity = args.length) :
    Restores hops (Controlled.invoke paren f args m) fun ctx =>
      if maxCallDepth ≤ ctx.depth then Evaluation.raise paren .stackOverflow
      else m' { ctx with depth := ctx.depth + 1 } := by
  intro c w hc
  change (Controlled.invoke paren f args m c w).1 =
      (if maxCallDepth ≤ c.depth then Evaluation.raise paren .stackOverflow
        else m' ((c.entered paren f args).context hops)) w ∧
    c.Keeps (Controlled.invoke paren f args m c w).1 (Controlled.invoke paren f args m c w).2
  rw [Controlled.invoke_run]
  by_cases hfull : maxCallDepth ≤ c.depth
  · rw [if_pos hfull, if_pos hfull]
    exact ⟨rfl, .refuse hc hfits hfull w⟩
  · rw [if_neg hfull, if_neg hfull]
    have hfree := Nat.lt_of_not_le hfull
    obtain ⟨hresult, hkeeps⟩ :=
      hm (c.entered paren f args) w ((hc.attempt paren hfits).begin hfree)
    rcases hrun : m (c.entered paren f args) w with ⟨result, after⟩
    rw [hrun] at hresult hkeeps
    cases result with
    | ok value w' => exact ⟨hresult, hkeeps.finish hfree (by simp)⟩
    | error e w' => exact ⟨hresult, hkeeps.finish hfree (by simp)⟩
    | exhausted => exact ⟨hresult, hkeeps.abandon hfree⟩

end Rules

namespace Controlled

section Actions

variable (hops : HopTable)

theorem readVariable_restores (name : Token) :
    Restores hops (readVariable hops name) fun ctx => Lox.readVariable ctx name := by
  refine .of_run (fun c w hglobals => ?_) fun ctx => readVariable_quiet ctx name
  have hfind : c.find? hops w.frames name = (c.context hops).find? w.frames name := by
    unfold Control.find?
    rw [hglobals]
    rfl
  cases hvalue : (c.context hops).find? w.frames name <;>
    simp only [readVariable, read, Lox.readVariable, hfind, hvalue]

theorem assignVariable_restores (name : Token) (value : Value) :
    Restores hops (assignVariable hops name value) fun ctx => Lox.assignVariable ctx name value := by
  refine .of_run (fun c w hglobals => ?_) fun ctx => assignVariable_quiet ctx name value
  have hassign : c.assign? hops w.frames name value =
      (c.context hops).assign? w.frames name value := by
    unfold Control.assign?
    rw [hglobals]
    rfl
  cases hframes : (c.context hops).assign? w.frames name value <;>
    simp only [assignVariable, read, Lox.assignVariable, hassign, hframes]

theorem readSuper_restores (keyword method : Token) :
    Restores hops (read fun c => readSuper (c.context hops) keyword method)
      fun ctx => readSuper ctx keyword method :=
  .of_run (fun _ _ _ => rfl) fun ctx => readSuper_quiet ctx keyword method

theorem read_run_then {α β : Type} (m : Control → Evaluation α) (value : β) (c : Control) (w : World) :
    (read m >>= fun _ => Pure.pure value) c w = ((m c >>= fun _ => Pure.pure value) w, c) := by
  rw [bind_run, read, Evaluation.bind_run]
  cases m c w <;> rfl

/-- The frame of a superclass is current only while the methods are declared. -/
theorem declareClass_run (name : Token) (superclass : Option Class) (methods : List FunDecl)
    (c : Control) (w : World) :
    declareClass name superclass methods c w =
      (Lox.declareClass (c.context hops) name superclass methods w, c) := by
  rw [declareClass_eq]
  cases superclass <;> exact read_run_then _ Flow.normal c _

theorem declareClass_restores (name : Token) (superclass : Option Class) (methods : List FunDecl) :
    Restores hops (declareClass name superclass methods)
      fun ctx => Lox.declareClass ctx name superclass methods :=
  .of_run (fun c w _ => declareClass_run hops name superclass methods c w)
    fun ctx => declareClass_quiet ctx name superclass methods

end Actions

theorem scope_restores {m : HopTable → Controlled Flow} {m' : Context → Evaluation Flow}
    (hm : ∀ hops, Restores hops (m hops) m') (opener : Opener) (bindings : Bindings Value)
    (enclosing : Environment) (hops : HopTable) :
    Restores hops (steps.scope hops opener bindings enclosing m) fun ctx =>
      makeFrame bindings enclosing >>= fun env => m' { ctx with env } :=
  .bind (.liftM fun _ => rfl) fun env => (hm hops).within env

theorem steps_restore : steps.Respects fun _ m m' => ∀ hops, Restores hops (m hops) m' where
  action h _ := .liftM h
  pure value _ := .pure value
  bind hm hnext hops := (hm hops).bind fun value => hnext value hops
  node hm hops := .behindNode (hm hops)
  env _ := .of_run (fun _ _ _ => rfl) fun _ => .pure _
  readVariable _ name hops := readVariable_restores hops name
  readSuper keyword method hops := readSuper_restores hops keyword method
  assignVariable name value hops := assignVariable_restores hops name value
  readProperty v property _ := .liftM (readProperty_quiet v property)
  bindMethod _ _ _ _ _ := .liftM fun _ => rfl
  declareClass name superclass methods hops := declareClass_restores hops name superclass methods
  invoke hm paren _ _ hfits hops := (hm hops).invoke paren hfits
  scope := scope_restores

section Evaluations

variable (hops : HopTable) (fuel : Nat)

theorem evaluate_restores (e : Expr) :
    Restores hops (evaluate hops fuel e) fun ctx => Lox.evaluate fuel ctx e :=
  (Steps.depthRespects steps_restore fuel).evaluate e hops

theorem execute_restores (s : Stmt) :
    Restores hops (execute hops fuel s) fun ctx => Lox.execute fuel ctx s :=
  (Steps.depthRespects steps_restore fuel).execute s hops

theorem executeTop_restores (program : List Stmt) :
    Restores hops (executeTop hops fuel program) fun ctx => Session.executeTop fuel ctx program :=
  Steps.executeTop_respects steps_restore fuel program hops

end Evaluations

end Controlled

end Lox
