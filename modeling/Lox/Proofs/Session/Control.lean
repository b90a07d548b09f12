import Lox.Proofs.Evaluation.Restored
import Lox.Proofs.Session.Numbering

/-!
Control state over a session. One interpreter serves all runs, and every run starts from the registers
that the one before left. They are those of an interpreter that has run nothing, however that run ended.
-/
namespace Lox

namespace Session

/-- A run from the registers that earlier runs left. -/
def runControlled? (fuel : Nat) (s : Session) (c : Control) (source : String) :
    Option ((Status × Session) × Control) :=
  let s' := (s.skipSource source).mapConsole (s.prepare source).1
  match (s.prepare source).2 with
  | none => some ((.staticError, s'), c)
  | some program =>
    let s' := s'.adopt (resolve program).hops
    match Controlled.executeTop s'.hops fuel program c s'.world with
    | (.ok _ world, c) => some (conclude (none, { s' with world }), c)
    | (.error e world, c) => some (conclude (some e, { s' with world }), c)
    | (.exhausted, _) => none

/-- The sessions that runs lead to, with the registers that they leave. -/
inductive ControlledBy : Session → Control → Prop
  | initial (clock : Clock) (console : Console) : ControlledBy (initial clock console) .initial
  | run {fuel s c source answer c'} (h : ControlledBy s c)
      (hrun : s.runControlled? fuel c source = some (answer, c')) : ControlledBy answer.2 c'
  | debugParse {s c} (debugParse : Bool) (h : ControlledBy s c) :
      ControlledBy { s with debugParse } c

end Session

/-- No call is in progress, and the global frame is current. -/
structure Control.AtRest (c : Control) : Prop where
  sound : c.Sound
  env : c.env = globalEnv
  depth : c.depth = 0

namespace Control

variable {c : Control}

theorem atRest_initial : initial.AtRest := ⟨sound_initial, rfl, rfl⟩

theorem AtRest.context_eq (h : c.AtRest) (hops : HopTable) :
    c.context hops = ⟨.distances hops, globalEnv, 0⟩ := by
  rw [context, h.env, h.depth]

theorem AtRest.keeps {α : Type} {result : Result α} {after : Control} (h : c.AtRest)
    (hkeeps : c.Keeps result after) (hends : result ≠ .exhausted) : after.AtRest := by
  obtain ⟨-, henv, hdepth⟩ := hkeeps.restored hends
  exact ⟨hkeeps.sound, henv.trans h.env, hdepth.trans h.depth⟩

end Control

namespace Session

variable {fuel : Nat} {s : Session} {c : Control} {source : String}

/-- From registers at rest a run does what runs do, and leaves them at rest. -/
theorem runControlled?_of_atRest (h : c.AtRest) (fuel : Nat) (s : Session) (source : String) :
    (s.runControlled? fuel c source).map Prod.fst = s.run? fuel source ∧
      ∀ answer ∈ s.runControlled? fuel c source, answer.2.AtRest := by
  rw [run?_eq]
  unfold runControlled? proceed? execute?
  rcases (s.prepare source).2 with _ | program
  · exact ⟨rfl, fun answer hanswer => by cases hanswer; exact h⟩
  · dsimp only
    generalize (((s.skipSource source).mapConsole (s.prepare source).1).adopt
      (resolve program).hops) = s'
    obtain ⟨hresult, hkeeps⟩ :=
      Controlled.executeTop_restores s'.hops fuel program c s'.world h.sound
    have hrest : (Controlled.executeTop s'.hops fuel program c s'.world).1 =
        executeTop fuel ⟨.distances s'.hops, globalEnv, 0⟩ program s'.world := by
      rw [← h.context_eq]
      exact hresult
    rw [← hrest]
    rcases hrun : Controlled.executeTop s'.hops fuel program c s'.world with ⟨result, after⟩
    rw [hrun] at hkeeps
    cases result with
    | ok value world =>
      exact ⟨rfl, fun answer hanswer => by cases hanswer; exact h.keeps hkeeps (by simp)⟩
    | error e world =>
      exact ⟨rfl, fun answer hanswer => by cases hanswer; exact h.keeps hkeeps (by simp)⟩
    | exhausted => exact ⟨rfl, fun answer hanswer => nomatch hanswer⟩

theorem ControlledBy.atRest (h : s.ControlledBy c) : c.AtRest := by
  induction h with
  | initial clock console => exact Control.atRest_initial
  | run _ hrun ih => exact (runControlled?_of_atRest ih _ _ _).2 _ hrun
  | debugParse _ _ ih => exact ih

theorem Reachable.controlledBy (h : s.Reachable) : ∃ c, s.ControlledBy c := by
  induction h with
  | initial clock console => exact ⟨_, .initial clock console⟩
  | run _ hrun ih =>
    obtain ⟨c, hc⟩ := ih
    rw [← (runControlled?_of_atRest hc.atRest _ _ _).1] at hrun
    obtain ⟨⟨answer, after⟩, hcontrolled, hanswer⟩ := Option.map_eq_some_iff.1 hrun
    cases hanswer
    exact ⟨after, hc.run hcontrolled⟩
  | debugParse debugParse _ ih =>
    obtain ⟨c, hc⟩ := ih
    exact ⟨c, hc.debugParse debugParse⟩

/-- However an expression or a statement ends, it leaves the registers as they were; while it is
evaluated the calls in progress are counted and never too many, and only a call beyond them is refused.
So every run of a session starts at rest. -/
theorem control_restored :
    (∀ hops fuel e,
      Restores hops (Controlled.evaluate hops fuel e) fun ctx => evaluate fuel ctx e) ∧
    (∀ hops fuel stmt,
      Restores hops (Controlled.execute hops fuel stmt) fun ctx => execute fuel ctx stmt) ∧
    ∀ s : Session, (s.Reachable → ∃ c, s.ControlledBy c) ∧
      ∀ c, s.ControlledBy c → c.globals = globalEnv ∧ c.env = globalEnv ∧ c.depth = 0 ∧
        ∀ fuel source, (s.runControlled? fuel c source).map Prod.fst = s.run? fuel source := by
  refine ⟨Controlled.evaluate_restores, Controlled.execute_restores, fun s => ⟨?_, fun c h => ?_⟩⟩
  · exact Reachable.controlledBy
  · exact ⟨h.atRest.sound.globals, h.atRest.env, h.atRest.depth,
      fun fuel source => (runControlled?_of_atRest h.atRest fuel s source).1⟩

/-- Behind a run that fails inside as many calls as may be in progress. -/
theorem control_restored_overflow :
    ∃ s c, ControlledBy s c ∧
      (initial ⟨0, 0⟩ (.separate .unlimited .unlimited)).run? 3000
        "fun f() { { f(); } } class A { init() { f(); } } { A(); }" = some (.runtimeError, s) ∧
      begun c.log = maxCallDepth ∧ finished c.log = maxCallDepth ∧
      c.globals = globalEnv ∧ c.env = globalEnv ∧ c.depth = 0 ∧
      ∀ fuel source, (s.runControlled? fuel c source).map Prod.fst = s.run? fuel source := by
  obtain ⟨first, hfirst⟩ : ∃ s, s = initial ⟨0, 0⟩ (.separate .unlimited .unlimited) := ⟨_, rfl⟩
  have hruns : (first.runControlled? 3000 .initial
      "fun f() { { f(); } } class A { init() { f(); } } { A(); }").map (fun answer =>
        (answer.1.1, begun answer.2.log, finished answer.2.log)) =
      some (.runtimeError, maxCallDepth, maxCallDepth) := by
    rw [hfirst]
    decide +kernel
  obtain ⟨⟨⟨status, s⟩, c⟩, hrun, hanswer⟩ := Option.map_eq_some_iff.1 hruns
  injection hanswer with hstatus hcounts
  injection hcounts with hbegun hfinished
  have hcontrolled : ControlledBy first .initial := by
    rw [hfirst]
    exact .initial _ _
  have hplain := ((control_restored.2.2 first).2 _ hcontrolled).2.2.2 3000
    "fun f() { { f(); } } class A { init() { f(); } } { A(); }"
  rw [hrun, Option.map_some] at hplain
  obtain ⟨hglobals, henv, hdepth, hnext⟩ :=
    (control_restored.2.2 s).2 c (hcontrolled.run hrun)
  subst hstatus
  rw [← hfirst, ← hplain]
  exact ⟨s, c, hcontrolled.run hrun, rfl, hbegun, hfinished, hglobals, henv, hdepth, hnext⟩

end Session

end Lox
