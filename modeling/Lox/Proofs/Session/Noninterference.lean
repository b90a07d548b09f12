import Lox.Proofs.Evaluation.Timeless
import Lox.Proofs.Session.ConsoleExchange
import Lox.Proofs.Session.Outcome
import Lox.Proofs.Session.Runs

/-!
What diagnostics do not change. Two sessions that show parsed programs before different runs and have
different sinks for diagnostics, which may refuse what they like, run sources alike, by the same clock or by
any clocks if the sources do not call it.
-/
namespace Lox

def Run.CallsClock (r : Run) : Prop :=
  ∃ fuel ctx args w, r.Meets (fuel + 1) (.call ctx (.native .clock) args) w

theorem executeTop_timelessAt {fuel : Nat} {ctx : Context} {program : List Stmt} {w : World}
    (h : ∀ front stmt rest w₀, program = front ++ stmt :: rest →
      Session.executeTop fuel ctx front w = .ok () w₀ → ¬ (Job.execute ctx stmt).CallsClock fuel w₀) :
    (Session.executeTop fuel ctx program).TimelessAt w := by
  induction program generalizing w with
  | nil => exact (Evaluation.silent_pure ()).timelessAt
  | cons s rest ih =>
    refine ((depthTimeless fuel).execute (h [] s rest w rfl rfl)).bind fun flow w₁ hs => ?_
    apply ih
    intro front stmt more w₀ hprogram hfront
    apply h (s :: front) stmt more w₀ (by rw [hprogram, List.cons_append])
    rw [Session.executeTop, Evaluation.bind_run, hs]
    exact hfront

namespace Session

variable {s s' : Session} {fuel : Nat} {source : String}

def withClock (s : Session) (clock : Clock) : Session := { s with world := s.world.withClock clock }

theorem map_conclude {f : Session → Session} (hf : ∀ t d, (f t).report d = f (t.report d))
    (outcome? : Option (Option RuntimeError × Session)) :
    (outcome?.map fun outcome => (outcome.1, f outcome.2)).map conclude =
      (outcome?.map conclude).map fun answer => (answer.1, f answer.2) := by
  cases outcome? with
  | none => rfl
  | some outcome =>
    obtain ⟨e?, t⟩ := outcome
    cases e? with
    | none => rfl
    | some e => exact congrArg (fun t => some (Status.runtimeError, t)) (hf t (.runtime e))

theorem execute?_withClock {program : List Stmt} (h : ¬ Run.CallsClock ⟨s, program, fuel⟩) (clock : Clock) :
    (s.withClock clock).execute? fuel program =
      (s.execute? fuel program).map fun outcome => (outcome.1, outcome.2.withClock clock) := by
  have htimeless : (executeTop fuel s.topLevel program).TimelessAt s.world := by
    apply executeTop_timelessAt
    rintro front stmt rest w₀ hprogram hfront ⟨fuel', ctx, args, w, hreaches⟩
    exact h ⟨fuel', ctx, args, w, front, stmt, rest, w₀, hprogram, hfront, hreaches⟩
  rw [execute?_eq_settle, execute?_eq_settle]
  change settle _ (executeTop fuel s.topLevel program (s.world.withClock clock)) =
    Option.map _ (settle _ (executeTop fuel s.topLevel program s.world))
  rw [htimeless clock]
  cases executeTop fuel s.topLevel program s.world <;> rfl

theorem run?_withClock (h : ∀ r, s.runOf? fuel source = some r → ¬ r.CallsClock) (clock : Clock) :
    (s.withClock clock).run? fuel source =
      (s.run? fuel source).map fun answer => (answer.1, answer.2.withClock clock) := by
  have hother : (s.withClock clock).prepare source = s.prepare source := rfl
  cases hprepared : (s.prepare source).2 with
  | none =>
    rw [run?_eq, run?_eq, hother, hprepared]
    rfl
  | some program =>
    have hrun : s.runOf? fuel source = some ⟨s.loaded source program, program, fuel⟩ := by
      rw [runOf?, hprepared, Option.map_some]
    have hloaded : (s.withClock clock).loaded source program =
        (s.loaded source program).withClock clock := rfl
    rw [run?_loaded hprepared, run?_loaded (hother ▸ hprepared), hloaded, execute?_withClock (h _ hrun)]
    exact map_conclude (f := (·.withClock clock)) (fun _ _ => rfl) _

end Session

/-- Consoles with the same sink for output and with sinks of their own for diagnostics. -/
def Console.SameOut (c c' : Console) : Prop :=
  ∃ out err err', c = .separate out err ∧ c' = .separate out err'

theorem sameOut_printsAlike : PrintsAlike Console.SameOut := by
  rintro _ _ ⟨out, err, err', rfl, rfl⟩ text
  exact ⟨rfl, (out.offer text).2, err, err', rfl, rfl⟩

theorem sameOut_keptByReports : KeptByReports Console.SameOut := by
  rintro _ _ ⟨out, err, err', rfl, rfl⟩ text
  exact ⟨out, (err.offer text).2, (err'.offer text).2, rfl, rfl⟩

/-- Diagnostics lead to consoles with the same sink for output, however many of them either console is
offered. -/
theorem Console.SameOut.onlyComplained {base base' c c' : Console} (h : base.SameOut base')
    (hc : OnlyComplained base c) (hc' : OnlyComplained base' c') : c.SameOut c' := by
  obtain ⟨out, err, err', rfl, rfl⟩ := h
  obtain ⟨err₁, rfl⟩ := hc.separate
  obtain ⟨err₁', rfl⟩ := hc'.separate
  exact ⟨out, err₁, err₁', rfl, rfl⟩

namespace Session

/-- The same scanner and the same interpreter behind the same output. The clocks, the sinks for diagnostics
and whether parsed programs are shown are left open. -/
structure SameAside (s s' : Session) : Prop where
  nextIndex : s'.nextIndex = s.nextIndex
  hops : s'.hops = s.hops
  frames : s'.world.frames = s.world.frames
  objects : s'.world.objects = s.world.objects
  nextId : s'.world.nextId = s.world.nextId
  console : s.world.console.SameOut s'.world.console

def AnswersAside (answer answer' : Status × Session) : Prop :=
  answer'.1 = answer.1 ∧ answer.2.SameAside answer'.2 ∧ answer'.2.world.clock = answer.2.world.clock

variable {s s' : Session} {fuel : Nat} {source : String}

theorem proceed?_debugParse (fuel : Nat) (s : Session) (debugParse : Bool) (program? : Option (List Stmt)) :
    proceed? fuel { s with debugParse } program? =
      (proceed? fuel s program?).map fun answer => (answer.1, { answer.2 with debugParse }) := by
  cases program? with
  | none => rfl
  | some program =>
    have hexecute : (({ s with debugParse } : Session).adopt (resolve program).hops).execute? fuel program =
        ((s.adopt (resolve program).hops).execute? fuel program).map fun outcome =>
          (outcome.1, { outcome.2 with debugParse }) := by
      rw [execute?_eq_settle, execute?_eq_settle]
      change settle _ (executeTop fuel (s.adopt (resolve program).hops).topLevel program s.world) =
        Option.map _ (settle _ (executeTop fuel (s.adopt (resolve program).hops).topLevel program s.world))
      cases executeTop fuel (s.adopt (resolve program).hops).topLevel program s.world <;> rfl
    rw [proceed?, proceed?, hexecute]
    exact map_conclude (f := fun t => { t with debugParse }) (fun _ _ => rfl) _

theorem SameAside.eq_withConsole (h : s.SameAside s') (hclock : s'.world.clock = s.world.clock) :
    s' = { s.withConsole s'.world.console with debugParse := s'.debugParse } := by
  obtain ⟨nextIndex, hops, ⟨frames, objects, nextId, clock, console⟩, debugParse⟩ := s'
  obtain ⟨rfl, rfl, rfl, rfl, rfl, -⟩ := h
  cases hclock
  rfl

theorem SameAside.proceed (h : s.SameAside s') (hclock : s'.world.clock = s.world.clock) (fuel : Nat)
    (program? : Option (List Stmt)) :
    Option.Rel AnswersAside (proceed? fuel s program?) (proceed? fuel s' program?) := by
  have hrun := proceed?_withConsole sameOut_printsAlike sameOut_keptByReports h.console fuel program?
  have hother := proceed?_debugParse fuel (s.withConsole s'.world.console) s'.debugParse program?
  rw [← h.eq_withConsole hclock] at hother
  rcases rel_cases hrun with ⟨hplain, hmoved⟩ | ⟨answer, _, hplain, hmoved, c, hc, rfl⟩
  · rw [hplain, hother, hmoved]
    exact .none
  · rw [hplain, hother, hmoved]
    exact .some ⟨rfl, ⟨rfl, rfl, rfl, rfl, rfl, hc⟩, rfl⟩

theorem prepare_snd_congr (h : s'.nextIndex = s.nextIndex) (source : String) :
    (s'.prepare source).2 = (s.prepare source).2 := by
  unfold prepare
  rw [h]
  dsimp only
  cases parse (Lox.scan s.nextIndex source).tokens.toList with
  | error faults => rfl
  | ok program =>
    dsimp only
    split <;> (try split) <;> rfl

theorem onlyComplained_prepare (s : Session) (source : String) (c : Console) :
    OnlyComplained c ((s.prepare source).1 c) :=
  (prepare_alike (onlyComplained_complainsAlike c) ⟨rfl, [], rfl⟩ s source).2

theorem SameAside.run_of_clock_eq (h : s.SameAside s') (hclock : s'.world.clock = s.world.clock)
    (fuel : Nat) (source : String) :
    Option.Rel AnswersAside (s.run? fuel source) (s'.run? fuel source) := by
  have hready : ((s.skipSource source).mapConsole (s.prepare source).1).SameAside
      ((s'.skipSource source).mapConsole (s'.prepare source).1) := by
    constructor
    case nextIndex => exact congrArg (fun i => (Lox.scan i source).index + 1) h.nextIndex
    case hops => exact h.hops
    case frames => exact h.frames
    case objects => exact h.objects
    case nextId => exact h.nextId
    case console =>
      exact h.console.onlyComplained (onlyComplained_prepare s source _) (onlyComplained_prepare s' source _)
  rw [run?_eq, run?_eq, prepare_snd_congr h.nextIndex]
  exact hready.proceed hclock fuel _

theorem SameAside.run (h : s.SameAside s')
    (hclock : s'.world.clock = s.world.clock ∨ ∀ r, s.runOf? fuel source = some r → ¬ r.CallsClock) :
    Option.Rel (fun answer answer' => answer'.1 = answer.1 ∧ answer.2.SameAside answer'.2 ∧
        (s'.world.clock = s.world.clock → answer'.2.world.clock = answer.2.world.clock))
      (s.run? fuel source) (s'.run? fuel source) := by
  by_cases hsame : s'.world.clock = s.world.clock
  · exact rel_imp (h.run_of_clock_eq hsame fuel source) fun _ _ hanswer =>
      ⟨hanswer.1, hanswer.2.1, fun _ => hanswer.2.2⟩
  · have hmoved : (s.withClock s'.world.clock).SameAside s' := { h with }
    have hrun := hmoved.run_of_clock_eq rfl fuel source
    rw [run?_withClock (hclock.resolve_left hsame)] at hrun
    rcases rel_cases hrun with ⟨hplain, hother⟩ | ⟨_, answer', hplain, hother, hanswer⟩
    · rw [Option.map_eq_none_iff.1 hplain, hother]
      exact .none
    · obtain ⟨answer, hplain', rfl⟩ := Option.map_eq_some_iff.1 hplain
      rw [hplain', hother]
      exact .some ⟨hanswer.1, { hanswer.2.1 with }, fun h => absurd h hsame⟩

/-- What is set before a run: whether its program is shown, and what becomes of the sink for diagnostics. -/
structure Setting where
  debugParse : Bool
  redirect : Sink → Sink

def set (s : Session) (setting : Setting) : Session :=
  let console := match s.world.console with
    | .separate out err => .separate out (setting.redirect err)
    | .shared sink => .shared sink
  { s with world := { s.world with console }, debugParse := setting.debugParse }

/-- Runs sources one after the other, each behind a setting, and answers with how every run ended and the
session behind it. -/
def answers? (fuel : Nat) (settings : Nat → Setting) (s : Session) :
    List String → Option (List (Status × Session))
  | [] => some []
  | source :: rest =>
    match (s.set (settings 0)).run? fuel source with
    | none => none
    | some answer => (answers? fuel (fun i => settings (i + 1)) answer.2 rest).map (answer :: ·)

def NeverCallsClock (fuel : Nat) (settings : Nat → Setting) (s : Session) : List String → Prop
  | [] => True
  | source :: rest =>
    (∀ r, (s.set (settings 0)).runOf? fuel source = some r → ¬ r.CallsClock) ∧
      ∀ answer, (s.set (settings 0)).run? fuel source = some answer →
        NeverCallsClock fuel (fun i => settings (i + 1)) answer.2 rest

theorem SameAside.set (h : s.SameAside s') (setting setting' : Setting) :
    (s.set setting).SameAside (s'.set setting') := by
  obtain ⟨out, err, err', hconsole, hconsole'⟩ := h.console
  refine { h with console := ⟨out, setting.redirect err, setting'.redirect err', ?_, ?_⟩ }
  · rw [Session.set, hconsole]
  · rw [Session.set, hconsole']

theorem sameAside_initial (clock clock' : Clock) (out err err' : Sink) :
    (initial clock (.separate out err)).SameAside (initial clock' (.separate out err')) :=
  ⟨rfl, rfl, rfl, rfl, rfl, out, err, err', rfl, rfl⟩

/-- Diagnostics do not influence execution. Two sessions with the same scanner, the same interpreter and the
same sink for output end every run with the same status and stay the same behind it, whatever they show of
their programs and whatever becomes of their diagnostics: their clocks have to be the same only if a run
calls them. -/
theorem answers?_sameAside (h : s.SameAside s') (settings settings' : Nat → Setting) (sources : List String)
    (hclock : s'.world.clock = s.world.clock ∨ s.NeverCallsClock fuel settings sources) :
    Option.Rel (List.Forall₂ fun answer answer' =>
        answer'.1 = answer.1 ∧ answer.2.SameAside answer'.2)
      (s.answers? fuel settings sources) (s'.answers? fuel settings' sources) := by
  induction sources generalizing s s' settings settings' with
  | nil => exact .some .nil
  | cons source rest ih =>
    -- Both sessions stay the same aside from their settings, so the sources behind find what this one did.
    have hrun := (h.set (settings 0) (settings' 0)).run (hclock.imp_right And.left)
    rw [answers?, answers?]
    rcases rel_cases hrun with ⟨hplain, hother⟩ | ⟨answer, answer', hplain, hother, hstatus, haside, hkept⟩
    · rw [hplain, hother]
      exact .none
    · have hrest := ih haside (fun i => settings (i + 1)) (fun i => settings' (i + 1))
        (hclock.imp hkept fun hnever => hnever.2 answer hplain)
      rw [hplain, hother]
      dsimp only
      rcases rel_cases hrest with ⟨hlater, hlater'⟩ | ⟨later, later', hlater, hlater', hall⟩
      · rw [hlater, hlater']
        exact .none
      · rw [hlater, hlater']
        exact .some (.cons ⟨hstatus, haside⟩ hall)

def failingSource : String := "print nil; print -true;"

def failingProgram : List Stmt :=
  [.print ⟨.kwPrint, "print", 1, 0, .nil⟩ (.literal .nil),
    .print ⟨.kwPrint, "print", 1, 3, .nil⟩ (.unary ⟨.minus, "-", 1, 4, .nil⟩ (.literal (.bool true)))]

theorem prepare_failing (hfresh : s.nextIndex = 0) : (s.prepare failingSource).2 = some failingProgram := by
  have htokens : (Lox.scan 0 failingSource).tokens.toList =
      [⟨.kwPrint, "print", 1, 0, .nil⟩, ⟨.kwNil, "nil", 1, 1, .nil⟩, ⟨.semicolon, ";", 1, 2, .nil⟩,
        ⟨.kwPrint, "print", 1, 3, .nil⟩, ⟨.minus, "-", 1, 4, .nil⟩, ⟨.kwTrue, "true", 1, 5, .bool true⟩,
        ⟨.semicolon, ";", 1, 6, .nil⟩] := by
    decide +kernel
  apply prepare_snd_of_valid
  · rw [hfresh]
    decide +kernel
  · rw [hfresh, htokens]
    rfl
  · decide +kernel

theorem not_callsClock_literal {value : Literal} {ctx : Context} {w : World} :
    ¬ (Job.evaluate ctx (.literal value)).CallsClock fuel w := by
  intro h
  obtain ⟨_, _, ⟨⟩⟩ | ⟨_, _, _, rfl, hstart, -⟩ := h.starts
  cases hstart with
  | first hpart => cases hpart

theorem not_callsClock_unary {op : Token} {operand : Expr} {ctx : Context} {w : World}
    (hoperand : ∀ fuel, ¬ (Job.evaluate ctx operand).CallsClock fuel w) :
    ¬ (Job.evaluate ctx (.unary op operand)).CallsClock fuel w := by
  intro h
  obtain ⟨_, _, ⟨⟩⟩ | ⟨_, _, _, rfl, hstart, hnext⟩ := h.starts
  cases hstart with
  | first hpart =>
    cases hpart
    exact hoperand _ hnext

theorem not_callsClock_print {keyword : Token} {value : Expr} {ctx : Context} {w : World}
    (hvalue : ∀ fuel, ¬ (Job.evaluate ctx value).CallsClock fuel w) :
    ¬ (Job.execute ctx (.print keyword value)).CallsClock fuel w := by
  intro h
  obtain ⟨_, _, ⟨⟩⟩ | ⟨_, _, _, rfl, hstart, hnext⟩ := h.starts
  cases hstart with
  | expression hpart =>
    cases hpart
    exact hvalue _ hnext

theorem failing_not_callsClock {s₀ : Session} : ¬ Run.CallsClock ⟨s₀, failingProgram, fuel⟩ := by
  rintro ⟨fuel', ctx, args, w, front, stmt, rest, w₀, hprogram, -, hreaches⟩
  have hcalls : (Job.execute s₀.topLevel stmt).CallsClock fuel w₀ := ⟨fuel', ctx, args, w, hreaches⟩
  have hstmt : stmt ∈ failingProgram := by
    change failingProgram = _ at hprogram
    rw [hprogram]
    exact List.mem_append_right front (List.mem_cons_self ..)
  simp only [failingProgram, List.mem_cons, List.not_mem_nil, or_false] at hstmt
  rcases hstmt with rfl | rfl
  · exact not_callsClock_print (fun _ => not_callsClock_literal) hcalls
  · exact not_callsClock_print (fun _ => not_callsClock_unary fun _ => not_callsClock_literal) hcalls

theorem answers?_sameAside_failing :
    let s := initial ⟨0, 0⟩ (.separate .unlimited (.ofLines 1))
    let s' := initial ⟨1, 1⟩ (.separate .unlimited .unlimited)
    ∃ t t', s.answers? 10 (fun _ => ⟨true, id⟩) [failingSource] = some [(.runtimeError, t)] ∧
      s'.answers? 10 (fun _ => ⟨false, id⟩) [failingSource] = some [(.runtimeError, t')] ∧
      t.SameAside t' ∧ t.world.console.output = "nil\n" ∧
      t.world.console.diagnostics = "(print nil)\n" := by
  intro s s'
  have hsaid : (s.answers? 10 (fun _ => ⟨true, id⟩) [failingSource]).map (·.map fun answer =>
      (answer.1, answer.2.world.console.output, answer.2.world.console.diagnostics)) =
        some [(.runtimeError, "nil\n", "(print nil)\n")] := by
    decide +kernel
  have hnever : s.NeverCallsClock 10 (fun _ => ⟨true, id⟩) [failingSource] := by
    refine ⟨fun r hr => ?_, fun _ _ => trivial⟩
    rw [runOf?, prepare_failing rfl, Option.map_some] at hr
    cases hr
    exact failing_not_callsClock
  have hboth := answers?_sameAside (sameAside_initial ⟨0, 0⟩ ⟨1, 1⟩ .unlimited (.ofLines 1) .unlimited)
    (fun _ => ⟨true, id⟩) (fun _ => ⟨false, id⟩) [failingSource] (.inr hnever)
  obtain ⟨answers, hplain, hall⟩ := Option.map_eq_some_iff.1 hsaid
  change Option.Rel _ (s.answers? 10 _ _) (s'.answers? 10 _ _) at hboth
  rw [hplain] at hboth ⊢
  generalize s'.answers? 10 _ _ = other at hboth ⊢
  cases hboth with
  | some hanswers =>
    obtain ⟨⟨status, t⟩, rfl, hone⟩ := List.map_eq_singleton_iff.1 hall
    obtain ⟨rfl, houtput, hdiagnostics⟩ : status = .runtimeError ∧ t.world.console.output = "nil\n" ∧
        t.world.console.diagnostics = "(print nil)\n" := by simpa using hone
    obtain ⟨⟨status', t'⟩, later, ⟨rfl, haside⟩, hlater, rfl⟩ := List.forall₂_cons_left_iff.1 hanswers
    cases hlater
    exact ⟨t, t', rfl, rfl, haside, houtput, hdiagnostics⟩

end Session

end Lox
