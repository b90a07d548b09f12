import Lox.Proofs.Lexical.Lossless
import Lox.Proofs.Parsing.Acceptance
import Lox.Proofs.Scoping.Assignments
import Lox.Proofs.Session.ConsoleExchange

/-!
How runs end, and what they report. A run ends with static errors, which say why nothing was executed, or
its program is executed, which may end with a runtime error. Reports raise one of two flags, and the flags
that are up behind a run are those that its status stands for.
-/
namespace Lox

namespace Console

def Listens : Console → Prop
  | separate _ err => err.NeverRefuses
  | shared sink => sink.NeverRefuses

def told (c : Console) (text : String) : Console :=
  match c with
  | separate out err => separate out (err.extend text)
  | shared sink => shared (sink.extend text)

variable {c base : Console}

theorem Listens.told (h : c.Listens) (text : String) : (c.told text).Listens := by
  cases c <;> exact h

theorem told_empty (c : Console) : c.told "" = c := by
  cases c <;> simp [told, Sink.extend]

theorem told_told (c : Console) (first second : String) :
    (c.told first).told second = c.told (first ++ second) := by
  cases c <;> simp [told, Sink.extend_extend]

theorem Listens.report (h : c.Listens) (text : String) : c.report text = c.told text := by
  cases c with
  | separate out err => simp [Console.report, complain, Sink.offer_of_neverRefuses h, Console.told]
  | shared sink => simp [Console.report, complain, Sink.offer_of_neverRefuses h, Console.told]

end Console

def Diagnostic.texts (ds : List Diagnostic) : String := String.join (ds.map fun d => d.text ++ "\n")

theorem Console.Listens.reportAll {c : Console} (h : c.Listens) (ds : List Diagnostic) :
    c.reportAll ds = c.told (Diagnostic.texts ds) := by
  unfold Console.reportAll
  induction ds generalizing c with
  | nil => exact (c.told_empty).symm
  | cons d ds ih =>
    rw [List.foldl_cons, h.report, ih (h.told _), told_told]
    simp [Diagnostic.texts, String.join_cons]

def OnlyPrinted (base c : Console) : Prop :=
  ∃ texts : List String, c = texts.foldl (fun c text => (c.print text).2) base

namespace OnlyPrinted

variable {base c : Console}

theorem printsAlike (base : Console) : PrintsAlike fun c c' => c = c' ∧ OnlyPrinted base c := by
  rintro c _ ⟨rfl, texts, rfl⟩ text
  refine ⟨rfl, rfl, texts ++ [text], ?_⟩
  rw [List.foldl_append]
  rfl

theorem separate {out err : Sink} (h : OnlyPrinted (.separate out err) c) :
    ∃ out', c = .separate out' err := by
  obtain ⟨texts, rfl⟩ := h
  induction texts generalizing out with
  | nil => exact ⟨out, rfl⟩
  | cons text texts ih => exact ih

theorem listens (h : OnlyPrinted base c) (hbase : base.Listens) : c.Listens := by
  obtain ⟨texts, rfl⟩ := h
  induction texts generalizing base with
  | nil => exact hbase
  | cons text texts ih =>
    apply ih
    cases base with
    | separate out err => exact hbase
    | shared sink =>
      simp only [Console.print, Sink.offer_of_neverRefuses hbase]
      exact hbase

end OnlyPrinted

/-- What the reports of a run have been about. -/
structure Flags where
  hadError : Bool
  hadRuntimeError : Bool
deriving DecidableEq

namespace Flags

def lowered : Flags := ⟨false, false⟩

def raise (f : Flags) (d : Diagnostic) : Flags :=
  if d.isStatic then { f with hadError := true } else { f with hadRuntimeError := true }

/-- The exit code of a script that ends with these flags, if it is not the usual one. -/
def exitCode? (f : Flags) : Option Nat :=
  if f.hadError then some 65 else if f.hadRuntimeError then some 70 else none

end Flags

/-- The flags that are up behind a run with the status. -/
def Status.flags : Status → Flags
  | success => .lowered
  | staticError => ⟨true, false⟩
  | runtimeError => ⟨false, true⟩

namespace Status

variable (status : Status)

theorem exitCode?_flags : status.flags.exitCode? = status.exitCode? := by
  cases status <;> rfl

theorem hadError_flags_iff : status.flags.hadError = true ↔ status = .staticError := by
  cases status <;> decide

theorem hadRuntimeError_flags_iff : status.flags.hadRuntimeError = true ↔ status = .runtimeError := by
  cases status <;> decide

theorem exitCode?_eq_iff :
    (status.exitCode? = some 65 ↔ status.flags.hadError = true) ∧
      (status.exitCode? = some 70 ↔ status.flags.hadRuntimeError = true) ∧
      (status.exitCode? = none ↔ status.flags = .lowered) := by
  cases status <;> decide

end Status

structure Flagged where
  session : Session
  flags : Flags

namespace Flagged

def report (r : Flagged) (d : Diagnostic) : Flagged := ⟨r.session.report d, r.flags.raise d⟩

def reportAll (r : Flagged) (ds : List Diagnostic) : Flagged := ds.foldl report r

def runProgram? (fuel : Nat) (r : Flagged) (program : List Stmt) : Option Flagged :=
  let findings := resolve program
  if findings.errors.isEmpty then
    match (r.session.adopt findings.hops).execute? fuel program with
    | some (none, s) => some ⟨s, r.flags⟩
    | some (some e, s) => some (report ⟨s, r.flags⟩ (.runtime e))
    | none => none
  else some (r.reportAll (findings.errors.map .scope))

/-- Runs a source. The flags are lowered first, and the run looks at them where it decides whether to go
on; a report raises them even if it is refused. -/
def run? (fuel : Nat) (r : Flagged) (source : String) : Option Flagged :=
  let (scanned, s) := r.session.scan source
  let r := reportAll ⟨s, .lowered⟩ (scanned.errors.toList.map .lexical)
  match parse scanned.tokens.toList with
  | .error faults => some (r.reportAll (faults.map (.ofSyntaxError scanned.finish)))
  | .ok program =>
    if r.flags.hadError then some r
    else
      let s := if r.session.debugParse then r.session.mapConsole (Session.dump · program) else r.session
      runProgram? fuel ⟨s, r.flags⟩ program

theorem reportAll_eq (r : Flagged) (ds : List Diagnostic) (hstatic : ∀ d ∈ ds, d.isStatic = true) :
    r.reportAll ds =
      ⟨r.session.reportAll ds, if ds = [] then r.flags else { r.flags with hadError := true }⟩ := by
  induction ds generalizing r with
  | nil => rfl
  | cons d ds ih =>
    have hd : d.isStatic = true := hstatic d (List.mem_cons_self ..)
    change (r.report d).reportAll ds = _
    rw [ih _ fun d' hd' => hstatic d' (List.mem_cons_of_mem d hd'), if_neg (List.cons_ne_nil d ds)]
    cases ds <;> simp [report, Flags.raise, hd, Session.reportAll]

end Flagged

namespace Session

section Stages

variable (s : Session) (source : String)

def lexicalErrors : List LexicalError := (Lox.scan s.nextIndex source).errors.toList

def syntaxErrors : List SyntaxError :=
  match parse (Lox.scan s.nextIndex source).tokens.toList with
  | .error faults => faults
  | .ok _ => []

def scopeErrors : List ScopeError :=
  match parse (Lox.scan s.nextIndex source).tokens.toList with
  | .error _ => []
  | .ok program => (resolve program).errors

/-- The static errors of a source. Those in its scopes count only if there are no others. -/
def staticErrors : List Diagnostic :=
  if s.lexicalErrors source = [] ∧ s.syntaxErrors source = [] then (s.scopeErrors source).map .scope
  else
    (s.lexicalErrors source).map .lexical ++
      (s.syntaxErrors source).map (.ofSyntaxError (Lox.scan s.nextIndex source).finish)

variable {s source}

theorem staticErrors_ne_nil_iff :
    s.staticErrors source ≠ [] ↔ s.lexicalErrors source ≠ [] ∨ s.syntaxErrors source ≠ [] ∨
      s.lexicalErrors source = [] ∧ s.syntaxErrors source = [] ∧ s.scopeErrors source ≠ [] := by
  unfold staticErrors
  split
  · rename_i hclean
    simp [hclean.1, hclean.2]
  · rename_i herrors
    simp only [ne_eq, List.append_eq_nil_iff, List.map_eq_nil_iff]
    tauto

theorem prepare_snd_eq_none_iff : (s.prepare source).2 = none ↔ s.staticErrors source ≠ [] := by
  rw [staticErrors_ne_nil_iff]
  unfold prepare lexicalErrors syntaxErrors scopeErrors
  dsimp only
  cases hparse : parse (Lox.scan s.nextIndex source).tokens.toList with
  | error faults => simp [faults_ne_nil hparse]
  | ok program =>
    by_cases hlexical : (Lox.scan s.nextIndex source).errors = #[]
    · by_cases hscope : (resolve program).errors = []
      · simp [hlexical, hscope]
      · simp [hlexical, hscope]
    · simp [hlexical]

theorem prepare_fst (hdebug : s.debugParse = false) :
    (s.prepare source).1 = fun c => c.reportAll (s.staticErrors source) := by
  unfold prepare staticErrors lexicalErrors syntaxErrors scopeErrors
  dsimp only
  cases hparse : parse (Lox.scan s.nextIndex source).tokens.toList with
  | error faults => simp [faults_ne_nil hparse, Console.reportAll]
  | ok program =>
    by_cases hlexical : (Lox.scan s.nextIndex source).errors = #[]
    · by_cases hscope : (resolve program).errors = []
      · simp [hlexical, hscope, announce, hdebug, Console.reportAll]
      · simp [hlexical, hscope, announce, hdebug, Console.reportAll]
    · simp [hlexical, Console.reportAll]

theorem run?_of_staticErrors (h : s.staticErrors source ≠ []) (fuel : Nat) :
    s.run? fuel source =
      some (.staticError, (s.skipSource source).mapConsole (s.prepare source).1) := by
  rw [run?_eq, prepare_snd_eq_none_iff.2 h]
  rfl

end Stages

/-- How the program of a source ends, if there are no static errors: with its runtime error, if it has
one, and the session that it leaves. -/
def executed? (fuel : Nat) (s : Session) (source : String) : Option (Option RuntimeError × Session) :=
  (s.prepare source).2.bind fun program => (s.loaded source program).execute? fuel program

section Outcome

variable {s s' : Session} {source : String} {fuel : Nat} {status : Status} {e? : Option RuntimeError}

theorem staticErrors_of_executed (h : s.executed? fuel source = some (e?, s')) :
    s.staticErrors source = [] := by
  by_contra herrors
  rw [executed?, prepare_snd_eq_none_iff.2 herrors] at h
  contradiction

theorem run?_of_clean (h : s.staticErrors source = []) (fuel : Nat) :
    s.run? fuel source = (s.executed? fuel source).map conclude := by
  cases hprepared : (s.prepare source).2 with
  | none => exact absurd h (prepare_snd_eq_none_iff.1 hprepared)
  | some program => rw [run?_loaded hprepared, executed?, hprepared, Option.bind_some]

theorem run?_eq_none_iff :
    s.run? fuel source = none ↔ s.staticErrors source = [] ∧ s.executed? fuel source = none := by
  by_cases hclean : s.staticErrors source = []
  · simp [run?_of_clean hclean, hclean]
  · simp [run?_of_staticErrors hclean, hclean]

theorem status_eq_staticError_iff (h : s.run? fuel source = some (status, s')) :
    status = .staticError ↔ s.staticErrors source ≠ [] := by
  by_cases hclean : s.staticErrors source = []
  · rw [run?_of_clean hclean] at h
    obtain ⟨⟨e?, s₁⟩, -, hconclude⟩ := Option.map_eq_some_iff.1 h
    cases e? <;> cases hconclude <;> simp [hclean]
  · rw [run?_of_staticErrors hclean] at h
    cases h
    simp [hclean]

theorem status_eq_runtimeError_iff (h : s.run? fuel source = some (status, s')) :
    status = .runtimeError ↔ ∃ e s₁, s.executed? fuel source = some (some e, s₁) := by
  by_cases hclean : s.staticErrors source = []
  · rw [run?_of_clean hclean] at h
    obtain ⟨⟨e?, s₁⟩, hexecuted, hconclude⟩ := Option.map_eq_some_iff.1 h
    rw [hexecuted]
    cases e? <;> cases hconclude <;> simp
  · rw [run?_of_staticErrors hclean] at h
    cases h
    refine iff_of_false (by decide) ?_
    rintro ⟨e, s₁, hexecuted⟩
    exact hclean (staticErrors_of_executed hexecuted)

theorem console_of_staticError (h : s.run? fuel source = some (.staticError, s')) {out err : Sink}
    (hconsole : s.world.console = .separate out err) : ∃ err', s'.world.console = .separate out err' := by
  obtain ⟨_, _, -, hcomplained, rfl⟩ := staticError_changes h
  rw [hconsole] at hcomplained
  exact hcomplained.separate

theorem onlyPrinted_of_executed (hdebug : s.debugParse = false)
    (h : s.executed? fuel source = some (e?, s')) : OnlyPrinted s.world.console s'.world.console := by
  have hclean := staticErrors_of_executed h
  obtain ⟨program, -, hexecute⟩ := Option.bind_eq_some_iff.1 h
  have hconsole : (s.loaded source program).world.console = s.world.console := by
    change (s.prepare source).1 s.world.console = _
    rw [prepare_fst hdebug, hclean]
    rfl
  have hrun := executeTop_withConsole (OnlyPrinted.printsAlike s.world.console) fuel
    (s.loaded source program).topLevel program (w := (s.loaded source program).world) ⟨rfl, [], hconsole⟩
  obtain ⟨w, rfl, hresult⟩ := execute?_eq_some hexecute
  unfold topLevel at hrun
  rw [hresult] at hrun
  cases e? with
  | none => exact hrun.2.console.2
  | some e => exact hrun.2.console.2

theorem console_of_executed (h : s.run? fuel source = some (status, s')) (hdebug : s.debugParse = false)
    (hlistens : s.world.console.Listens) (hstatus : status ≠ .staticError) :
    ∃ e? s₁, s.executed? fuel source = some (e?, s₁) ∧
      OnlyPrinted s.world.console s₁.world.console ∧
      s'.world.console = s₁.world.console.told (Diagnostic.texts (e?.toList.map .runtime)) := by
  have hclean := not_imp_comm.1 (status_eq_staticError_iff h).2 hstatus
  rw [run?_of_clean hclean] at h
  obtain ⟨⟨e?, s₁⟩, hexecuted, hconclude⟩ := Option.map_eq_some_iff.1 h
  have hprinted := onlyPrinted_of_executed hdebug hexecuted
  have hconsole : s'.world.console = s₁.world.console.reportAll (e?.toList.map .runtime) := by
    cases e? <;> cases hconclude <;> rfl
  exact ⟨e?, s₁, hexecuted, hprinted, hconsole.trans ((hprinted.listens hlistens).reportAll _)⟩

theorem console_of_staticErrors (h : s.run? fuel source = some (status, s')) (hdebug : s.debugParse = false)
    (hlistens : s.world.console.Listens) (hstatus : status = .staticError) :
    s'.world.console = s.world.console.told (Diagnostic.texts (s.staticErrors source)) := by
  rw [run?_of_staticErrors ((status_eq_staticError_iff h).1 hstatus)] at h
  cases h
  change (s.prepare source).1 s.world.console = _
  rw [prepare_fst hdebug]
  exact hlistens.reportAll _

end Outcome

def flagged (answer : Status × Session) : Flagged := ⟨answer.2, answer.1.flags⟩

theorem flagged_runProgram?_eq (fuel : Nat) (s : Session) (program : List Stmt) :
    Flagged.runProgram? fuel ⟨s, .lowered⟩ program = (s.runProgram? fuel program).map flagged := by
  unfold Flagged.runProgram? runProgram?
  dsimp only
  split
  · cases (s.adopt (resolve program).hops).execute? fuel program with
    | none => rfl
    | some outcome =>
      obtain ⟨e?, s'⟩ := outcome
      cases e? <;> rfl
  · rename_i hscope
    rw [Flagged.reportAll_eq _ _ (by simp [Diagnostic.isStatic]), if_neg (by simpa using hscope)]
    rfl

/-- The flags behind a run are those that its status stands for, whichever were up before. -/
theorem flagged_run?_eq (fuel : Nat) (s : Session) (before : Flags) (source : String) :
    Flagged.run? fuel ⟨s, before⟩ source = (s.run? fuel source).map flagged := by
  have hscan : s.scan source = (Lox.scan s.nextIndex source, s.skipSource source) := rfl
  have hlexical := Flagged.reportAll_eq ⟨s.skipSource source, .lowered⟩
    ((Lox.scan s.nextIndex source).errors.toList.map .lexical) (by simp [Diagnostic.isStatic])
  unfold Flagged.run? run?
  rw [hscan]
  dsimp only at hlexical ⊢
  rw [hlexical]
  generalize (s.skipSource source).reportAll _ = t
  cases hparse : parse (Lox.scan s.nextIndex source).tokens.toList with
  | error faults =>
    have hfaults : faults.map (Diagnostic.ofSyntaxError (Lox.scan s.nextIndex source).finish) ≠ [] := by
      simpa using faults_ne_nil hparse
    dsimp only
    rw [Flagged.reportAll_eq _ _ (by simp [Diagnostic.isStatic, Diagnostic.ofSyntaxError]), if_neg hfaults]
    split <;> rfl
  | ok program =>
    by_cases herrors : (Lox.scan s.nextIndex source).errors = #[]
    · simp only [herrors, List.map_nil, if_true, Array.isEmpty_empty]
      exact flagged_runProgram?_eq fuel _ program
    · simp [herrors, flagged, Status.flags, Flags.lowered]

/-- A run ends in one way and reports all of it. Whatever flags were up before, it raises the first one
if scanning or parsing finds errors or, where both find none, resolving does, and the second one if there
are no such errors and the program fails; it raises at most one, which decides on the exit code. A run with
static errors prints nothing. Where parsed programs are not shown and diagnostics are taken, those of the
run are its static errors or, behind what the program prints, its runtime error. -/
theorem run?_outcome (fuel : Nat) (s : Session) (before : Flags) (source : String) :
    let lexical := s.lexicalErrors source
    let grammar := s.syntaxErrors source
    let scope := s.scopeErrors source
    Flagged.run? fuel ⟨s, before⟩ source = (s.run? fuel source).map flagged ∧
      (∃ ts, Lexical.Lexed source.toList ts lexical) ∧
      (s.run? fuel source = none ↔ s.staticErrors source = [] ∧ s.executed? fuel source = none) ∧
      ∀ status s', s.run? fuel source = some (status, s') →
        (status.flags.hadError = true ↔
          lexical ≠ [] ∨ grammar ≠ [] ∨ lexical = [] ∧ grammar = [] ∧ scope ≠ []) ∧
        (status.flags.hadRuntimeError = true ↔
          s.staticErrors source = [] ∧ ∃ e s₁, s.executed? fuel source = some (some e, s₁)) ∧
        ¬ (status.flags.hadError = true ∧ status.flags.hadRuntimeError = true) ∧
        status.flags.exitCode? = status.exitCode? ∧
        (status.exitCode? = some 65 ↔ status.flags.hadError = true) ∧
        (status.exitCode? = some 70 ↔ status.flags.hadRuntimeError = true) ∧
        (status.exitCode? = none ↔ status.flags = .lowered) ∧
        (status.flags.hadError = true → ∀ out err, s.world.console = .separate out err →
          ∃ err', s'.world.console = .separate out err') ∧
        (s.debugParse = false → s.world.console.Listens →
          (status.flags.hadError = true → s'.world.console =
            s.world.console.told (Diagnostic.texts (s.staticErrors source))) ∧
          (status.flags.hadError = false → ∃ e? s₁, s.executed? fuel source = some (e?, s₁) ∧
            OnlyPrinted s.world.console s₁.world.console ∧
            s'.world.console =
              s₁.world.console.told (Diagnostic.texts (e?.toList.map .runtime)))) := by
  intro lexical grammar scope
  refine ⟨flagged_run?_eq fuel s before source, ⟨_, Lexical.lexed_scan s.nextIndex source⟩,
    run?_eq_none_iff, fun status s' hrun => ?_⟩
  obtain ⟨hstatic, hruntime, husual⟩ := status.exitCode?_eq_iff
  have herror : status.flags.hadError = true ↔ s.staticErrors source ≠ [] :=
    status.hadError_flags_iff.trans (status_eq_staticError_iff hrun)
  have hfails := status.hadRuntimeError_flags_iff.trans (status_eq_runtimeError_iff hrun)
  refine ⟨herror.trans staticErrors_ne_nil_iff, ⟨fun h => ?_, fun h => hfails.2 h.2⟩, ?_,
    status.exitCode?_flags, hstatic, hruntime, husual, fun h out err hconsole => ?_,
    fun hdebug hlistens => ⟨fun h => ?_, fun h => ?_⟩⟩
  · obtain ⟨e, s₁, hexecuted⟩ := hfails.1 h
    exact ⟨staticErrors_of_executed hexecuted, e, s₁, hexecuted⟩
  · rintro ⟨h, h'⟩
    rw [status.hadError_flags_iff.1 h] at h'
    contradiction
  · rw [status.hadError_flags_iff.1 h] at hrun
    exact console_of_staticError hrun hconsole
  · exact console_of_staticErrors hrun hdebug hlistens (status.hadError_flags_iff.1 h)
  · apply console_of_executed hrun hdebug hlistens
    rintro rfl
    contradiction

/-- A stray character and two faults in the grammar, behind a run that has failed. -/
theorem run?_outcome_three_errors :
    let s := initial ⟨0, 0⟩ (.separate .unlimited .unlimited)
    ∃ s', Flagged.run? 0 ⟨s, ⟨false, true⟩⟩ "print 1;\nvar @ = 2;\nprint (;" = some ⟨s', ⟨true, false⟩⟩ ∧
      s'.world.console.output = "" ∧
      s'.world.console.diagnostics = "[line 2] Error: Unexpected character '@'.\n" ++
        "[line 2] Error at '=': Expect variable name.\n[line 3] Error at ';': Expect expression.\n" := by
  intro s
  have hlexical : s.lexicalErrors "print 1;\nvar @ = 2;\nprint (;" ≠ [] := by decide +kernel
  have htexts : Diagnostic.texts (s.staticErrors "print 1;\nvar @ = 2;\nprint (;") =
      "[line 2] Error: Unexpected character '@'.\n" ++
        "[line 2] Error at '=': Expect variable name.\n[line 3] Error at ';': Expect expression.\n" := by
    decide +kernel
  obtain ⟨hflagged, -, hends, hreports⟩ := run?_outcome 0 s ⟨false, true⟩ "print 1;\nvar @ = 2;\nprint (;"
  have hruns : s.run? 0 "print 1;\nvar @ = 2;\nprint (;" ≠ none :=
    fun h => staticErrors_ne_nil_iff.2 (.inl hlexical) (hends.1 h).1
  obtain ⟨⟨status, s'⟩, hrun⟩ := Option.ne_none_iff_exists'.1 hruns
  obtain ⟨herror, -, -, -, -, -, -, -, hsaid⟩ := hreports status s' hrun
  have hraised := herror.2 (.inl hlexical)
  have hconsole := (hsaid rfl fun _ _ => rfl).1 hraised
  have hflags : status.flags = ⟨true, false⟩ := by
    cases status <;> first | rfl | contradiction
  rw [htexts] at hconsole
  refine ⟨s', ?_, ?_, ?_⟩
  · rw [hflagged, hrun, Option.map_some, flagged, hflags]
  · rw [hconsole]
    rfl
  · rw [hconsole]
    rfl

end Session

end Lox
