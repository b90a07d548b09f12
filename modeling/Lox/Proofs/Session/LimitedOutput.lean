import Lox.Proofs.Evaluation.Cutting
import Lox.Proofs.Session.Runs

/-!
Runs before a sink that takes a number of lines. Such a run goes like one before a sink that never
refuses, up to the first line that is too many; its `print` fails, and the run ends there.
-/
namespace Lox

open Printing

theorem Sink.ofLines_closesAt (limit : Nat) : ClosesAt (Sink.ofLines limit).refusal? limit := by
  constructor
  · intro taken offered h
    exact if_neg (Nat.not_le_of_lt h)
  · intro taken offered h
    exact Option.isSome_of_eq_some (if_pos h)

def Run.Writes (r : Run) (p : Printing) : Prop :=
  ∃ fuel job w, r.Meets (fuel + 1) job w ∧ Prints fuel job w p

theorem Run.writes_iff {r : Run} {p : Printing} :
    r.Writes p ↔ ∃ front stmt rest w₀, r.program = front ++ stmt :: rest ∧
      Session.executeTop r.fuel r.session.topLevel front r.session.world = .ok () w₀ ∧
      (Job.execute r.session.topLevel stmt).Writes r.fuel w₀ p := by
  constructor
  · rintro ⟨fuel, job, w, ⟨front, stmt, rest, w₀, hprogram, hfront, hreaches⟩, hprints⟩
    exact ⟨front, stmt, rest, w₀, hprogram, hfront, fuel, job, w, hreaches, hprints⟩
  · rintro ⟨front, stmt, rest, w₀, hprogram, hfront, fuel, job, w, hreaches, hprints⟩
    exact ⟨fuel, job, w, ⟨front, stmt, rest, w₀, hprogram, hfront, hreaches⟩, hprints⟩

theorem executeTop_follows {refusal? : String → String → Option String} {limit : Nat}
    (hcloses : ClosesAt refusal? limit) (fuel : Nat) (ctx : Context) (program : List Stmt) {w : World}
    (hopen : w.console.IsOpen) :
    (Session.executeTop fuel ctx program).Follows refusal? limit w fun p =>
      ∃ front stmt rest w₀, program = front ++ stmt :: rest ∧
        Session.executeTop fuel ctx front w = .ok () w₀ ∧ (Job.execute ctx stmt).Writes fuel w₀ p := by
  induction program generalizing w with
  | nil =>
    apply ((Evaluation.silent_pure ()).follows hopen).weaken
    simp
  | cons s rest ih =>
    have hrun := ((depthFollows hcloses fuel).execute ctx hopen s).bind fun _ w₁ _ hopen₁ => ih hopen₁
    refine hrun.weaken fun p => ⟨?_, ?_⟩
    · rintro ⟨front, stmt, more, w₀, hprogram, hfront, h⟩
      cases front with
      | nil =>
        cases hprogram
        cases hfront
        exact .inl h
      | cons first front =>
        cases hprogram
        rw [Session.executeTop, Evaluation.bind_run] at hfront
        cases hs : execute fuel ctx s w with
        | ok flow w₁ =>
          rw [hs] at hfront
          exact .inr ⟨flow, w₁, rfl, front, stmt, more, w₀, rfl, hfront, h⟩
        | error e w₁ | exhausted =>
          rw [hs] at hfront
          contradiction
    · rintro (h | ⟨flow, w₁, hs, front, stmt, more, w₀, hprogram, hfront, h⟩)
      · exact ⟨[], s, rest, w, rfl, rfl, h⟩
      · refine ⟨s :: front, stmt, more, w₀, by rw [hprogram, List.cons_append], ?_, h⟩
        rw [Session.executeTop, Evaluation.bind_run, hs]
        exact hfront

theorem refusing_complainsAlike (refusal? : String → String → Option String) (output : String) :
    ComplainsAlike fun c c' => c.IsOpen ∧ c.output = output ∧ c' = c.refusing refusal? := by
  rintro _ _ ⟨⟨out, err, rfl, hnever⟩, houtput, rfl⟩ text
  exact ⟨rfl, ⟨out, (err.offer text).2, rfl, hnever⟩, houtput, rfl⟩

namespace Session

variable {s s' : Session} {refusal? : String → String → Option String}

def refusing (s : Session) (refusal? : String → String → Option String) : Session :=
  s.mapConsole (·.refusing refusal?)

theorem report_refusing (refusal? : String → String → Option String) (hopen : s.world.console.IsOpen)
    (d : Diagnostic) :
    (s.refusing refusal?).report d = (s.report d).refusing refusal? ∧
      (s.report d).world.console.output = s.world.console.output := by
  obtain ⟨-, houtput, hconsole⟩ := (refusing_complainsAlike refusal? _ _ _ ⟨hopen, rfl, rfl⟩
    (d.text ++ "\n")).2
  exact ⟨congrArg (fun c => s.mapConsole fun _ => c) hconsole, houtput⟩

theorem conclude_refusing (refusal? : String → String → Option String)
    (hopen : s.world.console.IsOpen) (e? : Option RuntimeError) :
    conclude (e?, s.refusing refusal?) =
        ((conclude (e?, s)).1, (conclude (e?, s)).2.refusing refusal?) ∧
      (conclude (e?, s)).2.world.console.output = s.world.console.output := by
  cases e? with
  | none => exact ⟨rfl, rfl⟩
  | some e =>
    obtain ⟨hreport, houtput⟩ := report_refusing refusal? hopen (.runtime e)
    exact ⟨congrArg (Prod.mk Status.runtimeError) hreport, houtput⟩

theorem loaded_refusing (refusal? : String → String → Option String)
    (hopen : s.world.console.IsOpen) (source : String) (program : List Stmt) :
    (s.loaded source program).world.console.IsOpen ∧
      (s.loaded source program).world.console.output = s.world.console.output ∧
      (s.refusing refusal?).loaded source program = (s.loaded source program).refusing refusal? := by
  obtain ⟨hopen', houtput, hconsole⟩ := prepare_alike (refusing_complainsAlike refusal? _)
    ⟨hopen, rfl, rfl⟩ s source
  exact ⟨hopen', houtput, congrArg
    (fun c => ((s.skipSource source).mapConsole fun _ => c).adopt (resolve program).hops) hconsole⟩

/-- A source that prints single lines, before a sink that takes `n` more of them and then refuses every
text. If there are no more, the run is the same. Otherwise the first `n` are written, and the next
`print` is the last thing that happens: it is the runtime error, with the text of the refusal, and all
but the console is as it was before the line. -/
theorem run?_refusing {fuel n : Nat} {source : String} {r : Run} {status : Status}
    (hopen : s.world.console.IsOpen) (hcloses : ClosesAt refusal? (lineEnds s.world.console.output + n))
    (hr : s.runOf? fuel source = some r) (hrun : s.run? fuel source = some (status, s'))
    (hsingle : ∀ p, r.Writes p → p.IsSingleLine) :
    ∃ prints : List Printing, (∀ p, r.Writes p ↔ p ∈ prints) ∧
      InOrder s.world.console.output prints ∧
      s'.world.console.output = s.world.console.output ++ written prints ∧
      (prints.length ≤ n →
        (s.refusing refusal?).run? fuel source = some (status, s'.refusing refusal?)) ∧
      (n < prints.length → ∃ p reason s'', prints[n]? = some p ∧
        refusal? p.world.console.output p.line = some reason ∧
        (s.refusing refusal?).run? fuel source = some (.runtimeError, s'') ∧
        s'' = ({ r.session with world := p.world }.refusing refusal?).report
          (.runtime ⟨p.keyword, .refused reason⟩) ∧
        s''.world.console.output = s.world.console.output ++ written (prints.take n)) := by
  obtain ⟨program, hprepared, rfl⟩ := Option.map_eq_some_iff.1 hr
  obtain ⟨hopen', houtput, hloaded⟩ := loaded_refusing refusal? hopen source program
  have hcloses' := hcloses
  rw [← houtput] at hcloses'
  obtain ⟨prints, hwrites, hlogs⟩ := executeTop_follows hcloses' fuel (s.loaded source program).topLevel
    program hopen'
  have hmem : ∀ p, Run.Writes ⟨s.loaded source program, program, fuel⟩ p ↔ p ∈ prints :=
    fun p => Run.writes_iff.trans (hwrites p)
  -- The run before the sink that closes is the run before the open one, cut at the first line too many.
  have hcut := hlogs.cut (fun p hp => hsingle p ((hmem p).2 hp)) n rfl
  have hlimited : (s.refusing refusal?).run? fuel source =
      (((s.loaded source program).refusing refusal?).settle
        (executeTop fuel (s.loaded source program).topLevel program
          ((s.loaded source program).world.refusing refusal?))).map conclude := by
    rw [run?_loaded (s := s.refusing refusal?) hprepared, hloaded]
    rfl
  rw [run?_loaded hprepared] at hrun
  obtain ⟨⟨e?, s₁⟩, hexecute, hconclude⟩ := Option.map_eq_some_iff.1 hrun
  obtain ⟨w, rfl, hexecuted⟩ := execute?_eq_some hexecute
  obtain ⟨hw, hwritten⟩ := hlogs.ending w (by
    unfold topLevel
    rw [hexecuted]
    cases e? <;> rfl)
  obtain ⟨hsame, hsaid⟩ := conclude_refusing (s := { s.loaded source program with world := w }) refusal?
    hw e?
  rw [hconclude] at hsame hsaid
  refine ⟨prints, hmem, houtput ▸ hlogs.order, ?_, fun hle => ?_, fun hlt => ?_⟩
  · rw [← houtput, ← hwritten]
    exact hsaid
  · rw [List.getElem?_eq_none hle, Result.CutAt] at hcut
    rw [hlimited, hcut, topLevel, hexecuted, ← hsame]
    cases e? <;> rfl
  · have hp : prints[n]? = some prints[n] := List.getElem?_eq_getElem hlt
    rw [hp] at hcut
    obtain ⟨reason, hreason, hresult⟩ := hcut
    rw [hresult] at hlimited
    refine ⟨prints[n], reason, _, hp, hreason, hlimited, rfl, ?_⟩
    have hbefore := hlogs.order n _ hp
    obtain ⟨out, err, hconsole, -⟩ := hlogs.opens _ (List.getElem_mem hlt)
    rw [houtput, hconsole] at hbefore
    rw [← hbefore]
    change ((prints[n].world.console.refusing refusal?).report _).output = _
    rw [hconsole]
    rfl

def twoLinesSource : String := "print nil; print true;"

def twoLinesProgram : List Stmt :=
  [.print ⟨.kwPrint, "print", 1, 0, .nil⟩ (.literal .nil),
    .print ⟨.kwPrint, "print", 1, 3, .nil⟩ (.literal (.bool true))]

def beforeTwoLines : Session := initial ⟨0, 0⟩ (.separate .unlimited .unlimited)

theorem prepare_twoLines : beforeTwoLines.prepare twoLinesSource = (id, some twoLinesProgram) := by
  have htokens : (Lox.scan 0 twoLinesSource).tokens.toList =
      [⟨.kwPrint, "print", 1, 0, .nil⟩, ⟨.kwNil, "nil", 1, 1, .nil⟩, ⟨.semicolon, ";", 1, 2, .nil⟩,
        ⟨.kwPrint, "print", 1, 3, .nil⟩, ⟨.kwTrue, "true", 1, 4, .bool true⟩,
        ⟨.semicolon, ";", 1, 5, .nil⟩] := by
    decide +kernel
  have hparse : parse (Lox.scan 0 twoLinesSource).tokens.toList = .ok twoLinesProgram := by
    rw [htokens]
    rfl
  have herrors : (Lox.scan 0 twoLinesSource).errors.toList = [] := by decide +kernel
  have hempty : (Lox.scan 0 twoLinesSource).errors.isEmpty = true := by decide +kernel
  unfold prepare
  dsimp only [beforeTwoLines, initial]
  rw [hparse]
  dsimp only
  rw [if_pos hempty, herrors]
  rfl

theorem writes_print_literal {fuel : Nat} {ctx : Context} {keyword : Token} {value : Literal} {w : World}
    {p : Printing} (h : (Job.execute ctx (.print keyword (.literal value))).Writes fuel w p) :
    p.text = (Value.ofLiteral value).text := by
  cases fuel with
  | zero => exact absurd h Job.not_writes_zero
  | succ fuel =>
    rcases Job.writes_succ.1 h with hprints | ⟨_, _, hstart, hwrites⟩
    · cases hprints with
      | print hvalue =>
        cases fuel with
        | zero => cases hvalue
        | succ fuel =>
          cases hvalue
          rfl
    · cases hstart with
      | expression hpart =>
        cases hpart
        cases fuel with
        | zero => exact absurd hwrites Job.not_writes_zero
        | succ fuel =>
          rcases Job.writes_succ.1 hwrites with ⟨⟨⟩⟩ | ⟨_, _, ⟨⟨⟩⟩, -⟩

theorem run?_refusing_twoLines :
    ∃ s'', (beforeTwoLines.refusing (Sink.ofLines 1).refusal?).run? 10 twoLinesSource =
        some (.runtimeError, s'') ∧ lineEnds s''.world.console.output = 1 := by
  have hrun : ∃ s', beforeTwoLines.run? 10 twoLinesSource = some (.success, s') ∧
      s'.world.console.output = "nil\ntrue\n" := by
    rw [run?_loaded (congrArg Prod.snd prepare_twoLines), loaded, prepare_twoLines]
    refine ⟨_, rfl, ?_⟩
    decide
  obtain ⟨s', hrun, houtput⟩ := hrun
  have hr : beforeTwoLines.runOf? 10 twoLinesSource =
      some ⟨beforeTwoLines.loaded twoLinesSource twoLinesProgram, twoLinesProgram, 10⟩ := by
    rw [runOf?, prepare_twoLines]
    rfl
  have hsingle : ∀ p, Run.Writes ⟨beforeTwoLines.loaded twoLinesSource twoLinesProgram,
      twoLinesProgram, 10⟩ p → p.IsSingleLine := by
    intro p hp
    obtain ⟨front, stmt, rest, w₀, hprogram, -, hwrites⟩ := Run.writes_iff.1 hp
    have hstmt : stmt ∈ twoLinesProgram := by
      change twoLinesProgram = _ at hprogram
      simp [hprogram]
    unfold IsSingleLine
    simp only [twoLinesProgram, List.mem_cons, List.not_mem_nil, or_false] at hstmt
    rcases hstmt with rfl | rfl
    all_goals
      rw [writes_print_literal hwrites]
      decide
  have hcloses : ClosesAt (Sink.ofLines 1).refusal? (lineEnds beforeTwoLines.world.console.output + 1) :=
    Sink.ofLines_closesAt 1
  obtain ⟨prints, hmem, -, hwritten, -, hcut⟩ :=
    run?_refusing (n := 1) ⟨_, _, rfl, fun _ _ => rfl⟩ hcloses hr hrun hsingle
  have hsingle' : ∀ p ∈ prints, p.IsSingleLine := fun p hp => hsingle p ((hmem p).2 hp)
  have hlength : prints.length = 2 := by
    rw [← lineEnds_written hsingle', ← String.empty_append (s := written prints)]
    exact congrArg lineEnds (hwritten.symm.trans houtput)
  obtain ⟨p, reason, s'', -, -, hlimited, -, hlines⟩ := hcut (by omega)
  refine ⟨s'', hlimited, ?_⟩
  have hfirst : lineEnds (written (prints.take 1)) = (prints.take 1).length :=
    lineEnds_written fun p hp => hsingle' p (List.mem_of_mem_take hp)
  rw [hlines, lineEnds_append, hfirst, List.length_take]
  change 0 + _ = 1
  omega

end Session

end Lox
