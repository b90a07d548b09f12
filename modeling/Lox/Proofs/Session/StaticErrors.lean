import Lox.Proofs.Session.Console
import Lox.Proofs.Session.Numbering

/-!
Runs with a static error. Such a run takes indices for the tokens of its source and shows diagnostics, and
changes nothing else; the runs behind it do with greater indices what they would do without it.
-/
namespace Lox

def Relabelling.shiftFrom (start count : Nat) : Relabelling where
  line t := t.line
  index t := if t.index < start then t.index else t.index + count

theorem Relabelling.shiftFrom_keepsLines (start count : Nat) : (shiftFrom start count).KeepsLines :=
  fun _ => rfl

theorem Relabelling.shiftFrom_index_inj (start count : Nat) (t u : Token) :
    (shiftFrom start count).index t = (shiftFrom start count).index u ↔ t.index = u.index := by
  unfold shiftFrom
  dsimp only
  split <;> split <;> omega

theorem Relabelling.shiftFrom_keepsBelow (start count : Nat) : (shiftFrom start count).KeepsBelow start := by
  constructor
  · intro t ht
    simp [apply, shiftFrom, ht]
  · intro t ht
    unfold shiftFrom
    dsimp only
    split <;> omega

section Scan

variable {start index : Nat} (count : Nat) (source : String)

theorem tokens_scan_shiftFrom (h : start ≤ index) :
    (scan (index + count) source).tokens.toList =
      (scan index source).tokens.toList.map (Relabelling.shiftFrom start count) := by
  rw [scan_shift, Scan.shift, Array.toList_map]
  apply List.map_congr_left
  intro t ht
  have hindex := ((scan_numbered index source).mem ht).1
  have hle : ¬ t.index < start := by omega
  simp [Relabelling.apply, Relabelling.shift, Relabelling.shiftFrom, hle]

theorem errors_scan_add : (scan (index + count) source).errors = (scan index source).errors := by
  have hshift : (fun e : LexicalError => e.shift 0) = id := by
    funext e
    cases e <;> rfl
  rw [scan_shift, Scan.shift, hshift, Array.map_id]

theorem finish_scan_add :
    (scan (index + count) source).finish.line = (scan index source).finish.line := by
  rw [scan_shift]
  rfl

end Scan

namespace Console

theorem reportAll_congr {ds ds' : List Diagnostic} (c : Console)
    (h : ds'.map Diagnostic.text = ds.map Diagnostic.text) : c.reportAll ds' = c.reportAll ds := by
  have htexts : ∀ ds : List Diagnostic,
      c.reportAll ds = (ds.map Diagnostic.text).foldl (fun c text => c.report (text ++ "\n")) c := by
    intro ds
    rw [reportAll, List.foldl_map]
  rw [htexts, htexts, h]

end Console

theorem Session.dump_relabel (r : Relabelling) (c : Console) (program : List Stmt) :
    dump c (program.map (·.relabel r)) = dump c program := by
  induction program generalizing c with
  | nil => rfl
  | cons s rest ih =>
    rw [List.map_cons, dump, dump, Stmt.parenthesized_relabel]
    simp only [ih]

theorem Session.announce_relabel (r : Relabelling) (debugParse : Bool) (program : List Stmt) :
    announce debugParse (program.map (·.relabel r)) = announce debugParse program := by
  funext c
  unfold announce
  rw [dump_relabel]

namespace Session

/-- A session and what it would be if a source with a static error had taken some indices: its later
tokens have greater indices, and its console may have gained other texts. -/
structure Shifted (start count : Nat) (C : Console → Console → Prop) (s s' : Session) : Prop where
  nextIndex : s'.nextIndex = s.nextIndex + count
  start_le : start ≤ s.nextIndex
  hops : ∀ t : Token, s'.hops[(Relabelling.shiftFrom start count).index t]? = s.hops[t.index]?
  world : s.world.Alike (.shiftFrom start count) C s'.world
  debugParse : s'.debugParse = s.debugParse

variable {start count : Nat} {C : Console → Console → Prop} {s s' : Session}

/-- Greater indices show in nothing that a source is prepared to but in the indices. -/
theorem Shifted.prepare (h : s.Shifted start count C s') (source : String) :
    s'.prepare source =
      ((s.prepare source).1, (s.prepare source).2.map (·.map (·.relabel (.shiftFrom start count)))) := by
  have hkeeps := Relabelling.shiftFrom_keepsLines start count
  unfold Session.prepare
  dsimp only
  rw [h.nextIndex, h.debugParse, errors_scan_add, tokens_scan_shiftFrom count source h.start_le,
    parse_relabel]
  cases parse (Lox.scan s.nextIndex source).tokens.toList with
  | error faults =>
    have htexts : ∀ c : Console,
        c.reportAll ((faults.map (·.relabel (.shiftFrom start count))).map
            (.ofSyntaxError (Lox.scan (s.nextIndex + count) source).finish)) =
          c.reportAll (faults.map (.ofSyntaxError (Lox.scan s.nextIndex source).finish)) := by
      intro c
      apply Console.reportAll_congr
      rw [List.map_map, List.map_map, List.map_map]
      apply List.map_congr_left
      intro e _
      exact Diagnostic.text_grammar_relabel hkeeps e (finish_scan_add count source)
    simp only [relabelParsed, htexts, Option.map_none]
  | ok program =>
    have htexts : ∀ c : Console,
        c.reportAll (((resolve program).errors.map (·.relabel (.shiftFrom start count))).map .scope) =
          c.reportAll ((resolve program).errors.map .scope) := by
      intro c
      apply Console.reportAll_congr
      rw [List.map_map, List.map_map, List.map_map]
      apply List.map_congr_left
      intro e _
      exact Diagnostic.text_scope_relabel hkeeps e
    have herrors : (resolve (program.map (·.relabel (.shiftFrom start count)))).errors =
        (resolve program).errors.map (·.relabel (.shiftFrom start count)) := by
      rw [resolve_relabel]
      rfl
    simp only [relabelParsed, herrors, htexts, announce_relabel, List.isEmpty_map]
    split
    · split <;> rfl
    · rfl

theorem Shifted.skipSource (h : s.Shifted start count C s') (source : String) :
    (s.skipSource source).Shifted start count C (s'.skipSource source) := by
  have hle := scan_index_le s.nextIndex source
  constructor
  · simp only [Session.skipSource, h.nextIndex, scan_shift, Scan.shift]
    omega
  · exact Nat.le_trans h.start_le (Nat.le_succ_of_le hle)
  · exact h.hops
  · exact h.world
  · exact h.debugParse

theorem Shifted.mapConsole (h : s.Shifted start count C s') (f : Console → Console)
    (hf : C (f s.world.console) (f s'.world.console)) :
    (s.mapConsole f).Shifted start count C (s'.mapConsole f) :=
  ⟨h.nextIndex, h.start_le, h.hops, { h.world with console := hf }, h.debugParse⟩

theorem Shifted.adopt (h : s.Shifted start count C s') (hops : List Hop) :
    (s.adopt hops).Shifted start count C
      (s'.adopt (hops.map (·.relabel (.shiftFrom start count)))) := by
  constructor
  · exact h.nextIndex
  · exact h.start_le
  · intro t
    apply adopt_relabel hops t _ (h.hops t)
    intro hop _
    exact Relabelling.shiftFrom_index_inj start count hop.token t
  · exact h.world
  · exact h.debugParse

def AnswersAlike (start count : Nat) (C : Console → Console → Prop)
    (answer answer' : Status × Session) : Prop :=
  answer'.1 = answer.1 ∧ answer.2.Shifted start count C answer'.2

theorem Shifted.proceed (hprint : PrintsAlike C) (hcomplain : ComplainsAlike C)
    (h : s.Shifted start count C s') (fuel : Nat) (program? : Option (List Stmt)) :
    Option.Rel (AnswersAlike start count C) (proceed? fuel s program?)
      (proceed? fuel s' (program?.map (·.map (·.relabel (.shiftFrom start count))))) := by
  cases program? with
  | none => exact .some ⟨rfl, h⟩
  | some program =>
    have hadopt := h.adopt (resolve program).hops
    have hctx : Context.Alike (.shiftFrom start count)
        ⟨.distances (s.adopt (resolve program).hops).hops, globalEnv, 0⟩
        ⟨.distances (s'.adopt
          ((resolve program).hops.map (·.relabel (.shiftFrom start count)))).hops, globalEnv, 0⟩ :=
      ⟨hadopt.hops, rfl, rfl⟩
    have hrun := executeTop_mirrors hprint fuel hctx program _ _ hadopt.world
    have hhops : (resolve (program.map (·.relabel (.shiftFrom start count)))).hops =
        (resolve program).hops.map (·.relabel (.shiftFrom start count)) := by
      rw [resolve_relabel]
      rfl
    simp only [proceed?, Option.map_some, hhops, execute?_eq_settle]
    apply settle_alike hrun
    · intro w w' _ hw
      exact ⟨rfl, hadopt.nextIndex, hadopt.start_le, hadopt.hops, hw, hadopt.debugParse⟩
    · intro e w w' _ hw
      have hlines := Relabelling.shiftFrom_keepsLines start count
      have hreport := (hcomplain _ _ hw.console ((Diagnostic.runtime e).text ++ "\n")).2
      have hshift : Shifted start count C { s.adopt (resolve program).hops with world := w }
          { s'.adopt ((resolve program).hops.map (·.relabel (.shiftFrom start count))) with
            world := w' } :=
        ⟨hadopt.nextIndex, hadopt.start_le, hadopt.hops, hw, hadopt.debugParse⟩
      refine ⟨rfl, ?_⟩
      simp only [conclude, report_eq, Diagnostic.text_runtime_relabel hlines]
      exact hshift.mapConsole _ hreport

theorem Shifted.run (hprint : PrintsAlike C) (hcomplain : ComplainsAlike C)
    (h : s.Shifted start count C s') (fuel : Nat) (source : String) :
    Option.Rel (AnswersAlike start count C) (s.run? fuel source) (s'.run? fuel source) := by
  rw [run?_eq, run?_eq, h.prepare source]
  apply Shifted.proceed hprint hcomplain
  apply (h.skipSource source).mapConsole
  exact prepare_alike hcomplain h.world.console s source

/-- How a run ended and what it said. -/
structure Transcript where
  status : Status
  out : String
  err : String
deriving DecidableEq

def textSince (before after : String) : String :=
  String.ofList (after.toList.drop before.toList.length)

theorem textSince_append (before text : String) : textSince before (before ++ text) = text := by
  simp [textSince]

def transcript (status : Status) (before after : Console) : Transcript where
  status := status
  out := textSince before.output after.output
  err := textSince before.diagnostics after.diagnostics

def runs? (fuel : Nat) (s : Session) : List String → Option (List Transcript × Session)
  | [] => some ([], s)
  | source :: rest =>
    match s.run? fuel source with
    | none => none
    | some (status, s') =>
      (runs? fuel s' rest).map fun later =>
        (transcript status s.world.console s'.world.console :: later.1, later.2)

theorem runs?_append (fuel : Nat) (s : Session) (before after : List String) :
    s.runs? fuel (before ++ after) =
      (s.runs? fuel before).bind fun earlier =>
        (earlier.2.runs? fuel after).map fun later => (earlier.1 ++ later.1, later.2) := by
  induction before generalizing s with
  | nil => simp [runs?]
  | cons source rest ih =>
    rw [List.cons_append, runs?, runs?]
    cases s.run? fuel source with
    | none => rfl
    | some answer =>
      dsimp only
      rw [ih]
      cases answer.2.runs? fuel rest with
      | none => rfl
      | some earlier => simp [Function.comp_def]

theorem transcript_of_gainAlike (status : Status) {base base' c c' : Console}
    (htwins : base.Twins base') (h : Console.GainAlike base base' c c') :
    transcript status base' c' = transcript status base c := by
  obtain ⟨out, err, rfl, rfl⟩ := h
  cases base <;> cases base'
  case separate.separate => simp [transcript, textSince_append, Console.diagnostics_extend]
  case shared.shared =>
    simp only [transcript, Console.output_extend, Console.diagnostics_extend, textSince_append]
  all_goals contradiction

theorem Shifted.runs (h : s.Shifted start count Console.Twins s') (fuel : Nat)
    (sources : List String) :
    Option.Rel (fun later later' => later'.1 = later.1 ∧
        later.2.Shifted start count Console.Twins later'.2)
      (s.runs? fuel sources) (s'.runs? fuel sources) := by
  induction sources generalizing s s' with
  | nil => exact .some ⟨rfl, h⟩
  | cons source rest ih =>
    have htwins := h.world.console
    have hgain : s.Shifted start count
        (Console.GainAlike s.world.console s'.world.console) s' :=
      { h with world := { h.world with console := Console.gainAlike_refl _ _ } }
    have hrun := hgain.run (gainAlike_printsAlike htwins) (gainAlike_complainsAlike htwins) fuel source
    rw [runs?, runs?]
    generalize s.run? fuel source = answer at hrun ⊢
    generalize s'.run? fuel source = answer' at hrun ⊢
    cases hrun with
    | none => exact .none
    | @some answer answer' hanswers =>
      obtain ⟨status, t⟩ := answer
      obtain ⟨status', t'⟩ := answer'
      obtain ⟨rfl, ht⟩ := hanswers
      have hnext : t.Shifted start count Console.Twins t' := by
        obtain ⟨out, err, hout, hout'⟩ := ht.world.console
        have hboth := htwins.extend out err
        rw [← hout, ← hout'] at hboth
        exact { ht with world := { ht.world with console := hboth } }
      dsimp only
      rw [transcript_of_gainAlike status' htwins ht.world.console]
      have hrest := ih hnext
      generalize t.runs? fuel rest = later at hrest ⊢
      generalize t'.runs? fuel rest = later' at hrest ⊢
      cases hrest with
      | none => exact .none
      | some hlater => exact .some ⟨congrArg (List.cons _) hlater.1, hlater.2⟩

theorem run?_staticError {fuel : Nat} {source : String}
    (h : s.run? fuel source = some (.staticError, s')) :
    s' = (s.skipSource source).mapConsole (s.prepare source).1 := by
  rw [run?_eq] at h
  cases hprepared : (s.prepare source).2 with
  | none =>
    rw [hprepared] at h
    cases h
    rfl
  | some program =>
    rw [hprepared] at h
    obtain ⟨⟨e?, s''⟩, -, hconclude⟩ := Option.map_eq_some_iff.1 h
    cases e? <;> cases hconclude

theorem runs?_length {fuel : Nat} {sources : List String} {transcripts : List Transcript}
    (h : s.runs? fuel sources = some (transcripts, s')) : transcripts.length = sources.length := by
  induction sources generalizing s transcripts with
  | nil =>
    cases h
    rfl
  | cons source rest ih =>
    rw [runs?] at h
    cases hrun : s.run? fuel source with
    | none =>
      rw [hrun] at h
      contradiction
    | some answer =>
      rw [hrun] at h
      obtain ⟨⟨later, last⟩, hlater, hlast⟩ := Option.map_eq_some_iff.1 h
      cases hlast
      rw [List.length_cons, List.length_cons, ih hlater]

theorem runs?_reachable {fuel : Nat} {sources : List String} {transcripts : List Transcript}
    (h : s.Reachable) (hruns : s.runs? fuel sources = some (transcripts, s')) : s'.Reachable := by
  induction sources generalizing s transcripts with
  | nil =>
    cases hruns
    exact h
  | cons source rest ih =>
    rw [runs?] at hruns
    cases hrun : s.run? fuel source with
    | none =>
      rw [hrun] at hruns
      contradiction
    | some answer =>
      rw [hrun] at hruns
      obtain ⟨⟨later, last⟩, hlater, hlast⟩ := Option.map_eq_some_iff.1 hruns
      cases hlast
      exact ih (h.run hrun) hlater

/-- What lies below the next index is the same in a session that has taken more indices. -/
theorem Numbered.shifted (h : s.Numbered) (hnext : s'.nextIndex = s.nextIndex + count)
    (hhops : s'.hops = s.hops) (hdebug : s'.debugParse = s.debugParse)
    (hworld : s'.world = { s.world with console := s'.world.console })
    (hconsole : C s.world.console s'.world.console) :
    s.Shifted s.nextIndex count C s' := by
  have hkeeps := Relabelling.shiftFrom_keepsBelow s.nextIndex count
  constructor
  · exact hnext
  · exact Nat.le_refl _
  · intro t
    rw [hhops]
    exact h.agree hkeeps t
  · have halike := h.world _ hkeeps
    rw [hworld]
    exact { halike with console := hconsole }
  · exact hdebug

theorem runs?_neverRefuses {fuel : Nat} {sources : List String} {transcripts : List Transcript}
    (h : s.Reachable) (hnever : s.world.console.NeverRefuses)
    (hruns : s.runs? fuel sources = some (transcripts, s')) : s'.world.console.NeverRefuses := by
  have hself : s.Shifted s.nextIndex 0 Console.Twins s :=
    h.numbered.shifted rfl rfl rfl rfl hnever.twins
  have hrel := hself.runs fuel sources
  rw [hruns] at hrel
  cases hrel with
  | some hlast => exact hlast.2.world.console.neverRefuses

theorem staticError_changes {fuel : Nat} {source : String}
    (h : s.run? fuel source = some (.staticError, s')) :
    ∃ nextIndex console, s.nextIndex ≤ nextIndex ∧ OnlyComplained s.world.console console ∧
      s' = { s with nextIndex, world := { s.world with console } } := by
  have hcomplained := prepare_alike (onlyComplained_complainsAlike s.world.console)
    ⟨rfl, [], rfl⟩ s source
  rw [run?_staticError h]
  exact ⟨_, _, Nat.le_succ_of_le (scan_index_le s.nextIndex source), hcomplained.2, rfl⟩

theorem runs?_after_staticError {fuel : Nat} {source : String} (h : s.Reachable)
    (hnever : s.world.console.NeverRefuses) (hrun : s.run? fuel source = some (.staticError, s'))
    (after : List String) :
    (s'.runs? fuel after).map Prod.fst = (s.runs? fuel after).map Prod.fst := by
  have hgain := prepare_alike (gainAlike_complainsAlike hnever.twins)
    (Console.gainAlike_refl s.world.console s.world.console) s source
  have htwins : s.world.console.Twins ((s.prepare source).1 s.world.console) := by
    obtain ⟨out, err, hout, -⟩ := hgain
    rw [hout]
    exact hnever.twins_extend out err
  have hle := scan_index_le s.nextIndex source
  have hnext : (Lox.scan s.nextIndex source).index + 1 =
      s.nextIndex + ((Lox.scan s.nextIndex source).index + 1 - s.nextIndex) := by
    omega
  have hshift : s.Shifted s.nextIndex ((Lox.scan s.nextIndex source).index + 1 - s.nextIndex)
      Console.Twins ((s.skipSource source).mapConsole (s.prepare source).1) :=
    h.numbered.shifted hnext rfl rfl rfl htwins
  rw [run?_staticError hrun]
  have hrel := hshift.runs fuel after
  generalize s.runs? fuel after = later at hrel ⊢
  generalize Session.runs? fuel _ after = later' at hrel ⊢
  cases hrel with
  | none => rfl
  | some hlater => exact congrArg some hlater.1

/-- A run with a static error is invisible to the rest of the session: it offers diagnostics only and
leaves variables, objects and distances alone, and every other run of a list of sources ends as without
it and says the same. -/
theorem staticError_invisible {fuel : Nat} {before : List String} {source : String}
    {transcripts : List Transcript} {failed : Session} (h : s.Reachable)
    (hnever : s.world.console.NeverRefuses)
    (hbefore : s.runs? fuel before = some (transcripts, s'))
    (hrun : s'.run? fuel source = some (.staticError, failed)) :
    (∃ nextIndex console, OnlyComplained s'.world.console console ∧
      failed = { s' with nextIndex, world := { s'.world with console } }) ∧
    (∀ out err, s'.world.console = .separate out err →
      failed.world.console.output = s'.world.console.output) ∧
    ∀ after : List String,
      (s.runs? fuel (before ++ source :: after)).map (fun said => said.1.eraseIdx before.length) =
        (s.runs? fuel (before ++ after)).map Prod.fst := by
  obtain ⟨nextIndex, console, -, hcomplained, hfailed⟩ := staticError_changes hrun
  constructor
  · exact ⟨nextIndex, console, hcomplained, hfailed⟩
  · constructor
    · intro out err hconsole
      rw [hfailed]
      exact hcomplained.output hconsole
    · intro after
      -- Behind the failed run the indices are greater and the console has heard more, and nothing shows it.
      have hlater := runs?_after_staticError (runs?_reachable h hbefore)
        (runs?_neverRefuses h hnever hbefore) hrun after
      have herase : ∀ (said : Transcript) (later : List Transcript),
          (transcripts ++ said :: later).eraseIdx before.length = transcripts ++ later := by
        intro said later
        rw [← runs?_length hbefore, List.eraseIdx_append_of_length_le (Nat.le_refl _)]
        simp
      rw [runs?_append, runs?_append, hbefore]
      simp only [Option.bind_some, runs?, hrun, Option.map_map]
      have hmap := congrArg (Option.map (transcripts ++ ·)) hlater
      rw [Option.map_map, Option.map_map] at hmap
      simpa only [Function.comp_def, herase] using hmap

/-- A missing expression between two runs changes what neither of them says. -/
theorem staticError_invisible_missingExpression :
    ((initial ⟨0, 0⟩ (.separate .unlimited .unlimited)).runs? 50
        ["var a = true;", "print ;", "print a;"]).map (fun said => said.1.eraseIdx 1) =
      ((initial ⟨0, 0⟩ (.separate .unlimited .unlimited)).runs? 50
        ["var a = true;", "print a;"]).map Prod.fst := by
  obtain ⟨s, hs⟩ : ∃ s, s = initial ⟨0, 0⟩ (.separate .unlimited .unlimited) := ⟨_, rfl⟩
  have hstatus : ((s.runs? 50 ["var a = true;"]).bind fun said =>
      said.2.run? 50 "print ;").map Prod.fst = some .staticError := by
    rw [hs]
    decide +kernel
  obtain ⟨⟨status, failed⟩, hbind, hfailed⟩ := Option.map_eq_some_iff.1 hstatus
  obtain ⟨⟨transcripts, s'⟩, hbefore, hrun⟩ := Option.bind_eq_some_iff.1 hbind
  cases hfailed
  have hreachable : s.Reachable := by
    rw [hs]
    exact .initial _ _
  have hnever : s.world.console.NeverRefuses := by
    rw [hs]
    exact ⟨fun _ _ => rfl, fun _ _ => rfl⟩
  have hinvisible := (staticError_invisible hreachable hnever hbefore hrun).2.2 ["print a;"]
  rw [← hs]
  exact hinvisible

end Session

end Lox
