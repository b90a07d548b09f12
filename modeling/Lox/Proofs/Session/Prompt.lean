import Lox.CommandLine
import Lox.Proofs.Session.ConsoleExchange

/-!
The prompt. Whatever it reads, it does what a session does on the lines that it can read: it prints the
prompt text before each of them and says nothing else, and the first line that is no text ends it.
-/
namespace Lox

def utf8 (text : String) : List UInt8 := text.toUTF8.data.toList

theorem decode_eq_ok_iff {bytes : List UInt8} {text : String} :
    decode bytes = .ok text ↔ bytes = utf8 text := by
  unfold decode String.fromUTF8? utf8
  split
  case h_1 text' htext =>
    split at htext
    · cases htext
      constructor
      · intro h
        cases h
        rfl
      · rintro rfl
        rfl
    · contradiction
  case h_2 htext =>
    split at htext
    · contradiction
    · rename_i hinvalid
      constructor
      · intro h
        contradiction
      · rintro rfl
        exact absurd text.isValidUTF8 hinvalid

theorem decode_eq_error {bytes : List UInt8} (h : ∀ text, bytes ≠ utf8 text) :
    decode bytes = .error .notUtf8 := by
  cases hdecode : decode bytes with
  | ok text => exact absurd (decode_eq_ok_iff.1 hdecode) (h text)
  | error failure =>
    unfold decode at hdecode
    split at hdecode
    · contradiction
    · exact hdecode.symm

/-- An input cut behind each line end. Only its last line may lack one. -/
inductive Cut : List UInt8 → List (List UInt8) → Prop
  | nil : Cut [] []
  | last {line} (hline : 10 ∉ line) (h : line ≠ []) : Cut line [line]
  | cons {line rest ls} (hline : 10 ∉ line) (h : Cut rest ls) :
      Cut (line ++ 10 :: rest) ((line ++ [10]) :: ls)

theorem lines_of_not_mem {line : List UInt8} (hline : 10 ∉ line) (h : line ≠ []) :
    lines line = [line] := by
  induction line with
  | nil => contradiction
  | cons b line ih =>
    obtain ⟨hb, hrest⟩ := List.ne_and_not_mem_of_not_mem_cons hline
    rw [lines, if_neg (Ne.symm hb)]
    cases line with
    | nil => rfl
    | cons c line => rw [ih hrest (List.cons_ne_nil c line)]

theorem lines_append {line : List UInt8} (rest : List UInt8) (hline : 10 ∉ line) :
    lines (line ++ 10 :: rest) = (line ++ [10]) :: lines rest := by
  induction line with
  | nil => rfl
  | cons b line ih =>
    obtain ⟨hb, hrest⟩ := List.ne_and_not_mem_of_not_mem_cons hline
    rw [List.cons_append, lines, if_neg (Ne.symm hb), ih hrest]
    rfl

theorem Cut.lines_eq {input : List UInt8} {ls : List (List UInt8)} (h : Cut input ls) :
    lines input = ls := by
  induction h with
  | nil => rfl
  | last hline h => exact lines_of_not_mem hline h
  | cons hline _ ih => rw [lines_append _ hline, ih]

theorem cut_lines (input : List UInt8) : Cut input (lines input) := by
  induction input with
  | nil => exact .nil
  | cons b rest ih =>
    rw [lines]
    by_cases hb : b = 10
    · rw [if_pos hb, hb]
      exact Cut.cons List.not_mem_nil ih
    · have hcons : ∀ {line : List UInt8}, 10 ∉ line → 10 ∉ b :: line := fun hline hmem =>
        (List.mem_cons.1 hmem).elim (Ne.symm hb) hline
      rw [if_neg hb]
      generalize lines rest = ls at ih ⊢
      cases ih with
      | nil => exact .last (hcons List.not_mem_nil) (List.cons_ne_nil b [])
      | last hline => exact .last (hcons hline) (List.cons_ne_nil b rest)
      | cons hline h => exact .cons (hcons hline) h

theorem cut_iff {input : List UInt8} {ls : List (List UInt8)} : Cut input ls ↔ lines input = ls := by
  constructor
  · exact Cut.lines_eq
  · rintro rfl
    exact cut_lines input

namespace Session

variable {s : Session} {c : Console}

def promptOutput (said : List Transcript) : String :=
  String.join (said.map fun t => promptText ++ t.out)

def promptDiagnostics (said : List Transcript) : String := String.join (said.map Transcript.err)

@[simp] theorem promptOutput_cons (t : Transcript) (said : List Transcript) :
    promptOutput (t :: said) = promptText ++ t.out ++ promptOutput said := by
  simp [promptOutput, String.join_cons]

@[simp] theorem promptDiagnostics_cons (t : Transcript) (said : List Transcript) :
    promptDiagnostics (t :: said) = t.err ++ promptDiagnostics said := by
  simp [promptDiagnostics, String.join_cons]

theorem printing_of_neverRefuses (hc : c.NeverRefuses) (text : String)
    (next : Session → Option (Nat × Session)) :
    (s.withConsole c).printing text next = next (s.withConsole (c.extend text "")) := by
  unfold printing
  cases c with
  | separate out err =>
    obtain ⟨hout, -⟩ := hc
    simp only [withConsole_console, Console.print, Sink.offer_of_neverRefuses hout]
    simp [withConsole, mapConsole, Console.extend, Sink.extend]
  | shared sink =>
    simp only [withConsole_console, Console.print, Sink.offer_of_neverRefuses hc]
    rfl

theorem complain_of_neverRefuses {out err : Sink} (h : (Console.separate out err).NeverRefuses)
    (o e text : String) :
    (s.withConsole ((Console.separate out err).extend o e)).complain text =
      s.withConsole ((Console.separate out err).extend o (e ++ text)) := by
  have hoffer := Sink.offer_of_neverRefuses (s := err.extend e) h.2 text
  simp [complain, withConsole, Console.report, Console.complain, Console.extend, mapConsole, hoffer,
    Sink.extend_extend]

/-- Behind lines that it can read, the prompt stands where a session stands that ran them, and has printed
its text before what that session says of each. -/
theorem prompt?_append {fuel : Nat} (hc : s.world.console.Twins c)
    (sources : List String) (more : List (List UInt8)) :
    (s.withConsole c).prompt? fuel (sources.map utf8 ++ more) =
      (s.runs? fuel sources).bind fun said =>
        (said.2.withConsole (c.extend (promptOutput said.1) (promptDiagnostics said.1))).prompt? fuel
          more := by
  induction sources generalizing s c with
  | nil => simp [runs?, promptOutput, promptDiagnostics]
  | cons source rest ih =>
    have hafter := hc.extend_right promptText ""
    have hrun := run?_beside hafter fuel source
    rw [List.map_cons, List.cons_append, prompt?, printing_of_neverRefuses hc.neverRefuses_right,
      decode_eq_ok_iff.2 rfl, runs?]
    dsimp only
    cases hplain : s.run? fuel source with
    | none =>
      rw [hplain] at hrun
      generalize run? fuel _ source = answer at hrun ⊢
      cases hrun
      rfl
    | some answer =>
      obtain ⟨status, t⟩ := answer
      rw [hplain] at hrun
      generalize run? fuel _ source = answer' at hrun ⊢
      cases hrun with
      | some hanswer =>
        obtain ⟨htwins, rfl⟩ := hanswer
        dsimp only [withConsole_console] at htwins ⊢
        rw [ih htwins, Option.bind_map]
        congr 1
        funext said
        simp [Console.extend_extend, String.append_assoc]

/-- How the prompt ends behind lines that a session ran: with an exit code, some last texts, and the state
of that session. -/
structure Prompted (lastOutput lastDiagnostics : String) (code : Nat)
    (said : List Transcript × Session) (answer : Nat × Session) : Prop where
  code : answer.1 = code
  output : answer.2.world.console.output = promptOutput said.1 ++ lastOutput
  diagnostics : answer.2.world.console.diagnostics = promptDiagnostics said.1 ++ lastDiagnostics
  session : answer.2 = said.2.withConsole answer.2.world.console

/-- The prompt is a session over the lines of its input, up to the first that is no text. -/
theorem prompt_is_session (clock : Clock) (debugParse : Bool) (fuel : Nat) {input : List UInt8}
    {ls : List (List UInt8)} (hcut : Cut input ls) (sources : List String) :
    let s := { initial clock (.separate .unlimited .unlimited) with debugParse }
    (ls = sources.map utf8 →
      Option.Rel (Prompted "> \n" "" 0) (s.runs? fuel sources) (s.prompt? fuel (lines input))) ∧
    ∀ line rest, ls = sources.map utf8 ++ line :: rest → (∀ text, line ≠ utf8 text) →
      Option.Rel (Prompted "> " "stream did not contain valid UTF-8\n" 74) (s.runs? fuel sources)
        (s.prompt? fuel (lines input)) := by
  intro s
  have hnever : (Console.separate .unlimited .unlimited).NeverRefuses :=
    ⟨fun _ _ => rfl, fun _ _ => rfl⟩
  have hprompt : ∀ more, prompt? fuel _ (sources.map utf8 ++ more) = _ :=
    prompt?_append (s := s) hnever.twins sources
  -- There is one way to cut an input, and the prompt cuts it so.
  rw [cut_iff.1 hcut]
  constructor
  · rintro rfl
    have hall := hprompt []
    rw [List.append_nil] at hall
    change Option.Rel _ _ ((s.withConsole (.separate .unlimited .unlimited)).prompt? fuel _)
    rw [hall]
    cases s.runs? fuel sources with
    | none => exact .none
    | some said =>
      rw [Option.bind_some, prompt?, printing_of_neverRefuses (hnever.extend _ _),
        printing_of_neverRefuses ((hnever.extend _ _).extend _ _), Console.extend_extend,
        Console.extend_extend]
      refine .some ⟨rfl, ?_, ?_, rfl⟩
      · rw [withConsole_console, Console.output_extend]
        exact String.empty_append
      · rw [withConsole_console, Console.diagnostics_extend]
        simp [Console.diagnostics, Sink.unlimited]
  · rintro line rest rfl hline
    change Option.Rel _ _ ((s.withConsole (.separate .unlimited .unlimited)).prompt? fuel _)
    rw [hprompt]
    cases s.runs? fuel sources with
    | none => exact .none
    | some said =>
      rw [Option.bind_some, prompt?, printing_of_neverRefuses (hnever.extend _ _),
        decode_eq_error hline, Console.extend_extend]
      dsimp only
      rw [complain_of_neverRefuses hnever]
      refine .some ⟨rfl, ?_, ?_, rfl⟩
      · rw [withConsole_console, Console.output_extend]
        exact String.empty_append
      · rw [withConsole_console, Console.diagnostics_extend, String.append_empty]
        exact String.empty_append

/-- Of three lines the second is no text: the first is run, the third is not. -/
theorem prompt_is_session_invalid_line :
    let s := { initial ⟨0, 0⟩ (.separate .unlimited .unlimited) with debugParse := true }
    (∀ text, [255, 10] ≠ utf8 text) ∧
    Option.Rel (Prompted "> " "stream did not contain valid UTF-8\n" 74)
      (s.runs? 50 ["print true; print x;\n"])
      (s.prompt? 50 (lines (utf8 "print true; print x;" ++ 10 :: ([255] ++ 10 :: utf8 "print true;")))) := by
  have hinvalid : ∀ text, [255, 10] ≠ utf8 text := by
    intro text h
    have hdecode := decode_eq_ok_iff.2 h
    have herror : (decode [255, 10]).toOption = none := by decide +kernel
    rw [hdecode] at herror
    contradiction
  have hcut : Cut (utf8 "print true; print x;" ++ 10 :: ([255] ++ 10 :: utf8 "print true;"))
      [utf8 "print true; print x;" ++ [10], [255] ++ [10], utf8 "print true;"] :=
    .cons (by decide +kernel) (.cons (by decide) (.last (by decide +kernel) (by decide +kernel)))
  have hfirst : utf8 "print true; print x;" ++ [10] = utf8 "print true; print x;\n" := by
    decide +kernel
  rw [hfirst] at hcut
  exact ⟨hinvalid, (prompt_is_session ⟨0, 0⟩ true 50 hcut ["print true; print x;\n"]).2 [255, 10]
    [utf8 "print true;"] rfl hinvalid⟩

end Session

end Lox
