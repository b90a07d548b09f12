import Lox.Proofs.Lexical.Insertion
import Lox.Proofs.Session.StaticErrors
import Lox.Proofs.Session.Utterances

/-!
Runs of sources with text put in beside lexemes. No stage of a run lets a line decide anything: trees,
findings and worlds are the same but for lines of tokens, and what is said is the same but for the lines
in diagnostics.
-/
namespace Lox

namespace Relabelling

variable {bound start : Nat} (lines : Nat)

theorem lowering_keepsBelow (h : bound ≤ start) : (lowering start lines).KeepsBelow bound := by
  constructor
  · intro t ht
    have hle : ¬ start ≤ t.index := by omega
    simp [apply, lowering, hle]
  · exact fun t ht => ht

end Relabelling

namespace Session

variable {s : Session} {source source' : String} {start lines : Nat}

theorem adopt_relabel_lowering (s : Session) (start lines : Nat) (hops : List Hop) :
    s.adopt (hops.map (·.relabel (.lowering start lines))) = s.adopt hops := by
  unfold adopt
  rw [List.foldl_map]
  rfl

theorem prepare_lowered
    (h : (Lox.scan s.nextIndex source).Lowered start lines (Lox.scan s.nextIndex source')) :
    (s.prepare source').2 =
        (s.prepare source).2.map (·.map (·.relabel (.lowering start lines))) ∧
      ∀ {base : Console}, base.NeverRefuses → ∀ {c c' : Console}, base.HeardAlike c c' →
        base.HeardAlike ((s.prepare source).1 c) ((s.prepare source').1 c') := by
  have hlexical : List.Forall₂ Diagnostic.SameButLine
      ((Lox.scan s.nextIndex source).errors.toList.map .lexical)
      ((Lox.scan s.nextIndex source').errors.toList.map .lexical) := by
    rw [List.forall₂_map_left_iff, List.forall₂_map_right_iff]
    exact h.errors.imp fun _ _ => Diagnostic.sameButLine_lexical
  have hempty : (Lox.scan s.nextIndex source').errors.isEmpty =
      (Lox.scan s.nextIndex source).errors.isEmpty := by
    have hlength := h.errors.length_eq
    rw [Array.length_toList, Array.length_toList] at hlength
    simp only [Array.isEmpty, hlength]
  unfold Session.prepare
  dsimp only
  rw [h.tokens, parse_relabel, hempty]
  cases parse (Lox.scan s.nextIndex source).tokens.toList with
  | error faults =>
    refine ⟨rfl, fun _ _ _ hc => (hc.reportAll hlexical).reportAll ?_⟩
    simp only [List.forall₂_map_left_iff, List.forall₂_map_right_iff]
    exact List.forall₂_same.2 fun e _ => Diagnostic.sameButLine_ofSyntaxError _ _ e
  | ok program =>
    have herrors : (resolve (program.map (·.relabel (.lowering start lines)))).errors =
        (resolve program).errors.map (·.relabel (.lowering start lines)) := by
      rw [resolve_relabel]
      rfl
    have hscope : List.Forall₂ Diagnostic.SameButLine ((resolve program).errors.map .scope)
        (((resolve program).errors.map (·.relabel (.lowering start lines))).map .scope) := by
      simp only [List.forall₂_map_left_iff, List.forall₂_map_right_iff]
      exact List.forall₂_same.2 fun e _ => Diagnostic.sameButLine_scope e
    simp only [relabelParsed, herrors, announce_relabel, List.isEmpty_map]
    split
    · split
      · exact ⟨rfl, fun hbase _ _ hc =>
          announce_alike hbase.heardAlike_complainsAlike (hc.reportAll hlexical) _ _⟩
      · exact ⟨rfl, fun hbase _ _ hc =>
          (announce_alike hbase.heardAlike_complainsAlike (hc.reportAll hlexical) _ _).reportAll
            hscope⟩
    · exact ⟨rfl, fun _ _ _ hc => hc.reportAll hlexical⟩

/-- The same session but for the lines of tokens and, in what was said since a console, for the lines in
diagnostics. -/
structure Relined (r : Relabelling) (base : Console) (s s' : Session) : Prop where
  nextIndex : s'.nextIndex = s.nextIndex
  hops : s'.hops = s.hops
  world : s.world.Alike r base.HeardAlike s'.world
  debugParse : s'.debugParse = s.debugParse

theorem Relined.mapConsole {r : Relabelling} {base : Console} {s' : Session} (h : s.Relined r base s')
    {f f' : Console → Console} (hf : base.HeardAlike (f s.world.console) (f' s'.world.console)) :
    (s.mapConsole f).Relined r base (s'.mapConsole f') :=
  ⟨h.nextIndex, h.hops, { h.world with console := hf }, h.debugParse⟩

def RelinedAnswers (r : Relabelling) (base : Console) (answer answer' : Status × Session) : Prop :=
  answer'.1 = answer.1 ∧ answer.2.Relined r base answer'.2

theorem Relined.proceed {base : Console} (hbase : base.NeverRefuses) {s' : Session}
    (h : s.Relined (.lowering start lines) base s') (fuel : Nat) (program? : Option (List Stmt)) :
    Option.Rel (RelinedAnswers (.lowering start lines) base) (proceed? fuel s program?)
      (proceed? fuel s' (program?.map (·.map (·.relabel (.lowering start lines))))) := by
  cases program? with
  | none => exact .some ⟨rfl, h⟩
  | some program =>
    have hresolved : (resolve (program.map (·.relabel (.lowering start lines)))).hops =
        (resolve program).hops.map (·.relabel (.lowering start lines)) := by
      rw [resolve_relabel]
      rfl
    have hadopted : (s'.adopt (resolve program).hops).hops = (s.adopt (resolve program).hops).hops := by
      rw [adopt, adopt, h.hops]
    have hctx : Context.Alike (.lowering start lines)
        ⟨.distances (s.adopt (resolve program).hops).hops, globalEnv, 0⟩
        ⟨.distances (s'.adopt (resolve program).hops).hops, globalEnv, 0⟩ := by
      rw [hadopted]
      exact ⟨fun _ => rfl, rfl, rfl⟩
    have hrun := executeTop_mirrors hbase.heardAlike_printsAlike fuel hctx program _ _ h.world
    simp only [proceed?, Option.map_some, hresolved, adopt_relabel_lowering, execute?_eq_settle]
    apply settle_alike hrun
    · intro w w' _ hw
      exact ⟨rfl, h.nextIndex, hadopted, hw, h.debugParse⟩
    · intro e w w' _ hw
      have hconsole : base.HeardAlike (w.console.report ((Diagnostic.runtime e).text ++ "\n"))
          (w'.console.report
            ((Diagnostic.runtime (e.relabel (.lowering start lines))).text ++ "\n")) :=
        hw.console.report (Diagnostic.sameButLine_runtime e)
      exact ⟨rfl, h.nextIndex, hadopted, { hw with console := hconsole }, h.debugParse⟩

/-- Layout only moves lines: with a blank, or a space and a comment, put in where a lexeme begins or ends,
a source without an open string does the same. Only tokens of the source change their lines. -/
theorem run?_insert (h : s.Reachable) (hc : s.world.console.NeverRefuses)
    {front text back : List Char} (hparted : Lexical.Parted source.toList front back)
    (htext : Lexical.Filler text) (hsource' : source'.toList = front ++ text ++ back)
    (hclosed : ∀ line, .unterminatedString line ∉ (Lox.scan s.nextIndex source).errors.toList) :
    ∃ r : Relabelling, (∀ t, r.index t = t.index) ∧ r.Fixes (·.index < s.nextIndex) ∧
      ∀ fuel, Option.Rel (RelinedAnswers r s.world.console) (s.run? fuel source)
        (s.run? fuel source') := by
  obtain ⟨start, hstart, hscan⟩ := scan_insert hparted htext hsource' hclosed
  have hkeeps := Relabelling.lowering_keepsBelow (text.count '\n') hstart
  refine ⟨.lowering start (text.count '\n'), fun _ => rfl, hkeeps.fixes, fun fuel => ?_⟩
  obtain ⟨hprogram, hshown⟩ := prepare_lowered hscan
  have hskip : s.skipSource source' = s.skipSource source := by
    rw [skipSource, skipSource, hscan.index]
  have hself : (s.skipSource source).Relined (.lowering start (text.count '\n')) s.world.console
      (s.skipSource source) :=
    ⟨rfl, rfl, { h.numbered.world _ hkeeps with console := Console.heardAlike_refl _ }, rfl⟩
  have hready := hself.mapConsole (hshown hc (Console.heardAlike_refl s.world.console))
  rw [run?_eq, run?_eq, hprogram, hskip]
  exact hready.proceed hc fuel _

/-- A comment behind a name, in front of what fails when the program runs. -/
theorem run?_insert_comment :
    ∃ r : Relabelling, (∀ t, r.index t = t.index) ∧ r.Fixes (·.index < 0) ∧
      ∀ fuel, Option.Rel (RelinedAnswers r (.separate .unlimited .unlimited))
        ((initial ⟨0, 0⟩ (.separate .unlimited .unlimited)).run? fuel "print a;a")
        ((initial ⟨0, 0⟩ (.separate .unlimited .unlimited)).run? fuel "print a //;\n;a") := by
  have hpieces : Source.pieces "print a;a".toList =
      [⟨.lexeme .kwPrint, "print".toList⟩, ⟨.blank, [' ']⟩] ++ ⟨.lexeme .identifier, ['a']⟩ ::
        [⟨.lexeme .semicolon, [';']⟩, ⟨.lexeme .identifier, ['a']⟩] := by
    decide +kernel
  have hclosed : ∀ line,
      LexicalError.unterminatedString line ∉ (Lox.scan 0 "print a;a").errors.toList := by
    have hnone : (Lox.scan 0 "print a;a").errors.toList = [] := by decide +kernel
    intro line
    rw [hnone]
    exact List.not_mem_nil
  have hbody : '\n' ∉ [';'] := by decide
  exact run?_insert (.initial ⟨0, 0⟩ _) ⟨fun _ _ => rfl, fun _ _ => rfl⟩ (.behind hpieces)
    (.comment hbody) (by decide +kernel) hclosed

end Session

end Lox
