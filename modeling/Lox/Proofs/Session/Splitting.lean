import Lox.Proofs.Parsing.Acceptance
import Lox.Proofs.Session.StaticErrors

/-!
Programs over several runs. Two sources in one run, a line end between them, do what they do in two runs,
but that the indices of the second are less by one and its lines are counted on.
-/
namespace Lox

def StaticallyValid (source : String) : Prop :=
  (scan 0 source).errors = #[] ∧
    ∃ program, parse (scan 0 source).tokens.toList = .ok program ∧ (resolve program).errors = []

theorem StaticallyValid.shift {source : String} (h : StaticallyValid source) (lines index : Nat) :
    ∃ program, ((scan 0 source).shift lines index).errors = #[] ∧
      parse ((scan 0 source).shift lines index).tokens.toList = .ok program ∧
      (resolve program).errors = [] := by
  obtain ⟨herrors, program, hparse, hresolve⟩ := h
  refine ⟨program.map (·.relabel (.shift lines index)), ?_, ?_, ?_⟩
  · simp [Scan.shift, herrors]
  · rw [Scan.shift, Array.toList_map, parse_relabel, hparse]
    rfl
  · rw [resolve_relabel]
    simp [Findings.relabel, hresolve]

namespace Relabelling

/-- From the second of two runs to the second part of one run. The tokens of the second run start behind
`start`, an index that its first run leaves out; that index goes where it is out of the way. -/
def joining (start lines unused : Nat) : Relabelling where
  line t := if start < t.index then t.line + lines else t.line
  index t := if t.index < start then t.index else if t.index = start then unused else t.index - 1

theorem joining_keepsBelow {start unused : Nat} (lines : Nat) (h : start ≤ unused) :
    (joining start lines unused).KeepsBelow start := by
  constructor
  · intro t ht
    have hline : ¬ start < t.index := by omega
    simp [apply, joining, ht, hline]
  · intro t ht
    unfold joining
    dsimp only
    split
    · omega
    · split <;> omega

theorem joining_shift (start lines unused : Nat) (t : Token) :
    joining start lines unused (shift 0 (start + 1) t) = shift lines start t := by
  have hlt : ¬ t.index + (start + 1) < start := by omega
  have hne : ¬ t.index + (start + 1) = start := by omega
  have hline : start < t.index + (start + 1) := by omega
  simp only [apply, joining, shift, hlt, hne, hline, if_true, if_false]
  congr 1

end Relabelling

theorem tokens_joining (source : String) (start lines unused : Nat) :
    ((scan 0 source).shift lines start).tokens.toList =
      ((scan 0 source).shift 0 (start + 1)).tokens.toList.map
        (Relabelling.joining start lines unused) := by
  rw [Scan.shift, Scan.shift, Array.toList_map, Array.toList_map, List.map_map]
  apply List.map_congr_left
  intro t _
  exact (Relabelling.joining_shift start lines unused t).symm

theorem mem_shift_index {source : String} {lines count : Nat} {t : Token}
    (h : t ∈ ((scan 0 source).shift lines count).tokens.toList) :
    count ≤ t.index ∧ t.index < (scan 0 source).index + count := by
  rw [Scan.shift, Array.toList_map] at h
  obtain ⟨u, hu, rfl⟩ := List.mem_map.1 h
  have hbounds := (scan_numbered 0 source).mem hu
  simp only [Relabelling.apply_index, Relabelling.shift]
  omega

def Console.isSeparate : Console → Bool
  | separate _ _ => true
  | shared _ => false

theorem Console.output_report {c : Console} (h : c.isSeparate = true) (text : String) :
    (c.report text).output = c.output := by
  cases c with
  | separate out err => rfl
  | shared sink => contradiction

/-- A console of the same kind whose output starts with that of another one. -/
structure OutputGrows (base c : Console) : Prop where
  output : ∃ text, c.output = base.output ++ text
  kind : c.isSeparate = base.isSeparate

theorem outputGrows_refl (c : Console) : OutputGrows c c := ⟨⟨"", by simp⟩, rfl⟩

theorem OutputGrows.trans {a b c : Console} (h : OutputGrows a b) (h' : OutputGrows b c) :
    OutputGrows a c := by
  obtain ⟨text, htext⟩ := h.output
  obtain ⟨text', htext'⟩ := h'.output
  exact ⟨⟨text ++ text', by rw [htext', htext, String.append_assoc]⟩, h'.kind.trans h.kind⟩

theorem outputGrows_print (c : Console) (text : String) : OutputGrows c (c.print text).2 := by
  have hoffer : ∀ s : Sink, ∃ gained, (s.offer text).2.taken = s.taken ++ gained := by
    intro s
    unfold Sink.offer
    split
    · exact ⟨"", by simp⟩
    · exact ⟨text, rfl⟩
  cases c with
  | separate out err => exact ⟨hoffer out, rfl⟩
  | shared sink => exact ⟨hoffer sink, rfl⟩

theorem outputGrows_printsAlike (base : Console) :
    PrintsAlike fun c c' => c = c' ∧ OutputGrows base c := by
  rintro c _ ⟨rfl, hgrows⟩ text
  exact ⟨rfl, rfl, hgrows.trans (outputGrows_print c text)⟩

theorem textSince_trans {a b c : Console} (h : OutputGrows a b) (h' : OutputGrows b c) :
    Session.textSince a.output c.output =
      Session.textSince a.output b.output ++ Session.textSince b.output c.output := by
  obtain ⟨text, htext⟩ := h.output
  obtain ⟨text', htext'⟩ := h'.output
  rw [htext', htext, String.append_assoc, Session.textSince_append, Session.textSince_append,
    ← String.append_assoc, Session.textSince_append]

theorem resolve_append (program later : List Stmt) :
    resolve (program ++ later) = resolve program ++ resolve later := by
  unfold resolve
  induction program with
  | nil => rfl
  | cons s rest ih =>
    have hbind : s.bind [] = [] := by
      cases s <;> rfl
    rw [List.cons_append, Stmt.resolveAll, Stmt.resolveAll, hbind, ih, Findings.append_assoc]

namespace Session

theorem prepare_of_valid {s : Session} {source : String} {program : List Stmt}
    (hdebug : s.debugParse = false) (herrors : (Lox.scan s.nextIndex source).errors = #[])
    (hparse : parse (Lox.scan s.nextIndex source).tokens.toList = .ok program)
    (hresolve : (resolve program).errors = []) : s.prepare source = (id, some program) := by
  unfold prepare
  dsimp only
  rw [hparse, herrors, hdebug]
  simp only [hresolve]
  rfl

theorem run?_of_valid {s : Session} {source : String} {program : List Stmt}
    (hdebug : s.debugParse = false) (herrors : (Lox.scan s.nextIndex source).errors = #[])
    (hparse : parse (Lox.scan s.nextIndex source).tokens.toList = .ok program)
    (hresolve : (resolve program).errors = []) (fuel : Nat) :
    s.run? fuel source =
      (((s.skipSource source).adopt (resolve program).hops).execute? fuel program).map conclude := by
  rw [run?_eq, prepare_of_valid hdebug herrors hparse hresolve]
  rfl

theorem run?_success {s s' : Session} {fuel : Nat} {source : String} (hdebug : s.debugParse = false)
    (h : s.run? fuel source = some (.success, s')) :
    ∃ program w, (Lox.scan s.nextIndex source).errors = #[] ∧
      parse (Lox.scan s.nextIndex source).tokens.toList = .ok program ∧
      (resolve program).errors = [] ∧
      executeTop fuel ⟨.distances (s.adopt (resolve program).hops).hops, globalEnv, 0⟩ program
        s.world = .ok () w ∧
      s' = { (s.skipSource source).adopt (resolve program).hops with world := w } := by
  cases hprepared : (s.prepare source).2 with
  | none =>
    rw [run?_eq, hprepared] at h
    cases h
  | some program =>
    obtain ⟨herrors, hparse, hresolve⟩ := prepare_eq_some hprepared
    rw [run?_of_valid hdebug herrors hparse hresolve] at h
    obtain ⟨⟨e?, s''⟩, hexecute, hconclude⟩ := Option.map_eq_some_iff.1 h
    obtain ⟨w, rfl, hresult⟩ := execute?_eq_some hexecute
    cases e? with
    | none =>
      cases hconclude
      exact ⟨program, w, herrors, hparse, hresolve, hresult, rfl⟩
    | some e => cases hconclude

theorem executeTop_append (fuel : Nat) (ctx : Context) (program later : List Stmt) :
    executeTop fuel ctx (program ++ later) =
      executeTop fuel ctx program >>= fun _ => executeTop fuel ctx later := by
  induction program with
  | nil => rfl
  | cons s rest ih =>
    funext w
    rw [List.cons_append, executeTop, executeTop, ih]
    simp only [Evaluation.bind_run]
    cases execute fuel ctx s w <;> rfl

theorem execute?_eq_of_run {fuel : Nat} {s : Session} {w : World} {program later : List Stmt}
    (h : executeTop fuel ⟨.distances s.hops, globalEnv, 0⟩ program s.world =
      executeTop fuel ⟨.distances s.hops, globalEnv, 0⟩ later w) :
    s.execute? fuel program = execute? fuel { s with world := w } later := by
  unfold execute?
  dsimp only
  rw [h]

theorem execute?_of_ok {fuel : Nat} {s : Session} {w : World} {program : List Stmt}
    (h : executeTop fuel ⟨.distances s.hops, globalEnv, 0⟩ program s.world = .ok () w) :
    s.execute? fuel program = some (none, { s with world := w }) := by
  unfold execute?
  dsimp only
  rw [h]

/-- Distances at indices that a program and its world do not know have no effect. -/
theorem executeTop_more_distances {s : Session} (h : s.Numbered) {tokens : List Token}
    {program : List Stmt} (hparse : parse tokens = .ok program) (hcovers : s.Covers tokens)
    {hops : HopTable} (hsame : ∀ i, i < s.nextIndex → hops[i]? = s.hops[i]?) {bound : Nat}
    (hbound : ∀ i, bound ≤ i → hops[i]? = none) (fuel : Nat) :
    executeTop fuel ⟨.distances hops, globalEnv, 0⟩ program s.world =
      executeTop fuel ⟨.distances s.hops, globalEnv, 0⟩ program s.world := by
  let r := Relabelling.shiftFrom s.nextIndex bound
  have hr : r.KeepsBelow s.nextIndex := Relabelling.shiftFrom_keepsBelow _ _
  have hctx : Context.Alike r ⟨.distances s.hops, globalEnv, 0⟩ ⟨.distances hops, globalEnv, 0⟩ := by
    refine ⟨?_, rfl, rfl⟩
    intro t
    by_cases ht : t.index < s.nextIndex
    · have hindex : r.index t = t.index := congrArg Token.index (hr.fixes t ht)
      rw [hindex, hsame t.index ht]
    · have hindex : r.index t = t.index + bound := if_neg ht
      rw [hindex, hbound _ (Nat.le_add_left _ _), h.hops _ (Nat.le_of_not_lt ht)]
  have hmore := executeTop_mirrors printsAlike_eq fuel hctx program _ _ (h.world r hr)
  rw [relabel_program_of_fixes hparse (hcovers.fixes hr)] at hmore
  have hself := executeTop_alike hparse printsAlike_eq (hcovers.fixes hr) (h.agree hr) (h.world r hr)
    fuel
  generalize executeTop fuel ⟨.distances s.hops, globalEnv, 0⟩ program s.world = result at hmore hself ⊢
  generalize executeTop fuel ⟨.distances hops, globalEnv, 0⟩ program s.world = result' at hmore ⊢
  cases result <;> cases result'
  case ok.ok => rw [hmore.2.eq hself.2]
  case error.error => rw [hmore.1, ← hself.1, hmore.2.eq hself.2]
  case exhausted.exhausted => rfl
  all_goals contradiction

theorem executeTop_grows {s : Session} (h : s.Numbered) {tokens : List Token} {program : List Stmt}
    (hparse : parse tokens = .ok program) (hcovers : s.Covers tokens) {fuel : Nat} {w : World}
    (hend : (executeTop fuel ⟨.distances s.hops, globalEnv, 0⟩ program s.world).world? = some w) :
    OutputGrows s.world.console w.console := by
  let r := Relabelling.shiftFrom s.nextIndex 0
  have hr : r.KeepsBelow s.nextIndex := Relabelling.shiftFrom_keepsBelow _ _
  have hworld : s.world.Alike r (fun c c' => c = c' ∧ OutputGrows s.world.console c) s.world :=
    { h.world r hr with console := ⟨rfl, outputGrows_refl _⟩ }
  have hself := executeTop_alike hparse (outputGrows_printsAlike s.world.console) (hcovers.fixes hr)
    (h.agree hr) hworld fuel
  cases hresult : executeTop fuel ⟨.distances s.hops, globalEnv, 0⟩ program s.world with
  | ok value world =>
    rw [hresult] at hself hend
    cases hend
    exact hself.2.console.2
  | error e world =>
    rw [hresult] at hself hend
    cases hend
    exact hself.2.console.2
  | exhausted =>
    rw [hresult] at hend
    contradiction

/-- A runtime error arises at a token of the program or at one that the session holds. -/
theorem executeTop_error_token {s : Session} {bound : Nat} {tokens : List Token} {program : List Stmt}
    (hworld : ∀ r : Relabelling, r.KeepsBelow bound → s.world.Alike r Eq s.world)
    (hparse : parse tokens = .ok program) {fuel : Nat} {e : RuntimeError} {w : World}
    (hrun : executeTop fuel ⟨.distances s.hops, globalEnv, 0⟩ program s.world = .error e w) :
    e.token.index < bound ∨ e.token ∈ tokens := by
  let r : Relabelling :=
    ⟨fun t => if t.index < bound ∨ t ∈ tokens then t.line else t.line + 1, Token.index⟩
  have hr : r.KeepsBelow bound := by
    constructor
    · intro t ht
      simp [r, Relabelling.apply, ht]
    · exact fun t ht => ht
  have hfixes : r.Fixes (· ∈ tokens) := by
    intro t ht
    simp [r, Relabelling.apply, ht]
  have hself := executeTop_alike hparse printsAlike_eq hfixes (fun _ => rfl) (hworld r hr) fuel
  rw [hrun] at hself
  have hline : e.token.line = r.line e.token := congrArg (fun e => e.token.line) hself.1
  by_cases hkept : e.token.index < bound ∨ e.token ∈ tokens
  · exact hkept
  · simp [r, hkept] at hline

/-- The second of two sources does behind the first in one run what it does in a run of its own. -/
theorem executeTop_joining {s : Session} (h : s.Numbered) {source : String} {program : List Stmt}
    (hparse : parse ((Lox.scan 0 source).shift 0 (s.nextIndex + 1)).tokens.toList = .ok program)
    (lines fuel : Nat) {r : Relabelling}
    (hr : r = .joining s.nextIndex lines ((Lox.scan 0 source).index + s.nextIndex)) :
    Result.Alike r Eq id
      (executeTop fuel ⟨.distances (s.adopt (resolve program).hops).hops, globalEnv, 0⟩ program
        s.world)
      (executeTop fuel
        ⟨.distances (s.adopt ((resolve program).hops.map (·.relabel r))).hops, globalEnv, 0⟩
        (program.map (·.relabel r)) s.world) := by
  have hkeeps : r.KeepsBelow s.nextIndex := by
    rw [hr]
    exact Relabelling.joining_keepsBelow lines (Nat.le_add_left _ _)
  have hctx : Context.Alike r ⟨.distances (s.adopt (resolve program).hops).hops, globalEnv, 0⟩
      ⟨.distances (s.adopt ((resolve program).hops.map (·.relabel r))).hops, globalEnv, 0⟩ := by
    refine ⟨?_, rfl, rfl⟩
    intro t
    apply adopt_relabel _ t _ (h.agree hkeeps t)
    intro hop hhop
    -- The tokens of the source lie between the index left out and the one out of the way.
    have hbounds := mem_shift_index (hop_token_mem hparse hhop)
    rw [hr]
    simp only [Relabelling.joining]
    split <;> split <;> (try split) <;> (try split) <;> omega
  exact executeTop_mirrors printsAlike_eq fuel hctx program _ _ (h.world r hkeeps)

/-- The first of two sources does in front of the second in one run what it does in a run of its own. The
session between them is given but for the index that the end of the first source takes. -/
theorem run?_first {s middle : Session} (h : s.Numbered) (hdebug : s.debugParse = false) {fuel : Nat}
    {first : String} (hfirst : s.run? fuel first = some (.success, middle)) :
    ∃ known : Session, known.Numbered ∧ known.debugParse = false ∧
      known.nextIndex = (Lox.scan s.nextIndex first).index ∧
      middle = { known with nextIndex := known.nextIndex + 1 } ∧
      OutputGrows s.world.console known.world.console ∧
      ∀ {second : String} {later : List Stmt},
        ((Lox.scan 0 second).shift (Lox.scan s.nextIndex first).line known.nextIndex).errors = #[] →
        parse ((Lox.scan 0 second).shift (Lox.scan s.nextIndex first).line
          known.nextIndex).tokens.toList = .ok later →
        (resolve later).errors = [] →
        s.run? fuel (first ++ "\n" ++ second) =
          (execute? fuel
            ({ known with
              nextIndex := (Lox.scan s.nextIndex (first ++ "\n" ++ second)).index + 1 }.adopt
                (resolve later).hops) later).map conclude := by
  obtain ⟨program, w, herrors, hparse, hresolve, hrun, rfl⟩ := run?_success hdebug hfirst
  let start : Session :=
    { s.adopt (resolve program).hops with nextIndex := (Lox.scan s.nextIndex first).index }
  have hcovers : start.Covers (Lox.scan s.nextIndex first).tokens.toList :=
    fun t ht => ((scan_numbered s.nextIndex first).mem ht).2
  have hstart : start.Numbered :=
    (h.raise (scan_index_le s.nextIndex first)).adopt hparse hcovers
  have hexecute : start.execute? fuel program = some (none, { start with world := w }) :=
    execute?_of_ok hrun
  have hend : (executeTop fuel ⟨.distances start.hops, globalEnv, 0⟩ program start.world).world? =
      some w := congrArg Result.world? hrun
  have hgrows := executeTop_grows hstart hparse hcovers hend
  refine ⟨{ start with world := w }, hstart.execute hparse hcovers hexecute, hdebug, rfl, rfl, hgrows,
    ?_⟩
  intro second later hlaterErrors hlaterParse hlaterResolve
  have hclosed : ∀ line, .unterminatedString line ∉ (Lox.scan s.nextIndex first).errors.toList := by
    simp [herrors]
  have hscan := scan_append_newline second hclosed
  have hjoinedErrors : (Lox.scan s.nextIndex (first ++ "\n" ++ second)).errors = #[] := by
    rw [hscan, Scan.followedBy, herrors, hlaterErrors]
    rfl
  have hjoinedParse : parse (Lox.scan s.nextIndex (first ++ "\n" ++ second)).tokens.toList =
      .ok (program ++ later) := by
    rw [hscan, Scan.followedBy, Array.toList_append]
    exact parse_append hparse hlaterParse
  have hjoinedResolve : (resolve (program ++ later)).errors = [] := by
    rw [resolve_append, Findings.errors_append, hresolve, hlaterResolve]
    rfl
  have hhops : (resolve (program ++ later)).hops = (resolve program).hops ++ (resolve later).hops := by
    rw [resolve_append, Findings.hops_append]
  -- Only indices of the second source are among the distances that the first does not know.
  have hsame : ∀ i, i < start.nextIndex →
      ((s.adopt (resolve program).hops).adopt (resolve later).hops).hops[i]? = start.hops[i]? := by
    intro i hi
    apply adopt_getElem?_of_ne
    intro hop hhop hindex
    have hle : start.nextIndex ≤ hop.token.index :=
      (mem_shift_index (hop_token_mem hlaterParse hhop)).1
    omega
  have hjoined : (s.skipSource (first ++ "\n" ++ second)).Numbered := h.skipSource _
  have hbound := (hjoined.adopt hjoinedParse (covers_skipSource s _)).hops
  rw [hhops, adopt_append] at hbound
  have hmore := executeTop_more_distances hstart hparse hcovers hsame hbound fuel
  have hwhole : executeTop fuel
      ⟨.distances ((s.adopt (resolve program).hops).adopt (resolve later).hops).hops, globalEnv, 0⟩
      (program ++ later) s.world =
      executeTop fuel
        ⟨.distances ((s.adopt (resolve program).hops).adopt (resolve later).hops).hops, globalEnv, 0⟩
        later w := by
    rw [executeTop_append, Evaluation.bind_run]
    exact congrArg (Result.andThen · _) (hmore.trans hrun)
  rw [run?_of_valid hdebug hjoinedErrors hjoinedParse hjoinedResolve, hhops, adopt_append]
  exact congrArg (Option.map conclude) (execute?_eq_of_run hwhole)

/-- How a source behind another one in one run compares to the same source in a run of its own, given the
session before both and the one between them: it has the same effect up to token positions, prints the
same and fails alike, with lines counted on at its own tokens. -/
structure JoinedAlike (s middle : Session) (first second : String)
    (split joined : Status × Session) : Prop where
  status : joined.1 = split.1
  store : ∃ r : Relabelling,
    joined.2.world.frames = split.2.world.frames.map (·.relabel r) ∧
    joined.2.world.objects = split.2.world.objects.map (·.map (·.relabel r))
  output : split.1 = .success ∨ s.world.console.isSeparate = true →
    textSince s.world.console.output joined.2.world.console.output =
      textSince s.world.console.output middle.world.console.output ++
        textSince middle.world.console.output split.2.world.console.output
  success : split.1 = .success → joined.2.world.console = split.2.world.console
  failure : split.1 = .runtimeError → ∃ (console : Console) (e e' : RuntimeError),
    split.2.world.console = console.report ((Diagnostic.runtime e).text ++ "\n") ∧
    joined.2.world.console = console.report ((Diagnostic.runtime e').text ++ "\n") ∧
    e'.fault = e.fault ∧
    e'.token.line = e.token.line +
      if e.token ∈ (Lox.scan middle.nextIndex second).tokens.toList then
        first.toList.count '\n' + 1
      else 0

theorem settle_joinedAlike {s known middle split joined : Session} {first second : String}
    {unused : Nat} {r : Relabelling} {result result' : Result Unit}
    (hmiddle : middle = { known with nextIndex := known.nextIndex + 1 })
    (hr : r = .joining known.nextIndex (Lox.scan s.nextIndex first).line unused)
    (hgrows : OutputGrows s.world.console known.world.console)
    (hafter : ∀ w, result.world? = some w → OutputGrows known.world.console w.console)
    (htoken : ∀ e w, result = .error e w → e.token.index < known.nextIndex ∨
      e.token ∈ (Lox.scan middle.nextIndex second).tokens.toList)
    (hsame : Result.Alike r Eq id result result') :
    Option.Rel (JoinedAlike s middle first second)
      ((split.settle result).map conclude) ((joined.settle result').map conclude) := by
  apply settle_alike hsame
  · intro w w' hresult hw
    have hconsole : w'.console = w.console := hw.console.symm
    rw [hresult] at hafter
    constructor
    · rfl
    · exact ⟨r, hw.frames, hw.objects⟩
    · intro _
      rw [hmiddle]
      simp only [conclude, hconsole]
      exact textSince_trans hgrows (hafter w rfl)
    · intro _
      exact hconsole
    · intro hfailed
      cases hfailed
  · intro e w w' hresult hw
    have hconsole : w'.console = w.console := hw.console.symm
    rw [hresult] at hafter htoken
    constructor
    · rfl
    · exact ⟨r, hw.frames, hw.objects⟩
    · intro hkind
      have hseparate : w.console.isSeparate = true := by
        rw [(hafter w rfl).kind, hgrows.kind]
        exact hkind.resolve_left fun h => Status.noConfusion h
      rw [hmiddle]
      simp only [conclude, report_eq, mapConsole, hconsole, Console.output_report hseparate]
      exact textSince_trans hgrows (hafter w rfl)
    · intro hsuccess
      cases hsuccess
    · intro _
      refine ⟨w.console, e, e.relabel r, rfl, ?_, rfl, ?_⟩
      · simp only [conclude, report_eq, mapConsole, hconsole]
      · have hindex : known.nextIndex < e.token.index ↔
            e.token ∈ (Lox.scan middle.nextIndex second).tokens.toList := by
          constructor
          · intro hlt
            exact (htoken e w rfl).resolve_left (Nat.lt_asymm hlt)
          · intro hmem
            have hle := ((scan_numbered middle.nextIndex second).mem hmem).1
            rw [hmiddle] at hle
            exact hle
        rw [hr]
        simp only [RuntimeError.relabel, Relabelling.apply_line, Relabelling.joining, scan_line]
        by_cases hlt : known.nextIndex < e.token.index
        · rw [if_pos hlt, if_pos (hindex.mp hlt)]
          omega
        · rw [if_neg hlt, if_neg (fun hmem => hlt (hindex.mpr hmem))]
          omega

/-- Splitting a program over runs is invisible. -/
theorem run?_split {s middle : Session} {fuel : Nat} {first second : String} (h : s.Reachable)
    (hdebug : s.debugParse = false) (hfirst : s.run? fuel first = some (.success, middle))
    (hsecond : StaticallyValid second) :
    Option.Rel (JoinedAlike s middle first second) (middle.run? fuel second)
      (s.run? fuel (first ++ "\n" ++ second)) := by
  obtain ⟨known, hknown, hquiet, -, hmiddle, hgrows, hjoined⟩ := run?_first h.numbered hdebug hfirst
  -- In a run of its own the second source starts behind the index that the end of the first one takes.
  obtain ⟨later, herrors, hparse, hresolve⟩ := hsecond.shift 0 (known.nextIndex + 1)
  obtain ⟨r, hr⟩ : ∃ r, r = Relabelling.joining known.nextIndex (Lox.scan s.nextIndex first).line
      ((Lox.scan 0 second).index + known.nextIndex) := ⟨_, rfl⟩
  have hscan : Lox.scan middle.nextIndex second =
      (Lox.scan 0 second).shift 0 (known.nextIndex + 1) := by
    rw [hmiddle, ← scan_shift, Nat.zero_add]
  rw [← hscan] at herrors
  have hsplit := run?_of_valid (by rw [hmiddle, hquiet]) herrors (by rw [hscan, hparse]) hresolve fuel
  have hhops : ((middle.skipSource second).adopt (resolve later).hops).hops =
      (known.adopt (resolve later).hops).hops := by
    rw [hmiddle]
    rfl
  have hworld : ((middle.skipSource second).adopt (resolve later).hops).world = known.world := by
    rw [hmiddle]
    rfl
  -- In one run it starts at that index, on the last line of the first one.
  have hjoinedErrors : ((Lox.scan 0 second).shift (Lox.scan s.nextIndex first).line
      known.nextIndex).errors = #[] := by
    simp [Scan.shift, hsecond.1]
  have hjoinedParse : parse ((Lox.scan 0 second).shift (Lox.scan s.nextIndex first).line
      known.nextIndex).tokens.toList = .ok (later.map (·.relabel r)) := by
    rw [hr, tokens_joining, parse_relabel, hparse]
    rfl
  have hjoinedResolve : resolve (later.map (·.relabel r)) = (resolve later).relabel r :=
    resolve_relabel r later
  have hsame := executeTop_joining hknown hparse (Lox.scan s.nextIndex first).line fuel hr
  rw [hsplit, hjoined hjoinedErrors hjoinedParse
    (by simp [hjoinedResolve, Findings.relabel, hresolve]), hjoinedResolve, execute?_eq_settle,
    execute?_eq_settle, hhops, hworld]
  apply settle_joinedAlike hmiddle hr hgrows _ _ hsame
  · have hmiddleNumbered : middle.Numbered := by
      rw [hmiddle]
      exact hknown.raise (Nat.le_succ _)
    have hparsed : parse (Lox.scan middle.nextIndex second).tokens.toList = .ok later := by
      rw [hscan, hparse]
    have hcovers := covers_skipSource middle second
    intro w hend
    rw [← hhops, ← hworld] at hend
    have hlast := executeTop_grows ((hmiddleNumbered.skipSource second).adopt hparsed hcovers) hparsed
      hcovers hend
    rwa [hworld] at hlast
  · intro e w hfailed
    rw [hscan]
    exact executeTop_error_token (s := known.adopt (resolve later).hops) hknown.world hparse hfailed

theorem run?_split_variable :
    ∃ middle, (initial ⟨0, 0⟩ (.separate .unlimited .unlimited)).run? 50 "var a = true;" =
        some (.success, middle) ∧
      Option.Rel (JoinedAlike (initial ⟨0, 0⟩ (.separate .unlimited .unlimited)) middle
        "var a = true;" "print a;") (middle.run? 50 "print a;")
        ((initial ⟨0, 0⟩ (.separate .unlimited .unlimited)).run? 50
          ("var a = true;" ++ "\n" ++ "print a;")) := by
  obtain ⟨s, hs⟩ : ∃ s, s = initial ⟨0, 0⟩ (.separate .unlimited .unlimited) := ⟨_, rfl⟩
  have hstatus : (s.run? 50 "var a = true;").map Prod.fst = some .success := by
    rw [hs]
    decide +kernel
  obtain ⟨⟨status, middle⟩, hfirst, hsuccess⟩ := Option.map_eq_some_iff.1 hstatus
  cases hsuccess
  have hreachable : s.Reachable := by
    rw [hs]
    exact .initial _ _
  have hdebug : s.debugParse = false := by
    rw [hs]
    rfl
  have hsecond : StaticallyValid "print a;" := by
    constructor
    · decide +kernel
    · have hresolve : (parse (Lox.scan 0 "print a;").tokens.toList).toOption.map
          (fun program => (resolve program).errors) = some [] := by
        decide +kernel
      cases hparse : parse (Lox.scan 0 "print a;").tokens.toList with
      | error faults =>
        rw [hparse] at hresolve
        contradiction
      | ok program =>
        rw [hparse] at hresolve
        exact ⟨program, rfl, Option.some.inj hresolve⟩
  rw [← hs]
  exact ⟨middle, hfirst, run?_split hreachable hdebug hfirst hsecond⟩

end Session

end Lox
