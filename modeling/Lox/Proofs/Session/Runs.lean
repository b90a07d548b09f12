import Lox.Proofs.Scoping.Accounting
import Lox.Proofs.Scoping.Assignments
import Lox.Proofs.Scoping.Links
import Lox.Proofs.Session.HopTable

/-!
The runs of a session. A session has executed some programs, one after the other, and may be executing one
that takes its time. All that these runs meet, from the first to the last, is noted in one ledger.
-/
namespace Lox

/-- A program in the session that executes it, with a bound on the depth of its evaluation. -/
structure Run where
  session : Session
  program : List Stmt
  fuel : Nat

namespace Run

def Meets (r : Run) (fuel : Nat) (job : Job) (w : World) : Prop :=
  ∃ front stmt rest w₀, r.program = front ++ stmt :: rest ∧
    Session.executeTop r.fuel r.session.topLevel front r.session.world = .ok () w₀ ∧
    Reaches r.fuel (.execute r.session.topLevel stmt) w₀ fuel job w

end Run

def Flow.values : Flow → List Value
  | .normal => []
  | .returned value => [value]

def Result.left? {α : Type} (values : α → List Value) : Result α → Option (List Value × World)
  | .ok value w => some (values value, w)
  | .error _ w => some ([], w)
  | .exhausted => none

def Job.left? (fuel : Nat) (w : World) : Job → Option (List Value × World)
  | .evaluate ctx e => (Lox.evaluate fuel ctx e w).left? fun value => [value]
  | .evaluateAll ctx es => (Lox.evaluateAll fuel ctx es w).left? id
  | .call ctx f args => (Lox.call fuel ctx f args w).left? fun value => [value]
  | .runBody ctx closure args => (Lox.runBody fuel ctx closure args w).left? fun value => [value]
  | .execute ctx s => (Lox.execute fuel ctx s w).left? Flow.values
  | .executeAll ctx ss => (Lox.executeAll fuel ctx ss w).left? Flow.values

def Job.operands : Job → List Value
  | .call _ f args => .callable f :: args
  | .runBody _ _ args => args
  | .evaluate _ _ | .evaluateAll _ _ | .execute _ _ | .executeAll _ _ => []

/-- The states of a run: a world, with the values that are on their way between two jobs. -/
inductive Run.Passes (r : Run) : List Value → World → Prop
  | start : r.Passes [] r.session.world
  | started {fuel job w} (h : r.Meets fuel job w) : r.Passes job.operands w
  | ended {fuel job w values w'} (h : r.Meets fuel job w) (hleft : job.left? fuel w = some (values, w')) :
      r.Passes values w'

def World.Holds (w : World) (value : Value) : Prop :=
  (∃ frame name, w.frames.getIn frame name = some value) ∨
    ∃ (id : Nat) (fields : Bindings Value) (name : String),
      w.objects[id]? = some fields ∧ fields.get? name = some value

def Run.Shows (r : Run) (w : World) (value : Value) : Prop :=
  ∃ values, r.Passes values w ∧ (value ∈ values ∨ w.Holds value)

namespace Session

/-- The run that a source leads to, if it has no static error. -/
def runOf? (s : Session) (fuel : Nat) (source : String) : Option Run :=
  (s.prepare source).2.map fun program => ⟨s.loaded source program, program, fuel⟩

/-- Sessions with the runs that they have behind them. -/
inductive Lived : Session → List Run → Prop
  | initial (clock : Clock) (console : Console) : Lived (initial clock console) []
  | run {fuel s source status s' runs} (h : Lived s runs)
      (hrun : s.run? fuel source = some (status, s')) :
      Lived s' (runs ++ (s.runOf? fuel source).toList)
  | debugParse {s runs} (debugParse : Bool) (h : Lived s runs) : Lived { s with debugParse } runs

theorem Lived.reachable {s : Session} {runs : List Run} (h : s.Lived runs) : s.Reachable := by
  induction h with
  | initial clock console => exact .initial clock console
  | run _ hrun ih => exact ih.run hrun
  | debugParse debugParse _ ih => exact ih.debugParse debugParse

end Session

section Programs

variable {hops : HopTable} {S : Nat → Job → World → Prop} (hS : ClosedUnderStarts S)

include hS

theorem executeTop_covers (fuel : Nat) {ctx : Context} (program : List Stmt) {L : Ledger} {w : World}
    (hstarts : ∀ front stmt rest w₀, program = front ++ stmt :: rest →
      Session.executeTop fuel ctx front w = .ok () w₀ → S fuel (.execute ctx stmt) w₀)
    (hw : L.Accounts hops S w) (h : L.Carries hops ctx [] (Stmt.occurrencesAll [] program))
    (horderly : Stmt.OrderlyAll program) :
    Covers hops S L (Session.executeTop fuel ctx program w)
      (fun fuel' job w' => ∃ front stmt rest w₀, program = front ++ stmt :: rest ∧
        Session.executeTop fuel ctx front w = .ok () w₀ ∧
        Reaches fuel (.execute ctx stmt) w₀ fuel' job w')
      fun _ _ => True := by
  induction program generalizing L w with
  | nil =>
    apply (covers_pure hw trivial).weaken
    rintro _ _ _ ⟨front, stmt, rest, w₀, hempty, -⟩
    simp at hempty
  | cons s rest ih =>
    simp only [Session.executeTop]
    apply Covers.weaken
    · apply ((depthCovers hS fuel).execute s (hstarts [] s rest w rfl rfl) hw h.left horderly.1).bind
      intro L₁ flow w₁ h₁ hs hw₁ _
      refine ih (fun front stmt more w₀ hrest hfront => ?_) hw₁ (h.right.mono h₁) horderly.2
      refine hstarts (s :: front) stmt more w₀ (by rw [hrest, List.cons_append]) ?_
      rw [Session.executeTop, Evaluation.bind_run, hs]
      exact hfront
    · rintro fuel' job w' ⟨front, stmt, more, w₀, hprogram, hfront, hreaches⟩
      cases front with
      | nil =>
        cases hprogram
        cases hfront
        exact .inl hreaches
      | cons first front =>
        cases hprogram
        rw [Session.executeTop, Evaluation.bind_run] at hfront
        cases hs : execute fuel ctx s w with
        | ok flow w₁ =>
          rw [hs] at hfront
          exact .inr ⟨flow, w₁, rfl, front, stmt, more, w₀, rfl, hfront, hreaches⟩
        | error e w₁ =>
          rw [hs] at hfront
          contradiction
        | exhausted =>
          rw [hs] at hfront
          contradiction

end Programs

namespace Session

variable {s : Session} {source : String} {program : List Stmt}

theorem violations_of_prepare (hprepared : (s.prepare source).2 = some program) :
    ∀ o ∈ occurrences program, o.violations = [] := by
  obtain ⟨-, hparse, hresolve⟩ := prepare_eq_some hprepared
  have hperm := resolve_errors_perm (orderly_of_parse hparse)
  rw [hresolve] at hperm
  exact List.flatMap_eq_nil_iff.1 (List.nil_perm.1 hperm)

theorem seated_of_prepare (hnumbered : s.Numbered) (hprepared : (s.prepare source).2 = some program) :
    ∀ o ∈ occurrences program, o.Seated (s.loaded source program).hops := by
  intro o ho
  obtain ⟨-, hparse, -⟩ := prepare_eq_some hprepared
  have hfresh : ∀ i, s.nextIndex ≤ i →
      ((s.skipSource source).mapConsole (s.prepare source).1).hops[i]? = none := hnumbered.hops
  have hknows := knows_adopt hprepared hfresh
  have hspelled := spelled_of_parse hparse
  have horderly := orderly_of_parse hparse
  let plan : Plan := ⟨(s.loaded source program).hops, globalNames program⟩
  have hadmits : ∀ t ∈ declaredIn program, plan.Admits [] t.lexeme := by
    rintro t ht _ ⟨⟩
    exact List.mem_cons_of_mem _ (List.mem_map_of_mem ht)
  have hunder : ScopeStack.Under [] [] := List.Forall₂.nil
  have hplain : Plain [] := fun names hnames => nomatch hnames
  have hlinked : o.Linked plan (Stmt.mentionsAll [] program) :=
    Stmt.linkedAll hspelled hunder hplain program horderly hadmits (List.Subset.refl _) o ho
  have hviolations := violations_of_prepare hprepared o ho
  constructor
  case plain => exact hlinked.plain
  case named =>
    intro name hname
    rcases hname with hname | hname
    · obtain ⟨stack, hmem, -⟩ := hlinked.mention .declaration name (by rw [hname]; rfl)
      exact hspelled _ hmem
    · obtain ⟨stack, hmem, -⟩ := hlinked.mention .assignment name (by rw [hname]; rfl)
      exact hspelled _ hmem
  case receiver =>
    intro keyword hconstruct
    have hgood := good_this hlinked hknows hspelled hconstruct hviolations
    rwa [Occurrence.Good, hconstruct] at hgood
  case superclass =>
    intro keyword hconstruct
    have hgood := good_super hlinked hknows hspelled hconstruct hviolations
    rwa [Occurrence.Good, hconstruct] at hgood

theorem loaded_hops (source : String) (program : List Stmt) :
    (s.loaded source program).hops = (s.adopt (resolve program).hops).hops := rfl

end Session

namespace Ledger.Accounts

variable {hops : HopTable} {S : Nat → Job → World → Prop} {L : Ledger}

theorem mapConsole {s : Session} (h : L.Accounts hops S s.world) (f : Console → Console) :
    L.Accounts hops S (s.mapConsole f).world := h.changeWorld rfl (Nat.le_refl _) rfl h.fields

theorem conclude {s : Session} (h : L.Accounts hops S s.world) (e? : Option RuntimeError) :
    L.Accounts hops S (Session.conclude (e?, s)).2.world := by
  cases e? with
  | none => exact h
  | some e => exact h.mapConsole (·.report ((Diagnostic.runtime e).text ++ "\n"))

end Ledger.Accounts

def Ledger.initial : Ledger where
  frames frame := if frame = 0 then some ⟨.scope, []⟩ else none
  classes _ := none
  owners _ := none

theorem Ledger.accounts_initial (hops : HopTable) (S : Nat → Job → World → Prop) (clock : Clock)
    (console : Console) : Ledger.initial.Accounts hops S (.initial clock console) := by
  have hframe : ∀ {frame : FrameId} {entry : FrameEntry}, Ledger.initial.frames frame = some entry →
      frame = 0 ∧ entry = ⟨.scope, []⟩ := by
    intro frame entry hentry
    simp only [Ledger.initial] at hentry
    split at hentry
    · exact ⟨‹_›, (Option.some.inj hentry).symm⟩
    · contradiction
  constructor
  case frames =>
    intro frame
    change _ ↔ frame < 1
    rw [Nat.lt_one_iff]
    simp only [Ledger.initial]
    split <;> simp [*]
  case global => rfl
  case keywords =>
    intro frame entry hentry word hword
    obtain ⟨rfl, rfl⟩ := hframe hentry
    cases hvalue : (World.initial clock console).frames.getIn 0 word with
    | none => rfl
    | some value =>
      obtain ⟨-, rfl, -⟩ := World.eq_of_getIn_initial hvalue
      rcases hword with hword | hword <;> simp at hword
  case entries => exact fun frame entry hentry hne => absurd (hframe hentry).1 hne
  case classes => nofun
  case owners => exact fun id => iff_of_false (by simp [Ledger.initial]) (Nat.not_lt_zero id)
  case values =>
    intro frame name value hvalue
    obtain ⟨-, -, rfl⟩ := World.eq_of_getIn_initial hvalue
    trivial
  case fields =>
    intro id fields name value hid
    simp [World.initial] at hid

structure Run.Noted (S : Nat → Job → World → Prop) (L : Ledger) (r : Run) : Prop where
  start : ∃ L₀ ≤ L, L₀.Accounts r.session.hops S r.session.world
  met : ∀ fuel job w, r.Meets fuel job w → L.Notes r.session.hops S fuel job w

theorem Run.Noted.mono {S : Nat → Job → World → Prop} {L L' : Ledger} {r : Run} (h : r.Noted S L)
    (hle : L ≤ L') : r.Noted S L' := by
  obtain ⟨⟨L₀, hbefore, haccounts⟩, hmet⟩ := h
  exact ⟨⟨L₀, hbefore.trans hle, haccounts⟩, fun fuel job w hjob => (hmet fuel job w hjob).mono hle⟩

namespace Session

variable {S : Nat → Job → World → Prop} (hS : ClosedUnderStarts S) {s : Session} {L : Ledger}

include hS

theorem noted_runOf {source : String} {program : List Stmt} (hnumbered : s.Numbered)
    (hprepared : (s.prepare source).2 = some program) (fuel : Nat)
    (hmeets : ∀ fuel' job w, Run.Meets ⟨s.loaded source program, program, fuel⟩ fuel' job w →
      S fuel' job w) (h : L.Accounts s.hops S s.world) :
    ∃ L', L ≤ L' ∧ Run.Noted S L' ⟨s.loaded source program, program, fuel⟩ ∧
      L'.Ends (s.loaded source program).hops S
        (executeTop fuel (s.loaded source program).topLevel program (s.loaded source program).world)
        fun _ => True := by
  obtain ⟨-, hparse, -⟩ := prepare_eq_some hprepared
  have hw : L.Accounts (s.loaded source program).hops S (s.loaded source program).world := by
    rw [loaded_hops]
    exact (h.mapConsole (s.prepare source).1).extend fun i distance =>
      adopt_keeps hparse hnumbered
  have hcarries : L.Carries (s.loaded source program).hops (s.loaded source program).topLevel []
      (Stmt.occurrencesAll [] program) :=
    ⟨⟨rfl, .global, seated_of_prepare hnumbered hprepared⟩, nofun⟩
  have hroots : ∀ front stmt rest w₀, program = front ++ stmt :: rest →
      executeTop fuel (s.loaded source program).topLevel front (s.loaded source program).world =
        .ok () w₀ → S fuel (.execute (s.loaded source program).topLevel stmt) w₀ :=
    fun front stmt rest w₀ hprogram hfront =>
      hmeets fuel _ w₀ ⟨front, stmt, rest, w₀, hprogram, hfront, .refl⟩
  obtain ⟨L', hle, hnotes, hends⟩ :=
    executeTop_covers hS fuel program hroots hw hcarries (orderly_of_parse hparse)
  exact ⟨L', hle, ⟨⟨L, hle, hw⟩, hnotes⟩, hends⟩

theorem accounts_of_run {fuel : Nat} {source : String} {status : Status} {s' : Session}
    (hnumbered : s.Numbered) (hrun : s.run? fuel source = some (status, s'))
    (hmeets : ∀ r ∈ s.runOf? fuel source, ∀ fuel' job w, r.Meets fuel' job w → S fuel' job w)
    (h : L.Accounts s.hops S s.world) :
    ∃ L', L ≤ L' ∧ (∀ r ∈ s.runOf? fuel source, r.Noted S L') ∧ L'.Accounts s'.hops S s'.world := by
  unfold runOf? at hmeets ⊢
  cases hprepared : (s.prepare source).2 with
  | none =>
    rw [run?_eq, hprepared] at hrun
    cases hrun
    exact ⟨L, le_refl L, nofun, h.mapConsole (s.prepare source).1⟩
  | some program =>
    rw [hprepared] at hmeets
    obtain ⟨L', hle, hnoted, hends⟩ := noted_runOf hS hnumbered hprepared fuel (hmeets _ rfl) h
    rw [run?_loaded hprepared] at hrun
    obtain ⟨⟨e?, s''⟩, hexecute, hconclude⟩ := Option.map_eq_some_iff.1 hrun
    obtain ⟨w, rfl, hexecuted⟩ := execute?_eq_some hexecute
    have hw : L'.Accounts (s.loaded source program).hops S w := by
      unfold topLevel at hends
      rw [hexecuted] at hends
      cases e? with
      | none => exact hends.1
      | some e => exact hends
    refine ⟨L', hle, ?_, ?_⟩
    · rintro r ⟨⟩
      exact hnoted
    · have hend := Ledger.Accounts.conclude (s := { s.loaded source program with world := w }) hw e?
      rw [hconclude] at hend
      cases e? <;> cases hconclude <;> exact hend

theorem Lived.noted {runs : List Run} (h : s.Lived runs)
    (hmeets : ∀ r ∈ runs, ∀ fuel job w, r.Meets fuel job w → S fuel job w) :
    ∃ L : Ledger, L.Accounts s.hops S s.world ∧ ∀ r ∈ runs, r.Noted S L := by
  induction h with
  | initial clock console => exact ⟨.initial, Ledger.accounts_initial _ S clock console, nofun⟩
  | debugParse debugParse _ ih => exact ih hmeets
  | @run fuel s source status s' runs hlived hrun ih =>
    rw [List.forall_mem_append] at hmeets
    obtain ⟨L, haccounts, hnoted⟩ := ih hmeets.1
    obtain ⟨L', hle, hlast, haccounts'⟩ := accounts_of_run hS hlived.reachable.numbered hrun
      (fun r hr => hmeets.2 r (Option.mem_toList.2 hr)) haccounts
    refine ⟨L', haccounts', List.forall_mem_append.2 ⟨fun r hr => (hnoted r hr).mono hle, ?_⟩⟩
    exact fun r hr => hlast r (Option.mem_toList.1 hr)

end Session

def Run.Moments (runs : List Run) (fuel : Nat) (job : Job) (w : World) : Prop :=
  ∃ r ∈ runs, r.Meets fuel job w

theorem Reaches.trans {fuel fuel₁ fuel₂ : Nat} {job job₁ job₂ : Job} {w w₁ w₂ : World}
    (h : Reaches fuel job w fuel₁ job₁ w₁) (h' : Reaches fuel₁ job₁ w₁ fuel₂ job₂ w₂) :
    Reaches fuel job w fuel₂ job₂ w₂ := by
  induction h with
  | refl => exact h'
  | next hstarts _ ih => exact .next hstarts (ih h')

theorem Run.Meets.next {r : Run} {fuel : Nat} {job next : Job} {w w' : World}
    (h : r.Meets (fuel + 1) job w) (hstarts : Starts fuel job w next w') : r.Meets fuel next w' := by
  obtain ⟨front, stmt, rest, w₀, hprogram, hfront, hreaches⟩ := h
  exact ⟨front, stmt, rest, w₀, hprogram, hfront, hreaches.trans (.next hstarts .refl)⟩

theorem Run.closed_moments (runs : List Run) : ClosedUnderStarts (Run.Moments runs) := by
  rintro fuel job w next w' ⟨r, hr, hmeets⟩ hstarts
  exact ⟨r, hr, hmeets.next hstarts⟩

namespace Session

/-- What a session executes: the runs that it has behind it, and the one that a source leads to now,
whether or not that ends. -/
def Executes (runs : List Run) : Prop :=
  ∃ (s : Session) (past : List Run) (fuel : Nat) (source : String),
    s.Lived past ∧ runs = past ++ (s.runOf? fuel source).toList

theorem Lived.prepared {s : Session} {runs : List Run} (h : s.Lived runs) :
    ∀ r ∈ runs, ∃ (before : Session) (source : String), before.Reachable ∧
      r.session = before.loaded source r.program ∧ (before.prepare source).2 = some r.program := by
  induction h with
  | initial clock console => exact List.forall_mem_nil _
  | debugParse debugParse _ ih => exact ih
  | @run fuel s source status s' runs hlived hrun ih =>
    refine List.forall_mem_append.2 ⟨ih, fun r hr => ?_⟩
    obtain ⟨program, hprepared, rfl⟩ := Option.map_eq_some_iff.1 (Option.mem_toList.1 hr)
    exact ⟨s, source, hlived.reachable, rfl, hprepared⟩

theorem Executes.prepared {runs : List Run} (h : Executes runs) :
    ∀ r ∈ runs, ∃ (before : Session) (source : String), before.Reachable ∧
      r.session = before.loaded source r.program ∧ (before.prepare source).2 = some r.program := by
  obtain ⟨s, past, fuel, source, hlived, rfl⟩ := h
  refine List.forall_mem_append.2 ⟨hlived.prepared, fun r hr => ?_⟩
  obtain ⟨program, hprepared, rfl⟩ := Option.map_eq_some_iff.1 (Option.mem_toList.1 hr)
  exact ⟨s, source, hlived.reachable, rfl, hprepared⟩

/-- One ledger is for all that the runs of a session meet, from the first to the last. -/
theorem Executes.noted {runs : List Run} (h : Executes runs) :
    ∃ L, ∀ r ∈ runs, r.Noted (Run.Moments runs) L := by
  obtain ⟨s, past, fuel, source, hlived, hruns⟩ := h
  have hclosed := Run.closed_moments runs
  have hmeets : ∀ r ∈ runs, ∀ fuel' job w, r.Meets fuel' job w → Run.Moments runs fuel' job w :=
    fun r hr fuel' job w hjob => ⟨r, hr, hjob⟩
  generalize Run.Moments runs = S at hclosed hmeets ⊢
  simp only [hruns, List.forall_mem_append] at hmeets ⊢
  obtain ⟨L, haccounts, hpast⟩ := hlived.noted hclosed hmeets.1
  unfold runOf? at hmeets ⊢
  cases hprepared : (s.prepare source).2 with
  | none => exact ⟨L, hpast, nofun⟩
  | some program =>
    rw [hprepared] at hmeets
    obtain ⟨L', hle, hnoted, -⟩ := noted_runOf hclosed hlived.reachable.numbered hprepared fuel
      (hmeets.2 _ (List.mem_singleton_self _)) haccounts
    exact ⟨L', fun r hr => (hpast r hr).mono hle, List.forall_mem_singleton.2 hnoted⟩

end Session

namespace Run.Noted

variable {S : Nat → Job → World → Prop} {L : Ledger} {r : Run}

theorem entered_of_ends {α : Type} {hops : HopTable} {result : Result α} {Q : α → Prop}
    {f : α → List Value} (h : L.Ends hops S result Q)
    (hvalues : ∀ a, Q a → ∀ value ∈ f a, value.Entered hops L) {values : List Value} {w : World}
    (hleft : result.left? f = some (values, w)) :
    L.Accounts hops S w ∧ ∀ value ∈ values, value.Entered hops L := by
  cases result with
  | ok a w' =>
    cases hleft
    exact ⟨h.1, hvalues a h.2⟩
  | error e w' =>
    cases hleft
    exact ⟨h, List.forall_mem_nil _⟩
  | exhausted => contradiction

theorem left_entered {hops : HopTable} {fuel : Nat} {job : Job} {w w' : World} {values : List Value}
    (h : job.Ends hops S L fuel w) (hleft : job.left? fuel w = some (values, w')) :
    L.Accounts hops S w' ∧ ∀ value ∈ values, value.Entered hops L := by
  have hflow : ∀ flow : Flow, flow.Entered hops L → ∀ value ∈ flow.values, value.Entered hops L := by
    intro flow hflow
    cases flow with
    | normal => exact List.forall_mem_nil _
    | returned value => exact List.forall_mem_singleton.2 hflow
  cases job with
  | evaluate ctx e => exact entered_of_ends h (fun _ hv => List.forall_mem_singleton.2 hv) hleft
  | evaluateAll ctx es => exact entered_of_ends h (fun _ hvalues => hvalues) hleft
  | call ctx f args => exact entered_of_ends h (fun _ hv => List.forall_mem_singleton.2 hv) hleft
  | runBody ctx closure args =>
    exact entered_of_ends h (fun _ hv => List.forall_mem_singleton.2 hv) hleft
  | execute ctx s => exact entered_of_ends h hflow hleft
  | executeAll ctx ss => exact entered_of_ends h hflow hleft

theorem operands_entered {hops : HopTable} {job : Job} (h : job.Entered hops L) :
    ∀ value ∈ job.operands, value.Entered hops L := by
  cases job with
  | call ctx f args => exact List.forall_mem_cons.2 h.2
  | runBody ctx closure args => exact h.2.2
  | evaluate _ _ | evaluateAll _ _ | execute _ _ | executeAll _ _ => exact List.forall_mem_nil _

theorem passes (h : r.Noted S L) {values : List Value} {w : World} (hpasses : r.Passes values w) :
    ∃ L₀ ≤ L, L₀.Accounts r.session.hops S w ∧ ∀ value ∈ values, value.Entered r.session.hops L₀ := by
  cases hpasses with
  | start =>
    obtain ⟨L₀, hbefore, haccounts⟩ := h.start
    exact ⟨L₀, hbefore, haccounts, List.forall_mem_nil _⟩
  | started hmeets =>
    obtain ⟨L₀, hbefore, haccounts, hentered⟩ := (h.met _ _ _ hmeets).started
    exact ⟨L₀, hbefore, haccounts, operands_entered hentered⟩
  | ended hmeets hleft =>
    obtain ⟨L₁, hbefore, hends⟩ := (h.met _ _ _ hmeets).ended
    exact ⟨L₁, hbefore, left_entered hends hleft⟩

theorem shows (h : r.Noted S L) {w : World} {value : Value} (hshows : r.Shows w value) :
    ∃ L₀ ≤ L, L₀.Accounts r.session.hops S w ∧ value.Entered r.session.hops L₀ := by
  obtain ⟨values, hpasses, hvalue⟩ := hshows
  obtain ⟨L₀, hbefore, haccounts, hvalues⟩ := h.passes hpasses
  refine ⟨L₀, hbefore, haccounts, ?_⟩
  rcases hvalue with hvalue | ⟨frame, name, hvalue⟩ | ⟨id, fields, name, hfields, hvalue⟩
  · exact hvalues value hvalue
  · exact haccounts.values frame name value hvalue
  · exact haccounts.fields id fields name value hfields hvalue

end Run.Noted

namespace Session

def delegatingSource : String :=
  "class A { init() { return; } } class B < A { init() { super.init(); } } B();"

def delegatingProgram : List Stmt :=
  [.classDecl ⟨.identifier, "A", 1, 1, .nil⟩ none
      [⟨⟨.identifier, "init", 1, 3, .nil⟩, [], [.ret ⟨.kwReturn, "return", 1, 7, .nil⟩ none]⟩],
    .classDecl ⟨.identifier, "B", 1, 12, .nil⟩ (some ⟨.identifier, "A", 1, 14, .nil⟩)
      [⟨⟨.identifier, "init", 1, 16, .nil⟩, [],
        [.expr (.call (.super ⟨.kwSuper, "super", 1, 20, .nil⟩ ⟨.identifier, "init", 1, 22, .nil⟩)
          ⟨.rightParen, ")", 1, 24, .nil⟩ [])]⟩],
    .expr (.call (.var ⟨.identifier, "B", 1, 28, .nil⟩) ⟨.rightParen, ")", 1, 30, .nil⟩ [])]

def delegatingRun : Run where
  session := (initial ⟨0, 0⟩ (.separate .unlimited .unlimited)).loaded delegatingSource delegatingProgram
  program := delegatingProgram
  fuel := 20

def overriddenClass : Class :=
  ⟨0, "A", none, methodTable [0]
    [⟨⟨.identifier, "init", 1, 3, .nil⟩, [], [.ret ⟨.kwReturn, "return", 1, 7, .nil⟩ none]⟩]⟩

def overridingClass : Class :=
  ⟨1, "B", some overriddenClass, methodTable [1, 0]
    [⟨⟨.identifier, "init", 1, 16, .nil⟩, [],
      [.expr (.call (.super ⟨.kwSuper, "super", 1, 20, .nil⟩ ⟨.identifier, "init", 1, 22, .nil⟩)
        ⟨.rightParen, ")", 1, 24, .nil⟩ [])]⟩]⟩

def delegatingContext : Context := ⟨.distances delegatingRun.session.hops, [3, 2, 1, 0], 1⟩

def delegatingWorld : World where
  frames := ⟨#[.ofList [("clock", .callable (.native .clock)), ("A", .callable (.cls overriddenClass)),
      ("B", .callable (.cls overridingClass))],
    .ofList [("super", .callable (.cls overriddenClass))],
    .ofList [("this", .object 0 overridingClass)], .empty]⟩
  objects := #[.empty]
  nextId := 2
  clock := delegatingRun.session.world.clock
  console := delegatingRun.session.world.console

theorem executes_delegatingRun : Executes [delegatingRun] := by
  have htokens : (Lox.scan 0 delegatingSource).tokens.toList =
      [⟨.kwClass, "class", 1, 0, .nil⟩, ⟨.identifier, "A", 1, 1, .nil⟩,
        ⟨.leftBrace, "\x7b", 1, 2, .nil⟩, ⟨.identifier, "init", 1, 3, .nil⟩,
        ⟨.leftParen, "(", 1, 4, .nil⟩, ⟨.rightParen, ")", 1, 5, .nil⟩,
        ⟨.leftBrace, "\x7b", 1, 6, .nil⟩, ⟨.kwReturn, "return", 1, 7, .nil⟩,
        ⟨.semicolon, ";", 1, 8, .nil⟩, ⟨.rightBrace, "\x7d", 1, 9, .nil⟩,
        ⟨.rightBrace, "\x7d", 1, 10, .nil⟩, ⟨.kwClass, "class", 1, 11, .nil⟩,
        ⟨.identifier, "B", 1, 12, .nil⟩, ⟨.less, "<", 1, 13, .nil⟩, ⟨.identifier, "A", 1, 14, .nil⟩,
        ⟨.leftBrace, "\x7b", 1, 15, .nil⟩, ⟨.identifier, "init", 1, 16, .nil⟩,
        ⟨.leftParen, "(", 1, 17, .nil⟩, ⟨.rightParen, ")", 1, 18, .nil⟩,
        ⟨.leftBrace, "\x7b", 1, 19, .nil⟩, ⟨.kwSuper, "super", 1, 20, .nil⟩, ⟨.dot, ".", 1, 21, .nil⟩,
        ⟨.identifier, "init", 1, 22, .nil⟩, ⟨.leftParen, "(", 1, 23, .nil⟩,
        ⟨.rightParen, ")", 1, 24, .nil⟩, ⟨.semicolon, ";", 1, 25, .nil⟩,
        ⟨.rightBrace, "\x7d", 1, 26, .nil⟩, ⟨.rightBrace, "\x7d", 1, 27, .nil⟩,
        ⟨.identifier, "B", 1, 28, .nil⟩, ⟨.leftParen, "(", 1, 29, .nil⟩,
        ⟨.rightParen, ")", 1, 30, .nil⟩, ⟨.semicolon, ";", 1, 31, .nil⟩] := by
    decide +kernel
  have hparse : parse (Lox.scan 0 delegatingSource).tokens.toList = .ok delegatingProgram := by
    rw [htokens]
    rfl
  have herrors : (Lox.scan 0 delegatingSource).errors.isEmpty = true := by decide +kernel
  have hprepared : ((initial ⟨0, 0⟩ (.separate .unlimited .unlimited)).prepare delegatingSource).2 =
      some delegatingProgram := by
    unfold prepare
    dsimp only [initial]
    rw [hparse]
    dsimp only
    rw [if_pos herrors]
    rfl
  refine ⟨_, [], 20, delegatingSource, .initial ⟨0, 0⟩ (.separate .unlimited .unlimited), ?_⟩
  rw [runOf?, hprepared]
  rfl

theorem delegatingRun_meets :
    delegatingRun.Meets 14 (.evaluate delegatingContext
      (.call (.super ⟨.kwSuper, "super", 1, 20, .nil⟩ ⟨.identifier, "init", 1, 22, .nil⟩)
        ⟨.rightParen, ")", 1, 24, .nil⟩ [])) delegatingWorld :=
  ⟨delegatingProgram.take 2, _, [], _, rfl, rfl, .next (.expression rfl)
    (.next (.call rfl rfl rfl (by decide)) (.next (.initializer rfl rfl rfl)
      (.next (.body rfl) (.next .statement (.next (.expression rfl) .refl)))))⟩

end Session

end Lox
