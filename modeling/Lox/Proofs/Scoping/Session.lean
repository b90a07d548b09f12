import Lox.Proofs.Scoping.Evaluation
import Lox.Proofs.Scoping.Words
import Lox.Proofs.Session.Numbering

/-!
Scopes over whole sessions. A session is run with a history of what its programs did; the programs of
earlier runs are part of it, since their functions are called in later ones. Whatever is run next, every
variable, `this` and `super` that is evaluated reads what its mention was resolved to.
-/
namespace Lox

namespace Traced

theorem executeTop_keeps {hops : HopTable} {scene : Scene} {ctx : Context} (fuel : Nat)
    (ss : List Stmt) (h : scene.Stands hops ctx [] (Stmt.mentionsAll [] ss)) :
    Keeps hops (executeTop fuel ctx ss) scene fun _ _ => True := by
  induction ss generalizing scene with
  | nil => exact keeps_pure h.sound trivial
  | cons s rest ih =>
    rw [Stmt.mentionsAll, Stmt.bindIn_nil] at h
    apply Keeps.bind ((depthKeeps hops fuel).execute s h.left)
    intro _ scene' hbecomes _
    exact ih (h.right.becomes hbecomes)

end Traced

/-- The history of a session that has run nothing: its one frame is the global one. -/
def History.initial : History := ⟨#[.global], fun _ => default, [], []⟩

namespace Scene

variable {hops hops' : HopTable} {scene : Scene}

theorem sound_initial (clock : Clock) (console : Console) :
    Sound ∅ ⟨.initial, .initial clock console⟩ := by
  have hopener : ∀ (frame : Nat) (opener : Opener),
      History.initial.openers[frame]? = some opener → opener = .global := by
    intro frame opener h
    obtain ⟨hframe, hfound⟩ := Array.getElem?_eq_some_iff.1 h
    have hzero : frame = 0 := Nat.lt_one_iff.1 hframe
    subst hzero
    exact hfound.symm
  constructor
  case size => rfl
  case global => rfl
  case values =>
    intro frame name value hvalue
    obtain ⟨-, -, rfl⟩ := World.eq_of_getIn_initial hvalue
    trivial
  case fields =>
    intro id fields name value hid
    contradiction
  case receivers =>
    intro frame cls hreceiver
    cases hopener frame _ hreceiver
  case superclasses =>
    intro frame cls hsuperclass
    cases hopener frame _ hsuperclass
  case known =>
    intro m hm
    exact (List.not_mem_nil hm).elim
  case faithful =>
    intro v hv
    exact (List.not_mem_nil hv).elim

theorem Sound.addProgram (h : scene.Sound hops) {ms : List Mention}
    (hold : ∀ m ∈ scene.history.mentions, hops'[m.token.index]? = hops[m.token.index]?)
    (hnew : Knows hops' ms) :
    Sound hops' ⟨{ scene.history with mentions := scene.history.mentions ++ ms }, scene.world⟩ := by
  have hext : scene.Extends
      ⟨{ scene.history with mentions := scene.history.mentions ++ ms }, scene.world⟩ := by
    constructor
    · intro frame opener hopener
      exact hopener
    · intro frame name hbound
      exact hbound
    · exact Nat.le_refl _
    · intro id _
      rfl
    · intro m hm
      exact List.mem_append_left ms hm
  constructor
  case size => exact h.size
  case global => exact h.global
  case values =>
    intro frame name value hvalue
    exact (h.values frame name value hvalue).mono hext
  case fields =>
    intro id fields name value hid hvalue
    exact (h.fields id fields name value hid hvalue).mono hext
  case receivers => exact h.receivers
  case superclasses => exact h.superclasses
  case known =>
    intro m hm
    rcases List.mem_append.1 hm with hm | hm
    · rw [hold m hm]
      exact h.known m hm
    · exact hnew m hm
  case faithful =>
    intro v hv
    obtain ⟨m, hm, hsound⟩ := h.faithful v hv
    exact ⟨m, List.mem_append_left ms hm, hsound⟩

theorem Sound.changeConsole (h : scene.Sound hops) (f : Console → Console) :
    Sound hops ⟨scene.history, { scene.world with console := f scene.world.console }⟩ := by
  have hframes : ({ scene.world with console := f scene.world.console } : World).frames =
      scene.world.frames := rfl
  exact (h.changeWorld hframes (Nat.le_refl _) h.fields).sound

end Scene

namespace Session

def executeTraced? (fuel : Nat) (s : Session) (program : List Stmt) (history : History) :
    Option (Option RuntimeError × Session) × History :=
  match Traced.executeTop fuel ⟨.distances s.hops, globalEnv, 0⟩ program ⟨history, s.world⟩ with
  | (.ok _ world, history) => (some (none, { s with world }), history)
  | (.error e world, history) => (some (some e, { s with world }), history)
  | (.exhausted, history) => (none, history)

/-- Runs a source and keeps a history. The mentions of a program are part of it once the program is
executed. -/
def runTraced? (fuel : Nat) (s : Session) (source : String) (history : History) :
    Option (Status × Session) × History :=
  let ready := (s.skipSource source).mapConsole (s.prepare source).1
  match (s.prepare source).2 with
  | none => (some (.staticError, ready), history)
  | some program =>
    let mentions := history.mentions ++ Stmt.mentionsAll [] program
    let (outcome, history) :=
      (ready.adopt (resolve program).hops).executeTraced? fuel program { history with mentions }
    (outcome.map conclude, history)

theorem executeTraced?_erases (fuel : Nat) (s : Session) (program : List Stmt) (history : History) :
    (s.executeTraced? fuel program history).1 = s.execute? fuel program := by
  have herases := Traced.executeTop_erases fuel ⟨.distances s.hops, globalEnv, 0⟩ program
    ⟨history, s.world⟩
  unfold executeTraced? execute?
  dsimp only at herases ⊢
  rw [← herases]
  rcases Traced.executeTop fuel ⟨.distances s.hops, globalEnv, 0⟩ program ⟨history, s.world⟩ with
    ⟨result, history'⟩
  cases result <;> rfl

theorem runTraced?_erases (fuel : Nat) (s : Session) (source : String) (history : History) :
    (s.runTraced? fuel source history).1 = s.run? fuel source := by
  rw [run?_eq]
  unfold runTraced?
  dsimp only
  cases (s.prepare source).2 with
  | none => rfl
  | some program =>
    dsimp only [proceed?]
    rw [executeTraced?_erases]

/-- Sessions with the history of the runs that led to them. -/
inductive Observed : Session → History → Prop
  | initial (clock : Clock) (console : Console) : Observed (initial clock console) .initial
  | run {fuel s source status s' history history'} (h : Observed s history)
      (hrun : s.runTraced? fuel source history = (some (status, s'), history')) : Observed s' history'
  | debugParse {s history} (debugParse : Bool) (h : Observed s history) :
      Observed { s with debugParse } history

theorem Observed.reachable {s : Session} {history : History} (h : Observed s history) :
    s.Reachable := by
  induction h with
  | initial clock console => exact .initial clock console
  | @run fuel s source status s' history _ _ hrun ih =>
    have herases := runTraced?_erases fuel s source history
    rw [hrun] at herases
    exact ih.run herases.symm
  | debugParse debugParse _ ih => exact ih.debugParse debugParse

section Prepared

variable {s : Session} {source : String} {program : List Stmt}
  (h : (s.prepare source).2 = some program)

include h

theorem mention_index {m : Mention} (hm : m ∈ Stmt.mentionsAll [] program) :
    s.nextIndex ≤ m.token.index ∧ m.token.index < (s.skipSource source).nextIndex := by
  obtain ⟨-, hparse, -⟩ := prepare_eq_some h
  have hindex := (scan_numbered s.nextIndex source).mem ((drawn_of_parse hparse).mem hm)
  exact ⟨hindex.1, Nat.lt_succ_of_lt hindex.2⟩

theorem mention_of_hop {hop : Hop} (hhop : hop ∈ (resolve program).hops) :
    ∃ m ∈ Stmt.mentionsAll [] program, m.hop? = some hop ∧ m.token = hop.token := by
  obtain ⟨-, hparse, hresolve⟩ := prepare_eq_some h
  obtain ⟨m, hm, hfound⟩ := ((resolve_cover (spelled_of_parse hparse) hresolve).hops hop).1 hhop
  refine ⟨m, hm, hfound, ?_⟩
  unfold Mention.hop? at hfound
  split at hfound
  · contradiction
  · obtain ⟨distance, -, rfl⟩ := Option.map_eq_some_iff.1 hfound
    rfl

theorem knows_adopt {ready : Session} (hfresh : ∀ i, s.nextIndex ≤ i → ready.hops[i]? = none) :
    Scene.Knows (ready.adopt (resolve program).hops).hops (Stmt.mentionsAll [] program) := by
  obtain ⟨-, hparse, hresolve⟩ := prepare_eq_some h
  have hcover := resolve_cover (spelled_of_parse hparse) hresolve
  intro m hm
  have hown : ∀ hop ∈ (resolve program).hops, hop.token.index = m.token.index →
      m.hop? = some hop := by
    intro hop hhop hindex
    obtain ⟨m', hm', hfound, htoken⟩ := mention_of_hop h hhop
    rw [← htoken] at hindex
    rw [← distinct_of_parse hparse m' hm' m hm hindex]
    exact hfound
  constructor
  · exact hcover.sound m hm
  · intro haccess
    have hhop : m.hop? = m.distance?.map (⟨m.token, ·⟩) := if_neg haccess
    cases hdistance : m.distance? with
    | none =>
      rw [hdistance] at hhop
      rw [adopt_getElem?_of_ne]
      · exact hfresh _ (mention_index h hm).1
      · intro hop hmem hindex
        have hfound := hhop.symm.trans (hown hop hmem hindex)
        contradiction
    | some distance =>
      rw [hdistance] at hhop
      have hmem : ⟨m.token, distance⟩ ∈ (resolve program).hops := (hcover.hops _).2 ⟨m, hm, hhop⟩
      apply adopt_getElem?_of_mem ready hmem
      intro hop hmem' hindex
      exact Option.some.inj ((hown hop hmem' hindex).symm.trans hhop)

theorem adopt_getElem?_of_lt {ready : Session} {i : Nat} (hi : i < s.nextIndex) :
    (ready.adopt (resolve program).hops).hops[i]? = ready.hops[i]? := by
  apply adopt_getElem?_of_ne
  intro hop hhop hindex
  obtain ⟨m, hm, -, htoken⟩ := mention_of_hop h hhop
  have hle := (mention_index h hm).1
  rw [htoken] at hle
  omega

end Prepared

/-- The scene of the session is sound, and an index tells mentions apart, now and in later runs. -/
structure Scoped (s : Session) (history : History) : Prop where
  sound : Scene.Sound s.hops ⟨history, s.world⟩
  distinct : DistinctMentions history.mentions
  below : ∀ m ∈ history.mentions, m.token.index < s.nextIndex

variable {s : Session} {history : History}

theorem Scoped.mapConsole (h : s.Scoped history) (f : Console → Console) :
    (s.mapConsole f).Scoped history :=
  ⟨h.sound.changeConsole f, h.distinct, h.below⟩

theorem Scoped.skipSource (h : s.Scoped history) (source : String) :
    (s.skipSource source).Scoped history := by
  constructor
  · exact h.sound
  · exact h.distinct
  · intro m hm
    exact Nat.lt_succ_of_le (Nat.le_trans (Nat.le_of_lt (h.below m hm)) (scan_index_le _ source))

theorem distinct_append {ms ns : List Mention} {bound : Nat} (hms : DistinctMentions ms)
    (hns : DistinctMentions ns) (hbelow : ∀ m ∈ ms, m.token.index < bound)
    (habove : ∀ m ∈ ns, bound ≤ m.token.index) : DistinctMentions (ms ++ ns) := by
  intro m hm m' hm' hindex
  rcases List.mem_append.1 hm with hm | hm <;> rcases List.mem_append.1 hm' with hm' | hm'
  · exact hms m hm m' hm' hindex
  · have hlt := hbelow m hm
    have hle := habove m' hm'
    omega
  · have hlt := hbelow m' hm'
    have hle := habove m hm
    omega
  · exact hns m hm m' hm' hindex

theorem Scoped.addProgram (h : s.Scoped history) (hnumbered : s.Numbered) {source : String}
    {program : List Stmt} (hprepared : (s.prepare source).2 = some program) (f : Console → Console) :
    (((s.skipSource source).mapConsole f).adopt (resolve program).hops).Scoped
      { history with mentions := history.mentions ++ Stmt.mentionsAll [] program } := by
  obtain ⟨-, hparse, -⟩ := prepare_eq_some hprepared
  have hready := (h.skipSource source).mapConsole f
  constructor
  · apply hready.sound.addProgram
    · intro m hm
      exact adopt_getElem?_of_lt hprepared (h.below m hm)
    · exact knows_adopt hprepared hnumbered.hops
  · exact distinct_append h.distinct (distinct_of_parse hparse) h.below fun m hm =>
      (mention_index hprepared hm).1
  · intro m hm
    rcases List.mem_append.1 hm with hm | hm
    · exact hready.below m hm
    · exact (mention_index hprepared hm).2

theorem Scoped.executeTraced (h : s.Scoped history) {program : List Stmt}
    (hprogram : ∀ m ∈ Stmt.mentionsAll [] program, m ∈ history.mentions) (fuel : Nat) :
    let (outcome, history') := s.executeTraced? fuel program history
    history'.mentions = history.mentions ∧ history'.Faithful ∧
      ∀ e? s', outcome = some (e?, s') → s'.Scoped history' := by
  have hstands : Scene.Stands s.hops ⟨history, s.world⟩ ⟨.distances s.hops, globalEnv, 0⟩ []
      (Stmt.mentionsAll [] program) :=
    ⟨h.sound, rfl, .global, hprogram⟩
  have hkeeps := Traced.executeTop_keeps fuel program hstands
  have hscoped : ∀ {history' : History} {world : World},
      Scene.Becomes s.hops ⟨history, s.world⟩ ⟨history', world⟩ →
      ({ s with world } : Session).Scoped history' := by
    intro history' world hbecomes
    have hmentions : history'.mentions = history.mentions := hbecomes.mentions
    constructor
    · exact hbecomes.sound
    · rw [hmentions]
      exact h.distinct
    · rw [hmentions]
      exact h.below
  unfold Traced.Keeps at hkeeps
  unfold executeTraced?
  rcases hrun : Traced.executeTop fuel ⟨.distances s.hops, globalEnv, 0⟩ program
    ⟨history, s.world⟩ with ⟨result, history'⟩
  rw [hrun] at hkeeps
  cases result with
  | ok _ world =>
    refine ⟨hkeeps.1.mentions, hkeeps.1.sound.faithful, ?_⟩
    rintro _ _ ⟨⟩
    exact hscoped hkeeps.1
  | error e world =>
    refine ⟨hkeeps.mentions, hkeeps.sound.faithful, ?_⟩
    rintro _ _ ⟨⟩
    exact hscoped hkeeps
  | exhausted =>
    refine ⟨hkeeps.1, hkeeps.2, ?_⟩
    intro e? s' houtcome
    contradiction

theorem Scoped.conclude (h : s.Scoped history) (e? : Option RuntimeError) :
    (Session.conclude (e?, s)).2.Scoped history := by
  cases e? with
  | none => exact h
  | some e => exact h.mapConsole (·.report ((Diagnostic.runtime e).text ++ "\n"))

/-- A run keeps the invariant, and accounts for its visits even where it takes too long. -/
theorem Scoped.runTraced (h : s.Scoped history) (hnumbered : s.Numbered) (fuel : Nat)
    (source : String) :
    let (outcome, history') := s.runTraced? fuel source history
    DistinctMentions history'.mentions ∧ history'.Faithful ∧
      ∀ status s', outcome = some (status, s') → s'.Scoped history' := by
  unfold runTraced?
  dsimp only
  cases hprepared : (s.prepare source).2 with
  | none =>
    refine ⟨h.distinct, h.sound.faithful, ?_⟩
    rintro _ _ ⟨⟩
    exact (h.skipSource source).mapConsole _
  | some program =>
    have hready := h.addProgram hnumbered hprepared (s.prepare source).1
    have hexecuted := hready.executeTraced (fun m hm => List.mem_append_right _ hm) fuel
    dsimp only at hexecuted ⊢
    obtain ⟨hmentions, hfaithful, hscoped⟩ := hexecuted
    refine ⟨?_, hfaithful, ?_⟩
    · rw [hmentions]
      exact hready.distinct
    · intro status s' houtcome
      obtain ⟨⟨e?, s''⟩, hexecute, hconclude⟩ := Option.map_eq_some_iff.1 houtcome
      have hend := (hscoped e? s'' hexecute).conclude e?
      rw [hconclude] at hend
      exact hend

theorem Observed.scoped (h : Observed s history) : s.Scoped history := by
  induction h with
  | initial clock console =>
    constructor
    · exact Scene.sound_initial clock console
    · intro m hm
      exact (List.not_mem_nil hm).elim
    · intro m hm
      exact (List.not_mem_nil hm).elim
  | @run fuel s source status s' history _ hobserved hrun ih =>
    have hnext := ih.runTraced hobserved.reachable.numbered fuel source
    rw [hrun] at hnext
    exact hnext.2.2 status s' rfl
  | debugParse debugParse _ ih => exact ⟨ih.sound, ih.distinct, ih.below⟩

/-- Static scoping is sound at run time. Whatever was run before, a run that keeps a history ends as the
run does, and every variable, `this` and `super` that it evaluates, in whatever function of whatever
run, reads what the one mention of its token was resolved to. -/
theorem visits_follow_scopes (h : Observed s history) (fuel : Nat) (source : String) :
    let (outcome, history') := s.runTraced? fuel source history
    outcome = s.run? fuel source ∧ DistinctMentions history'.mentions ∧
      ∀ v ∈ history'.visits, ∃ m ∈ history'.mentions, v.Sound m := by
  have hrun := h.scoped.runTraced h.reachable.numbered fuel source
  exact ⟨runTraced?_erases fuel s source history, hrun.1, hrun.2.1⟩

/-- A method that calls the method it overrides. -/
def overridingSource : String :=
  "class A { f() { return true; } } class B < A { f() { return super.f(); } } var b = B(); print b.f();"

theorem visits_follow_scopes_super :
    ∃ outcome history,
      (initial ⟨0, 0⟩ (.separate .unlimited .unlimited)).runTraced? 50 overridingSource .initial =
        (outcome, history) ∧
      history.visits.map (fun v => (v.token.lexeme, v.hop?)) =
        [("super", some 2), ("b", none), ("B", none), ("A", none)] ∧
      outcome = (initial ⟨0, 0⟩ (.separate .unlimited .unlimited)).run? 50 overridingSource ∧
      DistinctMentions history.mentions ∧ ∀ v ∈ history.visits, ∃ m ∈ history.mentions, v.Sound m := by
  have hvisits : ((initial ⟨0, 0⟩ (.separate .unlimited .unlimited)).runTraced? 50 overridingSource
      .initial).2.visits.map (fun v => (v.token.lexeme, v.hop?)) =
      [("super", some 2), ("b", none), ("B", none), ("A", none)] := by
    decide +kernel
  exact ⟨_, _, rfl, hvisits, visits_follow_scopes (.initial _ _) 50 overridingSource⟩

end Session

end Lox
