import Lox.Proofs.Evaluation.Frames
import Mathlib.Data.List.Basic
import Mathlib.Data.Nat.Find
import Mathlib.Order.Bounds.Defs

/-!
Forests of frames. Every frame is made alone or inside an earlier one, and frames are shared by all chains
that lead through them. However frames were made and used, a search through a chain and the way to a
distance lead to the same cell, and a change of a cell is seen from everywhere.
-/
namespace Lox

namespace Frames

variable {α : Type} {s s' : Frames α} {env : Environment} {name : String} {distance : Nat}

def BindsAt (s : Frames α) (env : Environment) (distance : Nat) (name : String) : Prop :=
  ∃ frame, env[distance]? = some frame ∧ (s.getIn frame name).isSome = true

def Nearest (s : Frames α) (env : Environment) (distance : Nat) (name : String) : Prop :=
  IsLeast {d | s.BindsAt env d name} distance

theorem Nearest.firstAt (h : s.Nearest env distance name) : s.FirstAt env distance name :=
  fun _ frame hframe hbound => ⟨h.2 ⟨frame, hframe, hbound⟩, fun _ => h.1⟩

theorem get_eq_none_iff : s.get env name = none ↔ ∀ frame ∈ env, s.getIn frame name = none :=
  List.findSome?_eq_none_iff

theorem bindsAt_of_mem {frame : FrameId} (hframe : frame ∈ env) (h : (s.getIn frame name).isSome = true) :
    ∃ d, s.BindsAt env d name := by
  obtain ⟨d, hd⟩ := List.mem_iff_getElem?.1 hframe
  exact ⟨d, frame, hd, h⟩

theorem exists_nearest (h : ∃ d, s.BindsAt env d name) : ∃ d, s.Nearest env d name := by
  classical
  exact ⟨Nat.find h, Nat.find_spec h, fun _ hd => Nat.find_min' h hd⟩

theorem isSome_get_iff : (s.get env name).isSome = true ↔ ∃ d, s.Nearest env d name := by
  constructor
  · intro h
    obtain ⟨value, hvalue⟩ := Option.isSome_iff_exists.1 h
    obtain ⟨frame, hframe, hbound⟩ := exists_of_get hvalue
    exact exists_nearest (bindsAt_of_mem hframe (Option.isSome_of_eq_some hbound))
  · rintro ⟨d, h⟩
    obtain ⟨frame, hframe, hbound⟩ := h.1
    rw [h.firstAt.get_eq, getAt, hframe]
    exact hbound

theorem isSome_assign (value : α) : (s.assign env name value).isSome = (s.get env name).isSome := by
  rw [get_eq_find?, assign]
  cases hfound : env.find? fun frame => (s.getIn frame name).isSome with
  | none => rfl
  | some frame => exact (List.find?_some hfound).symm

theorem isSome_assignAt (value : α) :
    (s.assignAt env distance name value).isSome = (s.getAt env distance name).isSome := by
  unfold assignAt getAt
  cases env[distance]? with
  | none => rfl
  | some frame =>
    change (s.assignIn frame name value).isSome = (s.getIn frame name).isSome
    unfold assignIn
    split
    · rename_i hbound
      exact hbound.symm
    · rename_i hunbound
      exact (Bool.eq_false_iff.2 hunbound).symm

theorem getAt_of_length_le (h : env.length ≤ distance) : s.getAt env distance name = none := by
  rw [getAt, List.getElem?_eq_none h]
  rfl

theorem assignAt_of_length_le (h : env.length ≤ distance) (value : α) :
    s.assignAt env distance name value = none := by
  rw [assignAt, List.getElem?_eq_none h]
  rfl

theorem exists_target_of_assignAt {value : α} (h : s.assignAt env distance name value = some s') :
    ∃ frame, env[distance]? = some frame ∧ (s.getIn frame name).isSome = true ∧
      s' = s.defineIn frame name value := by
  obtain ⟨frame, hframe, hassign⟩ := Option.bind_eq_some_iff.1 h
  unfold assignIn at hassign
  split at hassign
  · rename_i hbound
    cases hassign
    exact ⟨frame, hframe, hbound, rfl⟩
  · contradiction

theorem exists_nearest_of_assign {value : α} (h : s.assign env name value = some s') :
    ∃ d, s.Nearest env d name := by
  rw [← isSome_get_iff, ← isSome_assign value, h]
  rfl

end Frames

/-- What can be done with frames, which are numbered in the order of their creation. -/
inductive Operation (α : Type) where
  | new
  | within (enclosing : FrameId)
  | define (frame : FrameId) (name : String) (value : α)
  | get (frame : FrameId) (name : String)
  | assign (frame : FrameId) (name : String) (value : α)
  | getAt (frame : FrameId) (distance : Nat) (name : String)
  | assignAt (frame : FrameId) (distance : Nat) (name : String) (value : α)

inductive Answer (α : Type) where
  | frame (id : FrameId)
  | done
  | value (v : α)
  | undefined

def Answer.found {α : Type} : Option α → Answer α
  | some v => .value v
  | none => .undefined

/-- Frames, with the environment that starts at each of them. -/
structure Forest (α : Type) where
  frames : Frames α := .empty
  chains : Array Environment := #[]

namespace Forest

variable {α : Type}

def plant (t : Forest α) (enclosing : Environment) : Answer α × Forest α :=
  let (frames, env) := t.frames.create .empty enclosing
  (.frame t.chains.size, ⟨frames, t.chains.push env⟩)

def assigned (t : Forest α) : Option (Frames α) → Answer α × Forest α
  | some frames => (.done, { t with frames })
  | none => (.undefined, t)

/-- There is an answer unless the operation is about a frame that does not exist. -/
def step? (t : Forest α) : Operation α → Option (Answer α × Forest α)
  | .new => some (t.plant [])
  | .within enclosing => t.chains[enclosing]?.map t.plant
  | .define frame name value =>
    t.chains[frame]?.map fun env => (.done, { t with frames := t.frames.define env name value })
  | .get frame name => t.chains[frame]?.map fun env => (.found (t.frames.get env name), t)
  | .assign frame name value =>
    t.chains[frame]?.map fun env => t.assigned (t.frames.assign env name value)
  | .getAt frame distance name =>
    t.chains[frame]?.map fun env => (.found (t.frames.getAt env distance name), t)
  | .assignAt frame distance name value =>
    t.chains[frame]?.map fun env => t.assigned (t.frames.assignAt env distance name value)

def run? (t : Forest α) : List (Operation α) → Option (List (Answer α) × Forest α)
  | [] => some ([], t)
  | op :: ops =>
    (t.step? op).bind fun first => (first.2.run? ops).map fun later => (first.1 :: later.1, later.2)

def enclosing? (t : Forest α) (frame : FrameId) : Option FrameId := t.chains[frame]?.bind (·[1]?)

/-- The environment that starts at a frame. -/
def chain (t : Forest α) (frame : FrameId) : Environment := t.chains[frame]?.getD []

/-- Every frame has a chain, which goes on with that of an earlier frame if it goes on. -/
structure Sound (t : Forest α) : Prop where
  size : t.chains.size = t.frames.frames.size
  linked : ∀ frame env, t.chains[frame]? = some env →
    env = [frame] ∨ ∃ (earlier : FrameId) (outer : Environment), earlier < frame ∧
      t.chains[earlier]? = some outer ∧ env = frame :: outer

theorem sound_empty : Sound ({} : Forest α) := by
  constructor
  · rfl
  · intro frame env h
    simp at h

variable {t t' : Forest α}

theorem lt_of_chains {frame : FrameId} {env : Environment} (henv : t.chains[frame]? = some env) :
    frame < t.chains.size := (Array.getElem?_eq_some_iff.1 henv).1

theorem Sound.head (h : t.Sound) {frame : FrameId} {env : Environment}
    (henv : t.chains[frame]? = some env) : ∃ outer, env = frame :: outer := by
  rcases h.linked frame env henv with rfl | ⟨-, outer, -, -, rfl⟩
  · exact ⟨[], rfl⟩
  · exact ⟨outer, rfl⟩

theorem Sound.plant (h : t.Sound) {enclosing : Environment}
    (henclosing : enclosing = [] ∨ ∃ frame : FrameId, t.chains[frame]? = some enclosing) :
    (t.plant enclosing).2.Sound := by
  constructor
  · simp [Forest.plant, Frames.create, h.size]
  · intro frame env henv
    simp only [Forest.plant, Frames.create, Array.getElem?_push] at henv ⊢
    split at henv
    · rename_i hframe
      cases henv
      rcases henclosing with rfl | ⟨earlier, hearlier⟩
      · exact .inl (by rw [hframe, h.size])
      · have hlt := lt_of_chains hearlier
        refine .inr ⟨earlier, enclosing, hframe ▸ hlt, ?_, by rw [hframe, h.size]⟩
        rw [if_neg (Nat.ne_of_lt hlt), hearlier]
    · rcases h.linked frame env henv with rfl | ⟨earlier, outer, hlt, houter, rfl⟩
      · exact .inl rfl
      · have hlt' := lt_of_chains houter
        refine .inr ⟨earlier, outer, hlt, ?_, rfl⟩
        rw [if_neg (Nat.ne_of_lt hlt'), houter]

theorem Sound.lt (h : t.Sound) {frame : FrameId} {env : Environment}
    (henv : t.chains[frame]? = some env) : frame < t.frames.frames.size := by
  rw [← h.size]
  exact lt_of_chains henv

theorem Sound.enclosing_lt (h : t.Sound) {inner outer : FrameId} (houter : t.enclosing? inner = some outer) :
    outer < inner := by
  obtain ⟨env, henv, hnext⟩ := Option.bind_eq_some_iff.1 houter
  rcases h.linked inner env henv with rfl | ⟨earlier, rest, hlt, hrest, rfl⟩
  · contradiction
  · obtain ⟨more, rfl⟩ := h.head hrest
    cases hnext
    exact hlt

theorem chain_eq {frame : FrameId} {env : Environment} (henv : t.chains[frame]? = some env) :
    t.chain frame = env := by
  rw [chain, henv]
  rfl

theorem Sound.chain_cons (h : t.Sound) {frame : FrameId} (hframe : frame < t.chains.size) :
    t.chain frame = frame :: (t.enclosing? frame).elim [] t.chain := by
  obtain ⟨env, henv⟩ : ∃ env, t.chains[frame]? = some env := ⟨_, Array.getElem?_eq_getElem hframe⟩
  rw [chain_eq henv, enclosing?, henv, Option.bind_some]
  rcases h.linked frame env henv with rfl | ⟨earlier, rest, -, hrest, rfl⟩
  · rfl
  · obtain ⟨more, rfl⟩ := h.head hrest
    exact congrArg _ (chain_eq hrest).symm

/-- The cell that an operation is to change, with its new value. -/
inductive Aims (t : Forest α) : Operation α → FrameId → String → α → Prop
  | define (frame name value) : Aims t (.define frame name value) frame name value
  | assign {frame name value distance target}
      (hnearest : t.frames.Nearest (t.chain frame) distance name)
      (htarget : (t.chain frame)[distance]? = some target) :
      Aims t (.assign frame name value) target name value
  | assignAt {frame distance name value target} (htarget : (t.chain frame)[distance]? = some target)
      (hbound : (t.frames.getIn target name).isSome = true) :
      Aims t (.assignAt frame distance name value) target name value

/-- One cell has a new value, and nothing else has changed. -/
structure Changes (t t' : Forest α) (frame : FrameId) (name : String) (value : α) : Prop where
  chains : t'.chains = t.chains
  size : t'.frames.frames.size = t.frames.frames.size
  cells : ∀ frame' name', t'.frames.getIn frame' name' =
    if frame' = frame ∧ name' = name then some value else t.frames.getIn frame' name'

section Changes

variable {frame : FrameId} {name : String} {value : α}

theorem changes_defineIn (h : frame < t.frames.frames.size) (name : String) (value : α) :
    t.Changes { t with frames := t.frames.defineIn frame name value } frame name value := by
  constructor
  · rfl
  · simp [Frames.defineIn]
  · intro frame' name'
    rw [Frames.getIn_defineIn, Array.getElem?_eq_getElem h]
    rfl

theorem Changes.sound (hchanges : t.Changes t' frame name value) (h : t.Sound) : t'.Sound := by
  constructor
  · rw [hchanges.chains, hchanges.size, h.size]
  · rw [hchanges.chains]
    exact h.linked

theorem Changes.chain (h : t.Changes t' frame name value) (start : FrameId) :
    t'.chain start = t.chain start := by
  rw [Forest.chain, h.chains, ← Forest.chain]

/-- A change is seen through every chain that leads to the cell, unless a nearer frame of it binds the
name. -/
theorem Changes.seen (h : t.Changes t' frame name value) {start : FrameId} {distance : Nat}
    (hframe : (t.chain start)[distance]? = some frame) :
    t'.frames.getAt (t'.chain start) distance name = some value ∧
      (t'.frames.Nearest (t'.chain start) distance name →
        t'.frames.get (t'.chain start) name = some value) := by
  have hat : t'.frames.getAt (t'.chain start) distance name = some value := by
    rw [Frames.getAt, h.chain, hframe, Option.bind_some, h.cells, if_pos ⟨rfl, rfl⟩]
  exact ⟨hat, fun hnearest => hnearest.firstAt.get_eq.trans hat⟩

theorem Changes.unseen (h : t.Changes t' frame name value) {start : FrameId} {other : String}
    (hother : frame ∉ t.chain start ∨ other ≠ name) :
    t'.frames.get (t'.chain start) other = t.frames.get (t.chain start) other := by
  have hcells : ∀ frame' ∈ t.chain start, t'.frames.getIn frame' other = t.frames.getIn frame' other := by
    intro frame' hframe'
    rw [h.cells, if_neg]
    rintro ⟨rfl, rfl⟩
    exact hother.elim (· hframe') (· rfl)
  rw [Frames.get, Frames.get, h.chain, ← List.head?_filterMap, ← List.head?_filterMap,
    List.filterMap_congr hcells]

end Changes

/-- What an operation does, with its answer. -/
inductive Does (t : Forest α) : Operation α → Answer α → Forest α → Prop
  | new : Does t .new (t.plant []).1 (t.plant []).2
  | within {enclosing env} (henv : t.chains[enclosing]? = some env) :
      Does t (.within enclosing) (t.plant env).1 (t.plant env).2
  | changed {op t' frame name value} (haims : t.Aims op frame name value)
      (h : t.Changes t' frame name value) : Does t op .done t'
  | get {frame} (hframe : frame < t.chains.size) (name) :
      Does t (.get frame name) (.found (t.frames.get (t.chain frame) name)) t
  | getAt {frame} (hframe : frame < t.chains.size) (distance name) :
      Does t (.getAt frame distance name) (.found (t.frames.getAt (t.chain frame) distance name)) t
  | unassigned {frame name} (hframe : frame < t.chains.size)
      (h : t.frames.get (t.chain frame) name = none) (value) :
      Does t (.assign frame name value) .undefined t
  | unassignedAt {frame distance name} (hframe : frame < t.chains.size)
      (h : t.frames.getAt (t.chain frame) distance name = none) (value) :
      Does t (.assignAt frame distance name value) .undefined t

theorem does_assign {frame : FrameId} (hframe : frame < t.chains.size) (name : String) (value : α) :
    t.Does (.assign frame name value) (t.assigned (t.frames.assign (t.chain frame) name value)).1
      (t.assigned (t.frames.assign (t.chain frame) name value)).2 := by
  cases hassign : t.frames.assign (t.chain frame) name value with
  | none =>
    refine .unassigned hframe ?_ value
    rw [← Option.not_isSome_iff_eq_none, ← Frames.isSome_assign value, hassign]
    exact Bool.false_ne_true
  | some frames =>
    obtain ⟨distance, hnearest⟩ := Frames.exists_nearest_of_assign hassign
    rw [hnearest.firstAt.assign_eq] at hassign
    obtain ⟨target, htarget, hbound, rfl⟩ := Frames.exists_target_of_assignAt hassign
    exact .changed (.assign hnearest htarget)
      (changes_defineIn (Frames.lt_of_isSome_getIn hbound) name value)

theorem does_assignAt {frame : FrameId} (hframe : frame < t.chains.size) (distance : Nat) (name : String)
    (value : α) :
    t.Does (.assignAt frame distance name value)
      (t.assigned (t.frames.assignAt (t.chain frame) distance name value)).1
      (t.assigned (t.frames.assignAt (t.chain frame) distance name value)).2 := by
  cases hassign : t.frames.assignAt (t.chain frame) distance name value with
  | none =>
    refine .unassignedAt hframe ?_ value
    rw [← Option.not_isSome_iff_eq_none, ← Frames.isSome_assignAt value, hassign]
    exact Bool.false_ne_true
  | some frames =>
    obtain ⟨target, htarget, hbound, rfl⟩ := Frames.exists_target_of_assignAt hassign
    exact .changed (.assignAt htarget hbound)
      (changes_defineIn (Frames.lt_of_isSome_getIn hbound) name value)

theorem Sound.does (h : t.Sound) {op : Operation α} {result : Answer α × Forest α}
    (hstep : t.step? op = some result) : t.Does op result.1 result.2 := by
  cases op with
  | new =>
    cases hstep
    exact .new
  | within enclosing =>
    obtain ⟨env, henv, rfl⟩ := Option.map_eq_some_iff.1 hstep
    exact .within henv
  | define frame name value =>
    obtain ⟨env, henv, rfl⟩ := Option.map_eq_some_iff.1 hstep
    obtain ⟨outer, rfl⟩ := h.head henv
    exact .changed (.define frame name value) (changes_defineIn (h.lt henv) name value)
  | get frame name =>
    obtain ⟨env, henv, rfl⟩ := Option.map_eq_some_iff.1 hstep
    rw [← chain_eq henv]
    exact .get (lt_of_chains henv) name
  | getAt frame distance name =>
    obtain ⟨env, henv, rfl⟩ := Option.map_eq_some_iff.1 hstep
    rw [← chain_eq henv]
    exact .getAt (lt_of_chains henv) distance name
  | assign frame name value =>
    obtain ⟨env, henv, rfl⟩ := Option.map_eq_some_iff.1 hstep
    rw [← chain_eq henv]
    exact does_assign (lt_of_chains henv) name value
  | assignAt frame distance name value =>
    obtain ⟨env, henv, rfl⟩ := Option.map_eq_some_iff.1 hstep
    rw [← chain_eq henv]
    exact does_assignAt (lt_of_chains henv) distance name value

theorem Sound.step (h : t.Sound) {op : Operation α} {answer : Answer α} (hdoes : t.Does op answer t') :
    t'.Sound := by
  cases hdoes with
  | new => exact h.plant (.inl rfl)
  | within henv => exact h.plant (.inr ⟨_, henv⟩)
  | changed _ hchanges => exact hchanges.sound h
  | get _ _ | getAt _ _ _ | unassigned _ _ _ | unassignedAt _ _ _ => exact h

theorem Sound.run (h : t.Sound) {ops : List (Operation α)} {answers : List (Answer α)}
    (hrun : t.run? ops = some (answers, t')) : t'.Sound := by
  induction ops generalizing t answers with
  | nil =>
    cases hrun
    exact h
  | cons op ops ih =>
    obtain ⟨⟨answer, next⟩, hstep, hrest⟩ := Option.bind_eq_some_iff.1 hrun
    obtain ⟨⟨later, last⟩, hlater, hlast⟩ := Option.map_eq_some_iff.1 hrest
    cases hlast
    exact ih (h.step (h.does hstep)) hlater

/-- However frames were made and used, links lead to earlier frames, so that every search ends. It ends at
the nearest frame that binds the name, and an assignment changes the cell that the search finds: both are
what the access at the distance of that frame is. Behind the end of a chain nothing is found and nothing
assigned. An operation that succeeds changes one cell or none, seen through all chains that lead to it, and
one that fails changes nothing. -/
theorem run?_addresses_alike {ops : List (Operation α)} {answers : List (Answer α)} {t : Forest α}
    (h : run? {} ops = some (answers, t)) :
    WellFounded (fun outer inner => t.enclosing? inner = some outer) ∧
    (∀ frame < t.chains.size,
      (∀ outer, t.enclosing? frame = some outer → outer < frame) ∧
      t.chain frame = frame :: (t.enclosing? frame).elim [] t.chain ∧
      ∀ name,
        (t.frames.get (t.chain frame) name = none ↔
          ∀ f ∈ t.chain frame, t.frames.getIn f name = none) ∧
        ((t.frames.get (t.chain frame) name).isSome ↔
          ∃ distance, t.frames.Nearest (t.chain frame) distance name) ∧
        (∀ value, (t.frames.assign (t.chain frame) name value).isSome =
          (t.frames.get (t.chain frame) name).isSome) ∧
        (∀ distance, t.frames.Nearest (t.chain frame) distance name →
          t.frames.get (t.chain frame) name = t.frames.getAt (t.chain frame) distance name ∧
          ∀ value, t.frames.assign (t.chain frame) name value =
            t.frames.assignAt (t.chain frame) distance name value) ∧
        ∀ distance, (t.chain frame).length ≤ distance →
          t.frames.getAt (t.chain frame) distance name = none ∧
          ∀ value, t.frames.assignAt (t.chain frame) distance name value = none) ∧
    (∀ op answer t', t.step? op = some (answer, t') → t.Does op answer t') ∧
    ∀ t' frame name value, t.Changes t' frame name value → ∀ start,
      (∀ distance, (t.chain start)[distance]? = some frame →
        t'.frames.getAt (t'.chain start) distance name = some value ∧
          (t'.frames.Nearest (t'.chain start) distance name →
            t'.frames.get (t'.chain start) name = some value)) ∧
      ∀ other, frame ∉ t.chain start ∨ other ≠ name →
        t'.frames.get (t'.chain start) other = t.frames.get (t.chain start) other := by
  have hsound := sound_empty.run h
  refine ⟨?_, ?_, ?_, ?_⟩
  · exact Subrelation.wf (fun houter => hsound.enclosing_lt houter) Nat.lt_wfRel.wf
  · intro frame hframe
    refine ⟨fun outer => hsound.enclosing_lt, hsound.chain_cons hframe, fun name => ⟨?_, ?_, ?_, ?_, ?_⟩⟩
    · exact Frames.get_eq_none_iff
    · exact Frames.isSome_get_iff
    · exact Frames.isSome_assign
    · exact fun distance hnearest => ⟨hnearest.firstAt.get_eq, hnearest.firstAt.assign_eq⟩
    · exact fun distance hle => ⟨Frames.getAt_of_length_le hle, Frames.assignAt_of_length_le hle⟩
  · exact fun op answer t' hstep => hsound.does hstep
  · intro t' frame name value hchanges start
    exact ⟨fun distance hframe => hchanges.seen hframe, fun other => hchanges.unseen⟩

/-- A name that two frames of a chain bind, and another chain that shares only the outer one. -/
theorem run?_addresses_alike_shadowed :
    ∃ (answers : List (Answer Nat)) (t : Forest Nat),
      run? {} [.new, .within 0, .within 1, .within 0, .define 0 "x" 1, .define 1 "x" 2, .assign 2 "x" 3,
        .assignAt 2 2 "x" 4, .getAt 2 3 "x", .get 2 "x", .get 3 "x", .assign 3 "y" 5] =
        some (answers, t) ∧
      answers = [.frame 0, .frame 1, .frame 2, .frame 3, .done, .done, .done, .done, .undefined,
        .value 3, .value 4, .undefined] ∧
      t.frames.Nearest (t.chain 2) 1 "x" ∧
      t.frames.get (t.chain 2) "x" = t.frames.getAt (t.chain 2) 1 "x" ∧
      t.frames.assign (t.chain 2) "x" 6 = t.frames.assignAt (t.chain 2) 1 "x" 6 ∧
      ∃ t', t.step? (.define 0 "x" 7) = some (.done, t') ∧
        t'.frames.getAt (t'.chain 2) 2 "x" = some 7 ∧
        t'.frames.get (t'.chain 2) "y" = t.frames.get (t.chain 2) "y" := by
  obtain ⟨answers, t, t', hrun, hanswers, hsize, hchain, hinner, hmiddle, hstep⟩ :
      ∃ (answers : List (Answer Nat)) (t t' : Forest Nat),
        run? {} [.new, .within 0, .within 1, .within 0, .define 0 "x" 1, .define 1 "x" 2,
          .assign 2 "x" 3, .assignAt 2 2 "x" 4, .getAt 2 3 "x", .get 2 "x", .get 3 "x",
          .assign 3 "y" 5] = some (answers, t) ∧
        answers = [.frame 0, .frame 1, .frame 2, .frame 3, .done, .done, .done, .done, .undefined,
          .value 3, .value 4, .undefined] ∧
        t.chains.size = 4 ∧ t.chain 2 = [2, 1, 0] ∧ t.frames.getIn 2 "x" = none ∧
        t.frames.getIn 1 "x" = some 3 ∧ t.step? (.define 0 "x" 7) = some (.done, t') :=
    ⟨_, _, _, rfl, rfl, rfl, rfl, rfl, rfl, rfl⟩
  obtain ⟨-, hframes, hdoes, hseen⟩ := run?_addresses_alike hrun
  have hnearest : t.frames.Nearest (t.chain 2) 1 "x" := by
    rw [hchain]
    refine ⟨⟨1, rfl, Option.isSome_of_eq_some hmiddle⟩, ?_⟩
    rintro (_ | d) ⟨frame, hframe, hbound⟩
    · cases hframe
      rw [hinner] at hbound
      contradiction
    · exact Nat.le_add_left 1 d
  obtain ⟨-, -, hnames⟩ := hframes 2 (by omega)
  obtain ⟨-, -, -, hagree, -⟩ := hnames "x"
  obtain ⟨hget, hassign⟩ := hagree 1 hnearest
  cases hdoes _ _ _ hstep with
  | changed haims hchanges =>
    cases haims
    obtain ⟨hthrough, hbeside⟩ := hseen t' 0 "x" 7 hchanges 2
    have hcell : (t.chain 2)[2]? = some 0 := by
      rw [hchain]
      rfl
    exact ⟨answers, t, hrun, hanswers, hnearest, hget, hassign 6, t', hstep, (hthrough 2 hcell).1,
      hbeside "y" (.inr (by decide))⟩

end Forest
end Lox
