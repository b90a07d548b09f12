import Lox.Proofs.Scoping.Soundness

/-!
Actions in sound scenes. Whatever an action changes, the scene behind it extends the one before and is
sound again; where an action gives a value, that value is sound.
-/
namespace Lox

namespace Scene

variable {hops : HopTable} {scene : Scene}

theorem Sound.changeWorld (h : scene.Sound hops) {world : World}
    (hframes : world.frames = scene.world.frames) (hnextId : scene.world.nextId ≤ world.nextId)
    (hfields : ∀ (id : Nat) (fields : Bindings Value) (name : String) (value : Value),
      world.objects[id]? = some fields → fields.get? name = some value → value.Sound scene) :
    scene.Becomes hops ⟨scene.history, world⟩ := by
  have hext : scene.Extends ⟨scene.history, world⟩ := by
    constructor
    · intro frame opener hopener
      exact hopener
    · intro frame name hbound
      rw [hframes]
      exact hbound
    · exact hnextId
    · intro id _
      rfl
    · intro m hm
      exact hm
  constructor
  · exact hext
  · rfl
  · constructor
    case size =>
      rw [hframes]
      exact h.size
    case global => exact h.global
    case values =>
      rw [hframes]
      intro frame name value hvalue
      exact (h.values frame name value hvalue).mono hext
    case fields =>
      intro id fields name value hid hvalue
      exact (hfields id fields name value hid hvalue).mono hext
    case receivers =>
      rw [hframes]
      exact h.receivers
    case superclasses =>
      rw [hframes]
      exact h.superclasses
    case known => exact h.known
    case faithful => exact h.faithful

/-- A name that may be bound in a frame: the frames of keywords bind nothing else, and keep what they
bind. -/
def Admits (scene : Scene) (frame : FrameId) (name : String) : Prop :=
  (∀ cls, scene.history.openers[frame]? = some (.receiver cls) → name ≠ "this") ∧
    ∀ cls, scene.history.openers[frame]? = some (.superclass cls) → name ≠ "super"

theorem admits_of_name {name : String} (hname : ¬ isScopeKeyword name) (frame : FrameId) :
    scene.Admits frame name := by
  constructor
  · intro cls _ hthis
    exact hname (.inl hthis)
  · intro cls _ hsuper
    exact hname (.inr hsuper)

theorem extends_defineIn (scene : Scene) (frame : FrameId) (name : String) (value : Value) :
    scene.Extends ⟨scene.history,
      { scene.world with frames := scene.world.frames.defineIn frame name value }⟩ := by
  constructor
  · intro frame opener hopener
    exact hopener
  · intro frame' name' hbound
    exact Frames.isSome_getIn_defineIn _ value hbound
  · exact Nat.le_refl _
  · intro id _
    rfl
  · intro m hm
    exact hm

/-- A value may be bound that is sound once it is bound. -/
theorem Sound.defineIn (h : scene.Sound hops) {frame : FrameId} {name : String} {value : Value}
    (hadmits : scene.Admits frame name)
    (hvalue : value.Sound ⟨scene.history,
      { scene.world with frames := scene.world.frames.defineIn frame name value }⟩) :
    scene.Becomes hops ⟨scene.history,
      { scene.world with frames := scene.world.frames.defineIn frame name value }⟩ := by
  have hext := extends_defineIn scene frame name value
  constructor
  · exact hext
  · rfl
  · constructor
    case size =>
      change _ = (scene.world.frames.frames.modify frame _).size
      rw [Array.size_modify]
      exact h.size
    case global => exact h.global
    case values =>
      intro frame' name' value' hvalue'
      dsimp only at hvalue'
      rw [Frames.getIn_defineIn] at hvalue'
      split at hvalue'
      · obtain ⟨_, _, rfl⟩ := Option.map_eq_some_iff.1 hvalue'
        exact hvalue
      · exact (h.values frame' name' value' hvalue').mono hext
    case fields =>
      intro id fields name' value' hid hvalue'
      exact (h.fields id fields name' value' hid hvalue').mono hext
    case receivers =>
      intro frame' cls hopener
      have hne : ¬ (frame' = frame ∧ "this" = name) := by
        rintro ⟨rfl, hthis⟩
        exact hadmits.1 cls hopener hthis.symm
      dsimp only
      rw [Frames.getIn_defineIn, if_neg hne]
      exact h.receivers frame' cls hopener
    case superclasses =>
      intro frame' cls hopener
      have hne : ¬ (frame' = frame ∧ "super" = name) := by
        rintro ⟨rfl, hsuper⟩
        exact hadmits.2 cls hopener hsuper.symm
      dsimp only
      rw [Frames.getIn_defineIn, if_neg hne]
      exact h.superclasses frame' cls hopener
    case known => exact h.known
    case faithful => exact h.faithful

/-- What a new frame for a scope has to bind. -/
structure Fits (scene : Scene) (opener : Opener) (bindings : Bindings Value) : Prop where
  values : ∀ name value, bindings.get? name = some value → value.Sound scene
  receiver : ∀ cls, opener = .receiver cls → ∃ id c, bindings.get? "this" = some (.object id c)
  superclass : ∀ cls, opener = .superclass cls → ∃ c, bindings.get? "super" = some (.callable (.cls c))

theorem Sound.openers_push (h : scene.Sound hops) {opener opener' : Opener} {frame : Nat}
    (hopener : (scene.history.openers.push opener)[frame]? = some opener') :
    (frame = scene.world.frames.frames.size ∧ opener = opener') ∨
      (frame ≠ scene.world.frames.frames.size ∧ scene.history.openers[frame]? = some opener') := by
  rw [Array.getElem?_push, h.size] at hopener
  split at hopener
  · rename_i hframe
    cases hopener
    exact .inl ⟨hframe, rfl⟩
  · rename_i hframe
    exact .inr ⟨hframe, hopener⟩

theorem extends_openFrame (scene : Scene) (opener : Opener) (bindings : Bindings Value)
    (enclosing : Environment) :
    scene.Extends
      ⟨{ scene.history with openers := scene.history.openers.push opener },
        { scene.world with frames := (scene.world.frames.create bindings enclosing).1 }⟩ := by
  constructor
  · intro frame opener' hopener
    obtain ⟨hlt, -⟩ := Array.getElem?_eq_some_iff.1 hopener
    dsimp only
    rw [Array.getElem?_push, if_neg (Nat.ne_of_lt hlt)]
    exact hopener
  · intro frame name hbound
    dsimp only
    rw [Frames.getIn_create]
    split
    · rename_i hframe
      rw [Frames.getIn, hframe, Array.getElem?_eq_none (Nat.le_refl _)] at hbound
      contradiction
    · exact hbound
  · exact Nat.le_refl _
  · intro id _
    rfl
  · intro m hm
    exact hm

theorem Sound.openFrame (h : scene.Sound hops) {opener : Opener} {bindings : Bindings Value}
    (hfits : scene.Fits opener bindings) (enclosing : Environment) :
    scene.Becomes hops
      ⟨{ scene.history with openers := scene.history.openers.push opener },
        { scene.world with frames := (scene.world.frames.create bindings enclosing).1 }⟩ := by
  have hext := scene.extends_openFrame opener bindings enclosing
  constructor
  · exact hext
  · rfl
  · constructor
    case size =>
      simp only [Array.size_push, Frames.create, h.size]
    case global => exact hext.openers 0 .global h.global
    case values =>
      intro frame name value hvalue
      dsimp only at hvalue
      rw [Frames.getIn_create] at hvalue
      split at hvalue
      · exact (hfits.values name value hvalue).mono hext
      · exact (h.values frame name value hvalue).mono hext
    case fields =>
      intro id fields name value hid hvalue
      exact (h.fields id fields name value hid hvalue).mono hext
    case receivers =>
      intro frame cls hopener
      dsimp only
      rw [Frames.getIn_create]
      rcases h.openers_push hopener with ⟨hframe, hcls⟩ | ⟨hframe, hold⟩
      · rw [if_pos hframe]
        exact hfits.receiver cls hcls
      · rw [if_neg hframe]
        exact h.receivers frame cls hold
    case superclasses =>
      intro frame cls hopener
      dsimp only
      rw [Frames.getIn_create]
      rcases h.openers_push hopener with ⟨hframe, hcls⟩ | ⟨hframe, hold⟩
      · rw [if_pos hframe]
        exact hfits.superclass cls hcls
      · rw [if_neg hframe]
        exact h.superclasses frame cls hold
    case known => exact h.known
    case faithful => exact h.faithful

theorem Sound.changeHistory (h : scene.Sound hops) {classNames : Nat → Token} {visits : List Visit}
    (hclassNames : ∀ id, id < scene.world.nextId → classNames id = scene.history.classNames id)
    (hvisits : ∀ v ∈ visits, ∃ m ∈ scene.history.mentions, v.Sound m) :
    scene.Becomes hops ⟨{ scene.history with classNames, visits }, scene.world⟩ := by
  have hext : scene.Extends ⟨{ scene.history with classNames, visits }, scene.world⟩ := by
    constructor
    · intro frame opener hopener
      exact hopener
    · intro frame name hbound
      exact hbound
    · exact Nat.le_refl _
    · exact hclassNames
    · intro m hm
      exact hm
  constructor
  · exact hext
  · rfl
  · constructor
    case size => exact h.size
    case global => exact h.global
    case values =>
      intro frame name value hvalue
      exact (h.values frame name value hvalue).mono hext
    case fields =>
      intro id fields name value hid hvalue
      exact (h.fields id fields name value hid hvalue).mono hext
    case receivers => exact h.receivers
    case superclasses => exact h.superclasses
    case known => exact h.known
    case faithful => exact hvisits

end Scene

/-- A traced evaluation leads from a sound scene to sound scenes, also where it fails; its value has a
property in the scene that it leads to. Where it takes too long its visits are accounted for. -/
def Traced.Keeps {α : Type} (hops : HopTable) (m : Traced α) (scene : Scene)
    (Q : α → Scene → Prop) : Prop :=
  match m scene with
  | (.ok value world, history) =>
    scene.Becomes hops ⟨history, world⟩ ∧ Q value ⟨history, world⟩
  | (.error _ world, history) => scene.Becomes hops ⟨history, world⟩
  | (.exhausted, history) => history.mentions = scene.history.mentions ∧ history.Faithful

namespace Traced

variable {α β : Type} {hops : HopTable} {scene : Scene}

section Rules

variable {Q : α → Scene → Prop} {R : β → Scene → Prop}

theorem keeps_pure (h : scene.Sound hops) {value : α} (hvalue : Q value scene) :
    Keeps hops (Pure.pure value : Traced α) scene Q := ⟨h.refl, hvalue⟩

theorem keeps_exhausted (h : scene.Sound hops) :
    Keeps hops (lift Evaluation.exhausted : Traced α) scene Q := ⟨rfl, h.faithful⟩

theorem keeps_raise (h : scene.Sound hops) (t : Token) (fault : RuntimeFault) :
    Keeps hops (lift (Evaluation.raise t fault) : Traced α) scene Q := h.refl

theorem Keeps.bind {m : Traced α} {next : α → Traced β} (hm : Keeps hops m scene Q)
    (hnext : ∀ value scene', scene.Becomes hops scene' → Q value scene' →
      Keeps hops (next value) scene' R) : Keeps hops (m >>= next) scene R := by
  change Keeps hops (Traced.bind m next) scene R
  unfold Keeps Traced.bind at *
  rcases hrun : m scene with ⟨result, history⟩
  rw [hrun] at hm
  cases result with
  | ok value world =>
    obtain ⟨hbecomes, hvalue⟩ := hm
    have hlast := hnext value _ hbecomes hvalue
    dsimp only
    rcases hrun' : next value ⟨history, world⟩ with ⟨result', history'⟩
    rw [hrun'] at hlast
    cases result' with
    | ok value' world' => exact ⟨hbecomes.trans hlast.1, hlast.2⟩
    | error e world' => exact hbecomes.trans hlast
    | exhausted => exact ⟨hlast.1.trans hbecomes.mentions, hlast.2⟩
  | error e world => exact hm
  | exhausted => exact hm

theorem Keeps.mono {m : Traced α} {R : α → Scene → Prop} (hm : Keeps hops m scene Q)
    (h : ∀ value scene', scene.Becomes hops scene' → Q value scene' → R value scene') :
    Keeps hops m scene R := by
  unfold Keeps at *
  rcases hrun : m scene with ⟨result, history⟩
  rw [hrun] at hm
  cases result with
  | ok value world => exact ⟨hm.1, h value _ hm.1 hm.2⟩
  | error e world => exact hm
  | exhausted => exact hm

theorem Keeps.ite {m n : Traced α} {c : Prop} [Decidable c] (hm : Keeps hops m scene Q)
    (hn : Keeps hops n scene Q) : Keeps hops (if c then m else n) scene Q := by
  split
  · exact hm
  · exact hn

end Rules

section Actions

variable {ctx : Context} (h : scene.Sound hops)

include h

theorem keeps_visit (hctx : ctx.addressing = .distances hops) {m : Mention}
    (hm : m ∈ scene.history.mentions) (hfollows : scene.Follows ctx.env m.stack)
    (hreads : m.access = .variable ∨ m.access = .this ∨ m.access = .super) :
    Keeps hops (visit m.access ctx m.token) scene fun _ _ => True := by
  constructor
  · apply h.changeHistory
    · intro id _
      rfl
    · intro v hv
      rcases List.mem_cons.1 hv with rfl | hv
      · exact ⟨m, hm, h.visit hctx hm hfollows hreads⟩
      · exact h.faithful v hv
  · trivial

theorem keeps_readVariable (name : Token) :
    Keeps hops (liftM (readVariable ctx name)) scene fun value scene' => value.Sound scene' := by
  change Keeps hops (lift (readVariable ctx name)) scene _
  unfold Keeps lift readVariable
  dsimp only
  cases hfound : ctx.find? scene.world.frames name with
  | none => exact h.refl
  | some value =>
    obtain ⟨frame, -, hframe⟩ := Context.exists_of_find? hfound
    exact ⟨h.refl, h.values frame _ value hframe⟩

theorem keeps_assignVariable {name : Token} {value : Value} (hname : ¬ isScopeKeyword name.lexeme)
    (hvalue : value.Sound scene) :
    Keeps hops (liftM (assignVariable ctx name value)) scene fun _ _ => True := by
  change Keeps hops (lift (assignVariable ctx name value)) scene _
  unfold Keeps lift assignVariable
  dsimp only
  cases hassigned : ctx.assign? scene.world.frames name value with
  | none => exact h.refl
  | some frames =>
    obtain ⟨frame, rfl⟩ := Context.exists_of_assign? hassigned
    have hext := Scene.extends_defineIn scene frame name.lexeme value
    exact ⟨h.defineIn (Scene.admits_of_name hname frame) (hvalue.mono hext), trivial⟩

theorem keeps_assignDeclared (env : Environment) {name : Token} {value : Value}
    (hname : ¬ isScopeKeyword name.lexeme) (hvalue : value.Sound scene) :
    Keeps hops (liftM (assignDeclared env name value)) scene fun _ _ => True := by
  change Keeps hops (lift (assignDeclared env name value)) scene _
  unfold Keeps lift assignDeclared
  dsimp only
  cases hassigned : scene.world.frames.assign env name.lexeme value with
  | none => exact h.refl
  | some frames =>
    obtain ⟨frame, rfl⟩ := Frames.exists_of_assign hassigned
    have hext := Scene.extends_defineIn scene frame name.lexeme value
    exact ⟨h.defineIn (Scene.admits_of_name hname frame) (hvalue.mono hext), trivial⟩

/-- A declared name is bound in the innermost frame, as it is in the innermost scope. -/
theorem keeps_defineVariable {env : Environment} {stack : ScopeStack} {name : String} {value : Value}
    (hfollows : scene.Follows env stack) (hname : ¬ isScopeKeyword name)
    (hvalue : ∀ scene', scene.Extends scene' → scene'.Follows env (stack.bind name true) →
      value.Sound scene') :
    Keeps hops (liftM (defineVariable env name value)) scene fun _ scene' =>
      scene'.Follows env (stack.bind name true) := by
  obtain ⟨frame, outer, rfl, opener, hopener⟩ : ∃ frame outer, env = frame :: outer ∧
      ∃ opener, scene.history.openers[frame]? = some opener := by
    cases hfollows with
    | global => exact ⟨0, [], rfl, .global, h.global⟩
    | inner hopen _ => exact ⟨_, _, rfl, _, hopen.opener⟩
  obtain ⟨hlt, -⟩ := Array.getElem?_eq_some_iff.1 hopener
  rw [h.size] at hlt
  have hext := Scene.extends_defineIn scene frame name value
  have hbound : Scene.Follows ⟨scene.history,
      { scene.world with frames := scene.world.frames.defineIn frame name value }⟩
      (frame :: outer) (stack.bind name true) := by
    apply (hfollows.mono hext).bind
    intro frame' hframe'
    cases hframe'
    dsimp only
    rw [Frames.getIn_defineIn, if_pos ⟨rfl, rfl⟩, Array.getElem?_eq_getElem hlt]
    rfl
  exact ⟨h.defineIn (Scene.admits_of_name hname frame) (hvalue _ hext hbound), hbound⟩

theorem keeps_openFrame (scope : OpenScope) {bindings : Bindings Value} {enclosing : Environment}
    {stack : ScopeStack} (hfits : scene.Fits scope.opener bindings)
    (hready : ∀ name, scope.names.get? name = some true → (bindings.get? name).isSome = true)
    (hfollows : scene.Follows enclosing stack) :
    Keeps hops (openFrame scope.opener bindings enclosing) scene fun env scene' =>
      scene'.Follows env (scope :: stack) := by
  have hbecomes := h.openFrame hfits enclosing
  constructor
  · exact hbecomes
  · apply Scene.Follows.inner _ (hfollows.mono hbecomes.ext)
    constructor
    · change (scene.history.openers.push scope.opener)[scene.world.frames.frames.size]? = _
      rw [← h.size, Array.getElem?_push_size]
    · intro name hname
      change ((scene.world.frames.create bindings enclosing).1.getIn _ name).isSome = true
      rw [Frames.getIn_create, if_pos rfl]
      exact hready name hname

theorem keeps_makeObject {c : Class} (hc : c.Sound scene) :
    Keeps hops (liftM (makeObject c)) scene fun value scene' =>
      value.Sound scene' ∧ ∃ id, value = .object id c := by
  have hbecomes : scene.Becomes hops
      ⟨scene.history, { scene.world with objects := scene.world.objects.push .empty }⟩ := by
    apply h.changeWorld
    · rfl
    · exact Nat.le_refl _
    · intro id fields name value hid hvalue
      rw [Array.getElem?_push] at hid
      split at hid
      · cases hid
        contradiction
      · exact h.fields id fields name value hid hvalue
  exact ⟨hbecomes, hc.mono hbecomes.ext, _, rfl⟩

theorem keeps_freshId : Keeps hops (liftM freshId) scene fun id scene' =>
    id = scene.world.nextId ∧ scene'.world.nextId = scene.world.nextId + 1 ∧
      scene'.history = scene.history := by
  have hbecomes : scene.Becomes hops
      ⟨scene.history, { scene.world with nextId := scene.world.nextId + 1 }⟩ :=
    h.changeWorld rfl (Nat.le_succ _) h.fields
  exact ⟨hbecomes, rfl, rfl, rfl⟩

theorem keeps_makeFunction (closure : Closure) :
    Keeps hops (liftM (makeFunction closure)) scene fun value _ =>
      ∃ id, value = .callable (.function id closure) := by
  have hbecomes : scene.Becomes hops
      ⟨scene.history, { scene.world with nextId := scene.world.nextId + 1 }⟩ :=
    h.changeWorld rfl (Nat.le_succ _) h.fields
  exact ⟨hbecomes, _, rfl⟩

theorem keeps_enroll (name : Token) : Keeps hops (enroll name) scene fun _ scene' =>
    scene'.history.classNames scene'.world.nextId = name := by
  constructor
  · apply h.changeHistory
    · intro id hid
      exact if_neg (Nat.ne_of_lt hid)
    · exact h.faithful
  · exact if_pos rfl

theorem keeps_readField? (id : Nat) (name : String) :
    Keeps hops (liftM (readField? id name)) scene fun value? scene' =>
      scene' = scene ∧ ∀ value, value? = some value → value.Sound scene' := by
  refine ⟨h.refl, rfl, ?_⟩
  intro value hvalue
  obtain ⟨fields, hid, hfields⟩ := Option.bind_eq_some_iff.1 hvalue
  exact h.fields id fields name value hid hfields

theorem keeps_setField (id : Nat) (name : String) {value : Value} (hvalue : value.Sound scene) :
    Keeps hops (liftM (setField id name value)) scene fun _ _ => True := by
  refine ⟨?_, trivial⟩
  apply h.changeWorld
  · rfl
  · exact Nat.le_refl _
  · intro id' fields name' value' hid hfields
    rw [Array.getElem?_modify] at hid
    split at hid
    · obtain ⟨old, hold, rfl⟩ := Option.map_eq_some_iff.1 hid
      rw [Bindings.get?_insert] at hfields
      split at hfields
      · cases hfields
        exact hvalue
      · exact h.fields id' old name' value' hold hfields
    · exact h.fields id' fields name' value' hid hfields

theorem keeps_printLine (keyword : Token) (text : String) :
    Keeps hops (liftM (printLine keyword text)) scene fun _ _ => True := by
  change Keeps hops (lift (printLine keyword text)) scene _
  unfold Keeps lift printLine
  dsimp only
  cases (scene.world.console.print (text ++ "\n")).1 with
  | none => exact ⟨h.changeWorld rfl (Nat.le_refl _) h.fields, trivial⟩
  | some reason => exact h.changeWorld rfl (Nat.le_refl _) h.fields

theorem keeps_readClock : Keeps hops (lift readClock) scene fun value scene' => value.Sound scene' :=
  ⟨h.changeWorld rfl (Nat.le_refl _) h.fields, trivial⟩

theorem keeps_receiver (method : Closure) :
    Keeps hops (liftM (receiver method)) scene fun value scene' => value.Sound scene' := by
  refine ⟨h.refl, ?_⟩
  cases hfound : scene.world.frames.getAt method.env 0 "this" with
  | none =>
    rw [Option.getD_none]
    trivial
  | some value =>
    obtain ⟨frame, -, hframe⟩ := Frames.exists_of_getAt hfound
    exact h.values frame _ value hframe

end Actions

end Traced

end Lox
