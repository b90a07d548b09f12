import Lox.Proofs.Evaluation.Frames
import Lox.Proofs.Evaluation.Traced
import Lox.Proofs.Scoping.Distances

/-!
Chains of frames that follow stacks of scopes. In a sound scene every frame was made for a scope, and
every closure and method has an environment whose frames were made for the scopes around its
declaration, innermost first, with the names that are ready there bound. Scenes that extend a sound one
keep what is known of its frames.
-/
namespace Lox

namespace Scene

variable {scene scene' scene'' : Scene}

/-- A frame was made for a scope, and binds what is ready in it. -/
structure Opens (scene : Scene) (frame : FrameId) (scope : OpenScope) : Prop where
  opener : scene.history.openers[frame]? = some scope.opener
  bound : ∀ name, scope.names.get? name = some true →
    (scene.world.frames.getIn frame name).isSome = true

/-- The frames of an environment were made for the scopes of a stack. Last comes the global frame. -/
inductive Follows (scene : Scene) : Environment → ScopeStack → Prop
  | global : Follows scene globalEnv []
  | inner {frame env scope stack} (hopen : scene.Opens frame scope) (h : Follows scene env stack) :
      Follows scene (frame :: env) (scope :: stack)

/-- A later scene, in which frames, classes and mentions are what they were. -/
structure Extends (scene scene' : Scene) : Prop where
  openers : ∀ (frame : Nat) (opener : Opener), scene.history.openers[frame]? = some opener →
    scene'.history.openers[frame]? = some opener
  bound : ∀ frame name, (scene.world.frames.getIn frame name).isSome = true →
    (scene'.world.frames.getIn frame name).isSome = true
  nextId : scene.world.nextId ≤ scene'.world.nextId
  classNames : ∀ id, id < scene.world.nextId →
    scene'.history.classNames id = scene.history.classNames id
  mentions : ∀ m ∈ scene.history.mentions, m ∈ scene'.history.mentions

theorem Extends.refl (scene : Scene) : scene.Extends scene := by
  constructor
  · intro frame opener h
    exact h
  · intro frame name h
    exact h
  · exact Nat.le_refl _
  · intro id _
    rfl
  · intro m hm
    exact hm

theorem Extends.trans (h : scene.Extends scene') (h' : scene'.Extends scene'') :
    scene.Extends scene'' := by
  constructor
  · intro frame opener hopener
    exact h'.openers frame opener (h.openers frame opener hopener)
  · intro frame name hbound
    exact h'.bound frame name (h.bound frame name hbound)
  · exact Nat.le_trans h.nextId h'.nextId
  · intro id hid
    rw [h'.classNames id (Nat.lt_of_lt_of_le hid h.nextId), h.classNames id hid]
  · intro m hm
    exact h'.mentions m (h.mentions m hm)

theorem Opens.mono {frame : FrameId} {scope : OpenScope} (h : scene.Opens frame scope)
    (hext : scene.Extends scene') : scene'.Opens frame scope := by
  constructor
  · exact hext.openers frame scope.opener h.opener
  · intro name hname
    exact hext.bound frame name (h.bound name hname)

theorem Follows.mono {env : Environment} {stack : ScopeStack} (h : scene.Follows env stack)
    (hext : scene.Extends scene') : scene'.Follows env stack := by
  induction h with
  | global => exact .global
  | inner hopen _ ih => exact .inner (hopen.mono hext) ih

theorem Follows.getElem? {env : Environment} {stack : ScopeStack} (h : scene.Follows env stack)
    {distance : Nat} {scope : OpenScope} (hscope : stack[distance]? = some scope) :
    ∃ frame, env[distance]? = some frame ∧ scene.Opens frame scope := by
  induction h generalizing distance with
  | global => contradiction
  | @inner frame env _ _ hopen _ ih =>
    cases distance with
    | zero =>
      cases hscope
      exact ⟨frame, rfl, hopen⟩
    | succ distance => exact ih hscope

/-- The labels of the chain, up to the global frame, are the stack. -/
theorem Follows.openers {env : Environment} {stack : ScopeStack} (h : scene.Follows env stack) :
    ∃ inner, env = inner ++ globalEnv ∧
      inner.map (scene.history.openers[·]?) = stack.openers.map some := by
  induction h with
  | global => exact ⟨[], rfl, rfl⟩
  | @inner frame env scope stack hopen _ ih =>
    obtain ⟨inner, rfl, hinner⟩ := ih
    refine ⟨frame :: inner, rfl, ?_⟩
    rw [List.map_cons, hinner, hopen.opener]
    rfl

theorem Follows.bind {env : Environment} {stack : ScopeStack} (h : scene.Follows env stack)
    {name : String}
    (hbound : ∀ frame, env.head? = some frame → (scene.world.frames.getIn frame name).isSome = true) :
    scene.Follows env (stack.bind name true) := by
  cases h with
  | global => exact .global
  | @inner frame env scope stack hopen h =>
    apply Follows.inner _ h
    constructor
    · exact hopen.opener
    · intro name' hname'
      rw [Bindings.get?_insert] at hname'
      by_cases hsame : name' = name
      · rw [hsame]
        exact hbound frame rfl
      · rw [if_neg hsame] at hname'
        exact hopen.bound name' hname'

theorem Follows.bind_false {env : Environment} {stack : ScopeStack} (h : scene.Follows env stack)
    (name : String) : scene.Follows env (stack.bind name false) := by
  cases h with
  | global => exact .global
  | inner hopen h =>
    apply Follows.inner _ h
    constructor
    · exact hopen.opener
    · intro name' hname'
      rw [Bindings.get?_insert] at hname'
      split at hname'
      · contradiction
      · exact hopen.bound name' hname'

end Scene

def Closure.Sound (scene : Scene) (c : Closure) : Prop :=
  ∃ stack, scene.Follows c.env stack ∧ ∀ m ∈ c.decl.mentions stack, m ∈ scene.history.mentions

/-- The environment of a method follows the scopes around its class; its receiver is still missing. -/
def Closure.SoundIn (scene : Scene) (cls : Token) (c : Closure) : Prop :=
  ∃ stack, scene.Follows c.env stack ∧
    ∀ m ∈ c.decl.mentions (.receiver cls :: stack), m ∈ scene.history.mentions

/-- The methods of a class and its superclasses are sound in the classes that they stem from. -/
def Class.Sound (scene : Scene) (c : Class) : Prop :=
  ∀ name method, c.findMethod? name = some method →
    c.declaring name < scene.world.nextId ∧
      method.SoundIn scene (scene.history.classNames (c.declaring name))

def Value.Sound (scene : Scene) : Value → Prop
  | .callable (.function _ closure) => closure.Sound scene
  | .callable (.cls c) | .object _ c => c.Sound scene
  | _ => True

def Flow.Sound (scene : Scene) : Flow → Prop
  | .normal => True
  | .returned value => value.Sound scene

section Mono

variable {scene scene' : Scene} (hext : scene.Extends scene')

include hext

theorem Closure.Sound.mono {c : Closure} (h : c.Sound scene) : c.Sound scene' := by
  obtain ⟨stack, hfollows, hmentions⟩ := h
  exact ⟨stack, hfollows.mono hext, fun m hm => hext.mentions m (hmentions m hm)⟩

theorem Closure.SoundIn.mono {cls : Token} {c : Closure} (h : c.SoundIn scene cls) :
    c.SoundIn scene' cls := by
  obtain ⟨stack, hfollows, hmentions⟩ := h
  exact ⟨stack, hfollows.mono hext, fun m hm => hext.mentions m (hmentions m hm)⟩

theorem Class.Sound.mono {c : Class} (h : c.Sound scene) : c.Sound scene' := by
  intro name method hfind
  obtain ⟨hid, hsound⟩ := h name method hfind
  constructor
  · exact Nat.lt_of_lt_of_le hid hext.nextId
  · rw [hext.classNames _ hid]
    exact hsound.mono hext

theorem Value.Sound.mono {v : Value} (h : v.Sound scene) : v.Sound scene' := by
  unfold Value.Sound at h ⊢
  split
  · exact Closure.Sound.mono hext h
  · exact Class.Sound.mono hext h
  · exact Class.Sound.mono hext h
  · trivial

end Mono

end Lox
