import Lox.Proofs.Scoping.Chain

/-!
Sound scenes. Everything that a program can reach in them follows the scopes of its declaration, frames
for `this` hold objects and frames for `super` hold classes. So every node that reads a variable finds
the frame that its distance promises.
-/
namespace Lox

def Visit.hop? (v : Visit) : Option Nat :=
  match v.ctx.addressing with
  | .distances hops => hops[v.token.index]?
  | .search => none

/-- What is read when a node is evaluated is what the mention that it stems from was resolved to. -/
structure Visit.Sound (v : Visit) (m : Mention) : Prop where
  access : v.access = m.access
  token : v.token = m.token
  /-- The chain of frames is the stack of scopes, inside the global frame. -/
  chain : ∃ inner, v.ctx.env = inner ++ globalEnv ∧
    inner.map (v.openers[·]?) = m.stack.openers.map some
  global : v.openers[0]? = some .global
  hop : v.hop? = m.distance?
  /-- At its distance lies the frame of the scope that the name was found in, with the name bound. -/
  bound : ∀ distance, v.hop? = some distance →
    ∃ frame scope value, v.ctx.env[distance]? = some frame ∧ m.stack[distance]? = some scope ∧
      v.openers[frame]? = some scope.opener ∧ scope.names.binds v.token.lexeme = true ∧
      v.world.frames.getIn frame v.token.lexeme = some value ∧
      (v.access ≠ .super → readVariable v.ctx v.token v.world = .ok value v.world)
  this : v.access = .this → v.hop?.isSome = true
  /-- The receiver lies right inside the superclass. -/
  super : v.access = .super → ∃ distance parent id c, v.hop? = some (distance + 1) ∧
    v.world.frames.getAt v.ctx.env (distance + 1) "super" = some (.callable (.cls parent)) ∧
    v.world.frames.getAt v.ctx.env distance "this" = some (.object id c) ∧
    ∀ method, readSuper v.ctx v.token method v.world =
      methodOf parent method (.object id c) v.world
  /-- Without a distance the global frame is read. -/
  unbound : v.hop? = none →
    v.ctx.find? v.world.frames v.token = v.world.frames.getIn 0 v.token.lexeme

def History.Faithful (h : History) : Prop := ∀ v ∈ h.visits, ∃ m ∈ h.mentions, v.Sound m

namespace Scene

/-- The distances of the mentions are in the table, and the mentions are well scoped. -/
def Knows (hops : HopTable) (ms : List Mention) : Prop :=
  ∀ m ∈ ms, m.WellScoped ∧ (m.access ≠ .declaration → hops[m.token.index]? = m.distance?)

structure Sound (hops : HopTable) (scene : Scene) : Prop where
  size : scene.history.openers.size = scene.world.frames.frames.size
  global : scene.history.openers[0]? = some .global
  values : ∀ frame name value, scene.world.frames.getIn frame name = some value → value.Sound scene
  fields : ∀ (id : Nat) (fields : Bindings Value) (name : String) (value : Value),
    scene.world.objects[id]? = some fields → fields.get? name = some value → value.Sound scene
  receivers : ∀ (frame : Nat) (cls : Token), scene.history.openers[frame]? = some (.receiver cls) →
    ∃ id c, scene.world.frames.getIn frame "this" = some (.object id c)
  superclasses : ∀ (frame : Nat) (cls : Token),
    scene.history.openers[frame]? = some (.superclass cls) →
    ∃ c, scene.world.frames.getIn frame "super" = some (.callable (.cls c))
  known : Knows hops scene.history.mentions
  faithful : scene.history.Faithful

variable {hops : HopTable} {scene scene' scene'' : Scene}

/-- A scene turns, within a program, into a later one that is sound. -/
structure Becomes (hops : HopTable) (scene scene' : Scene) : Prop where
  ext : scene.Extends scene'
  mentions : scene'.history.mentions = scene.history.mentions
  sound : scene'.Sound hops

theorem Sound.refl (h : scene.Sound hops) : scene.Becomes hops scene := ⟨Extends.refl scene, rfl, h⟩

theorem Becomes.trans (h : scene.Becomes hops scene') (h' : scene'.Becomes hops scene'') :
    scene.Becomes hops scene'' :=
  ⟨h.ext.trans h'.ext, h'.mentions.trans h.mentions, h'.sound⟩

end Scene

section Visits

variable {hops : HopTable} {scene : Scene} {ctx : Context} {m : Mention}

theorem Context.find?_of_hop (hctx : ctx.addressing = .distances hops) {name : Token} {distance : Nat}
    (hhop : hops[name.index]? = some distance) (frames : Frames Value) :
    ctx.find? frames name = frames.getAt ctx.env distance name.lexeme := by
  unfold Context.find?
  rw [hctx]
  dsimp only
  rw [hhop]

theorem Context.find?_of_no_hop (hctx : ctx.addressing = .distances hops) {name : Token}
    (hhop : hops[name.index]? = none) (frames : Frames Value) :
    ctx.find? frames name = frames.getIn 0 name.lexeme := by
  unfold Context.find?
  rw [hctx]
  dsimp only
  rw [hhop]
  simp [Frames.get, globalEnv]

theorem Scene.Follows.at_distance (hfollows : scene.Follows ctx.env m.stack) {distance : Nat}
    (hdistance : m.distance? = some distance) :
    ∃ frame scope, ctx.env[distance]? = some frame ∧ m.stack[distance]? = some scope ∧
      scene.Opens frame scope ∧ scope.names.binds m.token.lexeme = true := by
  obtain ⟨scope, ready, hscope, hready⟩ := ScopeStack.exists_of_distance? hdistance
  obtain ⟨frame, hframe, hopen⟩ := hfollows.getElem? hscope
  refine ⟨frame, scope, hframe, hscope, hopen, ?_⟩
  rw [Bindings.binds, hready]
  rfl

theorem Scene.Sound.super_found (h : scene.Sound hops) (hfollows : scene.Follows ctx.env m.stack)
    (hsuper : m.stack.FindsSuper) :
    ∃ distance parent id c, m.stack.scopes.distance? "super" = some (distance + 1) ∧
      scene.world.frames.getAt ctx.env (distance + 1) "super" = some (.callable (.cls parent)) ∧
      scene.world.frames.getAt ctx.env distance "this" = some (.object id c) := by
  obtain ⟨distance, cls, hdistance, hreceiver, hsuperclass⟩ := hsuper
  have hframe : ∀ (distance : Nat) (opener : Opener), m.stack.openers[distance]? = some opener →
      ∃ frame, ctx.env[distance]? = some frame ∧ scene.history.openers[frame]? = some opener := by
    intro distance opener hopener
    rw [ScopeStack.openers, List.getElem?_map] at hopener
    obtain ⟨scope, hscope, rfl⟩ := Option.map_eq_some_iff.1 hopener
    obtain ⟨frame, hframe, hopen⟩ := hfollows.getElem? hscope
    exact ⟨frame, hframe, hopen.opener⟩
  obtain ⟨inner, hinner, hinnerOpener⟩ := hframe distance _ hreceiver
  obtain ⟨outer, houter, houterOpener⟩ := hframe (distance + 1) _ hsuperclass
  obtain ⟨id, c, hthis⟩ := h.receivers inner cls hinnerOpener
  obtain ⟨parent, hparent⟩ := h.superclasses outer cls houterOpener
  refine ⟨distance, parent, id, c, hdistance, ?_, ?_⟩
  · rw [Frames.getAt, houter]
    exact hparent
  · rw [Frames.getAt, hinner]
    exact hthis

theorem Scene.Sound.value_at_distance (h : scene.Sound hops) (hfollows : scene.Follows ctx.env m.stack)
    (hscoped : m.WellScoped) (hreads : m.access = .variable ∨ m.access = .this ∨ m.access = .super)
    {distance : Nat} (hdistance : m.distance? = some distance) :
    ∃ frame scope value, ctx.env[distance]? = some frame ∧ m.stack[distance]? = some scope ∧
      scene.Opens frame scope ∧ scope.names.binds m.token.lexeme = true ∧
      scene.world.frames.getIn frame m.token.lexeme = some value := by
  obtain ⟨frame, scope, hframe, hscope, hopen, hbinds⟩ := hfollows.at_distance hdistance
  have hvalue : ∃ value, scene.world.frames.getIn frame m.token.lexeme = some value := by
    unfold Mention.WellScoped at hscoped
    rcases hreads with hreads | hreads | hreads <;> rw [hreads] at hscoped
    · exact Option.isSome_iff_exists.1 (hopen.bound _ (hscoped distance scope hdistance hscope))
    · obtain ⟨hspelled, distance', scope', hdistance', hscope', hready⟩ := hscoped
      cases hdistance.symm.trans hdistance'
      cases hscope.symm.trans hscope'
      rw [hspelled]
      exact Option.isSome_iff_exists.1 (hopen.bound _ hready)
    · obtain ⟨hspelled, hsuper⟩ := hscoped
      obtain ⟨inner, parent, _, _, hinner, hparent, -⟩ := h.super_found hfollows hsuper
      rw [Mention.distance?, hspelled, hinner] at hdistance
      cases hdistance
      rw [Frames.getAt, hframe] at hparent
      rw [hspelled]
      exact ⟨_, hparent⟩
  obtain ⟨value, hvalue⟩ := hvalue
  exact ⟨frame, scope, value, hframe, hscope, hopen, hbinds, hvalue⟩

/-- A node that is evaluated where its mention stands reads what the mention was resolved to. -/
theorem Scene.Sound.visit (h : scene.Sound hops) (hctx : ctx.addressing = .distances hops)
    (hm : m ∈ scene.history.mentions) (hfollows : scene.Follows ctx.env m.stack)
    (hreads : m.access = .variable ∨ m.access = .this ∨ m.access = .super) :
    Visit.Sound ⟨m.access, m.token, ctx, scene.world, scene.history.openers⟩ m := by
  obtain ⟨hscoped, hrecorded⟩ := h.known m hm
  have hhop : hops[m.token.index]? = m.distance? := by
    apply hrecorded
    rcases hreads with hreads | hreads | hreads <;> rw [hreads] <;> decide
  have hvisit : Visit.hop? ⟨m.access, m.token, ctx, scene.world, scene.history.openers⟩ = m.distance? := by
    rw [Visit.hop?, hctx]
    exact hhop
  constructor
  case access => rfl
  case token => rfl
  case chain => exact hfollows.openers
  case global => exact h.global
  case hop => exact hvisit
  case bound =>
    intro distance hdistance
    rw [hvisit] at hdistance
    obtain ⟨frame, scope, value, hframe, hscope, hopen, hbinds, hvalue⟩ :=
      h.value_at_distance hfollows hscoped hreads hdistance
    refine ⟨frame, scope, value, hframe, hscope, hopen.opener, hbinds, hvalue, ?_⟩
    intro _
    unfold readVariable
    dsimp only
    rw [ctx.find?_of_hop hctx (hhop.trans hdistance), Frames.getAt, hframe, Option.bind_some, hvalue]
  case this =>
    intro (hthis : m.access = .this)
    rw [Mention.WellScoped, hthis] at hscoped
    obtain ⟨-, distance, -, hdistance, -⟩ := hscoped
    rw [hvisit, hdistance]
    rfl
  case super =>
    intro (hsuper : m.access = .super)
    rw [Mention.WellScoped, hsuper] at hscoped
    obtain ⟨hspelled, hfinds⟩ := hscoped
    obtain ⟨distance, parent, id, c, hdistance, hparent, hthis⟩ := h.super_found hfollows hfinds
    have hfound : m.distance? = some (distance + 1) := by
      rw [Mention.distance?, hspelled, hdistance]
    refine ⟨distance, parent, id, c, hvisit.trans hfound, hparent, hthis, ?_⟩
    intro method
    have hboth : ctx.findSuper? scene.world.frames m.token =
        some (.callable (.cls parent), .object id c) := by
      unfold Context.findSuper?
      rw [hctx]
      dsimp only
      rw [hhop, hfound]
      simp [hparent, hthis]
    unfold readSuper
    dsimp only
    rw [hboth]
  case unbound =>
    intro hnone
    exact ctx.find?_of_no_hop hctx (hhop.trans (hvisit.symm.trans hnone)) _

end Visits

end Lox
