import Lox.Proofs.Scoping.Evaluation
import Lox.Proofs.Scoping.Slots

/-!
Layouts. A layout says of every frame that a program has made what it can bind. Where the frames of a
chain are laid out as the slots around a piece of code, a search through the chain finds the variable that
its distance leads to.
-/
namespace Lox

/-- The slots of the frames, in the order of their creation. -/
abbrev Layout := List Slot

/-- The frames of an environment are laid out as a chain of slots, inside the global frame. -/
def Layout.Follows (layout : Layout) (env : Environment) (chain : List Slot) : Prop :=
  ∃ inner, env = inner ++ globalEnv ∧ inner.map (layout[·]?) = chain.map some

/-- A function whose constructs stand where they should in the slots that its environment is laid out
as. -/
def Closure.Laid (plan : Plan) (layout : Layout) (c : Closure) : Prop :=
  ∃ isMethod around, layout.Follows c.env (slots around) ∧
    ∀ o ∈ c.decl.occurrences isMethod around, o.Good plan

def Closure.LaidUnbound (plan : Plan) (layout : Layout) (c : Closure) : Prop :=
  ∃ around chain, slots around = .keyword "this" :: chain ∧ layout.Follows c.env chain ∧
    ∀ o ∈ c.decl.occurrences true around, o.Good plan

def Class.Laid (plan : Plan) (layout : Layout) (c : Class) : Prop :=
  ∀ name method, c.findMethod? name = some method → method.LaidUnbound plan layout

def Value.Laid (plan : Plan) (layout : Layout) : Value → Prop
  | .callable (.function _ closure) => closure.Laid plan layout
  | .callable (.cls c) | .object _ c => c.Laid plan layout
  | _ => True

def Flow.Laid (plan : Plan) (layout : Layout) : Flow → Prop
  | .normal => True
  | .returned value => value.Laid plan layout

/-- The frames of a world bind what their slots hold, and the values in it are laid out. -/
structure World.Laid (plan : Plan) (layout : Layout) (w : World) : Prop where
  size : layout.length = w.frames.frames.size
  global : layout[0]? = some (.scope plan.globals)
  holds : ∀ frame name, (w.frames.getIn frame name).isSome = true →
    ∃ slot, layout[frame]? = some slot ∧ slot.holds name
  keywords : ∀ (frame : Nat) word, layout[frame]? = some (.keyword word) →
    (w.frames.getIn frame word).isSome = true
  values : ∀ frame name value, w.frames.getIn frame name = some value → value.Laid plan layout
  fields : ∀ (id : Nat) (fields : Bindings Value) (name : String) (value : Value),
    w.objects[id]? = some fields → fields.get? name = some value → value.Laid plan layout

section Mono

variable {plan : Plan} {layout later : Layout}

theorem Layout.getElem?_of_prefix (h : layout <+: later) {frame : Nat} {slot : Slot}
    (hslot : layout[frame]? = some slot) : later[frame]? = some slot := by
  obtain ⟨more, rfl⟩ := h
  rw [List.getElem?_append_left (List.getElem?_eq_some_iff.1 hslot).1]
  exact hslot

theorem Layout.Follows.mono {env : Environment} {chain : List Slot} (h : layout.Follows env chain)
    (hlater : layout <+: later) : later.Follows env chain := by
  obtain ⟨inner, henv, hinner⟩ := h
  refine ⟨inner, henv, ?_⟩
  clear henv
  induction inner generalizing chain with
  | nil => exact hinner
  | cons frame inner ih =>
    cases chain with
    | nil => cases hinner
    | cons slot chain =>
      rw [List.map_cons, List.map_cons, List.cons.injEq] at hinner ⊢
      exact ⟨Layout.getElem?_of_prefix hlater hinner.1, ih hinner.2⟩

variable (hlater : layout <+: later)

include hlater

theorem Closure.Laid.mono {c : Closure} (h : c.Laid plan layout) : c.Laid plan later := by
  obtain ⟨isMethod, around, hfollows, hgood⟩ := h
  exact ⟨isMethod, around, hfollows.mono hlater, hgood⟩

theorem Class.Laid.mono {c : Class} (h : c.Laid plan layout) : c.Laid plan later := by
  intro name method hmethod
  obtain ⟨around, chain, hslots, hfollows, hgood⟩ := h name method hmethod
  exact ⟨around, chain, hslots, hfollows.mono hlater, hgood⟩

theorem Value.Laid.mono {v : Value} (h : v.Laid plan layout) : v.Laid plan later := by
  unfold Value.Laid at h ⊢
  split
  · exact Closure.Laid.mono hlater h
  · exact Class.Laid.mono hlater h
  · exact Class.Laid.mono hlater h
  · trivial

end Mono

def Context.searching (ctx : Context) : Context := { ctx with addressing := .search }

section Lookups

variable {plan : Plan} {layout : Layout} {env : Environment} {around : List Enclosure} {w : World}

theorem Layout.Follows.map_eq (h : layout.Follows env (slots around)) (hw : w.Laid plan layout) :
    env.map (layout[·]?) = (plan.chain around).map some := by
  obtain ⟨inner, rfl, hinner⟩ := h
  rw [List.map_append, hinner, Plan.chain, List.map_append, globalEnv, List.map_singleton, hw.global]
  rfl

theorem Layout.Follows.slot_at (h : layout.Follows env (slots around)) (hw : w.Laid plan layout)
    {i : Nat} {frame : FrameId} (hframe : env[i]? = some frame) :
    ∃ slot, (plan.chain around)[i]? = some slot ∧ layout[frame]? = some slot := by
  have hplace := congrArg (·[i]?) (h.map_eq hw)
  simp only [List.getElem?_map, hframe, Option.map_some] at hplace
  obtain ⟨slot, hslot, hlayout⟩ := Option.map_eq_some_iff.1 hplace.symm
  exact ⟨slot, hslot, hlayout.symm⟩

theorem Layout.Follows.frame_at (h : layout.Follows env (slots around)) (hw : w.Laid plan layout)
    {i : Nat} {slot : Slot} (hslot : (plan.chain around)[i]? = some slot) :
    ∃ frame, env[i]? = some frame ∧ layout[frame]? = some slot := by
  have hplace := congrArg (·[i]?) (h.map_eq hw)
  simp only [List.getElem?_map, hslot, Option.map_some] at hplace
  exact Option.map_eq_some_iff.1 hplace

theorem Layout.Follows.holds_at (h : layout.Follows env (slots around)) (hw : w.Laid plan layout)
    {i : Nat} {frame : FrameId} (hframe : env[i]? = some frame) {name : String}
    (hbound : (w.frames.getIn frame name).isSome = true) :
    ∃ slot, (plan.chain around)[i]? = some slot ∧ slot.holds name := by
  obtain ⟨slot, hslot, hlayout⟩ := h.slot_at hw hframe
  obtain ⟨slot', hlayout', hholds⟩ := hw.holds frame name hbound
  cases hlayout.symm.trans hlayout'
  exact ⟨slot, hslot, hholds⟩

theorem Layout.Follows.global_at (h : layout.Follows env (slots around)) :
    env[(slots around).length]? = some 0 := by
  obtain ⟨inner, rfl, hinner⟩ := h
  have hlength : inner.length = (slots around).length := by
    simpa using congrArg List.length hinner
  rw [← hlength, List.getElem?_append_right (Nat.le_refl _), Nat.sub_self]
  rfl

theorem Layout.Follows.firstAt_of_unique (h : layout.Follows env (slots around))
    (hw : w.Laid plan layout) {name : String} {distance : Nat}
    (hplace : ∀ i slot, (plan.chain around)[i]? = some slot → slot.holds name → i = distance) :
    w.frames.FirstAt env distance name := by
  intro i frame hframe hbound
  obtain ⟨slot, hslot, hholds⟩ := h.holds_at hw hframe hbound
  have hi := hplace i slot hslot hholds
  exact ⟨Nat.le_of_eq hi.symm, fun hlt => absurd hi.symm (Nat.ne_of_lt hlt)⟩

theorem Layout.Follows.keyword_at (h : layout.Follows env (slots around)) (hw : w.Laid plan layout)
    {word : String} {distance : Nat} (hinnermost : Innermost around word distance) :
    w.frames.FirstAt env distance word := by
  have hlt : distance < (slots around).length := (List.getElem?_eq_some_iff.1 hinnermost.found).1
  have hfound : (plan.chain around)[distance]? = some (.keyword word) := by
    rw [Plan.chain, List.getElem?_append_left hlt, hinnermost.found]
  obtain ⟨first, hfirst, hlayout⟩ := h.frame_at hw hfound
  intro i frame hframe hbound
  obtain ⟨slot, hslot, hholds⟩ := h.holds_at hw hframe hbound
  refine ⟨?_, fun _ => ⟨first, hfirst, hw.keywords first word hlayout⟩⟩
  rcases Plan.chain_cases hslot with hslot | ⟨rfl, -⟩
  · exact hinnermost.least i slot hslot hholds
  · exact Nat.le_of_lt hlt

variable {ctx : Context} (hctx : ctx.addressing = .distances plan.hops)
  (hfollows : layout.Follows ctx.env (slots around)) (hw : w.Laid plan layout)

include hctx hfollows hw

theorem find?_searching {name : Token}
    (hplace : ∀ i slot, (plan.chain around)[i]? = some slot → slot.holds name.lexeme →
      i = plan.hops[name.index]?.getD (slots around).length) :
    ctx.find? w.frames name = ctx.searching.find? w.frames name := by
  have hget := (hfollows.firstAt_of_unique hw hplace).get_eq
  unfold Context.find? Context.searching
  rw [hctx]
  dsimp only
  rw [hget]
  cases plan.hops[name.index]? with
  | some distance => rfl
  | none => simp [Frames.getAt, Frames.get, globalEnv, hfollows.global_at]

theorem assign?_searching {name : Token} (value : Value)
    (hplace : ∀ i slot, (plan.chain around)[i]? = some slot → slot.holds name.lexeme →
      i = plan.hops[name.index]?.getD (slots around).length) :
    ctx.assign? w.frames name value = ctx.searching.assign? w.frames name value := by
  have hassign := (hfollows.firstAt_of_unique hw hplace).assign_eq value
  unfold Context.assign? Context.searching
  rw [hctx]
  dsimp only
  rw [hassign]
  cases plan.hops[name.index]? with
  | some distance => rfl
  | none =>
    simp only [Frames.assignAt, Frames.assign, Frames.assignIn, globalEnv, Option.getD_none,
      hfollows.global_at, Option.bind_some, List.find?_cons, List.find?_nil]
    cases (w.frames.getIn 0 name.lexeme).isSome <;> rfl

theorem find?_keyword_searching {keyword : Token} {distance : Nat}
    (hhop : plan.hops[keyword.index]? = some distance)
    (hinnermost : Innermost around keyword.lexeme distance) :
    ctx.find? w.frames keyword = ctx.searching.find? w.frames keyword := by
  have hget := (hfollows.keyword_at hw hinnermost).get_eq
  unfold Context.find? Context.searching
  rw [hctx]
  dsimp only
  rw [hget, hhop]

theorem findSuper?_searching {keyword : Token} {distance : Nat}
    (hhop : plan.hops[keyword.index]? = some (distance + 1))
    (hthis : Innermost around "this" distance) (hsuper : Innermost around "super" (distance + 1)) :
    ctx.findSuper? w.frames keyword = ctx.searching.findSuper? w.frames keyword := by
  have hgetThis := (hfollows.keyword_at hw hthis).get_eq
  have hgetSuper := (hfollows.keyword_at hw hsuper).get_eq
  unfold Context.findSuper? Context.searching
  rw [hctx]
  dsimp only
  rw [hgetThis, hgetSuper, hhop]
  rfl

end Lookups

end Lox
