import Lox.Evaluation

/-!
What frames and lists of bindings hold. A change of one frame shows at one name of it only; what a use of
a name reads stands in a frame of its environment or in the global one.
-/
namespace Lox

namespace Bindings

variable {α : Type} {entries : List (String × α)} {name : String}

theorem mem_of_get?_ofList {value : α}
    (h : (ofList entries).get? name = some value) : (name, value) ∈ entries := by
  have hfold : ∀ b : Bindings α,
      (entries.foldl (fun b entry => b.insert entry.1 entry.2) b).get? name = some value →
      (name, value) ∈ entries ∨ b.get? name = some value := by
    clear h
    induction entries with
    | nil => exact fun _ h => .inr h
    | cons entry rest ih =>
      intro b h
      rw [List.foldl_cons] at h
      rcases ih _ h with h | h
      · exact .inl (List.mem_cons_of_mem _ h)
      · rw [get?_insert] at h
        split at h
        · rename_i hname
          cases h
          rw [hname]
          exact .inl (List.mem_cons_self ..)
        · exact .inr h
  rcases hfold empty h with h | h
  · exact h
  · contradiction

theorem isSome_get?_ofList
    (h : name ∈ entries.map Prod.fst) : ((ofList entries).get? name).isSome = true := by
  have hfold : ∀ b : Bindings α, name ∈ entries.map Prod.fst ∨ (b.get? name).isSome = true →
      ((entries.foldl (fun b entry => b.insert entry.1 entry.2) b).get? name).isSome = true := by
    clear h
    induction entries with
    | nil =>
      rintro b (h | h)
      · contradiction
      · exact h
    | cons entry rest ih =>
      intro b h
      rw [List.foldl_cons]
      apply ih
      by_cases hname : name = entry.1
      · right
        rw [get?_insert, if_pos hname]
        rfl
      · rw [get?_insert, if_neg hname]
        rcases h with h | h
        · exact .inl ((List.mem_cons.1 h).resolve_left hname)
        · exact .inr h
  exact hfold empty (.inl h)

theorem get?_singleton (name other : String) (value : α) :
    (ofList [(name, value)]).get? other = if other = name then some value else none := by
  change (empty.insert name value).get? other = _
  rw [get?_insert, get?_empty]

end Bindings

namespace Frames

variable {α : Type}

section Changes

variable (s : Frames α)

theorem getIn_defineIn (frame other : FrameId) (name name' : String) (value : α) :
    (s.defineIn frame name value).getIn other name' =
      if other = frame ∧ name' = name then s.frames[frame]?.map fun _ => value
      else s.getIn other name' := by
  simp only [getIn, defineIn, Array.getElem?_modify]
  by_cases hframe : frame = other
  · subst hframe
    cases hfound : s.frames[frame]? with
    | none => simp
    | some bindings => simp [eq_comm]
  · have hne : ¬ other = frame := fun h => hframe h.symm
    simp [hframe, hne]

theorem isSome_getIn_defineIn {frame other : FrameId} {name name' : String} (value : α)
    (h : (s.getIn other name').isSome) : ((s.defineIn frame name value).getIn other name').isSome := by
  rw [getIn_defineIn]
  split
  · rename_i hsame
    rw [← hsame.1, Option.isSome_map]
    unfold getIn at h
    cases hfound : s.frames[other]? with
    | none =>
      rw [hfound] at h
      contradiction
    | some bindings => rfl
  · exact h

theorem getIn_create (bindings : Bindings α) (enclosing : Environment) (frame : FrameId)
    (name : String) :
    (s.create bindings enclosing).1.getIn frame name =
      if frame = s.frames.size then bindings.get? name else s.getIn frame name := by
  simp only [getIn, create, Array.getElem?_push]
  split <;> rfl

end Changes

variable {s s' : Frames α} {env : Environment} {name : String} {value : α}

theorem exists_of_get (h : s.get env name = some value) :
    ∃ frame ∈ env, s.getIn frame name = some value := List.exists_of_findSome?_eq_some h

theorem exists_of_getAt {distance : Nat} (h : s.getAt env distance name = some value) :
    ∃ frame ∈ env, s.getIn frame name = some value := by
  obtain ⟨frame, hframe, hvalue⟩ := Option.bind_eq_some_iff.1 h
  exact ⟨frame, List.mem_of_getElem? hframe, hvalue⟩

theorem exists_of_assign (h : s.assign env name value = some s') :
    ∃ frame, s' = s.defineIn frame name value := by
  unfold assign at h
  split at h
  · rename_i frame _
    cases h
    exact ⟨frame, rfl⟩
  · contradiction

theorem exists_of_assignAt {distance : Nat} (h : s.assignAt env distance name value = some s') :
    ∃ frame, s' = s.defineIn frame name value := by
  obtain ⟨frame, -, hframe⟩ := Option.bind_eq_some_iff.1 h
  unfold assignIn at hframe
  split at hframe
  · cases hframe
    exact ⟨frame, rfl⟩
  · contradiction

theorem bound_of_assign (h : s.assign env name value = some s') :
    ∃ frame, (s.getIn frame name).isSome = true ∧ s' = s.defineIn frame name value := by
  unfold assign at h
  split at h
  · rename_i frame hfound
    have hbound := List.find?_some hfound
    cases h
    exact ⟨frame, hbound, rfl⟩
  · contradiction

theorem bound_of_assignAt {distance : Nat} (h : s.assignAt env distance name value = some s') :
    ∃ frame, (s.getIn frame name).isSome = true ∧ s' = s.defineIn frame name value := by
  obtain ⟨frame, -, hframe⟩ := Option.bind_eq_some_iff.1 h
  unfold assignIn at hframe
  split at hframe
  · rename_i hbound
    cases hframe
    exact ⟨frame, hbound, rfl⟩
  · contradiction

theorem getIn_defineIn_self {frame : FrameId} (h : frame < s.frames.size) (value : α) :
    (s.defineIn frame name value).getIn frame name = some value := by
  rw [getIn_defineIn, if_pos ⟨rfl, rfl⟩, Array.getElem?_eq_getElem h, Option.map_some]

theorem assign_innermost {frame : FrameId} (h : (s.getIn frame name).isSome = true)
    (outer : Environment) (value : α) :
    s.assign (frame :: outer) name value = some (s.defineIn frame name value) := by
  unfold assign
  rw [List.find?_cons]
  simp only [h]

theorem get_innermost {frame : FrameId} (h : s.getIn frame name = some value) (outer : Environment) :
    s.get (frame :: outer) name = some value := by
  rw [get, List.findSome?_cons, h]

theorem lt_of_isSome_getIn {frame : FrameId} (h : (s.getIn frame name).isSome = true) :
    frame < s.frames.size := by
  obtain ⟨value, hvalue⟩ := Option.isSome_iff_exists.1 h
  obtain ⟨bindings, hbindings, -⟩ := Option.bind_eq_some_iff.1 hvalue
  exact (Array.getElem?_eq_some_iff.1 hbindings).1

end Frames

theorem find?_eq_filter_getElem? {α : Type} {p : α → Bool} {place : Nat} :
    ∀ {xs : List α}, (∀ i x, xs[i]? = some x → p x = true →
        place ≤ i ∧ (place < i → ∃ y, xs[place]? = some y ∧ p y = true)) →
      xs.find? p = xs[place]?.filter p := by
  induction place with
  | zero =>
    intro xs h
    cases xs with
    | nil => rfl
    | cons x xs =>
      rw [List.find?_cons, List.getElem?_cons_zero]
      cases hx : p x with
      | true => simp [Option.filter, hx]
      | false =>
        simp only [Option.filter, hx]
        rw [List.find?_eq_none.2]
        · rfl
        · intro y hy hpass
          obtain ⟨i, hi⟩ := List.mem_iff_getElem?.1 hy
          obtain ⟨-, hbehind⟩ := h (i + 1) y hi hpass
          obtain ⟨z, hz, hpassed⟩ := hbehind (Nat.succ_pos i)
          cases hz
          rw [hx] at hpassed
          contradiction
  | succ place ih =>
    intro xs h
    cases xs with
    | nil => rfl
    | cons x xs =>
      have hx : p x = false := by
        apply Bool.eq_false_iff.2
        intro hpass
        exact absurd (h 0 x rfl hpass).1 (Nat.not_succ_le_zero place)
      rw [List.find?_cons, hx, List.getElem?_cons_succ]
      apply ih
      intro i y hy hpass
      obtain ⟨hle, hbehind⟩ := h (i + 1) y hy hpass
      refine ⟨Nat.le_of_succ_le_succ hle, fun hlt => ?_⟩
      exact hbehind (Nat.succ_lt_succ hlt)

namespace Frames

variable {α : Type} {frames : Frames α} {env : Environment} {name : String}

theorem get_eq_find? (frames : Frames α) (env : Environment) (name : String) :
    frames.get env name =
      (env.find? fun frame => (frames.getIn frame name).isSome).bind (frames.getIn · name) := by
  unfold get
  induction env with
  | nil => rfl
  | cons frame env ih =>
    rw [List.findSome?_cons, List.find?_cons]
    cases hframe : frames.getIn frame name with
    | none => exact ih
    | some value => simp [hframe]

theorem getAt_eq_filter (frames : Frames α) (env : Environment) (distance : Nat) (name : String) :
    frames.getAt env distance name =
      (env[distance]?.filter fun frame => (frames.getIn frame name).isSome).bind
        (frames.getIn · name) := by
  unfold getAt
  cases env[distance]? with
  | none => rfl
  | some frame =>
    cases hframe : frames.getIn frame name <;> simp [Option.filter, hframe]

/-- Only the frame at a distance binds the name, or it is the first of those that do. -/
def FirstAt (frames : Frames α) (env : Environment) (distance : Nat) (name : String) : Prop :=
  ∀ (i : Nat) (frame : FrameId), env[i]? = some frame → (frames.getIn frame name).isSome = true →
    distance ≤ i ∧
      (distance < i → ∃ first, env[distance]? = some first ∧ (frames.getIn first name).isSome = true)

theorem FirstAt.get_eq {distance : Nat} (h : frames.FirstAt env distance name) :
    frames.get env name = frames.getAt env distance name := by
  rw [get_eq_find?, find?_eq_filter_getElem? h, getAt_eq_filter]

theorem FirstAt.assign_eq {distance : Nat} (h : frames.FirstAt env distance name) (value : α) :
    frames.assign env name value = frames.assignAt env distance name value := by
  unfold assign
  rw [find?_eq_filter_getElem? h]
  unfold assignAt assignIn
  cases env[distance]? with
  | none => rfl
  | some frame =>
    cases hframe : (frames.getIn frame name).isSome <;> simp [Option.filter, hframe]

end Frames

theorem exists_of_methodTable {env : Environment} {methods : List FunDecl} {name : String}
    {method : Closure} (h : (methodTable env methods).get? name = some method) :
    ∃ f ∈ methods, method = ⟨f, env, f.isInitializer⟩ := by
  obtain ⟨f, hf, hentry⟩ := List.mem_map.1 (Bindings.mem_of_get?_ofList h)
  cases hentry
  exact ⟨f, hf, rfl⟩

theorem Class.own_or_inherited {c : Class} {name : String} {method : Closure}
    (h : c.findMethod? name = some method) :
    c.methods.get? name = some method ∨
      c.methods.get? name = none ∧ ∃ base, c.superclass = some base ∧
        base.findMethod? name = some method := by
  cases c with
  | mk id cname superclass methods =>
    unfold findMethod? at h
    cases hown : methods.get? name with
    | some own =>
      rw [hown] at h
      exact .inl h
    | none =>
      rw [hown] at h
      cases superclass with
      | none => contradiction
      | some base => exact .inr ⟨rfl, base, rfl, h⟩

theorem World.eq_of_getIn_initial {clock : Clock} {console : Console} {frame : FrameId} {name : String}
    {value : Value} (h : (initial clock console).frames.getIn frame name = some value) :
    frame = 0 ∧ name = "clock" ∧ value = .callable (.native .clock) := by
  dsimp only [initial] at h
  rw [Frames.getIn_create] at h
  split at h
  · rename_i hframe
    rw [Bindings.get?_singleton] at h
    split at h
    · rename_i hname
      cases h
      exact ⟨hframe, hname, rfl⟩
    · contradiction
  · contradiction

namespace Context

variable {ctx : Context} {frames frames' : Frames Value} {name : Token} {value : Value}

theorem exists_of_find? (h : ctx.find? frames name = some value) :
    ∃ frame, (frame ∈ ctx.env ∨ frame ∈ globalEnv) ∧ frames.getIn frame name.lexeme = some value := by
  unfold find? at h
  split at h
  · obtain ⟨frame, hframe, hvalue⟩ := Frames.exists_of_get h
    exact ⟨frame, .inl hframe, hvalue⟩
  · split at h
    · obtain ⟨frame, hframe, hvalue⟩ := Frames.exists_of_getAt h
      exact ⟨frame, .inl hframe, hvalue⟩
    · obtain ⟨frame, hframe, hvalue⟩ := Frames.exists_of_get h
      exact ⟨frame, .inr hframe, hvalue⟩

theorem exists_of_assign? (h : ctx.assign? frames name value = some frames') :
    ∃ frame, frames' = frames.defineIn frame name.lexeme value := by
  unfold assign? at h
  split at h
  · exact Frames.exists_of_assign h
  · split at h
    · exact Frames.exists_of_assignAt h
    · exact Frames.exists_of_assign h

theorem bound_of_assign? (h : ctx.assign? frames name value = some frames') :
    ∃ frame, (frames.getIn frame name.lexeme).isSome = true ∧
      frames' = frames.defineIn frame name.lexeme value := by
  unfold assign? at h
  split at h
  · exact Frames.bound_of_assign h
  · split at h
    · exact Frames.bound_of_assignAt h
    · exact Frames.bound_of_assign h

theorem exists_of_findSuper? {keyword : Token} {outer inner : Value}
    (h : ctx.findSuper? frames keyword = some (outer, inner)) :
    (∃ frame ∈ ctx.env, frames.getIn frame "super" = some outer) ∧
      ∃ frame ∈ ctx.env, frames.getIn frame "this" = some inner := by
  unfold findSuper? at h
  split at h
  · obtain ⟨parent, hparent, h⟩ := Option.bind_eq_some_iff.1 h
    obtain ⟨receiver, hreceiver, h⟩ := Option.bind_eq_some_iff.1 h
    cases h
    exact ⟨Frames.exists_of_get hparent, Frames.exists_of_get hreceiver⟩
  · obtain ⟨distance, -, h⟩ := Option.bind_eq_some_iff.1 h
    obtain ⟨parent, hparent, h⟩ := Option.bind_eq_some_iff.1 h
    obtain ⟨receiver, hreceiver, h⟩ := Option.bind_eq_some_iff.1 h
    cases h
    exact ⟨Frames.exists_of_getAt hparent, Frames.exists_of_getAt hreceiver⟩

end Context

end Lox
