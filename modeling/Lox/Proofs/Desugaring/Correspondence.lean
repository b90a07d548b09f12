import Lox.Proofs.Desugaring.Evaluation
import Lox.Proofs.Desugaring.Weaving
import Lox.Proofs.Evaluation.Basic
import Lox.Proofs.Evaluation.Frames

/-!
The worlds of the two runs. Every frame of the run of a surface tree has one counterpart in the run of the
desugared tree; the other frames there belong to added blocks and bind nothing. Values correspond where
they are the same but for bodies and environments, and an environment of the desugared run is that of the
surface run with the frames of added blocks in between.
-/
namespace Lox

namespace Bindings

variable {α β : Type} {R : α → β → Prop} {b : Bindings α} {b' : Bindings β}

def Related (R : α → β → Prop) (b : Bindings α) (b' : Bindings β) : Prop :=
  ∀ name, Option.Rel R (b.get? name) (b'.get? name)

theorem related_empty : Related R .empty .empty := fun _ => .none

theorem Related.insert (h : Related R b b') (name : String) {value : α} {value' : β}
    (hvalue : R value value') : Related R (b.insert name value) (b'.insert name value') := by
  intro other
  rw [get?_insert, get?_insert]
  split
  · exact .some hvalue
  · exact h other

theorem related_ofList {entries : List (String × α)} {entries' : List (String × β)}
    (h : List.Forall₂ (fun entry entry' => entry.1 = entry'.1 ∧ R entry.2 entry'.2) entries entries') :
    Related R (ofList entries) (ofList entries') := by
  have hfold : ∀ (b : Bindings α) (b' : Bindings β), Related R b b' →
      Related R (entries.foldl (fun b entry => b.insert entry.1 entry.2) b)
        (entries'.foldl (fun b entry => b.insert entry.1 entry.2) b') := by
    induction h with
    | nil => exact fun _ _ hb => hb
    | @cons entry entry' _ _ hentry _ ih =>
      intro b b' hb
      rw [List.foldl_cons, List.foldl_cons]
      apply ih
      rw [hentry.1]
      exact hb.insert entry'.1 hentry.2
  exact hfold .empty .empty related_empty

theorem related_singleton (name : String) {value : α} {value' : β} (h : R value value') :
    Related R (ofList [(name, value)]) (ofList [(name, value')]) :=
  related_ofList (.cons ⟨rfl, h⟩ .nil)

end Bindings

namespace Surface

/-- For every frame of the desugared run the frame of the surface run that it stands for, or none for the
frame of an added block. -/
abbrev Origins := List (Option FrameId)

theorem Origins.getElem?_of_prefix {origins later : Origins} (h : origins <+: later) {frame : FrameId}
    {origin : Option FrameId} (horigin : origins[frame]? = some origin) :
    later[frame]? = some origin := by
  obtain ⟨more, rfl⟩ := h
  rw [List.getElem?_append_left (List.getElem?_eq_some_iff.1 horigin).1]
  exact horigin

theorem Origins.cases_push {origins : Origins} {last origin : Option FrameId} {frame : Nat}
    (h : (origins ++ [last])[frame]? = some origin) :
    origins[frame]? = some origin ∨ frame = origins.length ∧ origin = last := by
  rw [List.getElem?_append] at h
  split at h
  · exact .inl h
  · rw [List.getElem?_singleton] at h
    split at h
    · cases h
      exact .inr ⟨by omega, rfl⟩
    · contradiction

/-- The environment of the surface run with the frames of added blocks in between. -/
inductive EnvironmentWoven (origins : Origins) : Thinning → Environment → Environment → Prop
  | global : EnvironmentWoven origins [] globalEnv globalEnv
  | shared {t env env' frame frame'} (hframe : origins[frame']? = some (some frame))
      (h : EnvironmentWoven origins t env env') :
      EnvironmentWoven origins (.shared :: t) (frame :: env) (frame' :: env')
  | added {t env env' frame'} (hframe : origins[frame']? = some none)
      (h : EnvironmentWoven origins t env env') :
      EnvironmentWoven origins (.added :: t) env (frame' :: env')

namespace EnvironmentWoven

variable {origins later : Origins} {t : Thinning} {env env' : Environment}

theorem mono (h : EnvironmentWoven origins t env env') (hlater : origins <+: later) :
    EnvironmentWoven later t env env' := by
  induction h with
  | global => exact .global
  | shared hframe _ ih => exact .shared (Origins.getElem?_of_prefix hlater hframe) ih
  | added hframe _ ih => exact .added (Origins.getElem?_of_prefix hlater hframe) ih

theorem frames_at (h : EnvironmentWoven origins t env env') {d d' : Nat} (himage : t.image? d = some d') :
    ∃ frame frame', env[d]? = some frame ∧ env'[d']? = some frame' ∧
      origins[frame']? = some (some frame) := by
  induction h generalizing d d' with
  | global => contradiction
  | @shared t env env' frame frame' hframe _ ih =>
    cases d with
    | zero =>
      cases himage
      exact ⟨frame, frame', rfl, rfl, hframe⟩
    | succ d =>
      rw [Thinning.image?, Option.map_eq_some_iff] at himage
      obtain ⟨outer, houter, rfl⟩ := himage
      exact ih houter
  | added _ _ ih =>
    rw [Thinning.image?, Option.map_eq_some_iff] at himage
    obtain ⟨outer, houter, rfl⟩ := himage
    exact ih houter

theorem innermost (h : EnvironmentWoven origins t env env') (ht : t.Declares)
    (hglobal : origins[0]? = some (some 0)) :
    ∃ frame frame' outer outer', env = frame :: outer ∧ env' = frame' :: outer' ∧
      origins[frame']? = some (some frame) := by
  cases h with
  | global => exact ⟨0, 0, [], [], rfl, rfl, hglobal⟩
  | shared hframe _ => exact ⟨_, _, _, _, rfl, rfl, hframe⟩
  | added _ _ => exact absurd rfl ht

end EnvironmentWoven

structure Tables where
  surface : HopTable
  core : HopTable

def Tables.Link (tables : Tables) (us : List Use) : Prop :=
  ∀ u ∈ us, u.Linked tables.surface tables.core

/-- Closures of a declaration and its desugared form. Between its environment and its body a method that is
still to be bound lacks the frame of `this`. -/
structure Closure.Alike (lacking : Thinning) (tables : Tables) (origins : Origins) (c : Closure)
    (c' : Lox.Closure) : Prop where
  decl : c'.decl = c.decl.desugar
  isInitializer : c'.isInitializer = c.isInitializer
  environment : ∃ t, EnvironmentWoven origins t c.env c'.env ∧ (lacking ++ t).Declares ∧
    tables.Link (c.decl.uses (lacking ++ t))

structure Class.Alike (tables : Tables) (origins : Origins) (c : Class) (c' : Lox.Class) : Prop where
  id : c'.id = c.id
  name : c'.name = c.name
  methods : ∀ name, Option.Rel (Closure.Alike [.shared] tables origins) (c.findMethod? name)
    (c'.findMethod? name)

inductive Callable.Alike (tables : Tables) (origins : Origins) : Callable → Lox.Callable → Prop
  | native (f : Native) : Alike tables origins (.native f) (.native f)
  | function {c c'} (id : Nat) (h : Closure.Alike [] tables origins c c') :
      Alike tables origins (.function id c) (.function id c')
  | cls {c c'} (h : Class.Alike tables origins c c') : Alike tables origins (.cls c) (.cls c')

inductive Value.Alike (tables : Tables) (origins : Origins) : Value → Lox.Value → Prop
  | constant (value : Literal) : Alike tables origins (.constant value) (.ofLiteral value)
  | callable {f f'} (h : Callable.Alike tables origins f f') :
      Alike tables origins (.callable f) (.callable f')
  | object {c c'} (id : Nat) (h : Class.Alike tables origins c c') :
      Alike tables origins (.object id c) (.object id c')

section Values

variable {tables : Tables} {origins later : Origins}

theorem Closure.Alike.mono {lacking : Thinning} {c : Closure} {c' : Lox.Closure}
    (h : Closure.Alike lacking tables origins c c') (hlater : origins <+: later) :
    Closure.Alike lacking tables later c c' := by
  obtain ⟨t, henv, hdeclares, hlink⟩ := h.environment
  exact { h with environment := ⟨t, henv.mono hlater, hdeclares, hlink⟩ }

theorem Class.Alike.mono {c : Class} {c' : Lox.Class} (h : Class.Alike tables origins c c')
    (hlater : origins <+: later) : Class.Alike tables later c c' := by
  exact { h with methods := fun name => rel_imp (h.methods name) fun _ _ hmethod => hmethod.mono hlater }

theorem Callable.Alike.mono {f : Callable} {f' : Lox.Callable} (h : Callable.Alike tables origins f f')
    (hlater : origins <+: later) : Callable.Alike tables later f f' := by
  cases h with
  | native f => exact .native f
  | function id h => exact .function id (h.mono hlater)
  | cls h => exact .cls (h.mono hlater)

theorem Value.Alike.mono {v : Value} {v' : Lox.Value} (h : Value.Alike tables origins v v')
    (hlater : origins <+: later) : Value.Alike tables later v v' := by
  cases h with
  | constant value => exact .constant value
  | callable h => exact .callable (h.mono hlater)
  | object id h => exact .object id (h.mono hlater)

theorem Callable.Alike.arity {f : Callable} {f' : Lox.Callable}
    (h : Callable.Alike tables origins f f') : f'.arity = f.arity := by
  cases h with
  | native f => rfl
  | function id h => rw [Lox.Callable.arity, h.decl, FunDecl.desugar_params, Callable.arity]
  | @cls c c' h =>
    rw [Lox.Callable.arity, Callable.arity]
    obtain ⟨hnone, hnone'⟩ | ⟨method, method', hsome, hsome', hmethod⟩ :=
      rel_cases (h.methods initializerName)
    · rw [hnone, hnone']
      rfl
    · rw [hsome, hsome', Option.map_some, Option.map_some, hmethod.decl, FunDecl.desugar_params]

theorem Callable.Alike.text {f : Callable} {f' : Lox.Callable}
    (h : Callable.Alike tables origins f f') : f'.text = f.outline.text := by
  cases h with
  | native f => rfl
  | function id h => rw [Lox.Callable.text, h.decl, FunDecl.desugar_name]; rfl
  | cls h => exact h.name

theorem Callable.Alike.same {f g : Callable} {f' g' : Lox.Callable}
    (hf : Callable.Alike tables origins f f') (hg : Callable.Alike tables origins g g') :
    f'.same g' = f.outline.same g.outline := by
  cases hf <;> cases hg <;> try rfl
  case cls.cls c c' hc d d' hd =>
    rw [Lox.Callable.same, hc.id, hd.id]
    rfl

theorem Value.Alike.text {v : Value} {v' : Lox.Value} (h : Value.Alike tables origins v v') :
    v'.text = v.outline.text := by
  cases h with
  | constant value => rfl
  | callable h => exact h.text
  | object id h => rw [Lox.Value.text, h.name]; rfl

theorem Value.Alike.isTruthy {v : Value} {v' : Lox.Value} (h : Value.Alike tables origins v v') :
    v'.isTruthy = v.outline.isTruthy := by
  cases h <;> rfl

theorem Value.Alike.equals {v w : Value} {v' w' : Lox.Value} (hv : Value.Alike tables origins v v')
    (hw : Value.Alike tables origins w w') : v'.equals w' = v.outline.equals w.outline := by
  cases hv with
  | constant value =>
    cases hw with
    | constant _ => rfl
    | callable _ | object _ _ => cases value <;> rfl
  | callable hf =>
    cases hw with
    | constant value => cases value <;> rfl
    | callable hg => exact hf.same hg
    | object _ _ => rfl
  | object _ _ =>
    cases hw with
    | constant value => cases value <;> rfl
    | callable _ | object _ _ => rfl

theorem settles_alike {v : Value} {v' : Lox.Value} (h : Value.Alike tables origins v v') (op : Kind) :
    settles op v' = settles op v.outline := by
  rw [settles, settles, h.isTruthy]

theorem unaryOperation_alike {v : Value} {v' : Lox.Value} (h : Value.Alike tables origins v v')
    (op : Kind) : unaryOperation op v' = unaryOperation op v.outline := by
  cases h with
  | constant value => rfl
  | callable _ | object _ _ => cases op <;> rfl

theorem numericOperation_alike {v w : Value} {v' w' : Lox.Value} (hv : Value.Alike tables origins v v')
    (hw : Value.Alike tables origins w w') (f : Float → Float → Lox.Value) :
    numericOperation v' w' f = numericOperation v.outline w.outline f := by
  cases hv with
  | constant value =>
    cases hw with
    | constant _ => rfl
    | callable _ | object _ _ => cases value <;> rfl
  | callable _ | object _ _ => rfl

theorem binaryOperation_alike {v w : Value} {v' w' : Lox.Value} (hv : Value.Alike tables origins v v')
    (hw : Value.Alike tables origins w w') (op : Kind) :
    binaryOperation op v' w' = binaryOperation op v.outline w.outline := by
  cases op
  case plus =>
    cases hv with
    | constant value =>
      cases hw with
      | constant _ => rfl
      | callable _ | object _ _ => cases value <;> rfl
    | callable _ | object _ _ => rfl
  case minus | slash | star | greater | greaterEqual | less | lessEqual =>
    exact numericOperation_alike hv hw _
  case equalEqual | bangEqual => rw [binaryOperation, binaryOperation, hv.equals hw]
  all_goals rfl

theorem Class.alike_mk {id : Nat} {name : String} {superclass : Option Class}
    {superclass' : Option Lox.Class} {methods : Bindings Closure} {methods' : Bindings Lox.Closure}
    (hsuperclass : Option.Rel (Class.Alike tables origins) superclass superclass')
    (hmethods : Bindings.Related (Closure.Alike [.shared] tables origins) methods methods') :
    Class.Alike tables origins ⟨id, name, superclass, methods⟩ ⟨id, name, superclass', methods'⟩ := by
  refine ⟨rfl, rfl, fun property => ?_⟩
  unfold Class.findMethod? Lox.Class.findMethod?
  obtain ⟨hnone, hnone'⟩ | ⟨method, method', hsome, hsome', hmethod⟩ := rel_cases (hmethods property)
  · rw [hnone, hnone']
    cases hsuperclass with
    | none => exact .none
    | some hparent => exact hparent.methods property
  · rw [hsome, hsome']
    cases hsuperclass <;> exact .some hmethod

theorem methodTable_alike {t : Thinning} {env env' : Environment}
    (henv : EnvironmentWoven origins t env env') {methods : List FunDecl}
    (hlink : tables.Link (FunDecl.usesAll (.shared :: t) methods)) :
    Bindings.Related (Closure.Alike [.shared] tables origins) (methodTable env methods)
      (Lox.methodTable env' (FunDecl.desugarAll methods)) := by
  apply Bindings.related_ofList
  rw [FunDecl.desugarAll_eq_map, List.map_map, List.forall₂_map_left_iff, List.forall₂_map_right_iff,
    List.forall₂_same]
  intro f hf
  refine ⟨by simp, ?_, ?_, t, henv, t.declares_shared, ?_⟩
  · rfl
  · exact f.desugar_isInitializer
  · intro u hu
    exact hlink u (FunDecl.mem_usesAll hf hu)

end Values

structure World.Alike (tables : Tables) (origins : Origins) (w : World) (w' : Lox.World) : Prop where
  size : origins.length = w'.frames.frames.size
  global : origins[0]? = some (some 0)
  below : ∀ {frame frame' : FrameId}, origins[frame']? = some (some frame) →
    frame < w.frames.frames.size
  injective : ∀ {frame frame' other : FrameId}, origins[frame']? = some (some frame) →
    origins[other]? = some (some frame) → frame' = other
  shared : ∀ {frame frame' : FrameId}, origins[frame']? = some (some frame) → ∀ name,
    Option.Rel (Value.Alike tables origins) (w.frames.getIn frame name) (w'.frames.getIn frame' name)
  added : ∀ {frame' : FrameId}, origins[frame']? = some none → ∀ name,
    w'.frames.getIn frame' name = none
  count : w'.objects.size = w.objects.size
  fields : ∀ (id : Nat) (name : String), Option.Rel (Value.Alike tables origins)
    (w.objects[id]?.bind (·.get? name)) (w'.objects[id]?.bind (·.get? name))
  nextId : w'.nextId = w.nextId
  clock : w'.clock = w.clock
  console : w'.console = w.console

namespace World.Alike

variable {tables : Tables} {origins : Origins} {w : World} {w' : Lox.World}

theorem ne_size (h : w.Alike tables origins w') {frame' : FrameId} {origin : Option FrameId}
    (horigin : origins[frame']? = some origin) : frame' ≠ w'.frames.frames.size := by
  rw [← h.size]
  exact Nat.ne_of_lt (List.getElem?_eq_some_iff.1 horigin).1

theorem create (h : w.Alike tables origins w') {bindings : Bindings Value}
    {bindings' : Bindings Lox.Value}
    (hbindings : Bindings.Related (Value.Alike tables origins) bindings bindings')
    (enclosing enclosing' : Environment) :
    World.Alike tables (origins ++ [some w.frames.frames.size])
      { w with frames := (w.frames.create bindings enclosing).1 }
      { w' with frames := (w'.frames.create bindings' enclosing').1 } := by
  have hlater : origins <+: origins ++ [some w.frames.frames.size] := List.prefix_append _ _
  constructor
  case size =>
    simp only [List.length_append, List.length_singleton, Frames.create, Array.size_push, h.size]
  case global => exact Origins.getElem?_of_prefix hlater h.global
  case below =>
    intro frame frame' horigin
    simp only [Frames.create, Array.size_push]
    rcases Origins.cases_push horigin with hold | ⟨-, hnew⟩
    · exact Nat.lt_succ_of_lt (h.below hold)
    · cases hnew
      exact Nat.lt_succ_self _
  case injective =>
    intro frame frame' other horigin hother
    rcases Origins.cases_push horigin with hold | ⟨hframe, hnew⟩
    · rcases Origins.cases_push hother with hold' | ⟨-, hnew'⟩
      · exact h.injective hold hold'
      · cases hnew'
        exact absurd (h.below hold) (Nat.lt_irrefl _)
    · rcases Origins.cases_push hother with hold' | ⟨hframe', -⟩
      · cases hnew
        exact absurd (h.below hold') (Nat.lt_irrefl _)
      · rw [hframe, hframe']
  case shared =>
    intro frame frame' horigin name
    dsimp only
    rw [Frames.getIn_create, Frames.getIn_create]
    rcases Origins.cases_push horigin with hold | ⟨hframe, hnew⟩
    · rw [if_neg (Nat.ne_of_lt (h.below hold)), if_neg (h.ne_size hold)]
      exact rel_imp (h.shared hold name) fun _ _ hvalue => hvalue.mono hlater
    · cases hnew
      rw [if_pos rfl, if_pos (hframe.trans h.size)]
      exact rel_imp (hbindings name) fun _ _ hvalue => hvalue.mono hlater
  case added =>
    intro frame' horigin name
    dsimp only
    rw [Frames.getIn_create]
    rcases Origins.cases_push horigin with hold | ⟨-, hnew⟩
    · rw [if_neg (h.ne_size hold)]
      exact h.added hold name
    · contradiction
  case count => exact h.count
  case fields => exact fun id name => rel_imp (h.fields id name) fun _ _ hvalue => hvalue.mono hlater
  case nextId => exact h.nextId
  case clock => exact h.clock
  case console => exact h.console

theorem add (h : w.Alike tables origins w') (enclosing : Environment) :
    World.Alike tables (origins ++ [none]) w
      { w' with frames := (w'.frames.create .empty enclosing).1 } := by
  have hlater : origins <+: origins ++ [none] := List.prefix_append _ _
  have hold : ∀ {frame frame' : FrameId}, (origins ++ [none])[frame']? = some (some frame) →
      origins[frame']? = some (some frame) := by
    intro frame frame' horigin
    rcases Origins.cases_push horigin with hold | ⟨-, hnew⟩
    · exact hold
    · contradiction
  constructor
  case size =>
    simp only [List.length_append, List.length_singleton, Frames.create, Array.size_push, h.size]
  case global => exact Origins.getElem?_of_prefix hlater h.global
  case below => exact fun horigin => h.below (hold horigin)
  case injective => exact fun horigin hother => h.injective (hold horigin) (hold hother)
  case shared =>
    intro frame frame' horigin name
    dsimp only
    rw [Frames.getIn_create, if_neg (h.ne_size (hold horigin))]
    exact rel_imp (h.shared (hold horigin) name) fun _ _ hvalue => hvalue.mono hlater
  case added =>
    intro frame' horigin name
    dsimp only
    rw [Frames.getIn_create]
    split
    · rfl
    · rename_i hne
      rcases Origins.cases_push horigin with hold | ⟨hframe, -⟩
      · exact h.added hold name
      · exact absurd (hframe.trans h.size) hne
  case count => exact h.count
  case fields => exact fun id name => rel_imp (h.fields id name) fun _ _ hvalue => hvalue.mono hlater
  case nextId => exact h.nextId
  case clock => exact h.clock
  case console => exact h.console

theorem defineIn (h : w.Alike tables origins w') {frame frame' : FrameId}
    (hframe : origins[frame']? = some (some frame)) (name : String) {v : Value} {v' : Lox.Value}
    (hv : Value.Alike tables origins v v') :
    World.Alike tables origins { w with frames := w.frames.defineIn frame name v }
      { w' with frames := w'.frames.defineIn frame' name v' } := by
  constructor
  case size =>
    change origins.length = (w'.frames.frames.modify frame' _).size
    rw [Array.size_modify]
    exact h.size
  case global => exact h.global
  case below =>
    intro other other' hother
    change other < (w.frames.frames.modify frame _).size
    rw [Array.size_modify]
    exact h.below hother
  case injective => exact h.injective
  case shared =>
    intro other other' hother name'
    have hsame : other' = frame' ↔ other = frame := by
      constructor
      · rintro rfl
        rw [hframe] at hother
        cases hother
        rfl
      · rintro rfl
        exact h.injective hother hframe
    dsimp only
    simp only [Frames.getIn_defineIn, hsame]
    split
    · have hbelow := h.below hframe
      have hbelow' : frame' < w'.frames.frames.size := by
        rw [← h.size]
        exact (List.getElem?_eq_some_iff.1 hframe).1
      rw [Array.getElem?_eq_getElem hbelow, Array.getElem?_eq_getElem hbelow']
      exact .some hv
    · exact h.shared hother name'
  case added =>
    intro other' hother name'
    dsimp only
    rw [Frames.getIn_defineIn, if_neg]
    · exact h.added hother name'
    · rintro ⟨rfl, -⟩
      cases Option.some.inj (hframe.symm.trans hother)
  case count => exact h.count
  case fields => exact h.fields
  case nextId => exact h.nextId
  case clock => exact h.clock
  case console => exact h.console

end World.Alike

theorem World.alike_initial (tables : Tables) (clock : Clock) (console : Console) :
    World.Alike tables [some 0] (.initial clock console) (.initial clock console) := by
  have horigin : ∀ {frame frame' : FrameId},
      ([some 0] : Origins)[frame']? = some (some frame) → frame' = 0 ∧ frame = 0 := by
    intro frame frame' h
    rw [List.getElem?_singleton] at h
    split at h
    · cases h
      exact ⟨‹frame' = 0›, rfl⟩
    · contradiction
  constructor
  case size => rfl
  case global => rfl
  case below =>
    intro frame frame' h
    rw [(horigin h).2]
    exact Nat.zero_lt_one
  case injective =>
    intro frame frame' other h hother
    rw [(horigin h).1, (horigin hother).1]
  case shared =>
    intro frame frame' h name
    rw [(horigin h).1, (horigin h).2]
    exact Bindings.related_singleton "clock" (.callable (.native .clock)) name
  case added =>
    intro frame' h
    rw [List.getElem?_singleton] at h
    split at h <;> contradiction
  case count => rfl
  case fields => exact fun _ _ => .none
  case nextId => rfl
  case clock => rfl
  case console => rfl

end Surface

end Lox
