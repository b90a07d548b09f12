import Lox.Proofs.Evaluation.Frames
import Lox.Proofs.Evaluation.Jobs
import Lox.Proofs.Scoping.Slots
import Mathlib.Order.Basic

/-!
Ledgers. A ledger has an entry for every frame that a program has made, with what it was made for and what
it lies in, for every class and for every object. Entries are added and never changed. A world is accounted
for by a ledger if it agrees with the entries; that is what no step of a program can break, as declarations
and assignments never name a keyword.
-/
namespace Lox

/-- What a frame is made for. -/
inductive Origin where
  | scope
  /-- For `this`, around a method that is bound to an object. -/
  | receiver (object : Value)
  /-- For `super`, around the methods of a class and the constructs in them. -/
  | superclass (base : Class) (inside : List Occurrence)

def Origin.keyword? : Origin → String → Option Value
  | .scope, _ => none
  | .receiver object, word => if word = "this" then some object else none
  | .superclass base _, word => if word = "super" then some (.callable (.cls base)) else none

def Origin.Fits (os : List Occurrence) : Origin → Slot → Prop
  | .scope, .scope _ => True
  | .receiver _, .keyword word => word = "this"
  | .superclass _ inside, .keyword word => word = "super" ∧ os ⊆ inside
  | _, _ => False

structure FrameEntry where
  origin : Origin
  enclosing : Environment

structure Ledger where
  frames : FrameId → Option FrameEntry
  /-- The classes by their identity. -/
  classes : Nat → Option Class
  /-- The classes of the objects. -/
  owners : Nat → Option Class

namespace Ledger

/-- A later ledger has all entries of an earlier one. -/
structure Before (L L' : Ledger) : Prop where
  frames : ∀ frame entry, L.frames frame = some entry → L'.frames frame = some entry
  classes : ∀ id c, L.classes id = some c → L'.classes id = some c
  owners : ∀ id c, L.owners id = some c → L'.owners id = some c

instance : Preorder Ledger where
  le := Before
  le_refl _ := ⟨fun _ _ => id, fun _ _ => id, fun _ _ => id⟩
  le_trans _ _ _ h h' :=
    ⟨fun frame entry hentry => h'.frames frame entry (h.frames frame entry hentry),
      fun id c hc => h'.classes id c (h.classes id c hc),
      fun id c hc => h'.owners id c (h.owners id c hc)⟩

def addFrame (L : Ledger) (frame : FrameId) (entry : FrameEntry) : Ledger :=
  { L with frames := fun other => if other = frame then some entry else L.frames other }

def addClass (L : Ledger) (c : Class) : Ledger :=
  { L with classes := fun id => if id = c.id then some c else L.classes id }

def addObject (L : Ledger) (object : Nat) (c : Class) : Ledger :=
  { L with owners := fun id => if id = object then some c else L.owners id }

variable {L L' : Ledger}

theorem le_addFrame {frame : FrameId} (h : L.frames frame = none) (entry : FrameEntry) :
    L ≤ L.addFrame frame entry := by
  refine ⟨fun other entry' hentry => ?_, fun _ _ => id, fun _ _ => id⟩
  have hne : other ≠ frame := by
    rintro rfl
    rw [h] at hentry
    contradiction
  simpa only [addFrame, if_neg hne] using hentry

theorem le_addClass {c : Class} (h : L.classes c.id = none) : L ≤ L.addClass c := by
  refine ⟨fun _ _ => id, fun id c' hc => ?_, fun _ _ => id⟩
  have hne : id ≠ c.id := by
    rintro rfl
    rw [h] at hc
    contradiction
  simpa only [addClass, if_neg hne] using hc

theorem le_addObject {object : Nat} (h : L.owners object = none) (c : Class) :
    L ≤ L.addObject object c := by
  refine ⟨fun _ _ => id, fun _ _ => id, fun id c' hc => ?_⟩
  have hne : id ≠ object := by
    rintro rfl
    rw [h] at hc
    contradiction
  simpa only [addObject, if_neg hne] using hc

theorem addFrame_self (L : Ledger) (frame : FrameId) (entry : FrameEntry) :
    (L.addFrame frame entry).frames frame = some entry := if_pos rfl

theorem addClass_self (L : Ledger) (c : Class) : (L.addClass c).classes c.id = some c := if_pos rfl

theorem addObject_self (L : Ledger) (object : Nat) (c : Class) :
    (L.addObject object c).owners object = some c := if_pos rfl

/-- The frames of an environment are made for a chain of slots, around constructs that stand in it. -/
inductive Chain (L : Ledger) (os : List Occurrence) : Environment → List Slot → Prop
  | global : Chain L os globalEnv []
  | inner {frame origin env slot chain} (hentry : L.frames frame = some ⟨origin, env⟩)
      (hfits : origin.Fits os slot) (h : Chain L os env chain) :
      Chain L os (frame :: env) (slot :: chain)

end Ledger

theorem Origin.Fits.subset {origin : Origin} {slot : Slot} {os ps : List Occurrence}
    (h : origin.Fits os slot) (hsubset : ps ⊆ os) : origin.Fits ps slot := by
  cases origin with
  | scope | receiver _ => cases slot <;> exact h
  | superclass base inside =>
    cases slot with
    | scope _ => exact h
    | keyword word => exact ⟨h.1, List.Subset.trans hsubset h.2⟩

namespace Ledger.Chain

variable {L L' : Ledger} {os ps : List Occurrence} {env : Environment} {chain : List Slot}

theorem mono (h : L.Chain os env chain) (hle : L ≤ L') : L'.Chain os env chain := by
  induction h with
  | global => exact .global
  | inner hentry hfits _ ih => exact .inner (hle.frames _ _ hentry) hfits ih

theorem subset (h : L.Chain os env chain) (hsubset : ps ⊆ os) : L.Chain ps env chain := by
  induction h with
  | global => exact .global
  | inner hentry hfits _ ih => exact .inner hentry (hfits.subset hsubset) ih

theorem length_eq (h : L.Chain os env chain) : env.length = chain.length + 1 := by
  induction h with
  | global => rfl
  | inner _ _ _ ih => rw [List.length_cons, List.length_cons, ih]

theorem drop (h : L.Chain os env chain) {i : Nat} {slot : Slot} (hslot : chain[i]? = some slot) :
    ∃ frame origin outer, env.drop i = frame :: outer ∧ L.frames frame = some ⟨origin, outer⟩ ∧
      origin.Fits os slot ∧ L.Chain os outer (chain.drop (i + 1)) := by
  induction h generalizing i with
  | global => contradiction
  | @inner frame origin env slot' chain hentry hfits hrest ih =>
    cases i with
    | zero =>
      cases hslot
      exact ⟨frame, origin, env, rfl, hentry, hfits, hrest⟩
    | succ i => exact ih hslot

end Ledger.Chain

/-- Where a construct stands, its names are no keywords, and `this` and `super` lie in the frames of the
innermost class, at the distances of the table. -/
structure Occurrence.Seated (hops : HopTable) (o : Occurrence) : Prop where
  plain : Plain o.around
  named : ∀ name, o.construct = .declaration name ∨ o.construct = .assignment name →
    ¬ isScopeKeyword name.lexeme
  receiver : ∀ keyword, o.construct = .this keyword → keyword.lexeme = "this" ∧
    ∃ distance, hops[keyword.index]? = some distance ∧ Innermost o.around "this" distance
  superclass : ∀ keyword, o.construct = .super keyword →
    ∃ distance, hops[keyword.index]? = some (distance + 1) ∧ Innermost o.around "this" distance ∧
      Innermost o.around "super" (distance + 1)

/-- The constructs of a function stand in a chain of slots that its environment is made for. -/
structure Closure.Stands (hops : HopTable) (L : Ledger) (c : Closure) (isMethod : Bool)
    (around : List Enclosure) (chain : List Slot) : Prop where
  chain : L.Chain (c.decl.occurrences isMethod around) c.env chain
  seated : ∀ o ∈ c.decl.occurrences isMethod around, o.Seated hops
  orderly : c.decl.Orderly

/-- An initializer is a method of that name that is bound to an object. -/
def Closure.Entered (hops : HopTable) (L : Ledger) (c : Closure) : Prop :=
  ∃ isMethod around, c.Stands hops L isMethod around (slots around) ∧
    (c.isInitializer = true ↔
      c.decl.isInitializer = true ∧ (slots around).head? = some (.keyword "this"))

def Closure.EnteredUnbound (hops : HopTable) (L : Ledger) (c : Closure) : Prop :=
  ∃ around chain, slots around = .keyword "this" :: chain ∧ c.Stands hops L true around chain ∧
    c.isInitializer = c.decl.isInitializer

def Value.Entered (hops : HopTable) (L : Ledger) : Value → Prop
  | .callable (.function _ closure) => closure.Entered hops L
  | .callable (.cls c) => L.classes c.id = some c
  | .object id c => L.owners id = some c ∧ L.classes c.id = some c
  | _ => True

def Flow.Entered (hops : HopTable) (L : Ledger) : Flow → Prop
  | .normal => True
  | .returned value => value.Entered hops L

/-- The class that a statement declares in a world. Its superclass is what the name of the superclass is
bound to there, and then its methods lie in a frame that is made for it. -/
inductive Class.MadeIn (ctx : Context) (name : Token) (methods : List FunDecl) (w : World) :
    Option Token → Class → Prop
  | base : MadeIn ctx name methods w none
      ⟨w.nextId, name.lexeme, none, methodTable ctx.env methods⟩
  | derived {parent base} (hparent : readVariable ctx parent w = .ok (.callable (.cls base)) w) :
      MadeIn ctx name methods w (some parent)
        ⟨w.nextId, name.lexeme, some base, methodTable (w.frames.frames.size :: ctx.env) methods⟩

/-- A frame for `super` is made by a class statement, for the class that its superclass was then. -/
def FrameEntry.MadeIn (ctx : Context) (name parent : Token) (methods : List FunDecl)
    (outer : List Enclosure) (w : World) (frame : FrameId) (entry : FrameEntry) : Prop :=
  ∃ base, readVariable ctx parent w = .ok (.callable (.cls base)) w ∧
    frame = w.frames.frames.size ∧
    entry = ⟨.superclass base (FunDecl.occurrencesAll (.classBody name (some parent) :: outer) methods),
      ctx.env⟩

section Worlds

variable (hops : HopTable) (S : Nat → Job → World → Prop) (L : Ledger)

/-- The entry of a frame is right. Those for `super` come from class statements among given jobs. -/
structure FrameEntry.Right (frame : FrameId) (entry : FrameEntry) : Prop where
  enclosing : ∃ chain, L.Chain [] entry.enclosing chain
  outward : ∀ outer ∈ entry.enclosing, outer < frame
  receiver : ∀ object, entry.origin = .receiver object →
    ∃ id c, object = .object id c ∧ L.owners id = some c ∧ L.classes c.id = some c
  superclass : ∀ base inside, entry.origin = .superclass base inside →
    ∃ fuel ctx name parent methods outer w,
      S fuel (.execute ctx (.classDecl name (some parent) methods)) w ∧
      FrameEntry.MadeIn ctx name parent methods outer w frame entry ∧ L.Chain [] ctx.env (slots outer)
  seated : ∀ base inside, entry.origin = .superclass base inside → ∀ o ∈ inside, o.Seated hops

structure Class.Right (c : Class) : Prop where
  superclass : ∀ base, c.superclass = some base → L.classes base.id = some base ∧ base.id < c.id
  methods : ∀ name method, c.methods.get? name = some method → method.EnteredUnbound hops L
  made : ∃ fuel ctx name parent? methods w, S fuel (.execute ctx (.classDecl name parent? methods)) w ∧
    Class.MadeIn ctx name methods w parent? c

/-- The ledger accounts for a world. -/
structure Ledger.Accounts (w : World) : Prop where
  frames : ∀ frame, (L.frames frame).isSome = true ↔ frame < w.frames.frames.size
  global : L.frames 0 = some ⟨.scope, []⟩
  keywords : ∀ frame entry, L.frames frame = some entry → ∀ word, isScopeKeyword word →
    w.frames.getIn frame word = entry.origin.keyword? word
  entries : ∀ frame entry, L.frames frame = some entry → frame ≠ 0 → entry.Right hops S L frame
  classes : ∀ id c, L.classes id = some c → c.id = id ∧ id < w.nextId ∧ c.Right hops S L
  owners : ∀ id, (L.owners id).isSome = true ↔ id < w.objects.size
  values : ∀ frame name value, w.frames.getIn frame name = some value → value.Entered hops L
  fields : ∀ (id : Nat) (fields : Bindings Value) (name : String) (value : Value),
    w.objects[id]? = some fields → fields.get? name = some value → value.Entered hops L

end Worlds

section Mono

variable {hops : HopTable} {S : Nat → Job → World → Prop} {L L' : Ledger} (hle : L ≤ L')

include hle

theorem Closure.Stands.mono {c : Closure} {isMethod : Bool} {around : List Enclosure}
    {chain : List Slot} (h : c.Stands hops L isMethod around chain) :
    c.Stands hops L' isMethod around chain := { h with chain := h.chain.mono hle }

theorem Closure.Entered.mono {c : Closure} (h : c.Entered hops L) : c.Entered hops L' := by
  obtain ⟨isMethod, around, hstands, hinitializer⟩ := h
  exact ⟨isMethod, around, hstands.mono hle, hinitializer⟩

theorem Closure.EnteredUnbound.mono {c : Closure} (h : c.EnteredUnbound hops L) :
    c.EnteredUnbound hops L' := by
  obtain ⟨around, chain, hslots, hstands, hinitializer⟩ := h
  exact ⟨around, chain, hslots, hstands.mono hle, hinitializer⟩

theorem Value.Entered.mono {v : Value} (h : v.Entered hops L) : v.Entered hops L' := by
  unfold Value.Entered at h ⊢
  split
  · exact Closure.Entered.mono hle h
  · exact hle.classes _ _ h
  · exact ⟨hle.owners _ _ h.1, hle.classes _ _ h.2⟩
  · trivial

theorem FrameEntry.Right.mono {frame : FrameId} {entry : FrameEntry} (h : entry.Right hops S L frame) :
    entry.Right hops S L' frame := by
  constructor
  case enclosing =>
    obtain ⟨chain, hchain⟩ := h.enclosing
    exact ⟨chain, hchain.mono hle⟩
  case outward => exact h.outward
  case receiver =>
    intro object horigin
    obtain ⟨id, c, hobject, howner, hclass⟩ := h.receiver object horigin
    exact ⟨id, c, hobject, hle.owners _ _ howner, hle.classes _ _ hclass⟩
  case superclass =>
    intro base inside horigin
    obtain ⟨fuel, ctx, name, parent, methods, outer, w, hmoment, hmade, hchain⟩ :=
      h.superclass base inside horigin
    exact ⟨fuel, ctx, name, parent, methods, outer, w, hmoment, hmade, hchain.mono hle⟩
  case seated => exact h.seated

theorem Class.Right.mono {c : Class} (h : c.Right hops S L) : c.Right hops S L' := by
  constructor
  case superclass =>
    intro base hbase
    obtain ⟨hentry, hbefore⟩ := h.superclass base hbase
    exact ⟨hle.classes _ _ hentry, hbefore⟩
  case methods => exact fun name method hmethod => (h.methods name method hmethod).mono hle
  case made => exact h.made

end Mono

section Extension

variable {hops hops' : HopTable} {S : Nat → Job → World → Prop} {L : Ledger}
  (hextends : ∀ i distance : Nat, hops[i]? = some distance → hops'[i]? = some distance)

include hextends

theorem Occurrence.Seated.extend {o : Occurrence} (h : o.Seated hops) : o.Seated hops' := by
  constructor
  case plain => exact h.plain
  case named => exact h.named
  case receiver =>
    intro keyword hconstruct
    obtain ⟨hword, distance, hhop, hinnermost⟩ := h.receiver keyword hconstruct
    exact ⟨hword, distance, hextends _ _ hhop, hinnermost⟩
  case superclass =>
    intro keyword hconstruct
    obtain ⟨distance, hhop, hinnermost⟩ := h.superclass keyword hconstruct
    exact ⟨distance, hextends _ _ hhop, hinnermost⟩

theorem Closure.Stands.extend {c : Closure} {isMethod : Bool} {around : List Enclosure}
    {chain : List Slot} (h : c.Stands hops L isMethod around chain) :
    c.Stands hops' L isMethod around chain :=
  { h with seated := fun o ho => (h.seated o ho).extend hextends }

theorem Value.Entered.extend {v : Value} (h : v.Entered hops L) : v.Entered hops' L := by
  unfold Value.Entered at h ⊢
  split
  · obtain ⟨isMethod, around, hstands, hinitializer⟩ := h
    exact ⟨isMethod, around, hstands.extend hextends, hinitializer⟩
  · exact h
  · exact h
  · trivial

theorem FrameEntry.Right.extend {frame : FrameId} {entry : FrameEntry} (h : entry.Right hops S L frame) :
    entry.Right hops' S L frame :=
  { h with seated := fun base inside horigin o ho => (h.seated base inside horigin o ho).extend hextends }

theorem Class.Right.extend {c : Class} (h : c.Right hops S L) : c.Right hops' S L := by
  refine { h with methods := fun name method hmethod => ?_ }
  obtain ⟨around, chain, hslots, hstands, hinitializer⟩ := h.methods name method hmethod
  exact ⟨around, chain, hslots, hstands.extend hextends, hinitializer⟩

theorem Ledger.Accounts.extend {w : World} (h : L.Accounts hops S w) : L.Accounts hops' S w :=
  { h with
    entries := fun frame entry hentry hframe => (h.entries frame entry hentry hframe).extend hextends
    classes := fun id c hc => ⟨(h.classes id c hc).1, (h.classes id c hc).2.1,
      (h.classes id c hc).2.2.extend hextends⟩
    values := fun frame name value hvalue => (h.values frame name value hvalue).extend hextends
    fields := fun id fields name value hid hvalue =>
      (h.fields id fields name value hid hvalue).extend hextends }

end Extension

namespace Ledger.Accounts

variable {hops : HopTable} {S : Nat → Job → World → Prop} {L : Ledger} {w : World}

theorem frame_fresh (h : L.Accounts hops S w) : L.frames w.frames.frames.size = none := by
  cases hentry : L.frames w.frames.frames.size with
  | none => rfl
  | some entry =>
    have hlt := (h.frames w.frames.frames.size).1 (by rw [hentry]; rfl)
    exact absurd hlt (Nat.lt_irrefl _)

theorem class_fresh (h : L.Accounts hops S w) : L.classes w.nextId = none := by
  cases hentry : L.classes w.nextId with
  | none => rfl
  | some c => exact absurd (h.classes _ c hentry).2.1 (Nat.lt_irrefl _)

theorem object_fresh (h : L.Accounts hops S w) : L.owners w.objects.size = none := by
  cases hentry : L.owners w.objects.size with
  | none => rfl
  | some c =>
    have hlt := (h.owners w.objects.size).1 (by rw [hentry]; rfl)
    exact absurd hlt (Nat.lt_irrefl _)

theorem changeWorld (h : L.Accounts hops S w) {w' : World} (hframes : w'.frames = w.frames)
    (hnext : w.nextId ≤ w'.nextId) (hobjects : w'.objects.size = w.objects.size)
    (hfields : ∀ (id : Nat) (fields : Bindings Value) (name : String) (value : Value),
      w'.objects[id]? = some fields → fields.get? name = some value → value.Entered hops L) :
    L.Accounts hops S w' := by
  constructor
  case frames =>
    rw [hframes]
    exact h.frames
  case global => exact h.global
  case keywords =>
    rw [hframes]
    exact h.keywords
  case entries => exact h.entries
  case classes =>
    intro id c hc
    obtain ⟨hid, hlt, hright⟩ := h.classes id c hc
    exact ⟨hid, Nat.lt_of_lt_of_le hlt hnext, hright⟩
  case owners =>
    rw [hobjects]
    exact h.owners
  case values =>
    rw [hframes]
    exact h.values
  case fields => exact hfields

/-- No name of a program is a keyword. -/
theorem defineIn (h : L.Accounts hops S w) {frame : FrameId} {name : String} {value : Value}
    (hname : ¬ isScopeKeyword name) (hvalue : value.Entered hops L) :
    L.Accounts hops S { w with frames := w.frames.defineIn frame name value } := by
  constructor
  case frames =>
    simp only [Frames.defineIn, Array.size_modify]
    exact h.frames
  case global => exact h.global
  case keywords =>
    intro frame' entry hentry word hword
    dsimp only
    rw [Frames.getIn_defineIn, if_neg, h.keywords frame' entry hentry word hword]
    rintro ⟨-, rfl⟩
    exact hname hword
  case entries => exact h.entries
  case classes => exact h.classes
  case owners => exact h.owners
  case values =>
    intro frame' name' value' hvalue'
    dsimp only at hvalue'
    rw [Frames.getIn_defineIn] at hvalue'
    split at hvalue'
    · obtain ⟨_, _, rfl⟩ := Option.map_eq_some_iff.1 hvalue'
      exact hvalue
    · exact h.values frame' name' value' hvalue'
  case fields => exact h.fields

theorem create (h : L.Accounts hops S w) {bindings : Bindings Value} {entry : FrameEntry}
    (hkeywords : ∀ word, isScopeKeyword word → bindings.get? word = entry.origin.keyword? word)
    (hvalues : ∀ name value, bindings.get? name = some value → value.Entered hops L)
    (hright : entry.Right hops S L w.frames.frames.size) :
    (L.addFrame w.frames.frames.size entry).Accounts hops S
      { w with frames := (w.frames.create bindings entry.enclosing).1 } := by
  have hle : L ≤ L.addFrame w.frames.frames.size entry := le_addFrame h.frame_fresh entry
  have hcases : ∀ {frame : FrameId} {entry' : FrameEntry},
      (L.addFrame w.frames.frames.size entry).frames frame = some entry' →
        frame = w.frames.frames.size ∧ entry' = entry ∨
          frame ≠ w.frames.frames.size ∧ L.frames frame = some entry' := by
    intro frame entry' hentry
    simp only [addFrame] at hentry
    split at hentry
    · rename_i hframe
      exact .inl ⟨hframe, (Option.some.inj hentry).symm⟩
    · rename_i hframe
      exact .inr ⟨hframe, hentry⟩
  constructor
  case frames =>
    intro frame
    simp only [addFrame, Frames.create, Array.size_push]
    split
    · rename_i hframe
      rw [hframe]
      exact iff_of_true rfl (Nat.lt_succ_self _)
    · rename_i hframe
      rw [h.frames frame]
      exact ⟨Nat.lt_succ_of_lt, fun hlt => Nat.lt_of_le_of_ne (Nat.le_of_lt_succ hlt) hframe⟩
  case global => exact hle.frames _ _ h.global
  case keywords =>
    intro frame entry' hentry word hword
    dsimp only
    rw [Frames.getIn_create]
    rcases hcases hentry with ⟨rfl, rfl⟩ | ⟨hframe, hentry⟩
    · rw [if_pos rfl]
      exact hkeywords word hword
    · rw [if_neg hframe]
      exact h.keywords frame entry' hentry word hword
  case entries =>
    intro frame entry' hentry hframe
    rcases hcases hentry with ⟨rfl, rfl⟩ | ⟨-, hentry⟩
    · exact hright.mono hle
    · exact (h.entries frame entry' hentry hframe).mono hle
  case classes =>
    intro id c hc
    obtain ⟨hid, hlt, hc⟩ := h.classes id c hc
    exact ⟨hid, hlt, hc.mono hle⟩
  case owners => exact h.owners
  case values =>
    intro frame name value hvalue
    dsimp only at hvalue
    rw [Frames.getIn_create] at hvalue
    split at hvalue
    · exact (hvalues name value hvalue).mono hle
    · exact (h.values frame name value hvalue).mono hle
  case fields =>
    intro id fields name value hid hvalue
    exact (h.fields id fields name value hid hvalue).mono hle

theorem addClass (h : L.Accounts hops S w) {c : Class} (hid : c.id = w.nextId)
    (hright : c.Right hops S L) :
    (L.addClass c).Accounts hops S { w with nextId := w.nextId + 1 } := by
  have hle : L ≤ L.addClass c := le_addClass (hid ▸ h.class_fresh)
  constructor
  case frames => exact h.frames
  case global => exact h.global
  case keywords => exact h.keywords
  case entries => exact fun frame entry hentry hframe => (h.entries frame entry hentry hframe).mono hle
  case classes =>
    intro id c' hc
    simp only [Ledger.addClass] at hc
    split at hc
    · rename_i hsame
      cases hc
      refine ⟨hsame.symm, ?_, hright.mono hle⟩
      rw [hsame, hid]
      exact Nat.lt_succ_self _
    · obtain ⟨hid', hlt, hright'⟩ := h.classes id c' hc
      exact ⟨hid', Nat.lt_succ_of_lt hlt, hright'.mono hle⟩
  case owners => exact h.owners
  case values => exact fun frame name value hvalue => (h.values frame name value hvalue).mono hle
  case fields =>
    exact fun id fields name value hid hvalue => (h.fields id fields name value hid hvalue).mono hle

theorem addObject (h : L.Accounts hops S w) (c : Class) :
    (L.addObject w.objects.size c).Accounts hops S { w with objects := w.objects.push .empty } := by
  have hle : L ≤ L.addObject w.objects.size c := le_addObject h.object_fresh c
  constructor
  case frames => exact h.frames
  case global => exact h.global
  case keywords => exact h.keywords
  case entries => exact fun frame entry hentry hframe => (h.entries frame entry hentry hframe).mono hle
  case classes =>
    intro id c hc
    obtain ⟨hid, hlt, hright⟩ := h.classes id c hc
    exact ⟨hid, hlt, hright.mono hle⟩
  case owners =>
    intro id
    simp only [Ledger.addObject, Array.size_push]
    split
    · rename_i hid
      rw [hid]
      exact iff_of_true rfl (Nat.lt_succ_self _)
    · rename_i hid
      rw [h.owners id]
      omega
  case values => exact fun frame name value hvalue => (h.values frame name value hvalue).mono hle
  case fields =>
    intro id fields name value hid hvalue
    dsimp only at hid
    rw [Array.getElem?_push] at hid
    split at hid
    · cases hid
      contradiction
    · exact (h.fields id fields name value hid hvalue).mono hle

theorem keyword_agree {hops' : HopTable} {L' later : Ledger} {w' : World} (h : L.Accounts hops S w)
    (h' : L'.Accounts hops' S w') (hle : L ≤ later) (hle' : L' ≤ later) {frame : FrameId}
    (hframe : frame < w.frames.frames.size) (hframe' : frame < w'.frames.frames.size) {word : String}
    (hword : isScopeKeyword word) : w.frames.getIn frame word = w'.frames.getIn frame word := by
  obtain ⟨entry, hentry⟩ := Option.isSome_iff_exists.1 ((h.frames frame).2 hframe)
  obtain ⟨entry', hentry'⟩ := Option.isSome_iff_exists.1 ((h'.frames frame).2 hframe')
  have hsame : entry = entry' := by
    have hlater := hle.frames frame entry hentry
    rw [hle'.frames frame entry' hentry'] at hlater
    exact (Option.some.inj hlater).symm
  rw [h.keywords frame entry hentry word hword, h'.keywords frame entry' hentry' word hword, hsame]

theorem entry_right (h : L.Accounts hops S w) {frame : FrameId} {entry : FrameEntry}
    (hentry : L.frames frame = some entry) (horigin : entry.origin ≠ .scope) :
    entry.Right hops S L frame := by
  apply h.entries frame entry hentry
  rintro rfl
  cases h.global.symm.trans hentry
  exact horigin rfl

theorem receiver_of_getIn (h : L.Accounts hops S w) {frame : FrameId} {entry : FrameEntry}
    (hentry : L.frames frame = some entry) {object : Value}
    (hobject : w.frames.getIn frame "this" = some object) :
    entry.origin = .receiver object ∧
      ∃ id c, object = .object id c ∧ L.owners id = some c ∧ L.classes c.id = some c := by
  rw [h.keywords frame entry hentry "this" (.inl rfl)] at hobject
  obtain ⟨origin, enclosing⟩ := entry
  cases origin with
  | scope => contradiction
  | superclass base inside => simp [Origin.keyword?] at hobject
  | receiver other =>
    cases hobject
    exact ⟨rfl, (h.entry_right hentry nofun).receiver object rfl⟩

/-- An environment starts with a frame that binds `this` where its slots start with that keyword. -/
theorem head_of_getAt (h : L.Accounts hops S w) {os : List Occurrence} {env : Environment}
    {chain : List Slot} (hchain : L.Chain os env chain) {object : Value}
    (hobject : w.frames.getAt env 0 "this" = some object) : chain.head? = some (.keyword "this") := by
  cases hchain with
  | global =>
    have horigin := (h.receiver_of_getIn h.global hobject).1
    contradiction
  | @inner frame origin env slot chain hentry hfits _ =>
    have horigin := (h.receiver_of_getIn hentry hobject).1
    cases horigin
    cases slot with
    | scope _ => exact hfits.elim
    | keyword word => rw [List.head?_cons, show word = "this" from hfits]

theorem getAt_of_head (h : L.Accounts hops S w) {os : List Occurrence} {env : Environment}
    {chain : List Slot} (hchain : L.Chain os env chain) (hhead : chain.head? = some (.keyword "this")) :
    ∃ object, w.frames.getAt env 0 "this" = some object := by
  cases hchain with
  | global => contradiction
  | @inner frame origin env slot chain hentry hfits _ =>
    cases hhead
    cases origin with
    | scope => exact hfits.elim
    | superclass base inside => exact absurd hfits.1 (by simp)
    | receiver object => exact ⟨object, h.keywords frame _ hentry "this" (.inl rfl)⟩

/-- Method lookup ends, as superclasses are older, and finds a method that is not bound. -/
theorem findMethod? (h : L.Accounts hops S w) {c : Class} (hc : L.classes c.id = some c) {name : String}
    {method : Closure} (hmethod : c.findMethod? name = some method) : method.EnteredUnbound hops L := by
  generalize hn : c.id = n at hc
  induction n using Nat.strongRecOn generalizing c with
  | ind n ih =>
    obtain ⟨-, -, hright⟩ := h.classes n c hc
    rcases Class.own_or_inherited hmethod with hown | ⟨-, base, hbase, hinherited⟩
    · exact hright.methods name method hown
    · obtain ⟨hentry, hbefore⟩ := hright.superclass base hbase
      have hlt : base.id < n := hn ▸ hbefore
      exact ih base.id hlt hinherited rfl hentry

end Ledger.Accounts

end Lox
