import Lox.Proofs.Session.Runs

/-!
What is settled about frames, classes and objects once they are made. A frame lies in older ones, the last
of them the global one; the superclass of a class is older than it; and no step changes a class or makes an
object one of another class. So a method that an object is asked for is always the same one.
-/
namespace Lox

section Declared

variable {ctx : Context} {name : Token} {methods : List FunDecl} {w : World} {frame : FrameId}
  {outer : Environment} (henv : ctx.env = frame :: outer)

include henv

theorem declareClass_declares {superclass : Option Class} {env : Environment} {w₁ : World}
    (hmethods : methodsEnvironment ctx superclass
      { w with frames := w.frames.define ctx.env name.lexeme .nil } = .ok env w₁)
    (hbound : (w₁.frames.getIn frame name.lexeme).isSome = true) :
    ∃ w', declareClass ctx name superclass methods w = .ok .normal w' ∧
      w'.frames.get ctx.env name.lexeme =
        some (.callable (.cls ⟨w₁.nextId, name.lexeme, superclass, methodTable env methods⟩)) := by
  let value : Value := .callable (.cls ⟨w₁.nextId, name.lexeme, superclass, methodTable env methods⟩)
  have hassign : w₁.frames.assign ctx.env name.lexeme value =
      some (w₁.frames.defineIn frame name.lexeme value) := by
    rw [henv]
    exact Frames.assign_innermost hbound outer value
  refine ⟨{ w₁ with frames := w₁.frames.defineIn frame name.lexeme value, nextId := w₁.nextId + 1 }, ?_, ?_⟩
  · simp only [declareClass_eq, Evaluation.bind_run, defineVariable, Result.andThen, hmethods, freshId,
      assignDeclared]
    rw [hassign]
    rfl
  · rw [henv]
    exact Frames.get_innermost (Frames.getIn_defineIn_self (Frames.lt_of_isSome_getIn hbound) value) outer

theorem Class.MadeIn.declared {parent? : Option Token} {c : Class}
    (h : c.MadeIn ctx name methods w parent?) (hframe : frame < w.frames.frames.size) (fuel : Nat) :
    ∃ w', execute (fuel + 1) ctx (.classDecl name parent? methods) w = .ok .normal w' ∧
      w'.frames.get ctx.env name.lexeme = some (.callable (.cls c)) := by
  have hdefine : w.frames.define ctx.env name.lexeme .nil = w.frames.defineIn frame name.lexeme .nil := by
    rw [henv]
    rfl
  have hbound : (w.frames.define ctx.env name.lexeme .nil).getIn frame name.lexeme = some .nil := by
    rw [hdefine]
    exact Frames.getIn_defineIn_self hframe Value.nil
  have hsize : (w.frames.define ctx.env name.lexeme .nil).frames.size = w.frames.frames.size := by
    rw [hdefine]
    exact Array.size_modify
  cases h with
  | base =>
    have hmethods : methodsEnvironment ctx none
        { w with frames := w.frames.define ctx.env name.lexeme .nil } =
          .ok ctx.env { w with frames := w.frames.define ctx.env name.lexeme .nil } := rfl
    simp only [execute]
    apply declareClass_declares henv hmethods
    dsimp only
    rw [hbound]
    rfl
  | @derived parent base hparent =>
    let frames := ((w.frames.define ctx.env name.lexeme .nil).create
      (.ofList [("super", .callable (.cls base))]) ctx.env).1
    have hmethods : methodsEnvironment ctx (some base)
        { w with frames := w.frames.define ctx.env name.lexeme .nil } =
          .ok (w.frames.frames.size :: ctx.env) { w with frames } := by
      rw [← hsize]
      rfl
    simp only [execute, Evaluation.bind_run, hparent, Result.andThen]
    apply declareClass_declares henv hmethods
    dsimp only [frames]
    rw [Frames.getIn_create, hsize, if_neg (Nat.ne_of_lt hframe), hbound]
    rfl

end Declared

namespace Class

def lineage : Class → List Class
  | ⟨id, name, superclass, methods⟩ => ⟨id, name, superclass, methods⟩ ::
      match superclass with
      | none => []
      | some base => base.lineage

theorem findMethod?_eq (name : String) : ∀ c : Class,
    c.findMethod? name = c.lineage.findSome? fun k => k.methods.get? name
  | ⟨_, _, none, methods⟩ => by
    unfold findMethod? lineage
    rw [List.findSome?_cons]
    cases methods.get? name <;> rfl
  | ⟨_, _, some base, methods⟩ => by
    have hbase := findMethod?_eq name base
    unfold findMethod? lineage
    rw [List.findSome?_cons]
    cases methods.get? name with
    | none => exact hbase
    | some method => rfl

end Class

theorem Bindings.get?_ofList {α : Type} (entries : List (String × α)) (name : String) :
    (Bindings.ofList entries).get? name = (entries.reverse.find? (·.1 == name)).map Prod.snd := by
  unfold Bindings.ofList
  rw [List.foldl_eq_foldr_reverse]
  induction entries.reverse with
  | nil => rfl
  | cons entry rest ih =>
    rw [List.foldr_cons, Bindings.get?_insert, ih, List.find?_cons]
    by_cases hname : name = entry.1
    · rw [if_pos hname, hname, beq_self_eq_true]
      rfl
    · rw [if_neg hname, beq_eq_false_iff_ne.2 (Ne.symm hname)]

theorem get?_methodTable (env : Environment) (methods : List FunDecl) (name : String) :
    (methodTable env methods).get? name =
      (methods.reverse.find? (·.name.lexeme == name)).map fun m => ⟨m, env, m.isInitializer⟩ := by
  rw [methodTable, Bindings.get?_ofList, ← List.map_reverse, List.find?_map, Option.map_map]
  rfl

/-- Links that lead from a frame outwards, to older frames and in the end to the global one. -/
inductive Outward (enclosing : FrameId → Environment) : Environment → Prop
  | global (h : enclosing 0 = []) : Outward enclosing globalEnv
  | inner {frame} (holder : ∀ outer ∈ enclosing frame, outer < frame)
      (h : Outward enclosing (enclosing frame)) : Outward enclosing (frame :: enclosing frame)

theorem Outward.enclosing_eq {enclosing : FrameId → Environment} {frame : FrameId} {outer : Environment}
    (h : Outward enclosing (frame :: outer)) : enclosing frame = outer := by
  generalize henv : frame :: outer = env at h
  cases h with
  | global h =>
    cases henv
    exact h
  | inner _ _ =>
    cases henv
    rfl

def Job.environment? : Job → Option Environment
  | .evaluate ctx _ | .evaluateAll ctx _ | .execute ctx _ | .executeAll ctx _ => some ctx.env
  | .call _ _ _ => none
  | .runBody _ closure _ => some closure.env

/-- The environments that frames lie in, the classes by their identity and the classes of the objects. -/
structure Fixtures where
  enclosing : FrameId → Environment
  classes : Nat → Option Class
  owners : Nat → Option Class

/-- A class and its superclasses are the ones with their identities, older and older, and what class
statements have made. -/
structure Class.Settled (runs : List Run) (fixtures : Fixtures) (c : Class) : Prop where
  known : ∀ k ∈ c.lineage, fixtures.classes k.id = some k
  older : c.lineage.Pairwise fun k base => base.id < k.id
  made : ∀ k ∈ c.lineage, ∃ r ∈ runs, ∃ fuel ctx name parent? methods w,
    r.Meets fuel (.execute ctx (.classDecl name parent? methods)) w ∧ k.MadeIn ctx name methods w parent?
  methods : ∀ k ∈ c.lineage, ∀ name method, k.methods.get? name = some method →
    Outward fixtures.enclosing method.env

def Value.Settled (runs : List Run) (fixtures : Fixtures) : Value → Prop
  | .callable (.function _ closure) => Outward fixtures.enclosing closure.env
  | .callable (.cls c) => c.Settled runs fixtures
  | .object id c => fixtures.owners id = some c ∧ c.Settled runs fixtures
  | _ => True

/-- Reading a method gives the one that has been found, bound to the object, or it is undefined. -/
def Fetches (found : Option Closure) (property : Token) (object : Value) (w : World) :
    Result Value → Prop :=
  match found with
  | none => (· = .error ⟨property, .undefinedProperty property.lexeme⟩ w)
  | some method => fun result => ∃ id w', result = .ok (.callable (.function id
      ⟨method.decl, w.frames.frames.size :: method.env, method.isInitializer⟩)) w' ∧
      w'.frames.getIn w.frames.frames.size "this" = some object

theorem methodOf_fetches (c : Class) (property : Token) (object : Value) (w : World) :
    Fetches (c.findMethod? property.lexeme) property object w (methodOf c property object w) := by
  unfold Fetches methodOf
  cases c.findMethod? property.lexeme with
  | none => rfl
  | some method =>
    refine ⟨_, _, rfl, ?_⟩
    change (w.frames.create _ method.env).1.getIn w.frames.frames.size "this" = some object
    rw [Frames.getIn_create, if_pos rfl, Bindings.get?_singleton, if_pos rfl]

theorem readProperty_fetches {id : Nat} {c : Class} {property : Token} {w : World}
    (hfield : w.objects[id]?.bind (·.get? property.lexeme) = none) :
    Fetches (c.findMethod? property.lexeme) property (.object id c) w
      (readProperty (.object id c) property w) := by
  simp only [readProperty, Evaluation.bind_run, readField?, Result.andThen, hfield]
  exact methodOf_fetches c property (.object id c) w

namespace Ledger

def fixtures (L : Ledger) : Fixtures where
  enclosing frame := ((L.frames frame).map FrameEntry.enclosing).getD []
  classes := L.classes
  owners := L.owners

theorem enclosing_eq {L : Ledger} {frame : FrameId} {entry : FrameEntry}
    (h : L.frames frame = some entry) : L.fixtures.enclosing frame = entry.enclosing := by
  simp only [fixtures, h, Option.map_some, Option.getD_some]

namespace Accounts

variable {hops : HopTable} {runs : List Run} {L L' : Ledger} {w : World}
  (hw : L.Accounts hops (Run.Moments runs) w) (hle : L ≤ L')

include hw hle

theorem outward_global : Outward L'.fixtures.enclosing globalEnv :=
  .global (enclosing_eq (hle.frames _ _ hw.global))

theorem outward_inner {frame : FrameId} {entry : FrameEntry} (hentry : L.frames frame = some entry)
    (hframe : frame ≠ 0) (h : Outward L'.fixtures.enclosing entry.enclosing) :
    Outward L'.fixtures.enclosing (frame :: entry.enclosing) := by
  have holder := (hw.entries frame entry hentry hframe).outward
  rw [← enclosing_eq (hle.frames _ _ hentry)] at holder h ⊢
  exact .inner holder h

theorem outward_of_chain {os : List Occurrence} {env : Environment} {chain : List Slot}
    (h : L.Chain os env chain) : Outward L'.fixtures.enclosing env := by
  induction h with
  | global => exact hw.outward_global hle
  | @inner frame origin env slot chain hentry hfits hchain ih =>
    apply hw.outward_inner hle hentry _ ih
    rintro rfl
    cases hw.global.symm.trans hentry
    contradiction

theorem outward_frame {frame : FrameId} (hframe : frame < w.frames.frames.size) :
    Outward L'.fixtures.enclosing (frame :: L'.fixtures.enclosing frame) := by
  obtain ⟨entry, hentry⟩ := Option.isSome_iff_exists.1 ((hw.frames frame).2 hframe)
  rw [enclosing_eq (hle.frames _ _ hentry)]
  by_cases hglobal : frame = 0
  · subst hglobal
    cases hw.global.symm.trans hentry
    exact hw.outward_global hle
  · obtain ⟨chain, hchain⟩ := (hw.entries frame entry hentry hglobal).enclosing
    exact hw.outward_inner hle hentry hglobal (hw.outward_of_chain hle hchain)

omit hle in
/-- Superclasses have entries, too, and are older. -/
theorem lineage_known : ∀ c : Class, L.classes c.id = some c →
    c.lineage.Pairwise (fun k base => base.id < k.id) ∧
      ∀ k ∈ c.lineage, L.classes k.id = some k ∧ k.id ≤ c.id
  | ⟨id, name, none, methods⟩, hc => by
    unfold Class.lineage
    exact ⟨List.pairwise_singleton _ _, List.forall_mem_singleton.2 ⟨hc, Nat.le_refl _⟩⟩
  | ⟨id, name, some base, methods⟩, hc => by
    obtain ⟨hbase, holder⟩ := (hw.classes _ _ hc).2.2.superclass base rfl
    obtain ⟨hpairwise, hknown⟩ := lineage_known base hbase
    have hlt : ∀ k ∈ base.lineage, k.id < id := fun k hk => Nat.lt_of_le_of_lt (hknown k hk).2 holder
    unfold Class.lineage
    refine ⟨List.pairwise_cons.2 ⟨hlt, hpairwise⟩, List.forall_mem_cons.2 ⟨⟨hc, Nat.le_refl _⟩, ?_⟩⟩
    exact fun k hk => ⟨(hknown k hk).1, Nat.le_of_lt (hlt k hk)⟩

theorem settled_class {c : Class} (hc : L.classes c.id = some c) : c.Settled runs L'.fixtures := by
  obtain ⟨hpairwise, hknown⟩ := hw.lineage_known c hc
  have hright : ∀ k ∈ c.lineage, k.Right hops (Run.Moments runs) L := fun k hk =>
    (hw.classes _ _ (hknown k hk).1).2.2
  constructor
  case known => exact fun k hk => hle.classes _ _ (hknown k hk).1
  case older => exact hpairwise
  case made =>
    intro k hk
    obtain ⟨fuel, ctx, name, parent?, methods, w₀, ⟨r, hr, hmeets⟩, hmade⟩ := (hright k hk).made
    exact ⟨r, hr, fuel, ctx, name, parent?, methods, w₀, hmeets, hmade⟩
  case methods =>
    intro k hk name method hmethod
    obtain ⟨around, chain, -, hstands, -⟩ := (hright k hk).methods name method hmethod
    exact hw.outward_of_chain hle hstands.chain

theorem settled_value {value : Value} (h : value.Entered hops L) : value.Settled runs L'.fixtures := by
  unfold Value.Entered at h
  unfold Value.Settled
  split
  · obtain ⟨isMethod, around, hstands, -⟩ := h
    exact hw.outward_of_chain hle hstands.chain
  · exact hw.settled_class hle h
  · exact ⟨hle.owners _ _ h.1, hw.settled_class hle h.2⟩
  · trivial

theorem outward_job {job : Job} (h : job.Entered hops L) {env : Environment}
    (henv : job.environment? = some env) : Outward L'.fixtures.enclosing env := by
  cases job with
  | evaluate ctx e | evaluateAll ctx es =>
    cases henv
    obtain ⟨around, hstands⟩ := h
    exact hw.outward_of_chain hle hstands.chain
  | execute ctx s | executeAll ctx ss =>
    cases henv
    obtain ⟨around, hcarries, -⟩ := h
    exact hw.outward_of_chain hle hcarries.chain
  | call ctx f args => contradiction
  | runBody ctx closure args =>
    cases henv
    obtain ⟨isMethod, around, hstands, -⟩ := h.2.1
    exact hw.outward_of_chain hle hstands.chain

end Accounts

end Ledger

namespace Session

/-- Classes are immutable, and method lookup is well founded. In the runs of a session, from the first to
the last, one assignment of environments to frames, of classes to identities and of classes to objects
holds of every state: frames lie in older ones, up to the global one; of a class and its superclasses each
is older than the one before it, and is what a class statement has made; objects never change class.
Method lookup takes the method from the nearest of the classes that has one, and there the one declared
last. So whatever happens between two reads of a property of an object that has no such field, they give
the same method, bound to the object, or are both undefined. -/
theorem classes_are_immutable {runs : List Run} (h : Executes runs) :
    (∃ fixtures : Fixtures,
      (∀ r ∈ runs, ∀ values w, r.Passes values w → ∀ frame < w.frames.frames.size,
        Outward fixtures.enclosing (frame :: fixtures.enclosing frame)) ∧
      (∀ r ∈ runs, ∀ fuel job w env, r.Meets fuel job w → job.environment? = some env →
        Outward fixtures.enclosing env) ∧
      ∀ r ∈ runs, ∀ w value, r.Shows w value → value.Settled runs fixtures) ∧
    (∀ (c : Class) (name : String),
      c.findMethod? name = c.lineage.findSome? fun k => k.methods.get? name) ∧
    (∀ (env : Environment) (methods : List FunDecl) (name : String),
      (methodTable env methods).get? name =
        (methods.reverse.find? (·.name.lexeme == name)).map fun m => ⟨m, env, m.isInitializer⟩) ∧
    ∀ (id : Nat) (name : String), ∃ found : Option Closure, ∀ r ∈ runs, ∀ w c property,
      r.Shows w (.object id c) → property.lexeme = name → w.objects[id]?.bind (·.get? name) = none →
        Fetches found property (.object id c) w (readProperty (.object id c) property w) := by
  obtain ⟨L, hnoted⟩ := h.noted
  refine ⟨⟨L.fixtures, ?_, ?_, ?_⟩, fun c name => c.findMethod?_eq name, get?_methodTable, ?_⟩
  · intro r hr values w hpasses frame hframe
    obtain ⟨L₀, hle, hw, -⟩ := (hnoted r hr).passes hpasses
    exact hw.outward_frame hle hframe
  · intro r hr fuel job w env hmeets henv
    obtain ⟨L₀, hle, hw, hentered⟩ := ((hnoted r hr).met _ _ _ hmeets).started
    exact hw.outward_job hle hentered henv
  · intro r hr w value hshows
    obtain ⟨L₀, hle, hw, hentered⟩ := (hnoted r hr).shows hshows
    exact hw.settled_value hle hentered
  · intro id name
    refine ⟨(L.owners id).bind (·.findMethod? name), ?_⟩
    rintro r hr w c property hshows rfl hfield
    obtain ⟨L₀, hle, -, hentered⟩ := (hnoted r hr).shows hshows
    rw [hle.owners _ _ hentered.1]
    exact readProperty_fetches hfield

/-- The object that is being initialized. -/
theorem classes_are_immutable_delegating :
    ∃ (fixtures : Fixtures) (found : Option Closure),
      fixtures.enclosing 3 = [2, 1, 0] ∧ fixtures.owners 0 = some overridingClass ∧
      fixtures.classes 1 = some overridingClass ∧ fixtures.classes 0 = some overriddenClass ∧
      Fetches found ⟨.identifier, "init", 1, 22, .nil⟩ (.object 0 overridingClass) delegatingWorld
        (readProperty (.object 0 overridingClass) ⟨.identifier, "init", 1, 22, .nil⟩ delegatingWorld) := by
  obtain ⟨⟨fixtures, -, henvironments, hvalues⟩, -, -, hreads⟩ :=
    classes_are_immutable executes_delegatingRun
  obtain ⟨found, hfound⟩ := hreads 0 "init"
  have hr : delegatingRun ∈ [delegatingRun] := List.mem_singleton_self _
  have hobject : delegatingRun.Shows delegatingWorld (.object 0 overridingClass) :=
    ⟨_, .started delegatingRun_meets, .inr (.inl ⟨2, "this", rfl⟩)⟩
  have houtward := henvironments delegatingRun hr _ _ _ _ delegatingRun_meets rfl
  have hsettled := hvalues delegatingRun hr _ _ hobject
  refine ⟨fixtures, found, houtward.enclosing_eq, hsettled.1, ?_, ?_, ?_⟩
  · exact hsettled.2.known overridingClass (List.mem_cons_self ..)
  · exact hsettled.2.known overriddenClass (List.mem_cons_of_mem _ (List.mem_cons_self ..))
  · exact hfound delegatingRun hr _ _ ⟨.identifier, "init", 1, 22, .nil⟩ hobject rfl rfl

end Session

end Lox
