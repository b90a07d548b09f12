import Lox.Proofs.Evaluation.Basic
import Lox.Proofs.Scoping.Layout

/-!
Evaluations that search. Where an evaluation starts in a world that is laid out, and its constructs stand
where they should, it does the same whether names are found at their distances or by a search, and ends in
a world that is laid out.
-/
namespace Lox

/-- Two evaluations do the same in every world with a layout. Behind a value the layout has grown, and
the value is what is claimed of it. -/
def Agrees {α : Type} (plan : Plan) (layout : Layout) (m m' : Evaluation α)
    (Q : Layout → α → Prop) : Prop :=
  ∀ w : World, w.Laid plan layout → m w = m' w ∧
    ∀ value w', m w = .ok value w' → ∃ later, layout <+: later ∧ w'.Laid plan later ∧ Q later value

section Rules

variable {α β : Type} {plan : Plan} {layout : Layout} {m m' n n' : Evaluation α}
  {Q R : Layout → α → Prop}

theorem agrees_pure {value : α} (h : Q layout value) :
    Agrees plan layout (pure value) (pure value) Q := by
  intro w hw
  refine ⟨rfl, fun value' w' hrun => ?_⟩
  cases hrun
  exact ⟨layout, List.prefix_refl _, hw, h⟩

theorem agrees_exhausted : Agrees plan layout (Evaluation.exhausted : Evaluation α) .exhausted Q :=
  fun _ _ => ⟨rfl, fun _ _ hrun => nomatch hrun⟩

theorem agrees_raise (token : Token) (fault : RuntimeFault) :
    Agrees plan layout (Evaluation.raise token fault : Evaluation α) (.raise token fault) Q :=
  fun _ _ => ⟨rfl, fun _ _ hrun => nomatch hrun⟩

theorem Agrees.bind {next next' : α → Evaluation β} {R : Layout → β → Prop}
    (hm : Agrees plan layout m m' Q)
    (hnext : ∀ later value, layout <+: later → Q later value →
      Agrees plan later (next value) (next' value) R) :
    Agrees plan layout (m >>= next) (m' >>= next') R := by
  intro w hw
  obtain ⟨hsame, hends⟩ := hm w hw
  rw [Evaluation.bind_run, Evaluation.bind_run, ← hsame]
  cases hrun : m w with
  | ok value w' =>
    obtain ⟨later, hlater, hw', hvalue⟩ := hends value w' hrun
    obtain ⟨hsame', hends'⟩ := hnext later value hlater hvalue w' hw'
    refine ⟨hsame', fun last w'' hlast => ?_⟩
    obtain ⟨latest, hlatest, hw'', hvalue'⟩ := hends' last w'' hlast
    exact ⟨latest, hlater.trans hlatest, hw'', hvalue'⟩
  | error e w' => exact ⟨rfl, fun _ _ hlast => nomatch hlast⟩
  | exhausted => exact ⟨rfl, fun _ _ hlast => nomatch hlast⟩

theorem Agrees.ite {c : Prop} [Decidable c] (hm : Agrees plan layout m m' Q)
    (hn : Agrees plan layout n n' Q) :
    Agrees plan layout (if c then m else n) (if c then m' else n') Q := by
  split
  · exact hm
  · exact hn

theorem agrees_of_step (h : ∀ w : World, w.Laid plan layout →
    ∀ value w', m w = .ok value w' → w'.Laid plan layout ∧ Q layout value) :
    Agrees plan layout m m Q := by
  intro w hw
  refine ⟨rfl, fun value w' hrun => ?_⟩
  obtain ⟨hw', hvalue⟩ := h w hw value w' hrun
  exact ⟨layout, List.prefix_refl _, hw', hvalue⟩

end Rules

namespace World.Laid

variable {plan : Plan} {layout : Layout} {w : World}

theorem changeWorld (h : w.Laid plan layout) {w' : World} (hframes : w'.frames = w.frames)
    (hfields : ∀ (id : Nat) (fields : Bindings Value) (name : String) (value : Value),
      w'.objects[id]? = some fields → fields.get? name = some value → value.Laid plan layout) :
    w'.Laid plan layout := by
  constructor
  case size =>
    rw [hframes]
    exact h.size
  case global => exact h.global
  case holds =>
    rw [hframes]
    exact h.holds
  case keywords =>
    rw [hframes]
    exact h.keywords
  case values =>
    rw [hframes]
    exact h.values
  case fields => exact hfields

theorem defineIn (h : w.Laid plan layout) {frame : FrameId} {slot : Slot} {name : String}
    {value : Value} (hslot : layout[frame]? = some slot) (hholds : slot.holds name)
    (hvalue : value.Laid plan layout) :
    World.Laid plan layout { w with frames := w.frames.defineIn frame name value } := by
  constructor
  case size =>
    change layout.length = (w.frames.frames.modify frame _).size
    rw [Array.size_modify]
    exact h.size
  case global => exact h.global
  case holds =>
    intro frame' name' hbound
    dsimp only at hbound
    rw [Frames.getIn_defineIn] at hbound
    split at hbound
    · rename_i hsame
      rw [hsame.1, hsame.2]
      exact ⟨slot, hslot, hholds⟩
    · exact h.holds frame' name' hbound
  case keywords =>
    intro frame' word hword
    exact Frames.isSome_getIn_defineIn _ value (h.keywords frame' word hword)
  case values =>
    intro frame' name' value' hvalue'
    dsimp only at hvalue'
    rw [Frames.getIn_defineIn] at hvalue'
    split at hvalue'
    · obtain ⟨_, _, rfl⟩ := Option.map_eq_some_iff.1 hvalue'
      exact hvalue
    · exact h.values frame' name' value' hvalue'
  case fields => exact h.fields

end World.Laid

structure Slot.Fits (plan : Plan) (layout : Layout) (slot : Slot) (bindings : Bindings Value) : Prop where
  holds : ∀ name, (bindings.get? name).isSome = true → slot.holds name
  keyword : ∀ word, slot = .keyword word → (bindings.get? word).isSome = true
  values : ∀ name value, bindings.get? name = some value → value.Laid plan layout

theorem World.Laid.create {plan : Plan} {layout : Layout} {w : World} (h : w.Laid plan layout)
    {slot : Slot} {bindings : Bindings Value} (hfits : slot.Fits plan layout bindings)
    (enclosing : Environment) :
    World.Laid plan (layout ++ [slot])
      { w with frames := (w.frames.create bindings enclosing).1 } := by
  have hlater : layout <+: layout ++ [slot] := List.prefix_append _ _
  have hslot : (layout ++ [slot])[w.frames.frames.size]? = some slot := by
    rw [← h.size, List.getElem?_append_right (Nat.le_refl _), Nat.sub_self]
    rfl
  constructor
  case size =>
    simp only [List.length_append, List.length_singleton, Frames.create, Array.size_push, h.size]
  case global => exact Layout.getElem?_of_prefix hlater h.global
  case holds =>
    intro frame name hbound
    dsimp only at hbound
    rw [Frames.getIn_create] at hbound
    split at hbound
    · rename_i hframe
      rw [hframe]
      exact ⟨slot, hslot, hfits.holds name hbound⟩
    · obtain ⟨slot', hslot', hholds⟩ := h.holds frame name hbound
      exact ⟨slot', Layout.getElem?_of_prefix hlater hslot', hholds⟩
  case keywords =>
    intro frame word hword
    dsimp only
    rw [Frames.getIn_create]
    split
    · rename_i hframe
      rw [hframe, hslot] at hword
      exact hfits.keyword word (Option.some.inj hword)
    · rename_i hframe
      apply h.keywords frame word
      have hbelow := (List.getElem?_eq_some_iff.1 hword).1
      rw [List.length_append, List.length_singleton] at hbelow
      have hlt : frame < layout.length := by
        apply Nat.lt_of_le_of_ne (Nat.le_of_lt_succ hbelow)
        rw [h.size]
        exact hframe
      rwa [List.getElem?_append_left hlt] at hword
  case values =>
    intro frame name value hvalue
    dsimp only at hvalue
    rw [Frames.getIn_create] at hvalue
    split at hvalue
    · exact (hfits.values name value hvalue).mono hlater
    · exact (h.values frame name value hvalue).mono hlater
  case fields =>
    intro id fields name value hid hvalue
    exact (h.fields id fields name value hid hvalue).mono hlater

/-- An evaluation may start at a piece of code: its environment is laid out as the slots around, and the
constructs in the code stand where they should. -/
structure Plan.Stands (plan : Plan) (layout : Layout) (ctx : Context) (around : List Enclosure)
    (os : List Occurrence) : Prop where
  addressing : ctx.addressing = .distances plan.hops
  follows : layout.Follows ctx.env (slots around)
  good : ∀ o ∈ os, o.Good plan

namespace Plan.Stands

variable {plan : Plan} {layout later : Layout} {ctx : Context} {around : List Enclosure}
  {o : Occurrence} {os ps : List Occurrence}

theorem mono (h : plan.Stands layout ctx around os) (hlater : layout <+: later) :
    plan.Stands later ctx around os :=
  { h with follows := h.follows.mono hlater }

theorem left (h : plan.Stands layout ctx around (os ++ ps)) : plan.Stands layout ctx around os :=
  { h with good := fun o ho => h.good o (List.mem_append_left ps ho) }

theorem right (h : plan.Stands layout ctx around (os ++ ps)) : plan.Stands layout ctx around ps :=
  { h with good := fun o ho => h.good o (List.mem_append_right os ho) }

theorem head (h : plan.Stands layout ctx around (o :: os)) : o.Good plan :=
  h.good o (List.mem_cons_self ..)

theorem tail (h : plan.Stands layout ctx around (o :: os)) : plan.Stands layout ctx around os :=
  { h with good := fun o' ho => h.good o' (List.mem_cons_of_mem o ho) }

theorem inside (h : plan.Stands layout ctx around os) {env : Environment} {e : Enclosure}
    (hfollows : later.Follows env (e.slots ++ slots around)) :
    plan.Stands later { ctx with env } (e :: around) os :=
  ⟨h.addressing, hfollows, h.good⟩

end Plan.Stands

section Actions

variable {plan : Plan} {layout : Layout} {ctx : Context} {around : List Enclosure}
  {os : List Occurrence}

theorem isPlain_laid {value : Value} (h : value.IsPlain) : value.Laid plan layout := by
  cases value with
  | callable _ | object _ _ => exact h.elim
  | nil | bool _ | num _ | str _ => trivial

theorem agrees_operated {operation : Except RuntimeFault Value} (h : Operated operation)
    (op : Token) : Agrees plan layout (Evaluation.lift op operation) (Evaluation.lift op operation)
      fun later value => value.Laid plan later := by
  cases operation with
  | ok value => exact agrees_pure (isPlain_laid h)
  | error fault => exact agrees_raise op fault

theorem readVariable_agrees {name : Token}
    (hfind : ∀ w : World, w.Laid plan layout →
      ctx.find? w.frames name = ctx.searching.find? w.frames name) :
    Agrees plan layout (readVariable ctx name) (readVariable ctx.searching name)
      fun later value => value.Laid plan later := by
  intro w hw
  unfold readVariable
  rw [← hfind w hw]
  refine ⟨rfl, fun value w' hrun => ?_⟩
  cases hfound : ctx.find? w.frames name with
  | none =>
    rw [hfound] at hrun
    contradiction
  | some found =>
    rw [hfound] at hrun
    cases hrun
    obtain ⟨frame, -, hframe⟩ := Context.exists_of_find? hfound
    exact ⟨layout, List.prefix_refl _, hw, hw.values frame _ _ hframe⟩

theorem World.Laid.assign {w : World} (hw : w.Laid plan layout) {env : Environment} {name : String}
    {value : Value} {frames : Frames Value} (h : w.frames.assign env name value = some frames)
    (hvalue : value.Laid plan layout) : World.Laid plan layout { w with frames } := by
  obtain ⟨frame, hbound, rfl⟩ := Frames.bound_of_assign h
  obtain ⟨slot, hslot, hholds⟩ := hw.holds frame name hbound
  exact hw.defineIn hslot hholds hvalue

theorem assignVariable_agrees {name : Token} {value : Value}
    (h : plan.Stands layout ctx around (⟨.assignment name, around⟩ :: os))
    (hvalue : value.Laid plan layout) :
    Agrees plan layout (assignVariable ctx name value) (assignVariable ctx.searching name value)
      fun _ _ => True := by
  intro w hw
  have hsame := assign?_searching h.addressing h.follows hw value h.head
  unfold assignVariable
  rw [hsame]
  refine ⟨rfl, fun value' w' hrun => ?_⟩
  cases hassigned : ctx.searching.assign? w.frames name value with
  | none =>
    rw [hassigned] at hrun
    contradiction
  | some frames =>
    rw [hassigned] at hrun
    cases hrun
    exact ⟨layout, List.prefix_refl _, hw.assign hassigned hvalue, trivial⟩

theorem assignDeclared_agrees (env : Environment) (name : Token) {value : Value}
    (hvalue : value.Laid plan layout) :
    Agrees plan layout (assignDeclared env name value) (assignDeclared env name value)
      fun _ _ => True := by
  apply agrees_of_step
  intro w hw value' w' hrun
  unfold assignDeclared at hrun
  split at hrun
  · rename_i frames hassigned
    cases hrun
    exact ⟨hw.assign hassigned hvalue, trivial⟩
  · contradiction

theorem defineVariable_agrees {name : Token} {value : Value}
    (h : plan.Stands layout ctx around (⟨.declaration name, around⟩ :: os))
    (hvalue : value.Laid plan layout) :
    Agrees plan layout (defineVariable ctx.env name.lexeme value)
      (defineVariable ctx.env name.lexeme value) fun _ _ => True := by
  apply agrees_of_step
  intro w hw value' w' hrun
  cases hrun
  refine ⟨?_, trivial⟩
  cases henv : ctx.env with
  | nil => exact hw
  | cons frame outer =>
    have hframe : ctx.env[0]? = some frame := by
      rw [henv]
      rfl
    obtain ⟨slot, hslot, hlayout⟩ := h.follows.slot_at hw hframe
    apply hw.defineIn hlayout _ hvalue
    apply h.head slot
    rw [List.head?_eq_getElem?]
    exact hslot

theorem makeFrame_agrees {slot : Slot} {bindings : Bindings Value}
    (hfits : slot.Fits plan layout bindings) {enclosing : Environment} {chain : List Slot}
    (hfollows : layout.Follows enclosing chain) :
    Agrees plan layout (makeFrame bindings enclosing) (makeFrame bindings enclosing)
      fun later env => later.Follows env (slot :: chain) := by
  intro w hw
  refine ⟨rfl, fun env w' hrun => ?_⟩
  cases hrun
  have hlater : layout <+: layout ++ [slot] := List.prefix_append _ _
  refine ⟨layout ++ [slot], hlater, hw.create hfits enclosing, ?_⟩
  obtain ⟨inner, rfl, hinner⟩ := hfollows.mono hlater
  refine ⟨w.frames.frames.size :: inner, rfl, ?_⟩
  rw [List.map_cons, List.map_cons, hinner, ← hw.size,
    List.getElem?_append_right (Nat.le_refl _), Nat.sub_self]
  rfl

theorem makeObject_agrees {c : Class} (hc : c.Laid plan layout) :
    Agrees plan layout (makeObject c) (makeObject c) fun later value =>
      value.Laid plan later ∧ ∃ id, value = .object id c := by
  apply agrees_of_step
  intro w hw value w' hrun
  cases hrun
  refine ⟨hw.changeWorld rfl ?_, hc, _, rfl⟩
  intro id fields name value hid hvalue
  rw [Array.getElem?_push] at hid
  split at hid
  · cases hid
    contradiction
  · exact hw.fields id fields name value hid hvalue

theorem freshId_agrees : Agrees plan layout freshId freshId fun _ _ => True := by
  apply agrees_of_step
  intro w hw id w' hrun
  cases hrun
  exact ⟨hw.changeWorld rfl hw.fields, trivial⟩

theorem makeFunction_agrees {closure : Closure} (hclosure : closure.Laid plan layout) :
    Agrees plan layout (makeFunction closure) (makeFunction closure)
      fun later value => value.Laid plan later := by
  apply freshId_agrees.bind
  intro later id hlater _
  exact agrees_pure (Closure.Laid.mono hlater hclosure)

theorem receiver_agrees (method : Closure) :
    Agrees plan layout (receiver method) (receiver method)
      fun later value => value.Laid plan later := by
  apply agrees_of_step
  intro w hw value w' hrun
  cases hrun
  refine ⟨hw, ?_⟩
  cases hfound : w.frames.getAt method.env 0 "this" with
  | none =>
    rw [Option.getD_none]
    trivial
  | some value =>
    obtain ⟨frame, -, hframe⟩ := Frames.exists_of_getAt hfound
    exact hw.values frame _ value hframe

theorem readField?_agrees (id : Nat) (name : String) :
    Agrees plan layout (readField? id name) (readField? id name)
      fun later value? => ∀ value, value? = some value → value.Laid plan later := by
  apply agrees_of_step
  intro w hw value? w' hrun
  cases hrun
  refine ⟨hw, fun value hvalue => ?_⟩
  obtain ⟨fields, hid, hfield⟩ := Option.bind_eq_some_iff.1 hvalue
  exact hw.fields id fields name value hid hfield

theorem setField_agrees (id : Nat) (name : String) {value : Value} (hvalue : value.Laid plan layout) :
    Agrees plan layout (setField id name value) (setField id name value) fun _ _ => True := by
  apply agrees_of_step
  intro w hw _ w' hrun
  cases hrun
  refine ⟨hw.changeWorld rfl ?_, trivial⟩
  intro id' fields name' value' hid hfields
  rw [Array.getElem?_modify] at hid
  split at hid
  · obtain ⟨old, hold, rfl⟩ := Option.map_eq_some_iff.1 hid
    rw [Bindings.get?_insert] at hfields
    split at hfields
    · cases hfields
      exact hvalue
    · exact hw.fields id' old name' value' hold hfields
  · exact hw.fields id' fields name' value' hid hfields

theorem readClock_agrees :
    Agrees plan layout readClock readClock fun later value => value.Laid plan later := by
  apply agrees_of_step
  intro w hw value w' hrun
  cases hrun
  exact ⟨hw.changeWorld rfl hw.fields, trivial⟩

theorem printLine_agrees (keyword : Token) (text : String) :
    Agrees plan layout (printLine keyword text) (printLine keyword text) fun _ _ => True := by
  apply agrees_of_step
  intro w hw _ w' hrun
  unfold printLine at hrun
  dsimp only at hrun
  split at hrun
  · cases hrun
    exact ⟨hw.changeWorld rfl hw.fields, trivial⟩
  · contradiction

theorem fits_keyword {word : String} {value : Value} (hvalue : value.Laid plan layout) :
    (Slot.keyword word).Fits plan layout (.ofList [(word, value)]) := by
  constructor
  case holds =>
    intro name hname
    rw [Bindings.get?_singleton] at hname
    split at hname
    · assumption
    · contradiction
  case keyword =>
    rintro _ ⟨⟩
    rw [Bindings.get?_singleton, if_pos rfl]
    rfl
  case values =>
    intro name value' hvalue'
    rw [Bindings.get?_singleton] at hvalue'
    split at hvalue'
    · cases hvalue'
      exact hvalue
    · contradiction

theorem bindMethod_agrees {method : Closure} {receiver : Value}
    (hmethod : method.LaidUnbound plan layout) (hreceiver : receiver.Laid plan layout) :
    Agrees plan layout (bindMethod method receiver) (bindMethod method receiver)
      fun later bound => bound.Laid plan later := by
  obtain ⟨around, chain, hslots, hfollows, hgood⟩ := hmethod
  apply (makeFrame_agrees (fits_keyword hreceiver) hfollows).bind
  intro later env _ henv
  rw [← hslots] at henv
  exact agrees_pure ⟨true, around, henv, hgood⟩

theorem methodOf_agrees {c : Class} (hc : c.Laid plan layout) (property : Token) {receiver : Value}
    (hreceiver : receiver.Laid plan layout) :
    Agrees plan layout (methodOf c property receiver) (methodOf c property receiver)
      fun later value => value.Laid plan later := by
  unfold methodOf
  cases hmethod : c.findMethod? property.lexeme with
  | none => exact agrees_raise _ _
  | some method =>
    apply (bindMethod_agrees (hc _ method hmethod) hreceiver).bind
    intro later bound _ hbound
    exact makeFunction_agrees hbound

theorem readProperty_agrees {v : Value} (hv : v.Laid plan layout) (property : Token) :
    Agrees plan layout (readProperty v property) (readProperty v property)
      fun later value => value.Laid plan later := by
  cases v with
  | object id c =>
    apply (readField?_agrees id property.lexeme).bind
    intro later field hlater hfield
    cases field with
    | none => exact methodOf_agrees (Class.Laid.mono hlater hv) property (Value.Laid.mono hlater hv)
    | some value => exact agrees_pure (hfield value rfl)
  | nil | bool _ | num _ | str _ | callable _ => exact agrees_raise _ _

theorem readSuper_agrees {keyword : Token}
    (h : plan.Stands layout ctx around (⟨.super keyword, around⟩ :: os)) (method : Token) :
    Agrees plan layout (readSuper ctx keyword method) (readSuper ctx.searching keyword method)
      fun later value => value.Laid plan later := by
  obtain ⟨distance, hhop, hthis, hsuper⟩ := h.head
  intro w hw
  have hsame := findSuper?_searching h.addressing h.follows hw hhop hthis hsuper
  unfold readSuper
  rw [← hsame]
  refine ⟨rfl, ?_⟩
  split
  · rename_i parent id c hfound
    obtain ⟨⟨outer, -, hparent⟩, inner, -, hreceiver⟩ := Context.exists_of_findSuper? hfound
    have hreceiverLaid : (Value.object id c).Laid plan layout := hw.values inner _ _ hreceiver
    exact (methodOf_agrees (hw.values outer _ _ hparent) method hreceiverLaid w hw).2
  · nofun

theorem methodsEnvironment_agrees {name : Token} {parent? : Option Token} {superclass : Option Class}
    (hsame : parent?.isSome = superclass.isSome)
    (h : plan.Stands layout ctx around os)
    (hsuperclass : ∀ c, superclass = some c → c.Laid plan layout) :
    Agrees plan layout (methodsEnvironment ctx superclass) (methodsEnvironment ctx.searching superclass)
      fun later env => ∃ chain, slots (.classBody name parent? :: around) = .keyword "this" :: chain ∧
        later.Follows env chain := by
  cases superclass with
  | none =>
    cases parent? with
    | some parent => contradiction
    | none => exact agrees_pure ⟨_, rfl, h.follows⟩
  | some c =>
    cases parent? with
    | none => contradiction
    | some parent =>
      have hlaid : Value.Laid plan layout (.callable (.cls c)) := hsuperclass c rfl
      intro w hw
      obtain ⟨-, hends⟩ := makeFrame_agrees (fits_keyword hlaid) h.follows w hw
      refine ⟨rfl, fun env w' hrun => ?_⟩
      obtain ⟨later, hlater, hw', hfollows⟩ := hends env w' hrun
      exact ⟨later, hlater, hw', _, rfl, hfollows⟩

theorem laid_of_methodTable {env : Environment} {chain : List Slot} {id : Nat} {name : String}
    {superclass : Option Class} {methods : List FunDecl}
    (hslots : slots around = .keyword "this" :: chain) (hfollows : layout.Follows env chain)
    (hsuperclass : ∀ c, superclass = some c → c.Laid plan layout)
    (hgood : ∀ o ∈ FunDecl.occurrencesAll around methods, o.Good plan) :
    Class.Laid plan layout ⟨id, name, superclass, methodTable env methods⟩ := by
  intro property method hfind
  rcases Class.own_or_inherited hfind with hown | ⟨-, parent, hparent, hinherited⟩
  · obtain ⟨f, hf, rfl⟩ := exists_of_methodTable hown
    have hsubset := FunDecl.occurrences_subset hf around
    exact ⟨around, chain, hslots, hfollows, fun o ho => hgood o (hsubset ho)⟩
  · exact hsuperclass parent hparent property method hinherited

theorem declareClass_agrees {name : Token} {parent? : Option Token} {superclass : Option Class}
    {methods : List FunDecl}
    (h : plan.Stands layout ctx around (⟨.declaration name, around⟩ :: os))
    (hsame : parent?.isSome = superclass.isSome)
    (hsuperclass : ∀ c, superclass = some c → c.Laid plan layout)
    (hgood : ∀ o ∈ FunDecl.occurrencesAll (.classBody name parent? :: around) methods, o.Good plan) :
    Agrees plan layout (declareClass ctx name superclass methods)
      (declareClass ctx.searching name superclass methods) fun later flow => flow.Laid plan later := by
  rw [declareClass_eq, declareClass_eq]
  have hnil : Value.nil.Laid plan layout := trivial
  apply (defineVariable_agrees h hnil).bind
  intro layout₁ _ h₁ _
  apply (methodsEnvironment_agrees hsame (h.mono h₁) fun c hc => (hsuperclass c hc).mono h₁).bind
  rintro layout₂ env h₂ ⟨chain, hslots, hfollows⟩
  apply freshId_agrees.bind
  intro layout₃ id h₃ _
  have hlaid : Value.Laid plan layout₃
      (.callable (.cls ⟨id, name.lexeme, superclass, methodTable env methods⟩)) :=
    laid_of_methodTable hslots (hfollows.mono h₃)
      (fun c hc => (hsuperclass c hc).mono (h₁.trans (h₂.trans h₃))) hgood
  apply (assignDeclared_agrees ctx.env name hlaid).bind
  intro layout₄ _ _ _
  exact agrees_pure trivial

end Actions

end Lox
