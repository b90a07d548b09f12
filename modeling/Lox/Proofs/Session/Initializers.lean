import Lox.Proofs.Evaluation.Returning
import Lox.Proofs.Session.Runs

/-!
Returns and initializers over a session. No statement of a program completes with a return outside of
functions; a class gives a new object of its own, an initializer the object that it is bound to; and what a
frame binds `this` and `super` to is settled when the frame is made.
-/
namespace Lox

section Closures

variable {hops : HopTable} {S : Nat → Job → World → Prop} {L : Ledger} {w : World} {closure : Closure}

theorem Closure.Entered.isInitializer_iff (h : closure.Entered hops L) (hw : L.Accounts hops S w) :
    closure.isInitializer = true ↔ closure.decl.isInitializer = true ∧
      (w.frames.getAt closure.env 0 "this").isSome = true := by
  obtain ⟨isMethod, around, hstands, hinitializer⟩ := h
  rw [hinitializer, and_congr_right_iff]
  intro _
  rw [Option.isSome_iff_exists]
  exact ⟨hw.getAt_of_head hstands.chain, fun ⟨_, hobject⟩ => hw.head_of_getAt hstands.chain hobject⟩

theorem Closure.Entered.receiver_object (h : closure.Entered hops L) (hw : L.Accounts hops S w)
    {object : Value} (hobject : w.frames.getAt closure.env 0 "this" = some object) :
    ∃ frame outer id c, closure.env = frame :: outer ∧ frame < w.frames.frames.size ∧
      object = .object id c := by
  obtain ⟨isMethod, around, ⟨hchain, -, -⟩, -⟩ := h
  generalize closure.env = env at hobject hchain ⊢
  generalize slots around = chain at hchain
  cases hchain with
  | global =>
    have horigin := (hw.receiver_of_getIn hw.global hobject).1
    contradiction
  | @inner frame origin outer _ _ hentry _ _ =>
    obtain ⟨-, id, c, hobject, -⟩ := hw.receiver_of_getIn hentry hobject
    refine ⟨frame, outer, id, c, rfl, ?_, hobject⟩
    rw [← hw.frames, hentry]
    rfl

end Closures

namespace Session

section Runs

variable {runs : List Run} (h : Executes runs) {r : Run} (hr : r ∈ runs)

include h

include hr in
theorem Executes.no_return {front : List Stmt} {stmt : Stmt} {rest : List Stmt}
    (hprogram : r.program = front ++ stmt :: rest) (fuel : Nat) (ctx : Context) :
    Falls (execute fuel ctx stmt) := by
  obtain ⟨s, source, -, -, hprepared⟩ := h.prepared r hr
  have hviolations := violations_of_prepare hprepared
  apply execute_falls
  have hreturns := @Stmt.returnsAny_eq_false [] rfl r.program hviolations
  rw [hprogram] at hreturns
  clear hprogram hviolations hprepared
  induction front with
  | nil =>
    rw [List.nil_append, Stmt.returnsAny, Bool.or_eq_false_iff] at hreturns
    exact hreturns.1
  | cons first front ih =>
    rw [List.cons_append, Stmt.returnsAny, Bool.or_eq_false_iff] at hreturns
    exact ih hreturns.2

theorem Executes.keyword_agree {values values' : List Value} {w w' : World} {r r' : Run} (hr : r ∈ runs)
    (hr' : r' ∈ runs) (hpasses : r.Passes values w) (hpasses' : r'.Passes values' w') {frame : FrameId}
    (hframe : frame < w.frames.frames.size) (hframe' : frame < w'.frames.frames.size) {word : String}
    (hword : isScopeKeyword word) : w.frames.getIn frame word = w'.frames.getIn frame word := by
  obtain ⟨L, hnoted⟩ := h.noted
  obtain ⟨L₀, hle, hw, -⟩ := (hnoted r hr).passes hpasses
  obtain ⟨L₁, hle', hw', -⟩ := (hnoted r' hr').passes hpasses'
  exact hw.keyword_agree hw' hle hle' hframe hframe' hword

include hr in
theorem Executes.initializer_yields {fuel : Nat} {ctx : Context} {closure : Closure}
    {args : List Value} {w : World} {object : Value} (hmeets : r.Meets fuel (.runBody ctx closure args) w)
    (hname : closure.decl.isInitializer = true)
    (hobject : w.frames.getAt closure.env 0 "this" = some object) :
    (∃ id c, object = .object id c) ∧
      ∀ value w', runBody fuel ctx closure args w = .ok value w' → value = object := by
  obtain ⟨L, hnoted⟩ := h.noted
  obtain ⟨L₀, -, hw, -, hclosure, -⟩ := ((hnoted r hr).met _ _ _ hmeets).started
  obtain ⟨frame, outer, id, c, henv, hframe, hinstance⟩ := hclosure.receiver_object hw hobject
  refine ⟨⟨id, c, hinstance⟩, fun value w' hrun => ?_⟩
  have hinitializer : closure.isInitializer = true := by
    rw [hclosure.isInitializer_iff hw, hobject]
    exact ⟨hname, rfl⟩
  have hended : r.Passes [value] w' := by
    apply Run.Passes.ended hmeets
    rw [Job.left?, hrun]
    rfl
  have hframe' : frame < w'.frames.frames.size := by
    have hgains := runBody_binds fuel ctx closure args [] w w' (by rw [hrun]; rfl)
    exact Nat.lt_of_lt_of_le hframe hgains.frames
  have hkept := h.keyword_agree hr hr (.started hmeets) hended hframe hframe' (.inl rfl)
  rw [henv] at hobject
  rw [receiver_of_runBody hinitializer hrun, henv]
  change (w'.frames.getIn frame "this").getD .nil = object
  rw [← hkept]
  change (w.frames.getAt (frame :: outer) 0 "this").getD .nil = object
  rw [hobject]
  rfl

end Runs

/-- Returns and initializers do what the static checks promise. In the runs of a session no statement of a
program completes with a return; a class that is called gives an object of its own that the call has made;
methods are read from objects, and through `super`, bound to their object, and a bound method with the name
of initializers, called as a function or by its class, gives that object, however its body ends; such
methods are the only initializers; and two states agree on what a frame binds `this` and `super` to. -/
theorem returns_follow_static_checks {runs : List Run} (h : Executes runs) :
    (∀ r ∈ runs, ∀ front stmt rest w, r.program = front ++ stmt :: rest →
      executeTop r.fuel r.session.topLevel front r.session.world = .ok () w →
      ∀ value w', execute r.fuel r.session.topLevel stmt w ≠ .ok (.returned value) w') ∧
    (∀ fuel ctx c args w value w', call fuel ctx (.cls c) args w = .ok value w' →
      value = .object w.objects.size c ∧ w.objects.size < w'.objects.size) ∧
    (∀ c property object w value w', methodOf c property object w = .ok value w' →
      ∃ method id closure, c.findMethod? property.lexeme = some method ∧
        value = .callable (.function id closure) ∧ closure.decl = method.decl ∧
        w'.frames.getAt closure.env 0 "this" = some object) ∧
    (∀ r ∈ runs, ∀ fuel ctx id closure args w object,
      r.Meets fuel (.call ctx (.function id closure) args) w → closure.decl.isInitializer = true →
      w.frames.getAt closure.env 0 "this" = some object → (∃ id c, object = .object id c) ∧
        ∀ value w', call fuel ctx (.function id closure) args w = .ok value w' → value = object) ∧
    (∀ r ∈ runs, ∀ fuel ctx closure args w object,
      r.Meets fuel (.runBody ctx closure args) w → closure.decl.isInitializer = true →
      w.frames.getAt closure.env 0 "this" = some object → (∃ id c, object = .object id c) ∧
        ∀ value w', runBody fuel ctx closure args w = .ok value w' → value = object) ∧
    (∀ r ∈ runs, ∀ w id closure, r.Shows w (.callable (.function id closure)) →
      (closure.isInitializer = true ↔ closure.decl.isInitializer = true ∧
        (w.frames.getAt closure.env 0 "this").isSome = true)) ∧
    ∀ r ∈ runs, ∀ r' ∈ runs, ∀ values values' w w', r.Passes values w → r'.Passes values' w' →
      ∀ frame, frame < w.frames.frames.size → frame < w'.frames.frames.size →
        ∀ word, word = "this" ∨ word = "super" →
          w.frames.getIn frame word = w'.frames.getIn frame word := by
  refine ⟨?_, ?_, ?_, ?_, ?_, ?_, ?_⟩
  · intro r hr front stmt rest w hprogram _ value w' hrun
    cases h.no_return hr hprogram r.fuel _ w _ w' hrun
  · intro fuel ctx c args w value w' hcall
    exact object_of_call hcall
  · intro c property object w value w' hread
    obtain ⟨method, id, closure, hmethod, hvalue, hdecl, -, -, hobject⟩ := bound_of_methodOf hread
    exact ⟨method, id, closure, hmethod, hvalue, hdecl, hobject⟩
  · intro r hr fuel ctx id closure args w object hmeets hname hobject
    cases fuel with
    | zero =>
      obtain ⟨L, hnoted⟩ := h.noted
      obtain ⟨L₀, -, hw, -, hclosure, -⟩ := ((hnoted r hr).met _ _ _ hmeets).started
      have hentered : closure.Entered r.session.hops L₀ := hclosure
      obtain ⟨-, -, id, c, -, -, hinstance⟩ := hentered.receiver_object hw hobject
      exact ⟨⟨id, c, hinstance⟩, nofun⟩
    | succ fuel => exact h.initializer_yields hr (hmeets.next .function) hname hobject
  · intro r hr fuel ctx closure args w object hmeets hname hobject
    exact h.initializer_yields hr hmeets hname hobject
  · intro r hr w id closure hshows
    obtain ⟨L, hnoted⟩ := h.noted
    obtain ⟨L₀, -, hw, hclosure⟩ := (hnoted r hr).shows hshows
    have hentered : closure.Entered r.session.hops L₀ := hclosure
    exact hentered.isInitializer_iff hw
  · intro r hr r' hr' values values' w w' hpasses hpasses' frame hframe hframe' word hword
    exact h.keyword_agree hr hr' hpasses hpasses' hframe hframe' hword

/-- Through `super` the initializer of a superclass gives the object, though its body returns nil. -/
theorem returns_follow_static_checks_super :
    ∃ fuel ctx id closure w c, delegatingRun.Meets fuel (.call ctx (.function id closure) []) w ∧
      closure.decl.name.lexeme = "init" ∧
      w.frames.getAt closure.env 0 "this" = some (.object 0 c) ∧
      ∃ w', call fuel ctx (.function id closure) [] w = .ok (.object 0 c) w' := by
  have hmeets : ∃ ctx id closure w, delegatingRun.Meets 13 (.call ctx (.function id closure) []) w ∧
      closure.decl.name.lexeme = "init" ∧
      (∃ c, w.frames.getAt closure.env 0 "this" = some (.object 0 c)) ∧
      ∃ value w', call 13 ctx (.function id closure) [] w = .ok value w' :=
    ⟨_, _, _, _, delegatingRun_meets.next (.call rfl rfl rfl (by decide)), rfl, ⟨_, rfl⟩, _, _, rfl⟩
  obtain ⟨ctx, id, closure, w, hmeets, hname, ⟨c, hobject⟩, value, w', hcall⟩ := hmeets
  have hyields := (returns_follow_static_checks executes_delegatingRun).2.2.2.1 delegatingRun
    (List.mem_singleton_self _) 13 ctx id closure [] w _ hmeets (by rw [FunDecl.isInitializer, hname]; rfl)
    hobject
  rw [hyields.2 value w' hcall] at hcall
  exact ⟨13, ctx, id, closure, w, c, hmeets, hname, hobject, w', hcall⟩

end Session

end Lox
