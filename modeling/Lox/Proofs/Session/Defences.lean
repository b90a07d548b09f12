import Lox.Proofs.Evaluation.Keeping
import Lox.Proofs.Evaluation.Operating
import Lox.Proofs.Session.Classes
import Lox.Proofs.Session.Initializers

/-!
Branches that are there for safety only. The evaluator is prepared for trees and states that no source leads
to; in a session none of these branches is ever taken, whatever its programs do.
-/
namespace Lox

/-- A job takes a branch that is there for safety only. -/
inductive Defends (fuel : Nat) : Job → World → Prop
  | binary {ctx left op right w v w₁ v' w₂} (hleft : evaluate fuel ctx left w = .ok v w₁)
      (hright : evaluate fuel ctx right w₁ = .ok v' w₂)
      (h : binaryOperation op.kind v v' = .error .invalidBinaryOperator) :
      Defends fuel (.evaluate ctx (.binary left op right)) w
  | unary {ctx op operand w v w'} (hoperand : evaluate fuel ctx operand w = .ok v w')
      (h : unaryOperation op.kind v = .error .invalidUnaryOperator) :
      Defends fuel (.evaluate ctx (.unary op operand)) w
  /-- An initializer has run its body and finds no receiver to return. -/
  | receiver {ctx closure args w env w₁ flow w₂}
      (henv : makeFrame (.ofList ((closure.decl.params.map Token.lexeme).zip args)) closure.env w =
        .ok env w₁)
      (hbody : executeAll fuel { ctx with env } closure.decl.body w₁ = .ok flow w₂)
      (hinitializer : closure.isInitializer = true)
      (h : w₂.frames.getAt closure.env 0 "this" = none) : Defends fuel (.runBody ctx closure args) w
  /-- The name of a class is not found where the class has just been declared. -/
  | declaration {ctx name parent? superclass methods w e w'}
      (h : declareClass ctx name superclass methods w = .error e w') :
      Defends fuel (.execute ctx (.classDecl name parent? methods)) w
  | arguments {ctx closure args w} (h : args.length ≠ closure.decl.params.length) :
      Defends fuel (.runBody ctx closure args) w
  /-- There is no frame one further in than the one for the superclass. -/
  | receiverDistance {ctx hops keyword method w} (haddressing : ctx.addressing = .distances hops)
      (h : hops[keyword.index]? = some 0) : Defends fuel (.evaluate ctx (.super keyword method)) w

def Job.Fitting : Job → Prop
  | .call _ f args => f.arity = args.length
  | .runBody _ closure args => args.length = closure.decl.params.length
  | .evaluate _ _ | .evaluateAll _ _ | .execute _ _ | .executeAll _ _ => True

theorem Starts.fitting {fuel : Nat} {job next : Job} {w w' : World} (h : Starts fuel job w next w')
    (hjob : job.Fitting) : next.Fitting := by
  cases h with
  | call _ _ harity _ => exact harity
  | function => exact hjob.symm
  | initializer _ hmethod hinit =>
    cases hinit
    simp only [Job.Fitting, Callable.arity, hmethod, Option.map_some, Option.getD_some] at hjob
    exact hjob.symm
  | first _ | rightOperand _ | rightCondition _ _ | fieldValue _ | arguments _ | argument
  | restArguments _ | body _ | expression _ | block _ | onlyBranch _ _ | thenBranch _ _ | elseBranch _ _
  | turn _ _ | nextTurn _ _ _ | statement | restStatements _ => trivial

theorem Reaches.fitting {fuel fuel' : Nat} {job job' : Job} {w w' : World}
    (h : Reaches fuel job w fuel' job' w') (hjob : job.Fitting) : job'.Fitting := by
  induction h with
  | refl => exact hjob
  | next hstarts _ ih => exact ih (hstarts.fitting hjob)

theorem Run.Meets.fitting {r : Run} {fuel : Nat} {job : Job} {w : World} (h : r.Meets fuel job w) :
    job.Fitting := by
  obtain ⟨front, stmt, rest, w₀, -, -, hreaches⟩ := h
  exact hreaches.fitting trivial

theorem declareClass_succeeds {ctx : Context} {w : World} {frame : FrameId} {outer : Environment}
    (henv : ctx.env = frame :: outer) (hframe : frame < w.frames.frames.size) (name : Token)
    (superclass : Option Class) (methods : List FunDecl) :
    ∃ w', declareClass ctx name superclass methods w = .ok .normal w' := by
  obtain ⟨env, w₁, hmethods⟩ : ∃ env w₁, methodsEnvironment ctx superclass
      { w with frames := w.frames.define ctx.env name.lexeme .nil } = .ok env w₁ := by
    cases superclass <;> exact ⟨_, _, rfl⟩
  have hbound : ((w.frames.define ctx.env name.lexeme .nil).getIn frame name.lexeme).isSome = true := by
    rw [henv, Frames.define, Frames.getIn_defineIn_self hframe]
    rfl
  obtain ⟨w', hrun, -⟩ :=
    declareClass_declares henv hmethods (bound_of_methodsEnvironment hmethods hbound)
  exact ⟨w', hrun⟩

namespace Session

theorem operable_initial (clock : Clock) (console : Console) : (World.initial clock console).Operable := by
  constructor
  case bindings =>
    intro frame name value hbound
    obtain ⟨-, -, rfl⟩ := World.eq_of_getIn_initial hbound
    trivial
  case fields =>
    intro id fields name value hfields
    simp [World.initial] at hfields

theorem executeTop_upholds (fuel : Nat) (ctx : Context) {program : List Stmt}
    (h : Stmt.OperableAll program) : Upholds (executeTop fuel ctx program) fun _ => True := by
  induction program with
  | nil => exact upholds_pure trivial
  | cons s rest ih => exact (execute_upholds fuel ctx h.1).bind fun _ _ => ih h.2

theorem Reachable.operable {s : Session} (h : s.Reachable) : s.world.Operable := by
  induction h with
  | initial clock console => exact operable_initial clock console
  | debugParse _ _ ih => exact ih
  | @run fuel s source status s' _ hrun ih =>
    cases hprepared : (s.prepare source).2 with
    | none =>
      rw [run?_eq, hprepared] at hrun
      cases hrun
      exact { ih with }
    | some program =>
      rw [run?_loaded hprepared] at hrun
      obtain ⟨⟨e?, s''⟩, hexecute, hconclude⟩ := Option.map_eq_some_iff.1 hrun
      obtain ⟨w, rfl, hexecuted⟩ := execute?_eq_some hexecute
      obtain ⟨-, hparse, -⟩ := prepare_eq_some hprepared
      have hloaded : (s.loaded source program).world.Operable := { ih with }
      have hupheld := executeTop_upholds fuel (s.loaded source program).topLevel
        (operable_of_parse hparse) _ hloaded
      unfold topLevel at hupheld
      rw [hexecuted] at hupheld
      cases e? with
      | none =>
        cases hconclude
        exact hupheld.2
      | some e =>
        cases hconclude
        exact { hupheld.2 with }

section Runs

variable {runs : List Run} (h : Executes runs) {r : Run} (hr : r ∈ runs)

include h hr

theorem Executes.operable : r.session.world.Operable ∧ Stmt.OperableAll r.program := by
  obtain ⟨s, source, hreachable, hloaded, hprepared⟩ := h.prepared r hr
  obtain ⟨-, hparse, -⟩ := prepare_eq_some hprepared
  refine ⟨?_, operable_of_parse hparse⟩
  rw [hloaded]
  exact { hreachable.operable with }

theorem Executes.job_operable {fuel : Nat} {job : Job} {w : World} (hmeets : r.Meets fuel job w) :
    job.Operable ∧ w.Operable := by
  obtain ⟨hworld, hprogram⟩ := h.operable hr
  obtain ⟨front, stmt, rest, w₀, hsplit, hfront, hreaches⟩ := hmeets
  rw [hsplit] at hprogram
  have hoperable : Stmt.OperableAll front ∧ stmt.Operable := by
    clear hsplit hfront
    induction front with
    | nil => exact ⟨trivial, hprogram.1⟩
    | cons first front ih => exact ⟨⟨hprogram.1, (ih hprogram.2).1⟩, (ih hprogram.2).2⟩
  have hw₀ := ((executeTop_upholds r.fuel r.session.topLevel hoperable.1).ok hworld hfront).2
  exact hreaches.operable hw₀ hoperable.2

theorem Executes.receiver_found {fuel : Nat} {ctx : Context} {closure : Closure} {args : List Value}
    {w w₁ w₂ : World} {env : Environment} {flow : Flow}
    (hmeets : r.Meets (fuel + 1) (.runBody ctx closure args) w)
    (henv : makeFrame (.ofList ((closure.decl.params.map Token.lexeme).zip args)) closure.env w =
      .ok env w₁)
    (hbody : executeAll fuel { ctx with env } closure.decl.body w₁ = .ok flow w₂)
    (hinitializer : closure.isInitializer = true) :
    (w₂.frames.getAt closure.env 0 "this").isSome = true := by
  obtain ⟨L, hnoted⟩ := h.noted
  obtain ⟨L₀, -, hw, -, hclosure, -⟩ := ((hnoted r hr).met _ _ _ hmeets).started
  have hstart := ((hclosure.isInitializer_iff hw).1 hinitializer).2
  obtain ⟨object, hobject⟩ := Option.isSome_iff_exists.1 hstart
  obtain ⟨frame, outer, id, c, hframes, -, -⟩ := hclosure.receiver_object hw hobject
  have hkeeps : w.Keeps w₂ :=
    ((@makeFrame_binds [] _ _).keeps_ok henv).trans ((executeAll_binds fuel _ _).keeps_ok hbody)
  rw [hframes] at hstart ⊢
  exact hkeeps frame "this" hstart

theorem Executes.declares {fuel : Nat} {ctx : Context} {name : Token} {parent? : Option Token}
    {methods : List FunDecl} {w : World}
    (hmeets : r.Meets fuel (.execute ctx (.classDecl name parent? methods)) w)
    (superclass : Option Class) :
    ∃ w', declareClass ctx name superclass methods w = .ok .normal w' := by
  obtain ⟨L, hnoted⟩ := h.noted
  obtain ⟨L₀, -, hw, around, hcarries, -⟩ := ((hnoted r hr).met _ _ _ hmeets).started
  obtain ⟨frame, outer, henv⟩ := List.exists_cons_of_length_eq_add_one hcarries.chain.length_eq
  have hframe := hcarries.chain.lt hw frame (henv ▸ List.mem_cons_self ..)
  exact declareClass_succeeds henv hframe name superclass methods

end Runs

/-- No branch is taken that is there for safety only. What the runs of a session meet, from the first to
the last, has its operators in their places, arguments for its parameters, receivers for its initializers
and for `super`, and names for its classes; and no run ends with an operator that has no meaning. -/
theorem defensive_branches_dead {runs : List Run} (h : Executes runs) {r : Run} (hr : r ∈ runs) :
    (∀ fuel job w, r.Meets (fuel + 1) job w → ¬ Defends fuel job w) ∧
    ∀ e w, executeTop r.fuel r.session.topLevel r.program r.session.world = .error e w →
      e.fault ≠ .invalidBinaryOperator ∧ e.fault ≠ .invalidUnaryOperator := by
  constructor
  · intro fuel job w hmeets hdefends
    -- Each branch contradicts what holds of every job that is met.
    obtain ⟨hoperable, -⟩ := h.job_operable hr hmeets
    cases hdefends with
    | binary _ _ hfault => exact binaryOperation_placed hoperable.1 _ _ hfault (.inl rfl)
    | unary _ hfault => exact unaryOperation_placed hoperable.1 _ hfault (.inr rfl)
    | receiver henv hbody hinitializer hnone =>
      have hfound := h.receiver_found hr hmeets henv hbody hinitializer
      rw [hnone] at hfound
      contradiction
    | @declaration ctx name parent? superclass methods _ _ _ hfails =>
      obtain ⟨w', hsucceeds⟩ := h.declares hr hmeets superclass
      rw [hfails] at hsucceeds
      contradiction
    | arguments hlength => exact hlength hmeets.fitting
    | receiverDistance haddressing hzero =>
      obtain ⟨L, hnoted⟩ := h.noted
      obtain ⟨L₀, -, -, around, hstands⟩ := ((hnoted r hr).met _ _ _ hmeets).started
      obtain ⟨distance, hhop, -, -⟩ :=
        (hstands.seated _ (List.mem_singleton_self _)).superclass _ rfl
      cases haddressing.symm.trans hstands.addressing
      cases hzero.symm.trans hhop
  · intro e w hrun
    obtain ⟨hworld, hprogram⟩ := h.operable hr
    have hupheld := executeTop_upholds r.fuel r.session.topLevel hprogram _ hworld
    rw [hrun] at hupheld
    exact ⟨fun hfault => hupheld.1 (.inl hfault), fun hfault => hupheld.1 (.inr hfault)⟩

/-- In the initializer that calls the one it overrides, `super` has a frame for the receiver further in. -/
theorem defensive_branches_dead_delegating :
    delegatingRun.Meets 13 (.evaluate delegatingContext
      (.super ⟨.kwSuper, "super", 1, 20, .nil⟩ ⟨.identifier, "init", 1, 22, .nil⟩)) delegatingWorld ∧
    ¬ Defends 12 (.evaluate delegatingContext
      (.super ⟨.kwSuper, "super", 1, 20, .nil⟩ ⟨.identifier, "init", 1, 22, .nil⟩)) delegatingWorld := by
  have hmeets := delegatingRun_meets.next (.first rfl)
  exact ⟨hmeets, (defensive_branches_dead executes_delegatingRun (List.mem_singleton_self _)).1 12 _ _ hmeets⟩

end Session

end Lox
