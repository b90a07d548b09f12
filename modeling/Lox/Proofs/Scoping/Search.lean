import Lox.Proofs.Scoping.Agreement

/-!
Programs that search. Code whose constructs stand where they should does the same whether names are found
at their distances or by a search, however functions, methods and closures hand its environments on.
-/
namespace Lox

section Frames

variable {plan : Plan} {layout : Layout}

theorem fits_arguments (f : FunDecl) {args : List Value} (hargs : ∀ value ∈ args, value.Laid plan layout) :
    (Slot.scope (f.declared.map Token.lexeme)).Fits plan layout
      (.ofList ((f.params.map Token.lexeme).zip args)) := by
  constructor
  case holds =>
    intro name hname
    obtain ⟨value, hvalue⟩ := Option.isSome_iff_exists.1 hname
    have hparam := (List.of_mem_zip (Bindings.mem_of_get?_ofList hvalue)).1
    change name ∈ (f.params ++ declaredIn f.body).map Token.lexeme
    rw [List.map_append]
    exact List.mem_append_left _ hparam
  case keyword => nofun
  case values =>
    intro name value hvalue
    exact hargs value (List.of_mem_zip (Bindings.mem_of_get?_ofList hvalue)).2

theorem fits_empty (names : List String) : (Slot.scope names).Fits plan layout .empty := by
  constructor
  case holds => nofun
  case keyword => nofun
  case values => nofun

theorem good_body {isMethod : Bool} {around : List Enclosure} (f : FunDecl)
    (h : ∀ o ∈ f.occurrences isMethod around, o.Good plan) :
    ∀ o ∈ Stmt.occurrencesAll (.function isMethod f :: around) f.body, o.Good plan := by
  cases f with
  | mk name params body =>
    rw [FunDecl.occurrences] at h
    exact fun o ho => h o (List.mem_cons_of_mem _ ho)

end Frames

section Runs

variable {plan : Plan}

theorem classDecl_agrees {fuel : Nat} {layout : Layout} {ctx : Context} {around : List Enclosure}
    {name : Token} {superclass : Option Token} {methods : List FunDecl}
    (h : plan.Stands layout ctx around (Stmt.occurrences around (.classDecl name superclass methods))) :
    Agrees plan layout (execute (fuel + 1) ctx (.classDecl name superclass methods))
      (execute (fuel + 1) ctx.searching (.classDecl name superclass methods))
      fun later flow => flow.Laid plan later := by
  cases superclass with
  | none =>
    simp only [execute]
    rw [Stmt.occurrences] at h
    have hbase : (none : Option Token).isSome = (none : Option Class).isSome := rfl
    exact declareClass_agrees h hbase (by rintro _ ⟨⟩) h.tail.good
  | some parent =>
    simp only [execute]
    rw [Stmt.occurrences] at h
    have hparent := h.tail.tail
    apply (readVariable_agrees fun w hw =>
      find?_searching hparent.addressing hparent.follows hw hparent.head).bind
    intro layout₁ value h₁ hvalue
    cases value with
    | callable f =>
      cases f with
      | cls c =>
        have hsuperclass : ∀ c', some c = some c' → c'.Laid plan layout₁ := by
          rintro _ ⟨⟩
          exact hvalue
        exact declareClass_agrees (h.mono h₁) rfl hsuperclass hparent.tail.good
      | native _ | function _ _ => exact agrees_raise _ _
    | nil | bool _ | num _ | str _ | object _ _ => exact agrees_raise _ _

mutual

theorem evaluate_agrees (fuel : Nat) {layout : Layout} {ctx : Context} {around : List Enclosure}
    (e : Expr) (h : plan.Stands layout ctx around (e.occurrences around)) :
    Agrees plan layout (evaluate fuel ctx e) (evaluate fuel ctx.searching e)
      fun later value => value.Laid plan later := by
  cases fuel with
  | zero => exact agrees_exhausted
  | succ fuel =>
    cases e with
    | literal value => exact agrees_pure (isPlain_laid (isPlain_ofLiteral value))
    | var name =>
      exact readVariable_agrees fun w hw => find?_searching h.addressing h.follows hw h.head
    | this keyword =>
      obtain ⟨hthis, distance, hhop, hinnermost⟩ := h.head
      rw [← hthis] at hinnermost
      exact readVariable_agrees fun w hw =>
        find?_keyword_searching h.addressing h.follows hw hhop hinnermost
    | super keyword method => exact readSuper_agrees h method
    | group inner => exact evaluate_agrees fuel inner h
    | assign name value =>
      simp only [evaluate]
      apply (evaluate_agrees fuel value h.tail).bind
      intro layout₁ value h₁ hvalue
      apply (assignVariable_agrees (h.mono h₁) hvalue).bind
      intro layout₂ _ h₂ _
      exact agrees_pure (Value.Laid.mono h₂ hvalue)
    | unary op operand =>
      simp only [evaluate]
      apply (evaluate_agrees fuel operand h).bind
      intro layout₁ operand h₁ _
      exact agrees_operated (unaryOperation_operated op.kind operand) op
    | binary left op right =>
      simp only [evaluate]
      apply (evaluate_agrees fuel left h.left).bind
      intro layout₁ left h₁ _
      apply (evaluate_agrees fuel right (h.right.mono h₁)).bind
      intro layout₂ right h₂ _
      exact agrees_operated (binaryOperation_operated op.kind left right) op
    | logical left op right =>
      simp only [evaluate]
      apply (evaluate_agrees fuel left h.left).bind
      intro layout₁ left h₁ hleft
      apply Agrees.ite
      · exact agrees_pure hleft
      · exact evaluate_agrees fuel right (h.right.mono h₁)
    | get object property =>
      simp only [evaluate]
      apply (evaluate_agrees fuel object h).bind
      intro layout₁ object h₁ hobject
      exact readProperty_agrees hobject property
    | set object property value =>
      simp only [evaluate]
      apply (evaluate_agrees fuel object h.left).bind
      intro layout₁ object h₁ _
      cases object with
      | object id c =>
        apply (evaluate_agrees fuel value (h.right.mono h₁)).bind
        intro layout₂ value h₂ hvalue
        apply (setField_agrees id property.lexeme hvalue).bind
        intro layout₃ _ h₃ _
        exact agrees_pure (Value.Laid.mono h₃ hvalue)
      | nil | bool _ | num _ | str _ | callable _ => exact agrees_raise _ _
    | call callee paren args =>
      simp only [evaluate]
      apply (evaluate_agrees fuel callee h.left).bind
      intro layout₁ callee h₁ hcallee
      apply (evaluateAll_agrees fuel args (h.right.mono h₁)).bind
      intro layout₂ args h₂ hargs
      cases callee with
      | callable f =>
        apply Agrees.ite
        · exact agrees_raise _ _
        · apply Agrees.ite
          · exact agrees_raise _ _
          · have hctx : ({ ctx with depth := ctx.depth + 1 } : Context).addressing =
                .distances plan.hops := h.addressing
            exact call_agrees fuel hctx (Value.Laid.mono h₂ hcallee) hargs
      | nil | bool _ | num _ | str _ | object _ _ => exact agrees_raise _ _
termination_by fuel
decreasing_by all_goals omega

theorem evaluateAll_agrees (fuel : Nat) {layout : Layout} {ctx : Context} {around : List Enclosure}
    (es : List Expr) (h : plan.Stands layout ctx around (Expr.occurrencesAll around es)) :
    Agrees plan layout (evaluateAll fuel ctx es) (evaluateAll fuel ctx.searching es)
      fun later values => ∀ value ∈ values, value.Laid plan later := by
  cases fuel with
  | zero => exact agrees_exhausted
  | succ fuel =>
    cases es with
    | nil => exact agrees_pure nofun
    | cons e rest =>
      simp only [evaluateAll]
      apply (evaluate_agrees fuel e h.left).bind
      intro layout₁ value h₁ hvalue
      apply (evaluateAll_agrees fuel rest (h.right.mono h₁)).bind
      intro layout₂ values h₂ hvalues
      apply agrees_pure
      intro value' hvalue'
      rcases List.mem_cons.1 hvalue' with rfl | hvalue'
      · exact Value.Laid.mono h₂ hvalue
      · exact hvalues value' hvalue'
termination_by fuel
decreasing_by all_goals omega

theorem call_agrees (fuel : Nat) {layout : Layout} {ctx : Context}
    (hctx : ctx.addressing = .distances plan.hops) {f : Callable} {args : List Value}
    (hf : Value.Laid plan layout (.callable f)) (hargs : ∀ value ∈ args, value.Laid plan layout) :
    Agrees plan layout (call fuel ctx f args) (call fuel ctx.searching f args)
      fun later value => value.Laid plan later := by
  cases fuel with
  | zero => exact agrees_exhausted
  | succ fuel =>
    cases f with
    | native f =>
      cases f
      exact readClock_agrees
    | function id closure => exact runBody_agrees fuel hctx hf hargs
    | cls c =>
      simp only [call]
      apply (makeObject_agrees hf).bind
      rintro layout₁ _ h₁ ⟨hobject, id, rfl⟩
      cases hmethod : c.findMethod? initializerName with
      | none => exact agrees_pure hobject
      | some method =>
        apply (bindMethod_agrees (hobject _ method hmethod) hobject).bind
        intro layout₂ init h₂ hinit
        have hargsLater : ∀ value ∈ args, value.Laid plan layout₂ :=
          fun value hvalue => Value.Laid.mono (h₁.trans h₂) (hargs value hvalue)
        apply (runBody_agrees fuel hctx hinit hargsLater).bind
        intro layout₃ _ h₃ _
        exact agrees_pure (Value.Laid.mono (h₂.trans h₃) hobject)
termination_by fuel
decreasing_by all_goals omega

theorem runBody_agrees (fuel : Nat) {layout : Layout} {ctx : Context}
    (hctx : ctx.addressing = .distances plan.hops) {closure : Closure} {args : List Value}
    (hclosure : closure.Laid plan layout) (hargs : ∀ value ∈ args, value.Laid plan layout) :
    Agrees plan layout (runBody fuel ctx closure args) (runBody fuel ctx.searching closure args)
      fun later value => value.Laid plan later := by
  cases fuel with
  | zero => exact agrees_exhausted
  | succ fuel =>
    obtain ⟨isMethod, around, hfollows, hgood⟩ := hclosure
    simp only [runBody]
    apply (makeFrame_agrees (fits_arguments closure.decl hargs) hfollows).bind
    intro layout₁ env _ henv
    have hbody : plan.Stands layout₁ { ctx with env } (.function isMethod closure.decl :: around)
        (Stmt.occurrencesAll (.function isMethod closure.decl :: around) closure.decl.body) :=
      ⟨hctx, henv, good_body closure.decl hgood⟩
    apply (executeAll_agrees fuel closure.decl.body hbody).bind
    intro layout₂ flow _ hflow
    apply Agrees.ite
    · exact receiver_agrees closure
    · cases flow with
      | normal => exact agrees_pure trivial
      | returned value => exact agrees_pure hflow
termination_by fuel
decreasing_by all_goals omega

theorem execute_agrees (fuel : Nat) {layout : Layout} {ctx : Context} {around : List Enclosure}
    (s : Stmt) (h : plan.Stands layout ctx around (s.occurrences around)) :
    Agrees plan layout (execute fuel ctx s) (execute fuel ctx.searching s)
      fun later flow => flow.Laid plan later := by
  cases fuel with
  | zero => exact agrees_exhausted
  | succ fuel =>
    cases s with
    | expr e =>
      simp only [execute]
      apply (evaluate_agrees fuel e h).bind
      intro _ _ _ _
      exact agrees_pure trivial
    | print keyword value =>
      simp only [execute]
      apply (evaluate_agrees fuel value h).bind
      intro _ value _ _
      apply (printLine_agrees keyword value.text).bind
      intro _ _ _ _
      exact agrees_pure trivial
    | varDecl name init =>
      cases init with
      | none =>
        simp only [execute]
        have hnil : Value.nil.Laid plan layout := trivial
        apply (defineVariable_agrees h hnil).bind
        intro _ _ _ _
        exact agrees_pure trivial
      | some init =>
        simp only [execute]
        -- The initializer is no frame: its slots are those around the declaration.
        have hinit : plan.Stands layout ctx (.initializer name :: around)
            (init.occurrences (.initializer name :: around)) :=
          ⟨h.addressing, h.follows, h.tail.good⟩
        apply (evaluate_agrees fuel init hinit).bind
        intro layout₁ value h₁ hvalue
        apply (defineVariable_agrees (h.mono h₁) hvalue).bind
        intro _ _ _ _
        exact agrees_pure trivial
    | block body =>
      simp only [execute]
      apply (makeFrame_agrees (fits_empty ((declaredIn body).map Token.lexeme)) h.follows).bind
      intro layout₁ env _ henv
      exact executeAll_agrees fuel body (h.tail.inside henv)
    | ifThen condition yes =>
      simp only [execute]
      apply (evaluate_agrees fuel condition h.left).bind
      intro layout₁ condition h₁ _
      apply Agrees.ite
      · exact execute_agrees fuel yes (h.right.mono h₁)
      · exact agrees_pure trivial
    | ifElse condition yes no =>
      simp only [execute]
      apply (evaluate_agrees fuel condition h.left.left).bind
      intro layout₁ condition h₁ _
      apply Agrees.ite
      · exact execute_agrees fuel yes (h.left.right.mono h₁)
      · exact execute_agrees fuel no (h.right.mono h₁)
    | whileLoop condition body =>
      simp only [execute]
      apply (evaluate_agrees fuel condition h.left).bind
      intro layout₁ holds h₁ _
      apply Agrees.ite
      · apply (execute_agrees fuel body (h.right.mono h₁)).bind
        intro layout₂ flow h₂ hflow
        cases flow with
        | normal => exact execute_agrees fuel (.whileLoop condition body) (h.mono (h₁.trans h₂))
        | returned value => exact agrees_pure hflow
      · exact agrees_pure trivial
    | ret keyword value =>
      cases value with
      | none => exact agrees_pure trivial
      | some value =>
        simp only [execute]
        apply (evaluate_agrees fuel value h.tail).bind
        intro layout₁ value h₁ hvalue
        exact agrees_pure hvalue
    | funDecl function =>
      simp only [execute]
      apply (makeFunction_agrees ⟨false, around, h.follows, h.tail.good⟩).bind
      intro layout₁ value h₁ hvalue
      apply (defineVariable_agrees (h.mono h₁) hvalue).bind
      intro _ _ _ _
      exact agrees_pure trivial
    | classDecl name superclass methods => exact classDecl_agrees h
termination_by fuel
decreasing_by all_goals omega

theorem executeAll_agrees (fuel : Nat) {layout : Layout} {ctx : Context} {around : List Enclosure}
    (ss : List Stmt) (h : plan.Stands layout ctx around (Stmt.occurrencesAll around ss)) :
    Agrees plan layout (executeAll fuel ctx ss) (executeAll fuel ctx.searching ss)
      fun later flow => flow.Laid plan later := by
  cases fuel with
  | zero => exact agrees_exhausted
  | succ fuel =>
    cases ss with
    | nil => exact agrees_pure trivial
    | cons s rest =>
      simp only [executeAll]
      apply (execute_agrees fuel s h.left).bind
      intro layout₁ flow h₁ hflow
      cases flow with
      | normal => exact executeAll_agrees fuel rest (h.right.mono h₁)
      | returned value => exact agrees_pure hflow
termination_by fuel
decreasing_by all_goals omega

end

end Runs

end Lox
