import Lox.Proofs.Scoping.Bookkeeping

/-!
Evaluations keep the books. The induction follows the evaluator: what a piece of code starts is entered in
the ledger that the code before it has left.
-/
namespace Lox

theorem FunDecl.body_subset (f : FunDecl) (isMethod : Bool) (around : List Enclosure) :
    Stmt.occurrencesAll (.function isMethod f :: around) f.body ⊆ f.occurrences isMethod around := by
  cases f with
  | mk name params body =>
    rw [FunDecl.occurrences]
    exact List.subset_cons_self _ _

theorem FunDecl.orderly_body {f : FunDecl} (h : f.Orderly) : Stmt.OrderlyAll f.body := by
  cases f with
  | mk name params body => exact h

theorem FunDecl.params_plain {f : FunDecl} {hops : HopTable} {isMethod : Bool}
    {around : List Enclosure} (h : ∀ o ∈ f.occurrences isMethod around, o.Seated hops) :
    ∀ name ∈ f.params.map Token.lexeme, ¬ isScopeKeyword name := by
  have hplain : Plain (.function isMethod f :: around) := by
    cases f with
    | mk name params body =>
      rw [FunDecl.occurrences] at h
      exact (h _ (List.mem_cons_self ..)).plain
  intro name hname
  apply hplain (f.declared.map Token.lexeme) (List.mem_cons_self ..)
  rw [FunDecl.declared, List.map_append]
  exact List.mem_append_left _ hname

/-- Jobs that are started from given ones are among them. -/
def ClosedUnderStarts (S : Nat → Job → World → Prop) : Prop :=
  ∀ fuel job w next w', S (fuel + 1) job w → Starts fuel job w next w' → S fuel next w'

theorem ClosedUnderStarts.started {S : Nat → Job → World → Prop} (hS : ClosedUnderStarts S) {fuel : Nat}
    {job next : Job} {w w' : World} (hjob : S (fuel + 1) job w) (hstarts : Starts fuel job w next w') :
    S fuel next w' := hS fuel job w next w' hjob hstarts

/-- Evaluations with some fuel keep the books. -/
structure DepthCovers (hops : HopTable) (S : Nat → Job → World → Prop) (fuel : Nat) : Prop where
  evaluate {L : Ledger} {ctx : Context} {around : List Enclosure} {w : World} (e : Expr)
    (hjob : S fuel (.evaluate ctx e) w) (hw : L.Accounts hops S w)
    (h : L.Stands hops ctx around (e.occurrences around)) :
    Covers hops S L (evaluate fuel ctx e w) (Reaches fuel (.evaluate ctx e) w)
      fun L' value => value.Entered hops L'
  evaluateAll {L : Ledger} {ctx : Context} {around : List Enclosure} {w : World} (es : List Expr)
    (hjob : S fuel (.evaluateAll ctx es) w) (hw : L.Accounts hops S w)
    (h : L.Stands hops ctx around (Expr.occurrencesAll around es)) :
    Covers hops S L (evaluateAll fuel ctx es w) (Reaches fuel (.evaluateAll ctx es) w)
      fun L' values => ∀ value ∈ values, value.Entered hops L'
  call {L : Ledger} {ctx : Context} {w : World} (f : Callable) (args : List Value)
    (hjob : S fuel (.call ctx f args) w) (hw : L.Accounts hops S w)
    (hctx : ctx.addressing = .distances hops) (hf : Value.Entered hops L (.callable f))
    (hargs : ∀ value ∈ args, value.Entered hops L) :
    Covers hops S L (call fuel ctx f args w) (Reaches fuel (.call ctx f args) w)
      fun L' value => value.Entered hops L'
  runBody {L : Ledger} {ctx : Context} {w : World} (closure : Closure) (args : List Value)
    (hjob : S fuel (.runBody ctx closure args) w) (hw : L.Accounts hops S w)
    (hctx : ctx.addressing = .distances hops) (hclosure : closure.Entered hops L)
    (hargs : ∀ value ∈ args, value.Entered hops L) :
    Covers hops S L (runBody fuel ctx closure args w) (Reaches fuel (.runBody ctx closure args) w)
      fun L' value => value.Entered hops L'
  execute {L : Ledger} {ctx : Context} {around : List Enclosure} {w : World} (s : Stmt)
    (hjob : S fuel (.execute ctx s) w) (hw : L.Accounts hops S w)
    (h : L.Carries hops ctx around (s.occurrences around)) (horderly : s.Orderly) :
    Covers hops S L (execute fuel ctx s w) (Reaches fuel (.execute ctx s) w)
      fun L' flow => flow.Entered hops L'
  executeAll {L : Ledger} {ctx : Context} {around : List Enclosure} {w : World} (ss : List Stmt)
    (hjob : S fuel (.executeAll ctx ss) w) (hw : L.Accounts hops S w)
    (h : L.Carries hops ctx around (Stmt.occurrencesAll around ss)) (horderly : Stmt.OrderlyAll ss) :
    Covers hops S L (executeAll fuel ctx ss w) (Reaches fuel (.executeAll ctx ss) w)
      fun L' flow => flow.Entered hops L'

section Step

variable {hops : HopTable} {S : Nat → Job → World → Prop} (hS : ClosedUnderStarts S) {fuel : Nat}
  (ih : DepthCovers hops S fuel) {L : Ledger} {ctx : Context} {around : List Enclosure} {w : World}

section Expressions

variable (hw : L.Accounts hops S w)

include hS ih hw

theorem binaryExpr_covers {left right : Expr} {op : Token}
    (hjob : S (fuel + 1) (.evaluate ctx (.binary left op right)) w)
    (h : L.Stands hops ctx around (Expr.occurrences around (.binary left op right))) :
    Covers hops S L (evaluate (fuel + 1) ctx (.binary left op right) w)
      (Started fuel (.evaluate ctx (.binary left op right)) w) fun L' value => value.Entered hops L' := by
  simp only [evaluate]
  apply Covers.weaken
  · apply (ih.evaluate left (hS.started hjob (.first rfl)) hw h.left).bind
    intro L₁ left w₁ h₁ hleft hw₁ _
    apply (ih.evaluate right (hS.started hjob (.rightOperand hleft)) hw₁ (h.right.mono h₁)).step
    intro L₂ right w₂ _ _ hw₂ _
    exact covers_operated hw₂ (binaryOperation_operated op.kind left right) op
  · rintro _ _ _ ⟨_, _, hstart, hrest⟩
    cases hstart with
    | first hpart =>
      cases hpart
      exact .inl hrest
    | rightOperand hleft => exact .inr ⟨_, _, hleft, hrest⟩

theorem logicalExpr_covers {left right : Expr} {op : Token}
    (hjob : S (fuel + 1) (.evaluate ctx (.logical left op right)) w)
    (h : L.Stands hops ctx around (Expr.occurrences around (.logical left op right))) :
    Covers hops S L (evaluate (fuel + 1) ctx (.logical left op right) w)
      (Started fuel (.evaluate ctx (.logical left op right)) w) fun L' value => value.Entered hops L' := by
  simp only [evaluate]
  apply Covers.weaken
  · apply (ih.evaluate left (hS.started hjob (.first rfl)) hw h.left).bind
      (N := fun left w₁ fuel' job' w' => settles op.kind left = false ∧
        Reaches fuel (.evaluate ctx right) w₁ fuel' job' w')
    intro L₁ left w₁ h₁ hleft hw₁ hvalue
    apply Covers.ite
    · intro hsettled
      exact (covers_pure hw₁ hvalue).never (by simp [hsettled])
    · intro hopen
      have hright := hS.started hjob (.rightCondition hleft (Bool.eq_false_iff.2 hopen))
      exact (ih.evaluate right hright hw₁ (h.right.mono h₁)).when
  · rintro _ _ _ ⟨_, _, hstart, hrest⟩
    cases hstart with
    | first hpart =>
      cases hpart
      exact .inl hrest
    | rightCondition hleft hopen => exact .inr ⟨_, _, hleft, hopen, hrest⟩

theorem setExpr_covers {object value : Expr} {property : Token}
    (hjob : S (fuel + 1) (.evaluate ctx (.set object property value)) w)
    (h : L.Stands hops ctx around (Expr.occurrences around (.set object property value))) :
    Covers hops S L (evaluate (fuel + 1) ctx (.set object property value) w)
      (Started fuel (.evaluate ctx (.set object property value)) w)
      fun L' value => value.Entered hops L' := by
  simp only [evaluate]
  apply Covers.weaken
  · apply (ih.evaluate object (hS.started hjob (.first rfl)) hw h.left).bind
      (N := fun object w₁ fuel' job' w' => (∃ id c, object = .object id c) ∧
        Reaches fuel (.evaluate ctx value) w₁ fuel' job' w')
    intro L₁ object w₁ h₁ hobject hw₁ _
    cases object with
    | object id c =>
      apply Covers.when
      apply (ih.evaluate value (hS.started hjob (.fieldValue hobject)) hw₁ (h.right.mono h₁)).step
      intro L₂ value w₂ _ _ hw₂ hvalue
      apply (setField_covers hw₂ id property.lexeme hvalue).step
      intro L₃ _ w₃ h₃ _ hw₃ _
      exact covers_pure hw₃ (hvalue.mono h₃)
    | nil | bool _ | num _ | str _ | callable _ => exact (covers_raise _ _ hw₁).never (by simp)
  · rintro _ _ _ ⟨_, _, hstart, hrest⟩
    cases hstart with
    | first hpart =>
      cases hpart
      exact .inl hrest
    | fieldValue hobject => exact .inr ⟨_, _, hobject, ⟨_, _, rfl⟩, hrest⟩

omit hS in
/-- A callable is entered with as many arguments as it takes, unless there are too many calls. -/
theorem admitted_covers {f : Callable} {values : List Value} (paren : Token)
    (hjob : f.arity = values.length → ctx.depth < maxCallDepth →
      S fuel (.call { ctx with depth := ctx.depth + 1 } f values) w)
    (hctx : ctx.addressing = .distances hops) (hf : Value.Entered hops L (.callable f))
    (hvalues : ∀ value ∈ values, value.Entered hops L) :
    Covers hops S L
      ((if f.arity ≠ values.length then Evaluation.raise paren (.wrongArity f.arity values.length)
        else if maxCallDepth ≤ ctx.depth then Evaluation.raise paren .stackOverflow
        else call fuel { ctx with depth := ctx.depth + 1 } f values : Evaluation Value) w)
      (fun fuel' job' w' => (f.arity = values.length ∧ ctx.depth < maxCallDepth) ∧
        Reaches fuel (.call { ctx with depth := ctx.depth + 1 } f values) w fuel' job' w')
      fun L' value => value.Entered hops L' := by
  apply Covers.ite
  · intro hne
    exact (covers_raise _ _ hw).never fun hallowed => hne hallowed.1
  · intro harity
    apply Covers.ite
    · intro hdeep
      exact (covers_raise _ _ hw).never fun hallowed => Nat.not_lt.2 hdeep hallowed.2
    · intro hdepth
      have hstart := hjob (Decidable.of_not_not harity) (Nat.lt_of_not_le hdepth)
      exact (ih.call f values hstart hw hctx hf hvalues).when

theorem callExpr_covers {callee : Expr} {paren : Token} {args : List Expr}
    (hjob : S (fuel + 1) (.evaluate ctx (.call callee paren args)) w)
    (h : L.Stands hops ctx around (Expr.occurrences around (.call callee paren args))) :
    Covers hops S L (evaluate (fuel + 1) ctx (.call callee paren args) w)
      (Started fuel (.evaluate ctx (.call callee paren args)) w)
      fun L' value => value.Entered hops L' := by
  simp only [evaluate]
  apply Covers.weaken
  · apply (ih.evaluate callee (hS.started hjob (.first rfl)) hw h.left).bind
    intro L₁ callee w₁ h₁ hcallee hw₁ hf
    -- Behind the arguments a call is met only if the callee is called, so what is met depends on both.
    apply (ih.evaluateAll args (hS.started hjob (.arguments hcallee)) hw₁ (h.right.mono h₁)).bind
      (N := fun values w₂ fuel' job' w' => ∃ f, (callee = .callable f ∧
        f.arity = values.length ∧ ctx.depth < maxCallDepth) ∧
          Reaches fuel (.call { ctx with depth := ctx.depth + 1 } f values) w₂ fuel' job' w')
    intro L₂ values w₂ h₂ hvalues hw₂ hargs
    cases callee with
    | callable f =>
      have hstart := fun harity hdepth => hS.started hjob (.call hcallee hvalues harity hdepth)
      apply (admitted_covers ih hw₂ paren hstart h.addressing (hf.mono h₂) hargs).weaken
      rintro _ _ _ ⟨_, ⟨⟨⟩, hallowed⟩, hrest⟩
      exact ⟨hallowed, hrest⟩
    | nil | bool _ | num _ | str _ | object _ _ =>
      apply (covers_raise _ _ hw₂).weaken
      rintro _ _ _ ⟨_, ⟨⟨⟩, -⟩, -⟩
  · rintro _ _ _ ⟨_, _, hstart, hrest⟩
    cases hstart with
    | first hpart =>
      cases hpart
      exact .inl hrest
    | arguments hcallee => exact .inr ⟨_, _, hcallee, .inl hrest⟩
    | call hcallee hargs harity hdepth =>
      exact .inr ⟨_, _, hcallee, .inr ⟨_, _, hargs, _, ⟨rfl, harity, hdepth⟩, hrest⟩⟩

theorem evaluate_covers (e : Expr) (hjob : S (fuel + 1) (.evaluate ctx e) w)
    (h : L.Stands hops ctx around (e.occurrences around)) :
    Covers hops S L (evaluate (fuel + 1) ctx e w) (Started fuel (.evaluate ctx e) w)
      fun L' value => value.Entered hops L' := by
  cases e with
  | literal value =>
    have hplain : Value.Entered hops L (.ofLiteral value) := by cases value <;> trivial
    apply (covers_pure hw hplain).weaken
    rintro _ _ _ ⟨_, _, ⟨⟨⟩⟩, -⟩
  | var name | this name =>
    apply (readVariable_covers hw ctx name).weaken
    rintro _ _ _ ⟨_, _, ⟨⟨⟩⟩, -⟩
  | super keyword method =>
    apply (readSuper_covers hw ctx keyword method).weaken
    rintro _ _ _ ⟨_, _, ⟨⟨⟩⟩, -⟩
  | group inner =>
    apply (ih.evaluate inner (hS.started hjob (.first rfl)) hw h).weaken
    rintro _ _ _ ⟨_, _, ⟨⟨⟩⟩, hrest⟩
    exact hrest
  | assign name value =>
    simp only [evaluate]
    apply Covers.weaken
    · apply (ih.evaluate value (hS.started hjob (.first rfl)) hw h.tail).step
      intro L₁ value w₁ h₁ _ hw₁ hvalue
      apply (assignVariable_covers hw₁ ctx (h.named (.inr rfl)) hvalue).step
      intro L₂ _ w₂ h₂ _ hw₂ _
      exact covers_pure hw₂ (hvalue.mono h₂)
    · rintro _ _ _ ⟨_, _, ⟨⟨⟩⟩, hrest⟩
      exact hrest
  | unary op operand =>
    simp only [evaluate]
    apply Covers.weaken
    · apply (ih.evaluate operand (hS.started hjob (.first rfl)) hw h).step
      intro L₁ operand w₁ _ _ hw₁ _
      exact covers_operated hw₁ (unaryOperation_operated op.kind operand) op
    · rintro _ _ _ ⟨_, _, ⟨⟨⟩⟩, hrest⟩
      exact hrest
  | get object property =>
    simp only [evaluate]
    apply Covers.weaken
    · apply (ih.evaluate object (hS.started hjob (.first rfl)) hw h).step
      intro L₁ object w₁ _ _ hw₁ hobject
      exact readProperty_covers hw₁ hobject property
    · rintro _ _ _ ⟨_, _, ⟨⟨⟩⟩, hrest⟩
      exact hrest
  | binary left op right => exact binaryExpr_covers hS ih hw hjob h
  | logical left op right => exact logicalExpr_covers hS ih hw hjob h
  | set object property value => exact setExpr_covers hS ih hw hjob h
  | call callee paren args => exact callExpr_covers hS ih hw hjob h

theorem evaluateAll_covers (es : List Expr) (hjob : S (fuel + 1) (.evaluateAll ctx es) w)
    (h : L.Stands hops ctx around (Expr.occurrencesAll around es)) :
    Covers hops S L (evaluateAll (fuel + 1) ctx es w) (Started fuel (.evaluateAll ctx es) w)
      fun L' values => ∀ value ∈ values, value.Entered hops L' := by
  cases es with
  | nil =>
    apply (covers_pure hw (List.forall_mem_nil _)).weaken
    rintro _ _ _ ⟨_, _, ⟨⟩, -⟩
  | cons e rest =>
    simp only [evaluateAll]
    apply Covers.weaken
    · apply (ih.evaluate e (hS.started hjob .argument) hw h.left).bind
      intro L₁ value w₁ h₁ hvalue hw₁ hentered
      apply (ih.evaluateAll rest (hS.started hjob (.restArguments hvalue)) hw₁ (h.right.mono h₁)).step
      intro L₂ values w₂ h₂ _ hw₂ hvalues
      exact covers_pure hw₂ (List.forall_mem_cons.2 ⟨hentered.mono h₂, hvalues⟩)
    · rintro _ _ _ ⟨_, _, hstart, hrest⟩
      cases hstart with
      | argument => exact .inl hrest
      | restArguments hvalue => exact .inr ⟨_, _, hvalue, hrest⟩

end Expressions

section Calls

variable {args : List Value} (hw : L.Accounts hops S w) (hctx : ctx.addressing = .distances hops)
  (hargs : ∀ value ∈ args, value.Entered hops L)

include hS ih hw hctx hargs

theorem classCall_covers {c : Class} (hjob : S (fuel + 1) (.call ctx (.cls c) args) w)
    (hf : Value.Entered hops L (.callable (.cls c))) :
    Covers hops S L (call (fuel + 1) ctx (.cls c) args w) (Started fuel (.call ctx (.cls c) args) w)
      fun L' value => value.Entered hops L' := by
  simp only [call]
  cases hmethod : c.findMethod? initializerName with
  | none =>
    apply Covers.weaken
    · apply (makeObject_covers hw hf).step
      intro L₁ object w₁ _ _ hw₁ hobject
      exact covers_pure hw₁ hobject.1
    · rintro _ _ _ ⟨_, _, hstart, -⟩
      cases hstart with
      | initializer _ hfound _ =>
        rw [hmethod] at hfound
        contradiction
  | some method =>
    apply Covers.weaken
    · apply (makeObject_covers hw hf).bind
      intro L₁ object w₁ h₁ hmade hw₁ hobject
      have hunbound := (hw.findMethod? hf hmethod).mono h₁
      apply (bindMethod_covers hw₁ hunbound hobject.1 hobject.2).bind
      intro L₂ init w₂ h₂ hinit hw₂ hbound
      have hargsLater : ∀ value ∈ args, value.Entered hops L₂ :=
        fun value hvalue => (hargs value hvalue).mono (h₁.trans h₂)
      have hinitializer := hS.started hjob (.initializer hmade hmethod hinit)
      apply (ih.runBody init args hinitializer hw₂ hctx hbound hargsLater).step
      intro L₃ _ w₃ h₃ _ hw₃ _
      exact covers_pure hw₃ (hobject.1.mono (h₂.trans h₃))
    · rintro _ _ _ ⟨_, _, hstart, hrest⟩
      cases hstart with
      | initializer hmade hfound hinit =>
        rw [hmethod] at hfound
        cases hfound
        exact .inr ⟨_, _, hmade, .inr ⟨_, _, hinit, hrest⟩⟩

theorem call_covers (f : Callable) (hjob : S (fuel + 1) (.call ctx f args) w)
    (hf : Value.Entered hops L (.callable f)) :
    Covers hops S L (call (fuel + 1) ctx f args w) (Started fuel (.call ctx f args) w)
      fun L' value => value.Entered hops L' := by
  cases f with
  | native f =>
    cases f
    apply (readClock_covers hw).weaken
    rintro _ _ _ ⟨_, _, ⟨⟩, -⟩
  | function id closure =>
    apply (ih.runBody closure args (hS.started hjob .function) hw hctx hf hargs).weaken
    rintro _ _ _ ⟨_, _, ⟨⟩, hrest⟩
    exact hrest
  | cls c => exact classCall_covers hS ih hw hctx hargs hjob hf

theorem runBody_covers (closure : Closure) (hjob : S (fuel + 1) (.runBody ctx closure args) w)
    (hclosure : closure.Entered hops L) :
    Covers hops S L (runBody (fuel + 1) ctx closure args w) (Started fuel (.runBody ctx closure args) w)
      fun L' value => value.Entered hops L' := by
  obtain ⟨isMethod, around, hstands, -⟩ := hclosure
  have hsubset := closure.decl.body_subset isMethod around
  have hkeywords : ∀ word, isScopeKeyword word →
      (Bindings.ofList ((closure.decl.params.map Token.lexeme).zip args)).get? word = none := by
    intro word hword
    rw [← Option.isNone_iff_eq_none, Option.isNone_iff_eq_none, Option.eq_none_iff_forall_ne_some]
    intro value hvalue
    have hparam := (List.of_mem_zip (Bindings.mem_of_get?_ofList hvalue)).1
    exact FunDecl.params_plain hstands.seated word hparam hword
  have hvalues : ∀ name value,
      (Bindings.ofList ((closure.decl.params.map Token.lexeme).zip args)).get? name = some value →
        value.Entered hops L := fun name value hvalue =>
    hargs value (List.of_mem_zip (Bindings.mem_of_get?_ofList hvalue)).2
  simp only [runBody]
  apply Covers.weaken
  · apply (makeScope_covers hw (hstands.chain.subset hsubset)
      (closure.decl.declared.map Token.lexeme) hkeywords hvalues).bind
    intro L₁ env w₁ h₁ henv hw₁ hchain
    have hbody : L₁.Carries hops { ctx with env } (.function isMethod closure.decl :: around)
        (Stmt.occurrencesAll (.function isMethod closure.decl :: around) closure.decl.body) :=
      ⟨⟨hctx, hchain, fun o ho => hstands.seated o (hsubset ho)⟩, by rintro _ ⟨⟩⟩
    apply (ih.executeAll closure.decl.body (hS.started hjob (.body henv)) hw₁ hbody
      (FunDecl.orderly_body hstands.orderly)).step
    intro L₂ flow w₂ _ _ hw₂ hflow
    apply Covers.ite
    · exact fun _ => receiver_covers hw₂ closure
    · intro _
      cases flow with
      | normal =>
        have hnil : Value.nil.Entered hops L₂ := trivial
        exact covers_pure hw₂ hnil
      | returned value => exact covers_pure hw₂ hflow
  · rintro _ _ _ ⟨_, _, hstart, hrest⟩
    cases hstart with
    | body henv => exact .inr ⟨_, _, henv, hrest⟩

end Calls

section Statements

variable (hw : L.Accounts hops S w)

include hS ih hw

theorem varDecl_covers {name : Token} {init : Option Expr}
    (hjob : S (fuel + 1) (.execute ctx (.varDecl name init)) w)
    (h : L.Carries hops ctx around (Stmt.occurrences around (.varDecl name init))) :
    Covers hops S L (execute (fuel + 1) ctx (.varDecl name init) w)
      (Started fuel (.execute ctx (.varDecl name init)) w) fun L' flow => flow.Entered hops L' := by
  have hnormal : ∀ L' : Ledger, Flow.normal.Entered hops L' := fun _ => trivial
  have hname := h.named (.inl rfl)
  cases init with
  | none =>
    apply covers_flat_none rfl rfl
    simp only [execute]
    have hnil : Value.nil.Entered hops L := trivial
    apply (defineVariable_covers hw ctx.env hname hnil).step
    intro L₁ _ w₁ _ _ hw₁ _
    exact covers_pure hw₁ (hnormal L₁)
  | some init =>
    apply covers_flat rfl rfl
    simp only [execute]
    -- The initializer is no frame: its slots are those around the declaration.
    have hinit : L.Stands hops ctx (.initializer name :: around)
        (init.occurrences (.initializer name :: around)) :=
      ⟨h.addressing, h.tail.chain, h.tail.seated⟩
    apply (ih.evaluate init (hS.started hjob (.expression rfl)) hw hinit).step
    intro L₁ value w₁ h₁ _ hw₁ hvalue
    apply (defineVariable_covers hw₁ ctx.env hname hvalue).step
    intro L₂ _ w₂ _ _ hw₂ _
    exact covers_pure hw₂ (hnormal L₂)

theorem block_covers {body : List Stmt} (hjob : S (fuel + 1) (.execute ctx (.block body)) w)
    (h : L.Carries hops ctx around (Stmt.occurrences around (.block body)))
    (horderly : Stmt.OrderlyAll body) :
    Covers hops S L (execute (fuel + 1) ctx (.block body) w)
      (Started fuel (.execute ctx (.block body)) w) fun L' flow => flow.Entered hops L' := by
  simp only [execute]
  have hvalues : ∀ name value, (Bindings.empty : Bindings Value).get? name = some value →
      value.Entered hops L := by
    intro name value hvalue
    contradiction
  apply Covers.weaken
  · apply (makeScope_covers hw h.tail.chain ((declaredIn body).map Token.lexeme) (fun _ _ => rfl)
      hvalues).bind
    intro L₁ env w₁ _ henv hw₁ hchain
    have hbody : L₁.Carries hops { ctx with env } (.block body :: around)
        (Stmt.occurrencesAll (.block body :: around) body) :=
      ⟨⟨h.addressing, hchain, h.tail.seated⟩, by rintro _ ⟨⟩⟩
    exact ih.executeAll body (hS.started hjob (.block henv)) hw₁ hbody horderly
  · rintro _ _ _ ⟨_, _, hstart, hrest⟩
    cases hstart with
    | expression hfirst => cases hfirst
    | block henv => exact .inr ⟨_, _, henv, hrest⟩

theorem ifThen_covers {condition : Expr} {yes : Stmt}
    (hjob : S (fuel + 1) (.execute ctx (.ifThen condition yes)) w)
    (h : L.Carries hops ctx around (Stmt.occurrences around (.ifThen condition yes)))
    (horderly : yes.Orderly) :
    Covers hops S L (execute (fuel + 1) ctx (.ifThen condition yes) w)
      (Started fuel (.execute ctx (.ifThen condition yes)) w) fun L' flow => flow.Entered hops L' := by
  simp only [execute]
  apply Covers.weaken
  · apply (ih.evaluate condition (hS.started hjob (.expression rfl)) hw h.left.toStands).bind
      (N := fun v w₁ fuel' job' w' => v.isTruthy = true ∧
        Reaches fuel (.execute ctx yes) w₁ fuel' job' w')
    intro L₁ v w₁ h₁ hcondition hw₁ _
    apply Covers.ite
    · intro hv
      exact (ih.execute yes (hS.started hjob (.onlyBranch hcondition hv)) hw₁ (h.right.mono h₁)
        horderly).when
    · intro hv
      have hnormal : Flow.normal.Entered hops L₁ := trivial
      exact (covers_pure hw₁ hnormal).never hv
  · rintro _ _ _ ⟨_, _, hstart, hrest⟩
    cases hstart with
    | expression hfirst =>
      cases hfirst
      exact .inl hrest
    | onlyBranch hcondition hv => exact .inr ⟨_, _, hcondition, hv, hrest⟩

theorem ifElse_covers {condition : Expr} {yes no : Stmt}
    (hjob : S (fuel + 1) (.execute ctx (.ifElse condition yes no)) w)
    (h : L.Carries hops ctx around (Stmt.occurrences around (.ifElse condition yes no)))
    (hyes : yes.Orderly) (hno : no.Orderly) :
    Covers hops S L (execute (fuel + 1) ctx (.ifElse condition yes no) w)
      (Started fuel (.execute ctx (.ifElse condition yes no)) w)
      fun L' flow => flow.Entered hops L' := by
  simp only [execute]
  apply Covers.weaken
  · apply (ih.evaluate condition (hS.started hjob (.expression rfl)) hw h.left.left.toStands).bind
      (N := fun v w₁ fuel' job' w' => Reaches fuel (.execute ctx (if v.isTruthy then yes else no))
        w₁ fuel' job' w')
    intro L₁ v w₁ h₁ hcondition hw₁ _
    cases hv : v.isTruthy with
    | true =>
      exact ih.execute yes (hS.started hjob (.thenBranch hcondition hv)) hw₁ (h.left.right.mono h₁) hyes
    | false =>
      exact ih.execute no (hS.started hjob (.elseBranch hcondition hv)) hw₁ (h.right.mono h₁) hno
  · rintro _ _ _ ⟨_, _, hstart, hrest⟩
    cases hstart with
    | expression hfirst =>
      cases hfirst
      exact .inl hrest
    | thenBranch hcondition hv => exact .inr ⟨_, _, hcondition, by rwa [if_pos hv]⟩
    | elseBranch hcondition hv => exact .inr ⟨_, _, hcondition, by rwa [if_neg (by simp [hv])]⟩

theorem whileLoop_covers {condition : Expr} {body : Stmt}
    (hjob : S (fuel + 1) (.execute ctx (.whileLoop condition body)) w)
    (h : L.Carries hops ctx around (Stmt.occurrences around (.whileLoop condition body)))
    (horderly : Stmt.Orderly (.whileLoop condition body)) :
    Covers hops S L (execute (fuel + 1) ctx (.whileLoop condition body) w)
      (Started fuel (.execute ctx (.whileLoop condition body)) w)
      fun L' flow => flow.Entered hops L' := by
  simp only [execute]
  apply Covers.weaken
  -- A condition that holds leads to the body and, if that ends normally, to the loop itself.
  · apply (ih.evaluate condition (hS.started hjob (.expression rfl)) hw h.left.toStands).bind
      (N := fun v w₁ fuel' job' w' => v.isTruthy = true ∧
        (Reaches fuel (.execute ctx body) w₁ fuel' job' w' ∨
          ∃ flow w₂, execute fuel ctx body w₁ = .ok flow w₂ ∧ flow = .normal ∧
            Reaches fuel (.execute ctx (.whileLoop condition body)) w₂ fuel' job' w'))
    intro L₁ v w₁ h₁ hcondition hw₁ _
    apply Covers.ite
    · intro hv
      apply Covers.when
      apply (ih.execute body (hS.started hjob (.turn hcondition hv)) hw₁ (h.right.mono h₁)
        horderly.2).bind
      intro L₂ flow w₂ h₂ hbody hw₂ hflow
      cases flow with
      | normal =>
        have hstart := hS.started hjob (.nextTurn hcondition hv hbody)
        exact (ih.execute (.whileLoop condition body) hstart hw₂ (h.mono (h₁.trans h₂)) horderly).when
      | returned value => exact (covers_pure hw₂ hflow).never (by simp)
    · intro hv
      have hnormal : Flow.normal.Entered hops L₁ := trivial
      exact (covers_pure hw₁ hnormal).never hv
  · rintro _ _ _ ⟨_, _, hstart, hrest⟩
    cases hstart with
    | expression hfirst =>
      cases hfirst
      exact .inl hrest
    | turn hcondition hv => exact .inr ⟨_, _, hcondition, hv, .inl hrest⟩
    | nextTurn hcondition hv hbody =>
      exact .inr ⟨_, _, hcondition, hv, .inr ⟨_, _, hbody, rfl, hrest⟩⟩

theorem execute_covers (s : Stmt) (hjob : S (fuel + 1) (.execute ctx s) w)
    (h : L.Carries hops ctx around (s.occurrences around)) (horderly : s.Orderly) :
    Covers hops S L (execute (fuel + 1) ctx s w) (Started fuel (.execute ctx s) w)
      fun L' flow => flow.Entered hops L' := by
  have hnormal : ∀ L' : Ledger, Flow.normal.Entered hops L' := fun _ => trivial
  cases s with
  | expr e =>
    apply covers_flat rfl rfl
    simp only [execute]
    apply (ih.evaluate e (hS.started hjob (.expression rfl)) hw h.toStands).step
    intro L₁ _ w₁ _ _ hw₁ _
    exact covers_pure hw₁ (hnormal L₁)
  | print keyword value =>
    apply covers_flat rfl rfl
    simp only [execute]
    apply (ih.evaluate value (hS.started hjob (.expression rfl)) hw h.toStands).step
    intro L₁ value w₁ _ _ hw₁ _
    apply (printLine_covers hw₁ keyword value.text).step
    intro L₂ _ w₂ _ _ hw₂ _
    exact covers_pure hw₂ (hnormal L₂)
  | varDecl name init => exact varDecl_covers hS ih hw hjob h
  | block body => exact block_covers hS ih hw hjob h horderly
  | ifThen condition yes => exact ifThen_covers hS ih hw hjob h horderly.2
  | ifElse condition yes no => exact ifElse_covers hS ih hw hjob h horderly.1.2 horderly.2.2
  | whileLoop condition body => exact whileLoop_covers hS ih hw hjob h horderly
  | ret keyword value =>
    cases value with
    | none =>
      have hnil : (Flow.returned .nil).Entered hops L := trivial
      exact covers_flat_none rfl rfl (covers_pure hw hnil)
    | some value =>
      apply covers_flat rfl rfl
      simp only [execute]
      apply (ih.evaluate value (hS.started hjob (.expression rfl)) hw h.tail.toStands).step
      intro L₁ value w₁ _ _ hw₁ hvalue
      exact covers_pure hw₁ hvalue
  | funDecl function => exact covers_flat_none rfl rfl (declareFunction_covers hw h horderly)
  | classDecl name superclass methods =>
    apply covers_flat_none rfl rfl
    cases superclass with
    | none =>
      rw [Stmt.occurrences] at h
      exact declareClass_covers hw hjob h.toStands horderly
    | some parent => exact inheritClass_covers hw hjob h.toStands horderly

theorem executeAll_covers (ss : List Stmt) (hjob : S (fuel + 1) (.executeAll ctx ss) w)
    (h : L.Carries hops ctx around (Stmt.occurrencesAll around ss)) (horderly : Stmt.OrderlyAll ss) :
    Covers hops S L (executeAll (fuel + 1) ctx ss w) (Started fuel (.executeAll ctx ss) w)
      fun L' flow => flow.Entered hops L' := by
  cases ss with
  | nil =>
    have hnormal : Flow.normal.Entered hops L := trivial
    apply (covers_pure hw hnormal).weaken
    rintro _ _ _ ⟨_, _, ⟨⟩, -⟩
  | cons s rest =>
    simp only [executeAll]
    apply Covers.weaken
    · apply (ih.execute s (hS.started hjob .statement) hw h.left horderly.1).bind
        (N := fun flow w₁ fuel' job' w' => flow = .normal ∧
          Reaches fuel (.executeAll ctx rest) w₁ fuel' job' w')
      intro L₁ flow w₁ h₁ hs hw₁ hflow
      cases flow with
      | normal =>
        exact (ih.executeAll rest (hS.started hjob (.restStatements hs)) hw₁ (h.right.mono h₁)
          horderly.2).when
      | returned value => exact (covers_pure hw₁ hflow).never (by simp)
    · rintro _ _ _ ⟨_, _, hstart, hrest⟩
      cases hstart with
      | statement => exact .inl hrest
      | restStatements hs => exact .inr ⟨_, _, hs, rfl, hrest⟩

end Statements

end Step

theorem depthCovers {hops : HopTable} {S : Nat → Job → World → Prop} (hS : ClosedUnderStarts S)
    (fuel : Nat) : DepthCovers hops S fuel := by
  induction fuel with
  | zero =>
    constructor
    case evaluate => exact fun e _ hw h => covers_exhausted hw ⟨_, h⟩ trivial
    case evaluateAll => exact fun es _ hw h => covers_exhausted hw ⟨_, h⟩ trivial
    case call => exact fun f args _ hw hctx hf hargs => covers_exhausted hw ⟨hctx, hf, hargs⟩ trivial
    case runBody =>
      exact fun closure args _ hw hctx hclosure hargs =>
        covers_exhausted hw ⟨hctx, hclosure, hargs⟩ trivial
    case execute => exact fun s _ hw h horderly => covers_exhausted hw ⟨_, h, horderly⟩ trivial
    case executeAll => exact fun ss _ hw h horderly => covers_exhausted hw ⟨_, h, horderly⟩ trivial
  | succ fuel ih =>
    constructor
    case evaluate =>
      intro L ctx around w e hjob hw h
      exact covers_reaches hw ⟨around, h⟩ (fun _ => id) (evaluate_covers hS ih hw e hjob h)
    case evaluateAll =>
      intro L ctx around w es hjob hw h
      exact covers_reaches hw ⟨around, h⟩ (fun _ => id) (evaluateAll_covers hS ih hw es hjob h)
    case call =>
      intro L ctx w f args hjob hw hctx hf hargs
      exact covers_reaches hw ⟨hctx, hf, hargs⟩ (fun _ => id) (call_covers hS ih hw hctx hargs f hjob hf)
    case runBody =>
      intro L ctx w closure args hjob hw hctx hclosure hargs
      exact covers_reaches hw ⟨hctx, hclosure, hargs⟩ (fun _ => id)
        (runBody_covers hS ih hw hctx hargs closure hjob hclosure)
    case execute =>
      intro L ctx around w s hjob hw h horderly
      exact covers_reaches hw ⟨around, h, horderly⟩ (fun _ => id)
        (execute_covers hS ih hw s hjob h horderly)
    case executeAll =>
      intro L ctx around w ss hjob hw h horderly
      exact covers_reaches hw ⟨around, h, horderly⟩ (fun _ => id)
        (executeAll_covers hS ih hw ss hjob h horderly)

end Lox
