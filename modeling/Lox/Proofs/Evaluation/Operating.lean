import Lox.Proofs.Evaluation.Frames
import Lox.Proofs.Evaluation.Jobs
import Lox.Proofs.Parsing.Operators

/-!
Code with its operators in their places stays the only code. Functions come into the world from the
statements that are executed, so no evaluation ever comes across an operator without a meaning.
-/
namespace Lox

def Class.Operable (c : Class) : Prop :=
  ∀ name method, c.findMethod? name = some method → method.decl.Operable

def Value.Operable : Value → Prop
  | .callable (.function _ closure) => closure.decl.Operable
  | .callable (.cls c) | .object _ c => c.Operable
  | .callable (.native _) | .nil | .bool _ | .num _ | .str _ => True

def Flow.Operable : Flow → Prop
  | .normal => True
  | .returned value => value.Operable

structure World.Operable (w : World) : Prop where
  bindings : ∀ frame name value, w.frames.getIn frame name = some value → value.Operable
  fields : ∀ (id : Nat) (fields : Bindings Value) (name : String) (value : Value),
    w.objects[id]? = some fields → fields.get? name = some value → value.Operable

/-- An operator stands where it has no meaning. -/
def RuntimeFault.Misplaced (fault : RuntimeFault) : Prop :=
  fault = .invalidBinaryOperator ∨ fault = .invalidUnaryOperator

theorem unaryOperation_placed {op : Kind} (h : op.isUnaryOperator = true) (operand : Value)
    {fault : RuntimeFault} (hfault : unaryOperation op operand = .error fault) : ¬ fault.Misplaced := by
  unfold unaryOperation at hfault
  split at hfault
  · contradiction
  · cases hfault
    exact nofun
  · contradiction
  · cases op <;> contradiction

theorem numericOperation_placed (left right : Value) {f : Float → Float → Value} {fault : RuntimeFault}
    (hfault : numericOperation left right f = .error fault) : ¬ fault.Misplaced := by
  unfold numericOperation at hfault
  split at hfault
  · contradiction
  · cases hfault
    exact nofun

theorem binaryOperation_placed {op : Kind} (h : op.isBinaryOperator = true) (left right : Value)
    {fault : RuntimeFault} (hfault : binaryOperation op left right = .error fault) :
    ¬ fault.Misplaced := by
  unfold binaryOperation at hfault
  split at hfault
  case h_1 =>
    split at hfault
    · contradiction
    · contradiction
    · cases hfault
      exact nofun
  case h_9 | h_10 => contradiction
  case h_11 => cases op <;> contradiction
  all_goals exact numericOperation_placed left right hfault

/-- The world at the end is operable and a value is as it should be, or the error is no matter of operators
out of their places. -/
def Result.Upheld {α : Type} (Q : α → Prop) : Result α → Prop
  | .ok value w => Q value ∧ w.Operable
  | .error e w => ¬ e.fault.Misplaced ∧ w.Operable
  | .exhausted => True

def Upholds {α : Type} (m : Evaluation α) (Q : α → Prop) : Prop :=
  ∀ w : World, w.Operable → (m w).Upheld Q

section Rules

variable {α β : Type} {m n : Evaluation α} {P Q : α → Prop}

theorem upholds_pure {value : α} (h : Q value) : Upholds (pure value) Q := fun _ hw => ⟨h, hw⟩

theorem upholds_exhausted : Upholds (Evaluation.exhausted : Evaluation α) Q := fun _ _ => trivial

theorem upholds_raise (token : Token) {fault : RuntimeFault} (h : ¬ fault.Misplaced) :
    Upholds (Evaluation.raise token fault : Evaluation α) Q := fun _ hw => ⟨h, hw⟩

theorem Upholds.bind {next : α → Evaluation β} {R : β → Prop} (hm : Upholds m P)
    (hnext : ∀ value, P value → Upholds (next value) R) : Upholds (m >>= next) R := by
  intro w hw
  have hfirst := hm w hw
  rw [Evaluation.bind_run]
  cases hrun : m w with
  | ok value w' =>
    rw [hrun] at hfirst
    exact hnext value hfirst.1 w' hfirst.2
  | error e w' =>
    rw [hrun] at hfirst
    exact hfirst
  | exhausted => trivial

theorem Upholds.ite {c : Prop} [Decidable c] (hm : Upholds m Q) (hn : ¬ c → Upholds n Q) :
    Upholds (if c then m else n) Q := by
  by_cases hc : c
  · rwa [if_pos hc]
  · rw [if_neg hc]
    exact hn hc

theorem Upholds.ok (h : Upholds m Q) {w w' : World} {value : α} (hw : w.Operable)
    (hrun : m w = .ok value w') : Q value ∧ w'.Operable := by
  have hupheld := h w hw
  rwa [hrun] at hupheld

theorem Value.IsPlain.operable {value : Value} (h : value.IsPlain) : value.Operable := by
  cases value with
  | nil | bool _ | num _ | str _ => trivial
  | callable _ | object _ _ => contradiction

theorem upholds_lift (token : Token) {operation : Except RuntimeFault Value}
    (hplain : Operated operation) (h : ∀ fault, operation = .error fault → ¬ fault.Misplaced) :
    Upholds (Evaluation.lift token operation) Value.Operable := by
  cases operation with
  | ok value => exact upholds_pure (Value.IsPlain.operable hplain)
  | error fault => exact upholds_raise token (h fault rfl)

end Rules

section Actions

namespace World.Operable

variable {w : World}

theorem defineIn (h : w.Operable) (frame : FrameId) (name : String) {value : Value}
    (hvalue : value.Operable) :
    ({ w with frames := w.frames.defineIn frame name value } : World).Operable := by
  refine { h with bindings := fun other name' value' hbound => ?_ }
  dsimp only at hbound
  rw [Frames.getIn_defineIn] at hbound
  split at hbound
  · obtain ⟨-, -, rfl⟩ := Option.map_eq_some_iff.1 hbound
    exact hvalue
  · exact h.bindings other name' value' hbound

end World.Operable

theorem readVariable_upholds (ctx : Context) (name : Token) :
    Upholds (readVariable ctx name) Value.Operable := by
  intro w hw
  unfold readVariable
  cases hfound : ctx.find? w.frames name with
  | none => exact ⟨nofun, hw⟩
  | some value =>
    obtain ⟨frame, -, hvalue⟩ := Context.exists_of_find? hfound
    exact ⟨hw.bindings frame _ value hvalue, hw⟩

theorem assignVariable_upholds (ctx : Context) (name : Token) {value : Value}
    (hvalue : value.Operable) : Upholds (assignVariable ctx name value) fun _ => True := by
  intro w hw
  unfold assignVariable
  cases hassigned : ctx.assign? w.frames name value with
  | none => exact ⟨nofun, hw⟩
  | some frames =>
    obtain ⟨frame, rfl⟩ := Context.exists_of_assign? hassigned
    exact ⟨trivial, hw.defineIn frame _ hvalue⟩

theorem assignDeclared_upholds (env : Environment) (name : Token) {value : Value}
    (hvalue : value.Operable) : Upholds (assignDeclared env name value) fun _ => True := by
  intro w hw
  unfold assignDeclared
  cases hassigned : w.frames.assign env name.lexeme value with
  | none => exact ⟨nofun, hw⟩
  | some frames =>
    obtain ⟨frame, rfl⟩ := Frames.exists_of_assign hassigned
    exact ⟨trivial, hw.defineIn frame _ hvalue⟩

theorem defineVariable_upholds (env : Environment) (name : String) {value : Value}
    (hvalue : value.Operable) : Upholds (defineVariable env name value) fun _ => True := by
  intro w hw
  cases env with
  | nil => exact ⟨trivial, hw⟩
  | cons frame _ => exact ⟨trivial, hw.defineIn frame name hvalue⟩

theorem makeFrame_upholds {entries : List (String × Value)}
    (hentries : ∀ entry ∈ entries, entry.2.Operable) (enclosing : Environment) :
    Upholds (makeFrame (.ofList entries) enclosing) fun _ => True := by
  intro w hw
  refine ⟨trivial, { hw with bindings := fun frame name value hbound => ?_ }⟩
  change (w.frames.create (.ofList entries) enclosing).1.getIn frame name = some value at hbound
  rw [Frames.getIn_create] at hbound
  split at hbound
  · exact hentries _ (Bindings.mem_of_get?_ofList hbound)
  · exact hw.bindings frame name value hbound

theorem freshId_upholds : Upholds freshId fun _ => True := fun _ hw => ⟨trivial, { hw with }⟩

theorem makeFunction_upholds {closure : Closure} (h : closure.decl.Operable) :
    Upholds (makeFunction closure) Value.Operable := freshId_upholds.bind fun _ _ => upholds_pure h

theorem makeObject_upholds {c : Class} (h : c.Operable) : Upholds (makeObject c) Value.Operable := by
  intro w hw
  refine ⟨h, { hw with fields := fun id fields name value hfields hvalue => ?_ }⟩
  dsimp only at hfields
  rw [Array.getElem?_push] at hfields
  split at hfields
  · cases hfields
    contradiction
  · exact hw.fields id fields name value hfields hvalue

theorem bindMethod_upholds {method : Closure} {receiver : Value} (hmethod : method.decl.Operable)
    (hreceiver : receiver.Operable) :
    Upholds (bindMethod method receiver) fun bound => bound.decl.Operable := by
  apply (makeFrame_upholds (List.forall_mem_singleton.2 hreceiver) method.env).bind
  intro env _
  exact upholds_pure hmethod

theorem receiver_upholds (method : Closure) : Upholds (receiver method) Value.Operable := by
  intro w hw
  refine ⟨?_, hw⟩
  cases hfound : w.frames.getAt method.env 0 "this" with
  | none => trivial
  | some value =>
    obtain ⟨frame, -, hvalue⟩ := Frames.exists_of_getAt hfound
    exact hw.bindings frame _ value hvalue

theorem readField?_upholds (id : Nat) (name : String) :
    Upholds (readField? id name) fun value? => ∀ value ∈ value?, value.Operable := by
  intro w hw
  refine ⟨?_, hw⟩
  intro value hvalue
  obtain ⟨fields, hfields, hfield⟩ := Option.bind_eq_some_iff.1 hvalue
  exact hw.fields id fields name value hfields hfield

theorem setField_upholds (id : Nat) (name : String) {value : Value} (hvalue : value.Operable) :
    Upholds (setField id name value) fun _ => True := by
  intro w hw
  refine ⟨trivial, { hw with fields := fun id' fields name' value' hfields hfield => ?_ }⟩
  dsimp only at hfields
  rw [Array.getElem?_modify] at hfields
  split at hfields
  · obtain ⟨old, hold, rfl⟩ := Option.map_eq_some_iff.1 hfields
    rw [Bindings.get?_insert] at hfield
    split at hfield
    · cases hfield
      exact hvalue
    · exact hw.fields id' old name' value' hold hfield
  · exact hw.fields id' fields name' value' hfields hfield

theorem methodOf_upholds {c : Class} (hc : c.Operable) (property : Token) {receiver : Value}
    (hreceiver : receiver.Operable) : Upholds (methodOf c property receiver) Value.Operable := by
  unfold methodOf
  cases hfind : c.findMethod? property.lexeme with
  | none => exact upholds_raise property nofun
  | some method =>
    exact (bindMethod_upholds (hc _ method hfind) hreceiver).bind fun _ => makeFunction_upholds

theorem readProperty_upholds {object : Value} (hobject : object.Operable) (property : Token) :
    Upholds (readProperty object property) Value.Operable := by
  cases object with
  | object id c =>
    apply (readField?_upholds id property.lexeme).bind
    intro value? hvalue
    cases value? with
    | none => exact methodOf_upholds hobject property hobject
    | some value => exact upholds_pure (hvalue value rfl)
  | nil | bool _ | num _ | str _ | callable _ => exact upholds_raise property nofun

theorem readSuper_upholds (ctx : Context) (keyword method : Token) :
    Upholds (readSuper ctx keyword method) Value.Operable := by
  intro w hw
  unfold readSuper
  split
  · rename_i parent id c hfound
    obtain ⟨⟨outer, -, hparent⟩, inner, -, hreceiver⟩ := Context.exists_of_findSuper? hfound
    have hparent := hw.bindings outer _ _ hparent
    have hreceiver := hw.bindings inner _ _ hreceiver
    exact methodOf_upholds hparent method hreceiver w hw
  · exact ⟨nofun, hw⟩

theorem readClock_upholds : Upholds readClock Value.Operable := fun _ hw => ⟨trivial, { hw with }⟩

theorem printLine_upholds (keyword : Token) (text : String) :
    Upholds (printLine keyword text) fun _ => True := by
  intro w hw
  unfold printLine
  rcases w.console.print (text ++ "\n") with ⟨refusal, console⟩
  cases refusal with
  | none => exact ⟨trivial, { hw with }⟩
  | some reason => exact ⟨nofun, { hw with }⟩

theorem operable_of_extension {superclass : Option Class} (hsuperclass : ∀ c ∈ superclass, c.Operable)
    {methods : List FunDecl} (hmethods : FunDecl.OperableAll methods) (id : Nat) (name : String)
    (env : Environment) : Class.Operable ⟨id, name, superclass, methodTable env methods⟩ := by
  intro wanted method hfind
  rcases Class.own_or_inherited hfind with hown | ⟨-, parent, hparent, hinherited⟩
  · obtain ⟨f, hf, rfl⟩ := exists_of_methodTable hown
    exact FunDecl.operable_of_mem hmethods hf
  · exact hsuperclass parent hparent wanted method hinherited

theorem methodsEnvironment_upholds (ctx : Context) {superclass : Option Class}
    (hsuperclass : ∀ c ∈ superclass, c.Operable) :
    Upholds (methodsEnvironment ctx superclass) fun _ => True := by
  cases superclass with
  | none => exact upholds_pure trivial
  | some parent =>
    have hparent : Value.Operable (.callable (.cls parent)) := hsuperclass parent rfl
    exact makeFrame_upholds (List.forall_mem_singleton.2 hparent) ctx.env

theorem declareClass_upholds (ctx : Context) (name : Token) {superclass : Option Class}
    (hsuperclass : ∀ c ∈ superclass, c.Operable) {methods : List FunDecl}
    (hmethods : FunDecl.OperableAll methods) :
    Upholds (declareClass ctx name superclass methods) Flow.Operable := by
  rw [declareClass_eq]
  have hnil : Value.Operable .nil := trivial
  apply (defineVariable_upholds ctx.env name.lexeme hnil).bind
  intro _ _
  apply (methodsEnvironment_upholds ctx hsuperclass).bind
  intro env _
  apply freshId_upholds.bind
  intro id _
  have hcls : Value.Operable
      (.callable (.cls ⟨id, name.lexeme, superclass, methodTable env methods⟩)) :=
    operable_of_extension hsuperclass hmethods id name.lexeme env
  apply (assignDeclared_upholds ctx.env name hcls).bind
  intro _ _
  exact upholds_pure trivial

end Actions

mutual

theorem evaluate_upholds (fuel : Nat) (ctx : Context) {e : Expr} (he : e.Operable) :
    Upholds (evaluate fuel ctx e) Value.Operable := by
  cases fuel with
  | zero => exact upholds_exhausted
  | succ fuel =>
    cases e with
    | literal value => exact upholds_pure (isPlain_ofLiteral value).operable
    | var name | this name => exact readVariable_upholds ctx name
    | super keyword method => exact readSuper_upholds ctx keyword method
    | group inner => exact evaluate_upholds fuel ctx he
    | assign name value =>
      have hvalue : value.Operable := he
      apply (evaluate_upholds fuel ctx hvalue).bind
      intro value hvalue
      exact (assignVariable_upholds ctx name hvalue).bind fun _ _ => upholds_pure hvalue
    | unary op operand =>
      apply (evaluate_upholds fuel ctx he.2).bind
      intro operand _
      exact upholds_lift op (unaryOperation_operated _ _) fun _ => unaryOperation_placed he.1 operand
    | binary left op right =>
      apply (evaluate_upholds fuel ctx he.2.1).bind
      intro left _
      apply (evaluate_upholds fuel ctx he.2.2).bind
      intro right _
      exact upholds_lift op (binaryOperation_operated _ _ _) fun _ =>
        binaryOperation_placed he.1 left right
    | logical left op right =>
      apply (evaluate_upholds fuel ctx he.1).bind
      intro left hleft
      exact .ite (upholds_pure hleft) fun _ => evaluate_upholds fuel ctx he.2
    | get object property =>
      have hobject : object.Operable := he
      apply (evaluate_upholds fuel ctx hobject).bind
      intro object hobject
      exact readProperty_upholds hobject property
    | set object property value =>
      apply (evaluate_upholds fuel ctx he.1).bind
      intro object _
      cases object with
      | object id c =>
        apply (evaluate_upholds fuel ctx he.2).bind
        intro value hvalue
        exact (setField_upholds id _ hvalue).bind fun _ _ => upholds_pure hvalue
      | nil | bool _ | num _ | str _ | callable _ => exact upholds_raise property nofun
    | call callee paren args =>
      apply (evaluate_upholds fuel ctx he.1).bind
      intro callee hcallee
      apply (evaluateAll_upholds fuel ctx he.2).bind
      intro args hargs
      cases callee with
      | callable f =>
        refine .ite (upholds_raise paren nofun) fun _ => .ite (upholds_raise paren nofun) fun _ => ?_
        exact call_upholds fuel _ hcallee hargs
      | nil | bool _ | num _ | str _ | object _ _ => exact upholds_raise paren nofun

theorem evaluateAll_upholds (fuel : Nat) (ctx : Context) {es : List Expr} (hes : Expr.OperableAll es) :
    Upholds (evaluateAll fuel ctx es) fun values => ∀ value ∈ values, value.Operable := by
  cases fuel with
  | zero => exact upholds_exhausted
  | succ fuel =>
    cases es with
    | nil => exact upholds_pure (List.forall_mem_nil _)
    | cons e rest =>
      apply (evaluate_upholds fuel ctx hes.1).bind
      intro value hvalue
      apply (evaluateAll_upholds fuel ctx hes.2).bind
      intro values hvalues
      exact upholds_pure (List.forall_mem_cons.2 ⟨hvalue, hvalues⟩)

theorem call_upholds (fuel : Nat) (ctx : Context) {f : Callable} (hf : Value.Operable (.callable f))
    {args : List Value} (hargs : ∀ value ∈ args, value.Operable) :
    Upholds (call fuel ctx f args) Value.Operable := by
  cases fuel with
  | zero => exact upholds_exhausted
  | succ fuel =>
    cases f with
    | native f =>
      cases f
      exact readClock_upholds
    | function id closure => exact runBody_upholds fuel ctx hf hargs
    | cls c =>
      apply (makeObject_upholds hf).bind
      intro object hobject
      cases hfind : c.findMethod? initializerName with
      | none => exact upholds_pure hobject
      | some method =>
        apply (bindMethod_upholds (hf _ method hfind) hobject).bind
        intro init hinit
        exact (runBody_upholds fuel ctx hinit hargs).bind fun _ _ => upholds_pure hobject

theorem runBody_upholds (fuel : Nat) (ctx : Context) {closure : Closure}
    (hclosure : closure.decl.Operable) {args : List Value} (hargs : ∀ value ∈ args, value.Operable) :
    Upholds (runBody fuel ctx closure args) Value.Operable := by
  cases fuel with
  | zero => exact upholds_exhausted
  | succ fuel =>
    have hparams : ∀ entry ∈ (closure.decl.params.map Token.lexeme).zip args, entry.2.Operable :=
      fun entry hentry => hargs _ (List.of_mem_zip hentry).2
    apply (makeFrame_upholds hparams closure.env).bind
    intro env _
    apply (executeAll_upholds fuel _ ((FunDecl.operable_iff _).1 hclosure)).bind
    intro flow hflow
    apply Upholds.ite (receiver_upholds closure)
    intro _
    cases flow with
    | normal => exact upholds_pure trivial
    | returned value => exact upholds_pure hflow

theorem execute_upholds (fuel : Nat) (ctx : Context) {s : Stmt} (hs : s.Operable) :
    Upholds (execute fuel ctx s) Flow.Operable := by
  cases fuel with
  | zero => exact upholds_exhausted
  | succ fuel =>
    cases s with
    | expr e => exact (evaluate_upholds fuel ctx hs).bind fun _ _ => upholds_pure trivial
    | print keyword value =>
      apply (evaluate_upholds fuel ctx hs).bind
      intro value _
      exact (printLine_upholds keyword _).bind fun _ _ => upholds_pure trivial
    | varDecl name init =>
      cases init with
      | none =>
        have hnil : Value.Operable .nil := trivial
        exact (defineVariable_upholds _ _ hnil).bind fun _ _ => upholds_pure trivial
      | some init =>
        apply (evaluate_upholds fuel ctx (hs init rfl)).bind
        intro value hvalue
        exact (defineVariable_upholds _ _ hvalue).bind fun _ _ => upholds_pure trivial
    | block body =>
      apply (makeFrame_upholds (List.forall_mem_nil _) ctx.env).bind
      intro env _
      exact executeAll_upholds fuel _ hs
    | ifThen condition yes =>
      apply (evaluate_upholds fuel ctx hs.1).bind
      intro condition _
      exact .ite (execute_upholds fuel ctx hs.2) fun _ => upholds_pure trivial
    | ifElse condition yes no =>
      apply (evaluate_upholds fuel ctx hs.1).bind
      intro condition _
      exact .ite (execute_upholds fuel ctx hs.2.1) fun _ => execute_upholds fuel ctx hs.2.2
    | whileLoop condition body =>
      apply (evaluate_upholds fuel ctx hs.1).bind
      intro holds _
      refine .ite ?_ fun _ => upholds_pure trivial
      apply (execute_upholds fuel ctx hs.2).bind
      intro flow hflow
      cases flow with
      | normal => exact execute_upholds fuel ctx hs
      | returned value => exact upholds_pure hflow
    | ret keyword value =>
      cases value with
      | none => exact upholds_pure trivial
      | some value =>
        exact (evaluate_upholds fuel ctx (hs value rfl)).bind fun _ hvalue => upholds_pure hvalue
    | funDecl f =>
      have hclosure : Closure.decl ⟨f, ctx.env, false⟩ |>.Operable := hs
      apply (makeFunction_upholds hclosure).bind
      intro value hvalue
      exact (defineVariable_upholds _ _ hvalue).bind fun _ _ => upholds_pure trivial
    | classDecl name superclass methods =>
      cases superclass with
      | none =>
        have hnone : ∀ c ∈ (none : Option Class), c.Operable := nofun
        exact declareClass_upholds ctx name hnone hs
      | some parent =>
        apply (readVariable_upholds ctx parent).bind
        intro value hvalue
        cases value with
        | callable f =>
          cases f with
          | cls c =>
            have hc : ∀ c' ∈ some c, Class.Operable c' := by
              rintro _ ⟨⟩
              exact hvalue
            exact declareClass_upholds ctx name hc hs
          | native _ | function _ _ => exact upholds_raise parent nofun
        | nil | bool _ | num _ | str _ | object _ _ => exact upholds_raise parent nofun

theorem executeAll_upholds (fuel : Nat) (ctx : Context) {ss : List Stmt} (hss : Stmt.OperableAll ss) :
    Upholds (executeAll fuel ctx ss) Flow.Operable := by
  cases fuel with
  | zero => exact upholds_exhausted
  | succ fuel =>
    cases ss with
    | nil => exact upholds_pure trivial
    | cons s rest =>
      apply (execute_upholds fuel ctx hss.1).bind
      intro flow hflow
      cases flow with
      | normal => exact executeAll_upholds fuel ctx hss.2
      | returned value => exact upholds_pure hflow

end

def Job.Operable : Job → Prop
  | .evaluate _ e => e.Operable
  | .evaluateAll _ es => Expr.OperableAll es
  | .call _ f args => Value.Operable (.callable f) ∧ ∀ value ∈ args, value.Operable
  | .runBody _ closure args => closure.decl.Operable ∧ ∀ value ∈ args, value.Operable
  | .execute _ s => s.Operable
  | .executeAll _ ss => Stmt.OperableAll ss

theorem Expr.operable_first {e part : Expr} (hfirst : e.first? = some part) (h : e.Operable) :
    part.Operable := by
  cases e with
  | literal _ | var _ | this _ | super _ _ => contradiction
  | group _ | assign _ _ | get _ _ =>
    cases hfirst
    exact h
  | unary _ _ =>
    cases hfirst
    exact h.2
  | binary _ _ _ =>
    cases hfirst
    exact h.2.1
  | logical _ _ _ | set _ _ _ | call _ _ _ =>
    cases hfirst
    exact h.1

theorem Stmt.operable_first {s : Stmt} {e : Expr} (hfirst : s.first? = some e) (h : s.Operable) :
    e.Operable := by
  cases s with
  | block _ | funDecl _ | classDecl _ _ _ => contradiction
  | expr _ | print _ _ =>
    cases hfirst
    exact h
  | ifThen _ _ | ifElse _ _ _ | whileLoop _ _ =>
    cases hfirst
    exact h.1
  | varDecl _ _ | ret _ _ => exact h e hfirst

theorem Starts.operable {fuel : Nat} {job next : Job} {w w' : World} (h : Starts fuel job w next w')
    (hw : w.Operable) (hjob : job.Operable) : next.Operable ∧ w'.Operable := by
  cases h with
  | first hfirst => exact ⟨Expr.operable_first hfirst hjob, hw⟩
  | rightOperand hleft => exact ⟨hjob.2.2, ((evaluate_upholds fuel _ hjob.2.1).ok hw hleft).2⟩
  | rightCondition hleft _ => exact ⟨hjob.2, ((evaluate_upholds fuel _ hjob.1).ok hw hleft).2⟩
  | fieldValue hobject => exact ⟨hjob.2, ((evaluate_upholds fuel _ hjob.1).ok hw hobject).2⟩
  | arguments hcallee => exact ⟨hjob.2, ((evaluate_upholds fuel _ hjob.1).ok hw hcallee).2⟩
  | call hcallee hargs _ _ =>
    obtain ⟨hf, hw₁⟩ := (evaluate_upholds fuel _ hjob.1).ok hw hcallee
    obtain ⟨hvalues, hw₂⟩ := (evaluateAll_upholds fuel _ hjob.2).ok hw₁ hargs
    exact ⟨⟨hf, hvalues⟩, hw₂⟩
  | argument => exact ⟨hjob.1, hw⟩
  | restArguments hfirst => exact ⟨hjob.2, ((evaluate_upholds fuel _ hjob.1).ok hw hfirst).2⟩
  | function => exact ⟨hjob, hw⟩
  | initializer hobject hmethod hinit =>
    obtain ⟨hreceiver, hw₁⟩ := (makeObject_upholds hjob.1).ok hw hobject
    obtain ⟨hbound, hw₂⟩ := (bindMethod_upholds (hjob.1 _ _ hmethod) hreceiver).ok hw₁ hinit
    exact ⟨⟨hbound, hjob.2⟩, hw₂⟩
  | @body ctx closure args _ _ _ henv =>
    have hparams : ∀ entry ∈ (closure.decl.params.map Token.lexeme).zip args, entry.2.Operable :=
      fun entry hentry => hjob.2 _ (List.of_mem_zip hentry).2
    exact ⟨(FunDecl.operable_iff _).1 hjob.1, ((makeFrame_upholds hparams _).ok hw henv).2⟩
  | expression hfirst => exact ⟨Stmt.operable_first hfirst hjob, hw⟩
  | block henv => exact ⟨hjob, ((makeFrame_upholds (List.forall_mem_nil _) _).ok hw henv).2⟩
  | onlyBranch hcondition _ => exact ⟨hjob.2, ((evaluate_upholds fuel _ hjob.1).ok hw hcondition).2⟩
  | thenBranch hcondition _ =>
    exact ⟨hjob.2.1, ((evaluate_upholds fuel _ hjob.1).ok hw hcondition).2⟩
  | elseBranch hcondition _ =>
    exact ⟨hjob.2.2, ((evaluate_upholds fuel _ hjob.1).ok hw hcondition).2⟩
  | turn hcondition _ => exact ⟨hjob.2, ((evaluate_upholds fuel _ hjob.1).ok hw hcondition).2⟩
  | nextTurn hcondition _ hbody =>
    have hw₁ := ((evaluate_upholds fuel _ hjob.1).ok hw hcondition).2
    exact ⟨hjob, ((execute_upholds fuel _ hjob.2).ok hw₁ hbody).2⟩
  | statement => exact ⟨hjob.1, hw⟩
  | restStatements hfirst => exact ⟨hjob.2, ((execute_upholds fuel _ hjob.1).ok hw hfirst).2⟩

theorem Reaches.operable {fuel fuel' : Nat} {job job' : Job} {w w' : World}
    (h : Reaches fuel job w fuel' job' w') (hw : w.Operable) (hjob : job.Operable) :
    job'.Operable ∧ w'.Operable := by
  induction h with
  | refl => exact ⟨hjob, hw⟩
  | next hstarts _ ih =>
    obtain ⟨hnext, hw₁⟩ := hstarts.operable hw hjob
    exact ih hw₁ hnext

end Lox
