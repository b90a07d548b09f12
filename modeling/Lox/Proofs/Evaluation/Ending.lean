import Lox.Proofs.Evaluation.Basic
import Lox.Proofs.Evaluation.Frames

/-!
Evaluations without loops end. Within a body an evaluation follows the syntax; a call leaves it for a body
that stands in the world, but runs that one level deeper, and there are only so many levels. So it is
enough that no function which code can come to has a loop, and worlds stay like that.
-/
namespace Lox

mutual

/-- Whether no loop stands in a statement, also not in a function that it declares. -/
def Stmt.loopFree : Stmt → Bool
  | .expr _ | .print _ _ | .varDecl _ _ | .ret _ _ => true
  | .block body => Stmt.loopFreeAll body
  | .ifThen _ yes => yes.loopFree
  | .ifElse _ yes no => yes.loopFree && no.loopFree
  | .whileLoop _ _ => false
  | .funDecl f => f.loopFree
  | .classDecl _ _ methods => FunDecl.loopFreeAll methods

def Stmt.loopFreeAll : List Stmt → Bool
  | [] => true
  | s :: rest => s.loopFree && Stmt.loopFreeAll rest

def FunDecl.loopFree : FunDecl → Bool
  | ⟨_, _, body⟩ => Stmt.loopFreeAll body

def FunDecl.loopFreeAll : List FunDecl → Bool
  | [] => true
  | f :: rest => f.loopFree && FunDecl.loopFreeAll rest

end

theorem FunDecl.loopFree_eq (f : FunDecl) : f.loopFree = Stmt.loopFreeAll f.body := by
  cases f
  rfl

theorem FunDecl.loopFree_of_mem {methods : List FunDecl} (h : FunDecl.loopFreeAll methods = true) :
    ∀ f ∈ methods, f.loopFree = true := by
  induction methods with
  | nil => exact List.forall_mem_nil _
  | cons f rest ih =>
    rw [FunDecl.loopFreeAll, Bool.and_eq_true] at h
    exact List.forall_mem_cons.2 ⟨h.1, ih h.2⟩

/-- Frames and objects that code may come to. -/
structure Region where
  frames : FrameId → Prop
  objects : Nat → Prop

def Region.Covers (R : Region) (env : Environment) : Prop := ∀ frame ∈ env, R.frames frame

/-- A function without loops that leads to frames of a region only. -/
structure Closure.Tame (R : Region) (c : Closure) : Prop where
  loopFree : c.decl.loopFree = true
  env : R.Covers c.env

def Class.Tame (R : Region) (c : Class) : Prop :=
  ∀ name method, c.findMethod? name = some method → method.Tame R

def Callable.Tame (R : Region) : Callable → Prop
  | .native _ => True
  | .function _ closure => closure.Tame R
  | .cls c => c.Tame R

def Value.Tame (R : Region) : Value → Prop
  | .callable f => f.Tame R
  | .object id c => R.objects id ∧ c.Tame R
  | .nil | .bool _ | .num _ | .str _ => True

def Flow.Tame (R : Region) : Flow → Prop
  | .normal => True
  | .returned value => value.Tame R

/-- A world whose region holds tame values only, and takes in what is made from now on. -/
structure World.Tame (R : Region) (w : World) : Prop where
  globals : R.Covers globalEnv
  bindings : ∀ frame, R.frames frame → ∀ name value, w.frames.getIn frame name = some value →
    value.Tame R
  fields : ∀ id, R.objects id → ∀ fields, w.objects[id]? = some fields →
    ∀ name value, fields.get? name = some value → value.Tame R
  newFrames : ∀ frame, w.frames.frames.size ≤ frame → R.frames frame
  newObjects : ∀ id, w.objects.size ≤ id → R.objects id

variable {R : Region} {α β : Type}

theorem Value.IsPlain.tame {value : Value} (h : value.IsPlain) : value.Tame R := by
  cases value with
  | nil | bool _ | num _ | str _ => trivial
  | callable _ | object _ _ => contradiction

def Result.Settled (R : Region) (Q : α → Prop) : Result α → Prop
  | .ok value w => Q value ∧ w.Tame R
  | .error _ w => w.Tame R
  | .exhausted => False

/-- In every tame world there is an end that every bound from some bound on leads to. -/
def Ends (R : Region) (m : Nat → Evaluation α) (Q : α → Prop) : Prop :=
  ∀ w : World, w.Tame R → ∃ n result, result.Settled R Q ∧ ∀ fuel, n ≤ fuel → m fuel w = result

namespace Ends

variable {m : Nat → Evaluation α} {next : α → Nat → Evaluation β} {P : α → Prop} {Q : β → Prop}

theorem of_run {action : Evaluation α} (h : ∀ w : World, w.Tame R → (action w).Settled R P) :
    Ends R (fun _ => action) P := fun w hw => ⟨0, action w, h w hw, fun _ _ => rfl⟩

theorem run {action : Evaluation α} (h : Ends R (fun _ => action) P) {w : World} (hw : w.Tame R) :
    (action w).Settled R P := by
  obtain ⟨n, result, hsettled, hrun⟩ := h w hw
  have hresult : action w = result := hrun n (Nat.le_refl n)
  rwa [hresult]

theorem pure {value : α} (h : P value) : Ends R (fun _ => Pure.pure value) P :=
  of_run fun _ hw => ⟨h, hw⟩

theorem raise (token : Token) (fault : RuntimeFault) :
    Ends R (fun _ => Evaluation.raise token fault) P := of_run fun _ hw => hw

theorem bind (hm : Ends R m P) (hnext : ∀ value, P value → Ends R (next value) Q) :
    Ends R (fun fuel => m fuel >>= fun value => next value fuel) Q := by
  intro w hw
  obtain ⟨n, result, hsettled, hrun⟩ := hm w hw
  cases result with
  | ok value w' =>
    obtain ⟨hvalue, hw'⟩ := hsettled
    obtain ⟨n', result', hsettled', hrun'⟩ := hnext value hvalue w' hw'
    refine ⟨max n n', result', hsettled', fun fuel hfuel => ?_⟩
    change (m fuel w).andThen _ = _
    rw [hrun fuel (by omega)]
    exact hrun' fuel (by omega)
  | error e w' =>
    refine ⟨n, .error e w', hsettled, fun fuel hfuel => ?_⟩
    change (m fuel w).andThen _ = _
    rw [hrun fuel hfuel]
    rfl
  | exhausted => contradiction

theorem step (h : Ends R (fun fuel => m (fuel + 1)) P) : Ends R m P := by
  intro w hw
  obtain ⟨n, result, hsettled, hrun⟩ := h w hw
  refine ⟨n + 1, result, hsettled, fun fuel hfuel => ?_⟩
  cases fuel with
  | zero => contradiction
  | succ fuel => exact hrun fuel (by omega)

theorem ite {m m' : Nat → Evaluation α} {c : Prop} [Decidable c] (hm : Ends R m P)
    (hm' : ¬ c → Ends R m' P) : Ends R (fun fuel => if c then m fuel else m' fuel) P := by
  by_cases hc : c
  · simpa only [if_pos hc] using hm
  · simpa only [if_neg hc] using hm' hc

theorem lift (token : Token) {operation : Except RuntimeFault Value} (h : Operated operation) :
    Ends R (fun _ => Evaluation.lift token operation) (Value.Tame R) := by
  cases operation with
  | ok value => exact pure (Value.IsPlain.tame h)
  | error fault => exact raise token fault

end Ends

section Actions

namespace World.Tame

variable {w : World}

theorem withFrames (h : w.Tame R) {frames : Frames Value}
    (hsize : w.frames.frames.size ≤ frames.frames.size)
    (hbindings : ∀ frame, R.frames frame → ∀ name value, frames.getIn frame name = some value →
      value.Tame R) : ({ w with frames } : World).Tame R :=
  { h with
    bindings := hbindings
    newFrames := fun frame hframe => h.newFrames frame (Nat.le_trans hsize hframe) }

theorem defineIn (h : w.Tame R) (frame : FrameId) (name : String) {value : Value}
    (hvalue : value.Tame R) :
    ({ w with frames := w.frames.defineIn frame name value } : World).Tame R := by
  apply h.withFrames
  · simp [Frames.defineIn]
  · intro other hother name' value' hbound
    rw [Frames.getIn_defineIn] at hbound
    split at hbound
    · obtain ⟨-, -, rfl⟩ := Option.map_eq_some_iff.1 hbound
      exact hvalue
    · exact h.bindings other hother name' value' hbound

end World.Tame

theorem readVariable_ends {ctx : Context} (henv : R.Covers ctx.env) (name : Token) :
    Ends R (fun _ => readVariable ctx name) (Value.Tame R) := by
  apply Ends.of_run
  intro w hw
  unfold readVariable
  cases hfound : ctx.find? w.frames name with
  | none => exact hw
  | some value =>
    obtain ⟨frame, hframe, hvalue⟩ := Context.exists_of_find? hfound
    have hcovered : R.frames frame := hframe.elim (henv frame) (hw.globals frame)
    exact ⟨hw.bindings frame hcovered _ value hvalue, hw⟩

theorem assignVariable_ends (ctx : Context) (name : Token) {value : Value} (hvalue : value.Tame R) :
    Ends R (fun _ => assignVariable ctx name value) fun _ => True := by
  apply Ends.of_run
  intro w hw
  unfold assignVariable
  cases hassigned : ctx.assign? w.frames name value with
  | none => exact hw
  | some frames =>
    obtain ⟨frame, rfl⟩ := Context.exists_of_assign? hassigned
    exact ⟨trivial, hw.defineIn frame _ hvalue⟩

theorem assignDeclared_ends (env : Environment) (name : Token) {value : Value}
    (hvalue : value.Tame R) : Ends R (fun _ => assignDeclared env name value) fun _ => True := by
  apply Ends.of_run
  intro w hw
  unfold assignDeclared
  cases hassigned : w.frames.assign env name.lexeme value with
  | none => exact hw
  | some frames =>
    obtain ⟨frame, rfl⟩ := Frames.exists_of_assign hassigned
    exact ⟨trivial, hw.defineIn frame _ hvalue⟩

theorem defineVariable_ends (env : Environment) (name : String) {value : Value}
    (hvalue : value.Tame R) : Ends R (fun _ => defineVariable env name value) fun _ => True := by
  apply Ends.of_run
  intro w hw
  cases env with
  | nil => exact ⟨trivial, hw⟩
  | cons frame _ => exact ⟨trivial, hw.defineIn frame name hvalue⟩

/-- A new frame belongs to the region. -/
theorem makeFrame_ends {entries : List (String × Value)} {enclosing : Environment}
    (hentries : ∀ entry ∈ entries, entry.2.Tame R) (henclosing : R.Covers enclosing) :
    Ends R (fun _ => makeFrame (.ofList entries) enclosing) R.Covers := by
  apply Ends.of_run
  intro w hw
  constructor
  · exact List.forall_mem_cons.2 ⟨hw.newFrames _ (Nat.le_refl _), henclosing⟩
  · apply hw.withFrames
    · simp
    · intro frame hframe name value hbound
      change (w.frames.create (.ofList entries) enclosing).1.getIn frame name = some value at hbound
      rw [Frames.getIn_create] at hbound
      split at hbound
      · exact hentries _ (Bindings.mem_of_get?_ofList hbound)
      · exact hw.bindings frame hframe name value hbound

theorem freshId_ends : Ends R (fun _ => freshId) fun _ => True :=
  .of_run fun _ hw => ⟨trivial, { hw with }⟩

theorem makeFunction_ends {closure : Closure} (h : closure.Tame R) :
    Ends R (fun _ => makeFunction closure) (Value.Tame R) := freshId_ends.bind fun _ _ => .pure h

theorem makeObject_ends {c : Class} (h : c.Tame R) :
    Ends R (fun _ => makeObject c) (Value.Tame R) := by
  apply Ends.of_run
  intro w hw
  refine ⟨⟨hw.newObjects _ (Nat.le_refl _), h⟩, { hw with fields := ?_, newObjects := ?_ }⟩
  · intro id hid fields hfields name value hvalue
    rw [Array.getElem?_push] at hfields
    split at hfields
    · cases hfields
      contradiction
    · exact hw.fields id hid fields hfields name value hvalue
  · intro id hid
    rw [Array.size_push] at hid
    exact hw.newObjects id (by omega)

theorem bindMethod_ends {method : Closure} {receiver : Value} (hmethod : method.Tame R)
    (hreceiver : receiver.Tame R) :
    Ends R (fun _ => bindMethod method receiver) (Closure.Tame R) := by
  apply (makeFrame_ends (List.forall_mem_singleton.2 hreceiver) hmethod.env).bind
  intro env henv
  exact .pure ⟨hmethod.loopFree, henv⟩

theorem receiver_ends {method : Closure} (h : method.Tame R) :
    Ends R (fun _ => receiver method) (Value.Tame R) := by
  apply Ends.of_run
  intro w hw
  refine ⟨?_, hw⟩
  cases hfound : w.frames.getAt method.env 0 "this" with
  | none => trivial
  | some value =>
    obtain ⟨frame, hframe, hvalue⟩ := Frames.exists_of_getAt hfound
    exact hw.bindings frame (h.env frame hframe) _ value hvalue

theorem readField?_ends {id : Nat} (hid : R.objects id) (name : String) :
    Ends R (fun _ => readField? id name) fun value? => ∀ value ∈ value?, value.Tame R := by
  apply Ends.of_run
  intro w hw
  refine ⟨?_, hw⟩
  intro value hvalue
  obtain ⟨fields, hfields, hfield⟩ := Option.bind_eq_some_iff.1 hvalue
  exact hw.fields id hid fields hfields name value hfield

theorem setField_ends (id : Nat) (name : String) {value : Value} (hvalue : value.Tame R) :
    Ends R (fun _ => setField id name value) fun _ => True := by
  apply Ends.of_run
  intro w hw
  refine ⟨trivial, { hw with fields := ?_, newObjects := ?_ }⟩
  · intro id' hid' fields hfields name' value' hfield
    rw [Array.getElem?_modify] at hfields
    split at hfields
    · obtain ⟨old, hold, rfl⟩ := Option.map_eq_some_iff.1 hfields
      rw [Bindings.get?_insert] at hfield
      split at hfield
      · cases hfield
        exact hvalue
      · exact hw.fields id' hid' old hold name' value' hfield
    · exact hw.fields id' hid' fields hfields name' value' hfield
  · intro id' hid'
    rw [Array.size_modify] at hid'
    exact hw.newObjects id' hid'

theorem methodOf_ends {c : Class} (hc : c.Tame R) (property : Token) {receiver : Value}
    (hreceiver : receiver.Tame R) :
    Ends R (fun _ => methodOf c property receiver) (Value.Tame R) := by
  unfold methodOf
  cases hfind : c.findMethod? property.lexeme with
  | none => exact .raise property _
  | some method => exact (bindMethod_ends (hc _ method hfind) hreceiver).bind fun _ => makeFunction_ends

theorem readProperty_ends {object : Value} (hobject : object.Tame R) (property : Token) :
    Ends R (fun _ => readProperty object property) (Value.Tame R) := by
  cases object with
  | object id c =>
    apply (readField?_ends hobject.1 property.lexeme).bind
    intro value? hvalue
    cases value? with
    | none => exact methodOf_ends hobject.2 property hobject
    | some value => exact .pure (hvalue value rfl)
  | nil | bool _ | num _ | str _ | callable _ => exact .raise property _

theorem readSuper_ends {ctx : Context} (henv : R.Covers ctx.env) (keyword method : Token) :
    Ends R (fun _ => readSuper ctx keyword method) (Value.Tame R) := by
  apply Ends.of_run
  intro w hw
  unfold readSuper
  split
  · rename_i parent id c hfound
    obtain ⟨⟨outer, houter, hparent⟩, inner, hinner, hreceiver⟩ :=
      Context.exists_of_findSuper? hfound
    have hparent := hw.bindings outer (henv outer houter) _ _ hparent
    have hreceiver := hw.bindings inner (henv inner hinner) _ _ hreceiver
    exact (methodOf_ends hparent method hreceiver).run hw
  · exact hw

theorem readClock_ends : Ends R (fun _ => readClock) (Value.Tame R) :=
  .of_run fun _ hw => ⟨trivial, { hw with }⟩

theorem printLine_ends (keyword : Token) (text : String) :
    Ends R (fun _ => printLine keyword text) fun _ => True := by
  apply Ends.of_run
  intro w hw
  unfold printLine
  rcases w.console.print (text ++ "\n") with ⟨refusal, console⟩
  cases refusal with
  | none => exact ⟨trivial, { hw with }⟩
  | some reason => exact { hw with }

theorem tame_of_methodTable {env : Environment} {methods : List FunDecl} (henv : R.Covers env)
    (hmethods : FunDecl.loopFreeAll methods = true) {name : String} {method : Closure}
    (h : (methodTable env methods).get? name = some method) : method.Tame R := by
  obtain ⟨f, hf, rfl⟩ := exists_of_methodTable h
  exact ⟨FunDecl.loopFree_of_mem hmethods f hf, henv⟩

theorem tame_of_extension {superclass : Option Class} (hsuperclass : ∀ c ∈ superclass, c.Tame R)
    {env : Environment} {methods : List FunDecl} (henv : R.Covers env)
    (hmethods : FunDecl.loopFreeAll methods = true) (id : Nat) (name : String) :
    Class.Tame R ⟨id, name, superclass, methodTable env methods⟩ := by
  intro wanted method hfind
  rcases Class.own_or_inherited hfind with hown | ⟨-, parent, hparent, hinherited⟩
  · exact tame_of_methodTable henv hmethods hown
  · exact hsuperclass parent hparent wanted method hinherited

theorem methodsEnvironment_ends {ctx : Context} (henv : R.Covers ctx.env) {superclass : Option Class}
    (hsuperclass : ∀ c ∈ superclass, c.Tame R) :
    Ends R (fun _ => methodsEnvironment ctx superclass) R.Covers := by
  cases superclass with
  | none => exact .pure henv
  | some parent =>
    exact makeFrame_ends (List.forall_mem_singleton.2 (hsuperclass parent rfl)) henv

theorem declareClass_ends {ctx : Context} (henv : R.Covers ctx.env) (name : Token)
    {superclass : Option Class} (hsuperclass : ∀ c ∈ superclass, c.Tame R) {methods : List FunDecl}
    (hmethods : FunDecl.loopFreeAll methods = true) :
    Ends R (fun _ => declareClass ctx name superclass methods) (Flow.Tame R) := by
  rw [declareClass_eq]
  have hnil : Value.Tame R .nil := trivial
  apply (defineVariable_ends ctx.env name.lexeme hnil).bind
  intro _ _
  apply (methodsEnvironment_ends henv hsuperclass).bind
  intro env henv'
  apply freshId_ends.bind
  intro id _
  have hcls : Value.Tame R
      (.callable (.cls ⟨id, name.lexeme, superclass, methodTable env methods⟩)) :=
    tame_of_extension hsuperclass henv' hmethods id name.lexeme
  apply (assignDeclared_ends ctx.env name hcls).bind
  intro _ _
  exact .pure trivial

end Actions

def CallsEnd (R : Region) (depth : Nat) : Prop :=
  ∀ (ctx : Context) (f : Callable) (args : List Value), ctx.depth = depth → f.Tame R →
    (∀ value ∈ args, value.Tame R) → Ends R (fun fuel => call fuel ctx f args) (Value.Tame R)

/-- Where code may run: what it leads to lies in the region, and calls one level deeper end. -/
structure Context.Ready (R : Region) (ctx : Context) : Prop where
  env : R.Covers ctx.env
  calls : ctx.depth < maxCallDepth → CallsEnd R (ctx.depth + 1)

theorem Context.Ready.inside {ctx : Context} (h : ctx.Ready R) {env : Environment}
    (henv : R.Covers env) : Context.Ready R { ctx with env } := ⟨henv, h.calls⟩

section Code

variable {ctx : Context}

theorem callValue_ends (hctx : ctx.Ready R) {callee : Value} (hcallee : callee.Tame R) (paren : Token)
    {args : List Value} (hargs : ∀ value ∈ args, value.Tame R) :
    Ends R (fun fuel => match callee with
      | .callable f =>
        if f.arity ≠ args.length then Evaluation.raise paren (.wrongArity f.arity args.length)
        else if maxCallDepth ≤ ctx.depth then Evaluation.raise paren .stackOverflow
        else call fuel { ctx with depth := ctx.depth + 1 } f args
      | _ => Evaluation.raise paren .notCallable) (Value.Tame R) := by
  cases callee with
  | callable f =>
    refine .ite (.raise paren _) fun _ => .ite (.raise paren _) fun hlevel => ?_
    exact hctx.calls (Nat.lt_of_not_le hlevel) _ f args rfl hcallee hargs
  | nil | bool _ | num _ | str _ | object _ _ => exact .raise paren _

mutual

theorem evaluate_ends (hctx : ctx.Ready R) :
    ∀ e : Expr, Ends R (fun fuel => evaluate fuel ctx e) (Value.Tame R)
  | .literal value => .step (.pure (isPlain_ofLiteral value).tame)
  | .var name | .this name => .step (readVariable_ends hctx.env name)
  | .super keyword method => .step (readSuper_ends hctx.env keyword method)
  | .group inner => .step (evaluate_ends hctx inner)
  | .assign name value => by
    apply Ends.step
    apply (evaluate_ends hctx value).bind
    intro value hvalue
    exact (assignVariable_ends ctx name hvalue).bind fun _ _ => .pure hvalue
  | .unary op operand => by
    apply Ends.step
    apply (evaluate_ends hctx operand).bind
    intro operand _
    exact .lift op (unaryOperation_operated _ _)
  | .binary left op right => by
    apply Ends.step
    apply (evaluate_ends hctx left).bind
    intro left _
    apply (evaluate_ends hctx right).bind
    intro right _
    exact .lift op (binaryOperation_operated _ _ _)
  | .logical left op right => by
    apply Ends.step
    apply (evaluate_ends hctx left).bind
    intro left hleft
    exact .ite (.pure hleft) fun _ => evaluate_ends hctx right
  | .get object property => by
    apply Ends.step
    apply (evaluate_ends hctx object).bind
    intro object hobject
    exact readProperty_ends hobject property
  | .set object property value => by
    apply Ends.step
    apply (evaluate_ends hctx object).bind
    intro object _
    cases object with
    | object id c =>
      apply (evaluate_ends hctx value).bind
      intro value hvalue
      exact (setField_ends id _ hvalue).bind fun _ _ => .pure hvalue
    | nil | bool _ | num _ | str _ | callable _ => exact .raise property _
  | .call callee paren args => by
    apply Ends.step
    apply (evaluate_ends hctx callee).bind
    intro callee hcallee
    apply (evaluateAll_ends hctx args).bind
    intro args hargs
    exact callValue_ends hctx hcallee paren hargs

theorem evaluateAll_ends (hctx : ctx.Ready R) :
    ∀ es : List Expr, Ends R (fun fuel => evaluateAll fuel ctx es) fun values =>
      ∀ value ∈ values, value.Tame R
  | [] => .step (.pure (List.forall_mem_nil _))
  | e :: rest => by
    apply Ends.step
    apply (evaluate_ends hctx e).bind
    intro value hvalue
    apply (evaluateAll_ends hctx rest).bind
    intro values hvalues
    exact .pure (List.forall_mem_cons.2 ⟨hvalue, hvalues⟩)

end

mutual

theorem execute_ends {ctx : Context} (hctx : ctx.Ready R) : ∀ s : Stmt, s.loopFree = true →
    Ends R (fun fuel => execute fuel ctx s) (Flow.Tame R)
  | .expr e, _ => .step ((evaluate_ends hctx e).bind fun _ _ => .pure trivial)
  | .print keyword value, _ => by
    apply Ends.step
    apply (evaluate_ends hctx value).bind
    intro value _
    exact (printLine_ends keyword _).bind fun _ _ => .pure trivial
  | .varDecl name none, _ =>
    have hnil : Value.Tame R .nil := trivial
    .step ((defineVariable_ends _ _ hnil).bind fun _ _ => .pure trivial)
  | .varDecl name (some init), _ => by
    apply Ends.step
    apply (evaluate_ends hctx init).bind
    intro value hvalue
    exact (defineVariable_ends _ _ hvalue).bind fun _ _ => .pure trivial
  | .block body, hs => by
    apply Ends.step
    apply (makeFrame_ends (List.forall_mem_nil _) hctx.env).bind
    intro env henv
    exact executeAll_ends (hctx.inside henv) body hs
  | .ifThen condition yes, hs => by
    apply Ends.step
    apply (evaluate_ends hctx condition).bind
    intro condition _
    exact .ite (execute_ends hctx yes hs) fun _ => .pure trivial
  | .ifElse condition yes no, hs => by
    rw [Stmt.loopFree, Bool.and_eq_true] at hs
    apply Ends.step
    apply (evaluate_ends hctx condition).bind
    intro condition _
    exact .ite (execute_ends hctx yes hs.1) fun _ => execute_ends hctx no hs.2
  | .whileLoop _ _, hs => by contradiction
  | .ret _ none, _ => .step (.pure trivial)
  | .ret _ (some value), _ => .step ((evaluate_ends hctx value).bind fun _ hvalue => .pure hvalue)
  | .funDecl f, hs => by
    apply Ends.step
    have hclosure : Closure.Tame R ⟨f, ctx.env, false⟩ := ⟨hs, hctx.env⟩
    apply (makeFunction_ends hclosure).bind
    intro value hvalue
    exact (defineVariable_ends _ _ hvalue).bind fun _ _ => .pure trivial
  | .classDecl name none methods, hs =>
    have hnone : ∀ c ∈ (none : Option Class), c.Tame R := nofun
    .step (declareClass_ends hctx.env name hnone hs)
  | .classDecl name (some parent) methods, hs => by
    apply Ends.step
    apply (readVariable_ends hctx.env parent).bind
    intro value hvalue
    cases value with
    | callable f =>
      cases f with
      | cls c =>
        have hc : ∀ c' ∈ some c, Class.Tame R c' := by
          rintro _ ⟨⟩
          exact hvalue
        exact declareClass_ends hctx.env name hc hs
      | native _ | function _ _ => exact .raise parent _
    | nil | bool _ | num _ | str _ | object _ _ => exact .raise parent _

theorem executeAll_ends {ctx : Context} (hctx : ctx.Ready R) :
    ∀ body : List Stmt, Stmt.loopFreeAll body = true →
      Ends R (fun fuel => executeAll fuel ctx body) (Flow.Tame R)
  | [], _ => .step (.pure trivial)
  | s :: rest, hs => by
    rw [Stmt.loopFreeAll, Bool.and_eq_true] at hs
    apply Ends.step
    apply (execute_ends hctx s hs.1).bind
    intro flow hflow
    cases flow with
    | normal => exact executeAll_ends hctx rest hs.2
    | returned value => exact .pure hflow

end

theorem runBody_ends (hcalls : ctx.depth < maxCallDepth → CallsEnd R (ctx.depth + 1))
    {closure : Closure} (hclosure : closure.Tame R) {args : List Value}
    (hargs : ∀ value ∈ args, value.Tame R) :
    Ends R (fun fuel => runBody fuel ctx closure args) (Value.Tame R) := by
  have hparams : ∀ entry ∈ (closure.decl.params.map Token.lexeme).zip args, entry.2.Tame R :=
    fun entry hentry => hargs _ (List.of_mem_zip hentry).2
  apply Ends.step
  apply (makeFrame_ends hparams hclosure.env).bind
  intro env henv
  have hready : Context.Ready R { ctx with env } := ⟨henv, hcalls⟩
  have hbody := hclosure.loopFree
  rw [FunDecl.loopFree_eq] at hbody
  apply (executeAll_ends hready closure.decl.body hbody).bind
  intro flow hflow
  apply Ends.ite (receiver_ends hclosure)
  intro _
  cases flow with
  | normal => exact .pure trivial
  | returned value => exact .pure hflow

theorem callsEnd_step {depth : Nat} (hcalls : depth < maxCallDepth → CallsEnd R (depth + 1)) :
    CallsEnd R depth := by
  rintro ctx f args rfl hf hargs
  apply Ends.step
  cases f with
  | native f =>
    cases f
    exact readClock_ends
  | function id closure => exact runBody_ends hcalls hf hargs
  | cls c =>
    apply (makeObject_ends hf).bind
    intro object hobject
    cases hfind : c.findMethod? initializerName with
    | none => exact .pure hobject
    | some method =>
      apply (bindMethod_ends (hf _ method hfind) hobject).bind
      intro init hinit
      exact (runBody_ends hcalls hinit hargs).bind fun _ _ => .pure hobject

/-- Calls end at every depth, from the deepest level on upwards. -/
theorem callsEnd (R : Region) (depth : Nat) : CallsEnd R depth := by
  obtain ⟨left, hleft⟩ : ∃ left, maxCallDepth - depth = left := ⟨_, rfl⟩
  induction left generalizing depth with
  | zero => exact callsEnd_step fun h => absurd h (by omega)
  | succ left ih => exact callsEnd_step fun _ => ih (depth + 1) (by omega)

end Code

end Lox
