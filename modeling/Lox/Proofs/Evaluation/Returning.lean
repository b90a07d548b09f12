import Lox.Proofs.Evaluation.Binding
import Lox.Proofs.Scoping.Violations

/-!
What comes back. A return ends the statements around it up to the function that it stands in, and resolution
refuses it outside of functions. A call of a class gives the object that it has made, and a call of an
initializer the object that it is bound to, whatever their bodies return.
-/
namespace Lox

mutual

/-- A return stands in the statement, and not in a function inside it. -/
def Stmt.returns : Stmt → Bool
  | .ret _ _ => true
  | .block body => Stmt.returnsAny body
  | .ifThen _ yes => yes.returns
  | .ifElse _ yes no => yes.returns || no.returns
  | .whileLoop _ body => body.returns
  | .expr _ | .print _ _ | .varDecl _ _ | .funDecl _ | .classDecl _ _ _ => false

def Stmt.returnsAny : List Stmt → Bool
  | [] => false
  | s :: rest => s.returns || Stmt.returnsAny rest

end

section Violations

mutual

/-- A return outside of functions violates the rules of scopes. -/
theorem Stmt.returns_eq_false {around : List Enclosure} (hfunction : innermostFunction? around = none) :
    ∀ s : Stmt, (∀ o ∈ s.occurrences around, o.violations = []) → s.returns = false
  | .expr _, _ | .print _ _, _ | .varDecl _ _, _ | .funDecl _, _ | .classDecl _ _ _, _ => rfl
  | .ret keyword value, h => by
    have hret := h _ (List.mem_cons_self ..)
    rw [Occurrence.violations, hfunction] at hret
    contradiction
  | .block body, h =>
    @Stmt.returnsAny_eq_false (.block body :: around) hfunction body (List.forall_mem_cons.1 h).2
  | .ifThen condition yes, h | .whileLoop condition yes, h =>
    Stmt.returns_eq_false hfunction yes (List.forall_mem_append.1 h).2
  | .ifElse condition yes no, h => by
    have h := List.forall_mem_append.1 h
    rw [Stmt.returns, Stmt.returns_eq_false hfunction yes (List.forall_mem_append.1 h.1).2,
      Stmt.returns_eq_false hfunction no h.2]
    rfl

theorem Stmt.returnsAny_eq_false {around : List Enclosure}
    (hfunction : innermostFunction? around = none) :
    ∀ ss : List Stmt, (∀ o ∈ Stmt.occurrencesAll around ss, o.violations = []) →
      Stmt.returnsAny ss = false
  | [], _ => rfl
  | s :: rest, h => by
    have h := List.forall_mem_append.1 h
    rw [Stmt.returnsAny, Stmt.returns_eq_false hfunction s h.1,
      Stmt.returnsAny_eq_false hfunction rest h.2]
    rfl

end

end Violations

/-- Whatever completes, completes without a return. -/
def Falls (m : Evaluation Flow) : Prop := ∀ w flow w', m w = .ok flow w' → flow = .normal

section Rules

variable {α : Type} {m n : Evaluation Flow}

theorem falls_normal : Falls (pure .normal) := by
  rintro w _ _ ⟨⟩
  rfl

theorem Falls.behind {first : Evaluation α} {next : α → Evaluation Flow}
    (h : ∀ value, Falls (next value)) : Falls (first >>= next) := by
  intro w flow w' hrun
  rw [Evaluation.bind_run] at hrun
  cases hfirst : first w with
  | ok value w₁ =>
    rw [hfirst] at hrun
    exact h value w₁ flow w' hrun
  | error e w₁ =>
    rw [hfirst] at hrun
    contradiction
  | exhausted =>
    rw [hfirst] at hrun
    contradiction

theorem Falls.bind {next : Flow → Evaluation Flow} (hm : Falls m) (h : Falls (next .normal)) :
    Falls (m >>= next) := by
  intro w flow w' hrun
  rw [Evaluation.bind_run] at hrun
  cases hfirst : m w with
  | ok completed w₁ =>
    rw [hfirst, hm w completed w₁ hfirst] at hrun
    exact h w₁ flow w' hrun
  | error e w₁ =>
    rw [hfirst] at hrun
    contradiction
  | exhausted =>
    rw [hfirst] at hrun
    contradiction

theorem Falls.ite {c : Prop} [Decidable c] (hm : Falls m) (hn : Falls n) :
    Falls (if c then m else n) := by
  split
  · exact hm
  · exact hn

theorem falls_raise (token : Token) (fault : RuntimeFault) : Falls (Evaluation.raise token fault) := by
  intro w flow w' hrun
  contradiction

theorem falls_exhausted : Falls Evaluation.exhausted := by
  intro w flow w' hrun
  contradiction

end Rules

theorem declareClass_falls (ctx : Context) (name : Token) (superclass : Option Class)
    (methods : List FunDecl) : Falls (declareClass ctx name superclass methods) := by
  rw [declareClass_eq]
  exact .behind fun _ => .behind fun _ => .behind fun _ => .behind fun _ => falls_normal

mutual

theorem execute_falls (fuel : Nat) (ctx : Context) (s : Stmt) (h : s.returns = false) :
    Falls (execute fuel ctx s) := by
  cases fuel with
  | zero => exact falls_exhausted
  | succ fuel =>
    cases s with
    | expr e =>
      simp only [execute]
      exact .behind fun _ => falls_normal
    | print keyword value =>
      simp only [execute]
      exact .behind fun _ => .behind fun _ => falls_normal
    | varDecl name init =>
      cases init with
      | none =>
        simp only [execute]
        exact .behind fun _ => falls_normal
      | some init =>
        simp only [execute]
        exact .behind fun _ => .behind fun _ => falls_normal
    | block body =>
      simp only [execute]
      exact .behind fun env => executeAll_falls fuel { ctx with env } body h
    | ifThen condition yes =>
      simp only [execute]
      exact .behind fun _ => .ite (execute_falls fuel ctx yes h) falls_normal
    | ifElse condition yes no =>
      simp only [execute]
      rw [Stmt.returns, Bool.or_eq_false_iff] at h
      exact .behind fun _ => .ite (execute_falls fuel ctx yes h.1) (execute_falls fuel ctx no h.2)
    | whileLoop condition body =>
      simp only [execute]
      apply Falls.behind
      intro _
      apply Falls.ite
      · exact (execute_falls fuel ctx body h).bind (execute_falls fuel ctx (.whileLoop condition body) h)
      · exact falls_normal
    | ret keyword value => contradiction
    | funDecl function =>
      simp only [execute]
      exact .behind fun _ => .behind fun _ => falls_normal
    | classDecl name superclass methods =>
      cases superclass with
      | none => exact declareClass_falls ctx name none methods
      | some parent =>
        simp only [execute]
        apply Falls.behind
        intro value
        cases value with
        | callable f =>
          cases f with
          | cls c => exact declareClass_falls ctx name (some c) methods
          | native _ | function _ _ => exact falls_raise _ _
        | nil | bool _ | num _ | str _ | object _ _ => exact falls_raise _ _
termination_by fuel
decreasing_by all_goals omega

theorem executeAll_falls (fuel : Nat) (ctx : Context) (ss : List Stmt) (h : Stmt.returnsAny ss = false) :
    Falls (executeAll fuel ctx ss) := by
  cases fuel with
  | zero => exact falls_exhausted
  | succ fuel =>
    cases ss with
    | nil => exact falls_normal
    | cons s rest =>
      simp only [executeAll]
      rw [Stmt.returnsAny, Bool.or_eq_false_iff] at h
      exact (execute_falls fuel ctx s h.1).bind (executeAll_falls fuel ctx rest h.2)
termination_by fuel
decreasing_by all_goals omega

end

section Calls

variable {fuel : Nat} {ctx : Context} {args : List Value} {w w' : World} {value : Value}

theorem Result.andThen_eq_ok {α β : Type} {result : Result α} {next : α → Evaluation β} {b : β}
    (h : result.andThen next = .ok b w') : ∃ a w₁, result = .ok a w₁ ∧ next a w₁ = .ok b w' := by
  cases result with
  | ok a w₁ => exact ⟨a, w₁, rfl, h⟩
  | error e w₁ => contradiction
  | exhausted => contradiction

theorem object_of_call {c : Class} (h : call fuel ctx (.cls c) args w = .ok value w') :
    value = .object w.objects.size c ∧ w.objects.size < w'.objects.size := by
  cases fuel with
  | zero => contradiction
  | succ fuel =>
    simp only [call, Evaluation.bind_run] at h
    obtain ⟨object, w₁, hmade, h⟩ := Result.andThen_eq_ok h
    cases hmade
    have hnew : w.objects.size < (w.objects.push Bindings.empty).size := by
      rw [Array.size_push]
      exact Nat.lt_succ_self _
    cases hmethod : c.findMethod? initializerName with
    | none =>
      rw [hmethod] at h
      cases h
      exact ⟨rfl, hnew⟩
    | some method =>
      rw [hmethod] at h
      simp only [Evaluation.bind_run] at h
      obtain ⟨init, w₂, hinit, h⟩ := Result.andThen_eq_ok h
      obtain ⟨result, w₃, hbody, h⟩ := Result.andThen_eq_ok h
      cases h
      have hbound : World.Gains _ [] [] w₂ := bindMethod_binds method _ _ w₂ (by rw [hinit]; rfl)
      have hrun := runBody_binds fuel ctx init args [] _ w' (by rw [hbody]; rfl)
      exact ⟨rfl, Nat.lt_of_lt_of_le hnew (Nat.le_trans hbound.objects hrun.objects)⟩

/-- An initializer gives what its environment calls `this`, whatever its body returns. -/
theorem receiver_of_runBody {closure : Closure} (hinitializer : closure.isInitializer = true)
    (h : runBody fuel ctx closure args w = .ok value w') :
    value = (w'.frames.getAt closure.env 0 "this").getD .nil := by
  cases fuel with
  | zero => contradiction
  | succ fuel =>
    simp only [runBody, Evaluation.bind_run] at h
    obtain ⟨env, w₁, -, h⟩ := Result.andThen_eq_ok h
    obtain ⟨flow, w₂, -, h⟩ := Result.andThen_eq_ok h
    rw [if_pos hinitializer] at h
    cases h
    rfl

theorem bound_of_methodOf {c : Class} {property : Token} {object : Value}
    (h : methodOf c property object w = .ok value w') :
    ∃ method id closure, c.findMethod? property.lexeme = some method ∧
      value = .callable (.function id closure) ∧ closure.decl = method.decl ∧
      closure.env = w.frames.frames.size :: method.env ∧
      closure.isInitializer = method.isInitializer ∧
      w'.frames.getAt closure.env 0 "this" = some object := by
  unfold methodOf at h
  cases hmethod : c.findMethod? property.lexeme with
  | none =>
    rw [hmethod] at h
    contradiction
  | some method =>
    rw [hmethod] at h
    cases h
    refine ⟨method, _, _, rfl, rfl, rfl, rfl, rfl, ?_⟩
    change (w.frames.create _ method.env).1.getIn w.frames.frames.size "this" = some object
    rw [Frames.getIn_create, if_pos rfl, Bindings.get?_singleton, if_pos rfl]

end Calls

end Lox
