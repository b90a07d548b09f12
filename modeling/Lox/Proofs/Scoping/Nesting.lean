import Mathlib.Data.List.Forall2
import Lox.Proofs.Scoping.Mention
import Lox.Proofs.Scoping.Occurrence

/-!
Expressions and the local scopes around them. `Stmt.Holds` reads off a statement which scopes lie around
an expression in it, and which names each of them has before that expression, without any walk. The
mentions of a program stand in stacks of just these scopes.
-/
namespace Lox

def declaredNames (params : List Token) (body : List Stmt) : List String :=
  (params ++ declaredIn body).map Token.lexeme

def classScopes (superclass : Option Token) : List (List String) :=
  ["this"] :: if superclass.isSome then [["super"]] else []

/-- An expression of a statement with the local scopes around it in the statement, innermost first. A
scope has the names that are declared in it before the expression: those of the parameters, of the
statements before the one that the expression is in, and of that one itself. -/
inductive Stmt.Holds : Stmt → Expr → List (List String) → Prop
  | expr (e) : Holds (.expr e) e []
  | print (keyword e) : Holds (.print keyword e) e []
  | initializer (name e) : Holds (.varDecl name (some e)) e []
  | ret (keyword e) : Holds (.ret keyword (some e)) e []
  | ifCondition (e yes) : Holds (.ifThen e yes) e []
  | elseCondition (e yes no) : Holds (.ifElse e yes no) e []
  | loopCondition (e body) : Holds (.whileLoop e body) e []
  | superclass (name parent methods) : Holds (.classDecl name (some parent) methods) (.var parent) []
  | ifThen {condition yes e scopes} (h : yes.Holds e scopes) : Holds (.ifThen condition yes) e scopes
  | elseYes {condition yes no e scopes} (h : yes.Holds e scopes) :
      Holds (.ifElse condition yes no) e scopes
  | elseNo {condition yes no e scopes} (h : no.Holds e scopes) :
      Holds (.ifElse condition yes no) e scopes
  | loop {condition body e scopes} (h : body.Holds e scopes) :
      Holds (.whileLoop condition body) e scopes
  | block {before s after e scopes} (h : s.Holds e scopes) :
      Holds (.block (before ++ s :: after)) e (scopes ++ [declaredNames [] (before ++ [s])])
  | function {name params before s after e scopes} (h : s.Holds e scopes) :
      Holds (.funDecl ⟨name, params, before ++ s :: after⟩) e
        (scopes ++ [declaredNames params (before ++ [s])])
  | method {name superclass methods method params before s after e scopes}
      (hmethod : ⟨method, params, before ++ s :: after⟩ ∈ methods) (h : s.Holds e scopes) :
      Holds (.classDecl name superclass methods) e
        (scopes ++ declaredNames params (before ++ [s]) :: classScopes superclass)

/-- A node of a program that uses a name, with the local scopes around it. -/
def UsesIn (program : List Stmt) (access : Access) (t : Token) (scopes : List (List String)) : Prop :=
  ∃ s ∈ program, ∃ e, s.Holds e scopes ∧ ⟨access, t, []⟩ ∈ e.mentions []

mutual

theorem Expr.mentions_in (stack stack' : ScopeStack) : ∀ e : Expr,
    e.mentions stack' = (e.mentions stack).map fun m => { m with stack := stack' }
  | .literal _ | .var _ | .this _ | .super _ _ => rfl
  | .unary _ e | .group e | .get e _ => e.mentions_in stack stack'
  | .assign _ value => by
    simp only [Expr.mentions, List.map_cons, value.mentions_in stack stack']
  | .binary left _ right | .logical left _ right | .set left _ right => by
    simp only [Expr.mentions, List.map_append, left.mentions_in stack stack',
      right.mentions_in stack stack']
  | .call callee _ args => by
    simp only [Expr.mentions, List.map_append, callee.mentions_in stack stack',
      Expr.mentionsAll_in stack stack' args]

theorem Expr.mentionsAll_in (stack stack' : ScopeStack) : ∀ es : List Expr,
    Expr.mentionsAll stack' es = (Expr.mentionsAll stack es).map fun m => { m with stack := stack' }
  | [] => rfl
  | e :: rest => by
    simp only [Expr.mentionsAll, List.map_append, e.mentions_in stack stack',
      Expr.mentionsAll_in stack stack' rest]

end

theorem Expr.mem_mentions_in {e : Expr} {access : Access} {t : Token} {stack : ScopeStack}
    (stack' : ScopeStack) (h : ⟨access, t, stack⟩ ∈ e.mentions stack) :
    ⟨access, t, stack'⟩ ∈ e.mentions stack' := by
  rw [e.mentions_in stack stack']
  exact List.mem_map_of_mem (f := fun m : Mention => { m with stack := stack' }) h

/-- Names declared in the innermost of listed scopes. Global names are not listed. -/
def declareIn (scopes : List (List String)) (names : List Token) : List (List String) :=
  match scopes with
  | [] => []
  | scope :: outer => (scope ++ names.map Token.lexeme) :: outer

@[simp] theorem declareIn_nil (scopes : List (List String)) : declareIn scopes [] = scopes := by
  cases scopes <;> simp [declareIn]

theorem declareIn_of_none {s : Stmt} (h : s.declared? = none) (scopes : List (List String)) :
    declareIn scopes s.declared?.toList = scopes := by
  rw [h]
  exact declareIn_nil scopes

theorem declareIn_append (scopes : List (List String)) (names more : List Token) :
    declareIn scopes (names ++ more) = declareIn (declareIn scopes names) more := by
  cases scopes <;> simp [declareIn]

/-- The scopes of a stack bind the listed names and no others. -/
def ScopeStack.Lists (stack : ScopeStack) (scopes : List (List String)) : Prop :=
  List.Forall₂ (fun scope names => ∀ name, scope.names.binds name = true ↔ name ∈ names) stack scopes

namespace ScopeStack

variable {stack : ScopeStack} {scopes : List (List String)}

theorem Lists.distance?_eq (h : stack.Lists scopes) (name : String) :
    stack.scopes.distance? name = scopes.findIdx? fun names => decide (name ∈ names) := by
  unfold Scopes.distance? ScopeStack.scopes
  induction h with
  | nil => rfl
  | @cons scope names stack scopes hscope _ ih =>
    have hbinds : scope.names.binds name = decide (name ∈ names) := by
      rw [Bool.eq_iff_iff, hscope, decide_eq_true_iff]
    rw [List.map_cons, List.findIdx?_cons, List.findIdx?_cons, ih, hbinds]

theorem Lists.bind (h : stack.Lists scopes) (name : Token) (ready : Bool) :
    (stack.bind name.lexeme ready).Lists (declareIn scopes [name]) := by
  cases h with
  | nil => exact .nil
  | cons hscope houter =>
    refine .cons (fun other => ?_) houter
    have hother := hscope other
    simp only [Bindings.binds, Bindings.get?_insert, List.map_singleton, List.mem_append,
      List.mem_singleton] at hother ⊢
    rw [← hother]
    split <;> simp [*]

theorem Lists.bindAll (h : stack.Lists scopes) (names : List Token) :
    (stack.bindAll names).Lists (declareIn scopes names) := by
  induction names generalizing stack scopes with
  | nil => rwa [declareIn_nil]
  | cons name names ih =>
    rw [← List.singleton_append, declareIn_append]
    exact ih (h.bind name true)

theorem Lists.bindIn (h : stack.Lists scopes) (s : Stmt) :
    (s.bindIn stack).Lists (declareIn scopes s.declared?.toList) := by
  cases s with
  | varDecl name _ => exact h.bind name true
  | funDecl function => exact h.bind function.name true
  | classDecl name _ _ => exact h.bind name true
  | expr _ | print _ _ | block _ | ifThen _ _ | ifElse _ _ _ | whileLoop _ _ | ret _ _ =>
    rwa [declareIn_of_none rfl]

theorem Lists.push (h : stack.Lists scopes) {scope : OpenScope} {names : List String}
    (hscope : ∀ name, scope.names.binds name = true ↔ name ∈ names) :
    Lists (scope :: stack) (names :: scopes) := .cons hscope h

theorem Lists.pushEmpty (h : stack.Lists scopes) {scope : OpenScope} (hscope : scope.names = .empty) :
    Lists (scope :: stack) ([] :: scopes) := by
  apply h.push
  intro name
  rw [hscope]
  simp [Bindings.binds]

theorem binds_keywordScope (keyword name : String) :
    (keywordScope keyword).binds name = true ↔ name ∈ [keyword] := by
  simp only [keywordScope, Bindings.binds, Bindings.get?_insert, List.mem_singleton]
  split <;> simp [*]

theorem Lists.pushClass (h : stack.Lists scopes) (name : Token) (superclass : Option Token) :
    Lists (.receiver name :: (superclass.elim stack fun _ => .superclass name :: stack))
      (classScopes superclass ++ scopes) := by
  cases superclass with
  | none => exact h.push (binds_keywordScope "this")
  | some parent => exact (h.push (binds_keywordScope "super")).push (binds_keywordScope "this")

end ScopeStack

theorem declaredIn_append (body more : List Stmt) :
    declaredIn (body ++ more) = declaredIn body ++ declaredIn more := List.filterMap_append

def Stmt.bindAllIn (stack : ScopeStack) (body : List Stmt) : ScopeStack :=
  body.foldl (fun stack s => s.bindIn stack) stack

theorem ScopeStack.Lists.bindAllIn {stack : ScopeStack} {scopes : List (List String)}
    (h : stack.Lists scopes) (body : List Stmt) :
    (Stmt.bindAllIn stack body).Lists (declareIn scopes (declaredIn body)) := by
  unfold Stmt.bindAllIn
  induction body generalizing stack scopes with
  | nil => simpa [declaredIn] using h
  | cons s rest ih =>
    rw [declaredIn_cons, declareIn_append]
    exact ih (h.bindIn s)

theorem Stmt.mem_mentionsAll {stack : ScopeStack} (before : List Stmt) {s : Stmt} (after : List Stmt)
    {m : Mention} (h : m ∈ s.mentions (Stmt.bindAllIn stack before)) :
    m ∈ Stmt.mentionsAll stack (before ++ s :: after) := by
  induction before generalizing stack with
  | nil => exact List.mem_append_left _ h
  | cons first before ih => exact List.mem_append_right _ (ih h)

/-- Wherever a statement stands, it mentions an expression in a stack that lists the scopes around it. -/
def Stmt.MentionsIn (s : Stmt) (e : Expr) (scopes : List (List String)) : Prop :=
  ∀ (stack : ScopeStack) (outer : List (List String)), stack.Lists outer →
    ∃ inner : ScopeStack, inner.Lists (scopes ++ declareIn outer s.declared?.toList) ∧
      ∀ m ∈ e.mentions inner, m ∈ s.mentions stack

namespace Stmt.MentionsIn

variable {s : Stmt} {e : Expr} {scopes : List (List String)}

theorem here (hs : s.declared? = none)
    (h : ∀ stack, ∀ m ∈ e.mentions stack, m ∈ s.mentions stack) : s.MentionsIn e [] := by
  intro stack outer hstack
  refine ⟨stack, ?_, h stack⟩
  rwa [List.nil_append, declareIn_of_none hs]

theorem declared {name : Token} (hs : s.declared? = some name)
    (h : ∀ stack : ScopeStack, ∀ m ∈ e.mentions (stack.bind name.lexeme false), m ∈ s.mentions stack) :
    s.MentionsIn e [] := by
  intro stack outer hstack
  refine ⟨stack.bind name.lexeme false, ?_, h stack⟩
  rw [List.nil_append, hs]
  exact hstack.bind name false

theorem branch {outside : Stmt} (h : s.MentionsIn e scopes) (hs : s.declared? = none)
    (houtside : outside.declared? = none)
    (hsub : ∀ stack, ∀ m ∈ s.mentions stack, m ∈ outside.mentions stack) :
    outside.MentionsIn e scopes := by
  intro stack outer hstack
  obtain ⟨inner, hinner, hmentions⟩ := h stack outer hstack
  refine ⟨inner, ?_, fun m hm => hsub stack m (hmentions m hm)⟩
  rw [declareIn_of_none hs] at hinner
  rwa [declareIn_of_none houtside]

theorem inSequence (h : s.MentionsIn e scopes) {stack : ScopeStack} {params : List Token}
    {before after : List Stmt} {outer : List (List String)}
    (hstack : stack.Lists (params.map Token.lexeme :: outer)) :
    ∃ inner : ScopeStack,
      inner.Lists (scopes ++ declaredNames params (before ++ [s]) :: outer) ∧
      ∀ m ∈ e.mentions inner, m ∈ Stmt.mentionsAll stack (before ++ s :: after) := by
  obtain ⟨inner, hinner, hmentions⟩ := h _ _ (hstack.bindAllIn before)
  refine ⟨inner, ?_, fun m hm => Stmt.mem_mentionsAll before after (hmentions m hm)⟩
  have hlast : declaredIn [s] = s.declared?.toList := by
    cases hs : s.declared? <;> simp [declaredIn, hs]
  rw [← declareIn_append, ← hlast, ← declaredIn_append] at hinner
  rwa [declaredNames, List.map_append]

theorem inFunction (h : s.MentionsIn e scopes) {name : Token} {params : List Token}
    {before after : List Stmt} {stack : ScopeStack} {outer : List (List String)}
    (hstack : stack.Lists outer) :
    ∃ inner : ScopeStack,
      inner.Lists (scopes ++ declaredNames params (before ++ [s]) :: outer) ∧
      ∀ m ∈ e.mentions inner, m ∈ FunDecl.mentions stack ⟨name, params, before ++ s :: after⟩ := by
  have hparams : ScopeStack.Lists (ScopeStack.bindAll (.function name :: stack) params)
      (params.map Token.lexeme :: outer) :=
    (hstack.pushEmpty rfl).bindAll params
  obtain ⟨inner, hinner, hmentions⟩ := h.inSequence hparams
  exact ⟨inner, hinner, fun m hm => List.mem_append_right _ (hmentions m hm)⟩

end Stmt.MentionsIn

theorem Stmt.Holds.mentionsIn {s : Stmt} {e : Expr} {scopes : List (List String)}
    (h : s.Holds e scopes) : s.Orderly → s.MentionsIn e scopes := by
  induction h with
  | expr e | print _ e | ret _ e => exact fun _ => .here rfl fun _ _ => id
  | ifCondition e yes | loopCondition e body =>
    exact fun _ => .here rfl fun _ _ => List.mem_append_left _
  | elseCondition e yes no =>
    exact fun _ => .here rfl fun _ _ hm => List.mem_append_left _ (List.mem_append_left _ hm)
  | initializer name e => exact fun _ => .declared rfl fun _ _ => List.mem_cons_of_mem _
  | superclass name parent methods =>
    refine fun _ => .declared rfl fun stack m hm => List.mem_cons_of_mem _ ?_
    exact List.mem_cons.2 (.inl (List.mem_singleton.1 hm))
  | ifThen h ih =>
    exact fun horderly => (ih horderly.2).branch horderly.1 rfl fun _ _ => List.mem_append_right _
  | elseYes h ih =>
    exact fun horderly => (ih horderly.1.2).branch horderly.1.1 rfl
      fun _ _ hm => List.mem_append_left _ (List.mem_append_right _ hm)
  | elseNo h ih =>
    exact fun horderly => (ih horderly.2.2).branch horderly.2.1 rfl fun _ _ => List.mem_append_right _
  | loop h ih =>
    exact fun horderly => (ih horderly.2).branch horderly.1 rfl fun _ _ => List.mem_append_right _
  | @block before s after e scopes h ih =>
    intro horderly stack outer hstack
    have hs : s.MentionsIn e scopes := ih (Stmt.orderly_of_mem horderly (by simp))
    have hempty : ScopeStack.Lists (.block (before ++ s :: after) :: stack)
        (List.map Token.lexeme [] :: outer) := hstack.pushEmpty rfl
    obtain ⟨inner, hinner, hmentions⟩ := hs.inSequence hempty
    refine ⟨inner, ?_, hmentions⟩
    rwa [declareIn_of_none rfl, List.append_assoc]
  | @function name params before s after e scopes h ih =>
    intro horderly stack outer hstack
    have hs : s.MentionsIn e scopes := ih (Stmt.orderly_of_mem horderly (by simp))
    obtain ⟨inner, hinner, hmentions⟩ := hs.inFunction (hstack.bind name true)
    refine ⟨inner, ?_, fun m hm => List.mem_cons_of_mem _ (hmentions m hm)⟩
    rwa [List.append_assoc]
  | @method name superclass methods method params before s after e scopes hmethod h ih =>
    intro horderly stack outer hstack
    have hf := FunDecl.orderly_of_mem horderly hmethod
    have hs : s.MentionsIn e scopes := ih (Stmt.orderly_of_mem hf (by simp))
    obtain ⟨inner, hinner, hmentions⟩ :=
      hs.inFunction ((hstack.bind name true).pushClass name superclass)
    refine ⟨inner, ?_, fun m hm => ?_⟩
    · rwa [List.append_assoc]
    · have hall := FunDecl.mem_mentionsAll (hmentions m hm) hmethod
      cases superclass with
      | none => exact List.mem_cons_of_mem _ hall
      | some parent => exact List.mem_cons_of_mem _ (List.mem_cons_of_mem _ hall)

theorem UsesIn.mention {program : List Stmt} {access : Access} {t : Token} {scopes : List (List String)}
    (h : UsesIn program access t scopes) (horderly : Stmt.OrderlyAll program) :
    ∃ stack : ScopeStack, stack.Lists scopes ∧ ⟨access, t, stack⟩ ∈ Stmt.mentionsAll [] program := by
  obtain ⟨s, hs, e, hholds, huse⟩ := h
  obtain ⟨before, after, rfl⟩ := List.append_of_mem hs
  have hbehind : Stmt.bindAllIn [] before = [] := by
    unfold Stmt.bindAllIn
    induction before with
    | nil => rfl
    | cons first rest ih => simp_all [Stmt.OrderlyAll]
  obtain ⟨inner, hinner, hmentions⟩ :=
    hholds.mentionsIn (Stmt.orderly_of_mem horderly hs) [] [] .nil
  refine ⟨inner, by simpa [declareIn] using hinner, Stmt.mem_mentionsAll before after ?_⟩
  rw [hbehind]
  exact hmentions _ (Expr.mem_mentions_in inner huse)

def Stmt.HoldsUse (s : Stmt) (access : Access) (t : Token) : Prop :=
  ∃ e scopes, s.Holds e scopes ∧ ⟨access, t, []⟩ ∈ e.mentions []

theorem Stmt.HoldsUse.imp {s s' : Stmt} {access : Access} {t : Token} (h : s.HoldsUse access t)
    (hholds : ∀ e scopes, s.Holds e scopes → ∃ more, s'.Holds e more) : s'.HoldsUse access t := by
  obtain ⟨e, scopes, hs, huse⟩ := h
  obtain ⟨more, hs'⟩ := hholds e scopes hs
  exact ⟨e, more, hs', huse⟩

section Uses

variable {access : Access} {t : Token}

theorem Stmt.holdsUse_of_expr {s : Stmt} {e : Expr} {stack stack' : ScopeStack} (hs : s.Holds e [])
    (h : ⟨access, t, stack'⟩ ∈ e.mentions stack) : s.HoldsUse access t := by
  refine ⟨e, [], hs, ?_⟩
  rw [e.mentions_in stack []]
  exact List.mem_map_of_mem (f := fun m : Mention => { m with stack := [] }) h

mutual

theorem Stmt.holdsUse (haccess : access ≠ .declaration) {stack stack' : ScopeStack} :
    ∀ s : Stmt, ⟨access, t, stack'⟩ ∈ s.mentions stack → s.HoldsUse access t
  | .expr e, h => Stmt.holdsUse_of_expr (.expr e) h
  | .print keyword e, h => Stmt.holdsUse_of_expr (.print keyword e) h
  | .varDecl name none, h => by
    cases List.mem_singleton.1 h
    contradiction
  | .varDecl name (some e), h => by
    rcases List.mem_cons.1 h with h | h
    · cases h
      contradiction
    · exact Stmt.holdsUse_of_expr (.initializer name e) h
  | .ret keyword none, h => nomatch h
  | .ret keyword (some e), h => Stmt.holdsUse_of_expr (.ret keyword e) h
  | .block body, h => by
    obtain ⟨before, s, after, rfl, hs⟩ := Stmt.holdsUseAll haccess body h
    exact hs.imp fun e scopes hholds => ⟨_, .block hholds⟩
  | .ifThen condition yes, h => by
    rcases List.mem_append.1 h with h | h
    · exact Stmt.holdsUse_of_expr (.ifCondition condition yes) h
    · exact (Stmt.holdsUse haccess yes h).imp fun e scopes hholds => ⟨_, .ifThen hholds⟩
  | .ifElse condition yes no, h => by
    rcases List.mem_append.1 h with h | h
    · rcases List.mem_append.1 h with h | h
      · exact Stmt.holdsUse_of_expr (.elseCondition condition yes no) h
      · exact (Stmt.holdsUse haccess yes h).imp fun e scopes hholds => ⟨_, .elseYes hholds⟩
    · exact (Stmt.holdsUse haccess no h).imp fun e scopes hholds => ⟨_, .elseNo hholds⟩
  | .whileLoop condition body, h => by
    rcases List.mem_append.1 h with h | h
    · exact Stmt.holdsUse_of_expr (.loopCondition condition body) h
    · exact (Stmt.holdsUse haccess body h).imp fun e scopes hholds => ⟨_, .loop hholds⟩
  | .funDecl ⟨name, params, body⟩, h => by
    rcases List.mem_cons.1 h with h | h
    · cases h
      contradiction
    · obtain ⟨before, s, after, hbody, hs⟩ := FunDecl.holdsUse haccess ⟨name, params, body⟩ h
      cases hbody
      exact hs.imp fun e scopes hholds => ⟨_, .function hholds⟩
  | .classDecl name superclass methods, h => by
    have hmethods : ∀ stack, ⟨access, t, stack'⟩ ∈ FunDecl.mentionsAll stack methods →
        (Stmt.classDecl name superclass methods).HoldsUse access t := by
      intro stack h
      obtain ⟨⟨method, params, body⟩, hmethod, before, s, after, hbody, hs⟩ :=
        FunDecl.holdsUseAll haccess methods h
      cases hbody
      exact hs.imp fun e scopes hholds => ⟨_, .method hmethod hholds⟩
    rcases List.mem_cons.1 h with h | h
    · cases h
      contradiction
    · cases superclass with
      | none => exact hmethods _ h
      | some parent =>
        rcases List.mem_cons.1 h with h | h
        · have hparent : ⟨access, t, stack'⟩ ∈ (Expr.var parent).mentions
              (stack.bind name.lexeme false) := List.mem_singleton.2 h
          exact Stmt.holdsUse_of_expr (.superclass name parent methods) hparent
        · exact hmethods _ h

theorem Stmt.holdsUseAll (haccess : access ≠ .declaration) {stack stack' : ScopeStack} :
    ∀ body : List Stmt, ⟨access, t, stack'⟩ ∈ Stmt.mentionsAll stack body →
      ∃ before s after, body = before ++ s :: after ∧ s.HoldsUse access t
  | [], h => nomatch h
  | first :: rest, h => by
    rcases List.mem_append.1 h with h | h
    · exact ⟨[], first, rest, rfl, Stmt.holdsUse haccess first h⟩
    · obtain ⟨before, s, after, hrest, hs⟩ := Stmt.holdsUseAll haccess rest h
      exact ⟨first :: before, s, after, by rw [hrest, List.cons_append], hs⟩

theorem FunDecl.holdsUse (haccess : access ≠ .declaration) {stack stack' : ScopeStack} :
    ∀ f : FunDecl, ⟨access, t, stack'⟩ ∈ f.mentions stack →
      ∃ before s after, f.body = before ++ s :: after ∧ s.HoldsUse access t
  | ⟨name, params, body⟩, h => by
    rcases List.mem_append.1 h with h | h
    · obtain ⟨param, -, hparam⟩ := List.mem_map.1 h
      cases hparam
      contradiction
    · exact Stmt.holdsUseAll haccess body h

theorem FunDecl.holdsUseAll (haccess : access ≠ .declaration) {stack stack' : ScopeStack} :
    ∀ methods : List FunDecl, ⟨access, t, stack'⟩ ∈ FunDecl.mentionsAll stack methods →
      ∃ f ∈ methods, ∃ before s after, f.body = before ++ s :: after ∧ s.HoldsUse access t
  | [], h => nomatch h
  | first :: rest, h => by
    rcases List.mem_append.1 h with h | h
    · exact ⟨first, List.mem_cons_self .., FunDecl.holdsUse haccess first h⟩
    · obtain ⟨f, hf, hbody⟩ := FunDecl.holdsUseAll haccess rest h
      exact ⟨f, List.mem_cons_of_mem _ hf, hbody⟩

end

theorem usesIn_of_mention (haccess : access ≠ .declaration) {program : List Stmt} {stack : ScopeStack}
    (h : ⟨access, t, stack⟩ ∈ Stmt.mentionsAll [] program) :
    ∃ scopes, UsesIn program access t scopes := by
  obtain ⟨before, s, after, rfl, e, scopes, hholds, huse⟩ := Stmt.holdsUseAll haccess program h
  exact ⟨scopes, s, by simp, e, hholds, huse⟩

end Uses

end Lox
