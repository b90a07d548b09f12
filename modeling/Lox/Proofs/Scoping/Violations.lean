import Lox.Proofs.Relabelling.Resolution
import Lox.Proofs.Scoping.Occurrence
import Lox.Source

/-!
Violations of the rules of scopes. What a construct violates depends on what is around it in the program
and on nothing that a walk keeps. The walk finds exactly these violations, each of them once.
-/
namespace Lox

namespace Enclosure

def function? : Enclosure → Option (Bool × FunDecl)
  | .function isMethod f => some (isMethod, f)
  | _ => none

def superclass? : Enclosure → Option (Option Token)
  | .classBody _ superclass => some superclass
  | _ => none

end Enclosure

def innermostFunction? (around : List Enclosure) : Option (Bool × FunDecl) :=
  around.findSome? Enclosure.function?

def innermostClass? (around : List Enclosure) : Option (Option Token) :=
  around.findSome? Enclosure.superclass?

def isLocal (around : List Enclosure) : Bool := around.any (·.scope?.isSome)

/-- What is around lies in the initializer of a local variable of the name. -/
def initializes (name : String) : List Enclosure → Bool
  | [] => false
  | .initializer x :: outer => (x.lexeme == name && isLocal outer) || initializes name outer
  | _ :: outer => initializes name outer

def repeatedAfter (earlier : List String) : List Token → List Token
  | [] => []
  | name :: names =>
    (if name.lexeme ∈ earlier then [name] else []) ++ repeatedAfter (name.lexeme :: earlier) names

def clash (name : Token) : ScopeError := ⟨name, .alreadyDeclared⟩

/-- The rules that a construct breaks where it stands. -/
def Occurrence.violations (o : Occurrence) : List ScopeError :=
  match o.construct with
  | .scope names => (repeatedAfter [] names).map clash
  | .variable name =>
    if initializes name.lexeme o.around then [⟨name, .readInOwnInitializer⟩] else []
  | .declaration _ | .assignment _ => []
  | .this keyword =>
    match innermostClass? o.around with
    | none => [⟨keyword, .thisOutsideClass⟩]
    | some _ => []
  | .super keyword =>
    match innermostClass? o.around with
    | none => [⟨keyword, .superOutsideClass⟩]
    | some none => [⟨keyword, .superWithoutSuperclass⟩]
    | some (some _) => []
  | .ret keyword hasValue =>
    match innermostFunction? o.around with
    | none => [⟨keyword, .returnOutsideFunction⟩]
    | some (isMethod, f) =>
      if isMethod && f.isInitializer && hasValue then [⟨keyword, .valueFromInitializer⟩] else []
  | .subclass name superclass =>
    if superclass.lexeme == name.lexeme then [⟨superclass, .inheritsFromItself⟩] else []

def surroundings (around : List Enclosure) : Surroundings where
  function :=
    match innermostFunction? around with
    | none => .topLevel
    | some (false, _) => .function
    | some (true, f) => if f.isInitializer then .initializer else .method
  cls :=
    match innermostClass? around with
    | none => .outside
    | some none => .base
    | some (some _) => .derived

/-- The errors of a walk are those of names that clash in the scope it starts in and the violations of
the constructs, in some order. -/
def Findings.Blames (f : Findings) (clashes : List ScopeError) (os : List Occurrence) : Prop :=
  f.errors.Perm (clashes ++ os.flatMap Occurrence.violations)

namespace Findings

variable {f g : Findings} {clashes more : List ScopeError} {os ps : List Occurrence}

theorem blames_none : Findings.none.Blames [] [] := List.Perm.nil

theorem Blames.append (hf : f.Blames clashes os) (hg : g.Blames more ps) :
    (f ++ g).Blames (clashes ++ more) (os ++ ps) := by
  rw [Blames, List.perm_iff_count] at hf hg ⊢
  intro e
  have hos := hf e
  have hps := hg e
  simp only [errors_append, List.flatMap_append, List.count_append] at hos hps ⊢
  omega

theorem Blames.append_comm (hf : f.Blames clashes os) (hg : g.Blames more ps) :
    (f ++ g).Blames (clashes ++ more) (ps ++ os) := by
  refine (hf.append hg).trans (List.Perm.append_left _ ?_)
  rw [List.flatMap_append, List.flatMap_append]
  exact List.perm_append_comm

theorem blames_errorIf (condition : Bool) (t : Token) (fault : ScopeFault) (o : Occurrence)
    (h : o.violations = if condition then [⟨t, fault⟩] else []) :
    (Findings.errorIf condition t fault).Blames [] [o] := by
  rw [Blames, List.flatMap_singleton, h]
  cases condition <;> exact List.Perm.refl _

end Findings

namespace Scopes

def initializing (scopes : Scopes) (name : String) : Bool :=
  scopes.head?.bind (·.get? name) = some false

theorem initializing_bind (scopes : Scopes) (name other : String) (ready : Bool) :
    (scopes.bind name ready).initializing other =
      if other = name then !ready && !scopes.isEmpty else scopes.initializing other := by
  cases scopes with
  | nil => simp [bind, initializing]
  | cons scope outer =>
    simp only [bind, initializing, List.head?_cons, Option.bind_some, Bindings.get?_insert]
    split
    · cases ready <;> rfl
    · rfl

theorem isEmpty_bind (scopes : Scopes) (name : String) (ready : Bool) :
    (scopes.bind name ready).isEmpty = scopes.isEmpty := by
  cases scopes <;> rfl

theorem use_blames (scopes : Scopes) (t : Token) (o : Occurrence) (h : o.violations = []) :
    (scopes.use t).Blames [] [o] := by
  rw [Findings.Blames, List.flatMap_singleton, h, use]
  cases scopes.distance? t.lexeme <;> exact List.Perm.nil

theorem read_blames {scopes : Scopes} {around : List Enclosure} {name : Token}
    (h : scopes.initializing name.lexeme = initializes name.lexeme around) :
    (scopes.read name).Blames [] [⟨.variable name, around⟩] := by
  have hread : scopes.read name =
      .errorIf (scopes.initializing name.lexeme) name .readInOwnInitializer ++ scopes.use name := rfl
  rw [hread, h, Findings.Blames, Findings.errors_append]
  have huse : (scopes.use name).errors = [] := by
    unfold use
    cases scopes.distance? name.lexeme <;> rfl
  rw [huse, List.append_nil]
  exact Findings.blames_errorIf _ _ _ _ rfl

@[simp] theorem bindAll_cons (scopes : Scopes) (name : Token) (names : List Token) :
    scopes.bindAll (name :: names) = (scopes.bind name.lexeme true).bindAll names := rfl

theorem allRedeclared_append (scopes : Scopes) (names more : List Token) :
    (scopes.allRedeclared (names ++ more)).errors =
      (scopes.allRedeclared names).errors ++ ((scopes.bindAll names).allRedeclared more).errors := by
  induction names generalizing scopes with
  | nil => rfl
  | cons name names ih =>
    simp only [List.cons_append, allRedeclared, Findings.errors_append, ih, bindAll_cons,
      List.append_assoc]

theorem allRedeclared_eq_repeated (scope : Bindings Bool) (outer : Scopes) (earlier : List String)
    (h : ∀ name, scope.binds name = decide (name ∈ earlier)) (names : List Token) :
    (allRedeclared (scope :: outer) names).errors = (repeatedAfter earlier names).map clash := by
  induction names generalizing scope earlier with
  | nil => rfl
  | cons name names ih =>
    have hnext : ∀ other, (scope.insert name.lexeme true).binds other =
        decide (other ∈ name.lexeme :: earlier) := by
      intro other
      have hother := h other
      simp only [Bindings.binds, Bindings.get?_insert, List.mem_cons] at hother ⊢
      split
      · simp_all
      · simp_all
    rw [allRedeclared, Findings.errors_append, repeatedAfter, List.map_append]
    congr 1
    · simp only [redeclared, List.head?_cons, Option.any_some, h]
      by_cases hearlier : name.lexeme ∈ earlier <;> simp [hearlier, Findings.errorIf] <;> rfl
    · exact ih _ _ hnext

end Scopes

theorem Stmt.bind_eq_bindAll (scopes : Scopes) (s : Stmt) :
    s.bind scopes = scopes.bindAll s.declared?.toList := by
  cases s <;> rfl

section Expressions

variable {around : List Enclosure} {scopes : Scopes}

mutual

theorem Expr.resolve_blames
    (h : ∀ name, scopes.initializing name = initializes name around) : ∀ e : Expr,
    (e.resolve (surroundings around) scopes).Blames [] (e.occurrences around)
  | .literal _ => Findings.blames_none
  | .var name => Scopes.read_blames (h name.lexeme)
  | .assign name value =>
    (value.resolve_blames h).append_comm (scopes.use_blames name ⟨.assignment name, around⟩ rfl)
  | .unary _ e | .group e | .get e _ => e.resolve_blames h
  | .binary left _ right | .logical left _ right =>
    (left.resolve_blames h).append (right.resolve_blames h)
  | .set object _ value => (value.resolve_blames h).append_comm (object.resolve_blames h)
  | .call callee _ args => (callee.resolve_blames h).append (Expr.resolveAll_blames h args)
  | .this keyword => by
    rw [Expr.resolve, surroundings, Expr.occurrences]
    cases hclass : innermostClass? around with
    | none => exact Findings.blames_errorIf true _ _ _ (by simp [Occurrence.violations, hclass])
    | some parent =>
      have hnone : (⟨.this keyword, around⟩ : Occurrence).violations = [] := by
        simp [Occurrence.violations, hclass]
      cases parent <;> exact scopes.use_blames keyword _ hnone
  | .super keyword _ => by
    rw [Expr.resolve, surroundings, Expr.occurrences]
    cases hclass : innermostClass? around with
    | none => exact Findings.blames_errorIf true _ _ _ (by simp [Occurrence.violations, hclass])
    | some parent =>
      cases parent with
      | none => exact Findings.blames_errorIf true _ _ _ (by simp [Occurrence.violations, hclass])
      | some parent => exact scopes.use_blames keyword _ (by simp [Occurrence.violations, hclass])

theorem Expr.resolveAll_blames
    (h : ∀ name, scopes.initializing name = initializes name around) : ∀ es : List Expr,
    (Expr.resolveAll (surroundings around) scopes es).Blames [] (Expr.occurrencesAll around es)
  | [] => Findings.blames_none
  | e :: rest => (e.resolve_blames h).append (Expr.resolveAll_blames h rest)

end

theorem Expr.resolveOption_blames
    (h : ∀ name, scopes.initializing name = initializes name around) (e : Option Expr) :
    (Expr.resolveOption (surroundings around) scopes e).Blames []
      (Expr.occurrencesOption around e) := by
  cases e with
  | none => exact Findings.blames_none
  | some e => exact e.resolve_blames h

end Expressions

/-- Nothing is being initialized where statements stand. -/
def Settled (around : List Enclosure) : Prop := ∀ name, initializes name around = false

structure Stands (scopes : Scopes) (around : List Enclosure) : Prop where
  settled : Settled around
  ready : ∀ name, scopes.initializing name = false
  isLocal : scopes.isEmpty = !isLocal around

namespace Stands

variable {scopes : Scopes} {around : List Enclosure}

theorem initial : Stands [] [] := ⟨fun _ => rfl, fun _ => rfl, rfl⟩

theorem initializing_eq (h : Stands scopes around) (name : String) :
    scopes.initializing name = initializes name around := by
  rw [h.ready, h.settled]

theorem bind (h : Stands scopes around) (name : String) : Stands (scopes.bind name true) around := by
  refine ⟨h.settled, fun other => ?_, ?_⟩
  · simp [Scopes.initializing_bind, h.ready]
  · rw [Scopes.isEmpty_bind, h.isLocal]

theorem bindAll (h : Stands scopes around) (names : List Token) :
    Stands (scopes.bindAll names) around := by
  induction names generalizing scopes with
  | nil => exact h
  | cons name names ih => exact ih (h.bind name.lexeme)

theorem initializer (h : Stands scopes around) (name : Token) (other : String) :
    (scopes.bind name.lexeme false).initializing other =
      initializes other (.initializer name :: around) := by
  rw [Scopes.initializing_bind, h.ready, h.isLocal, initializes, h.settled]
  by_cases hname : other = name.lexeme
  · simp [hname]
  · simp [hname, Ne.symm hname]

theorem push (h : Settled around) {enclosure : Enclosure} {names : List Token}
    (hscope : enclosure.scope? = some names) : Stands (.empty :: scopes) (enclosure :: around) := by
  refine ⟨fun name => ?_, fun _ => rfl, ?_⟩
  · cases enclosure <;> first | exact h name | cases hscope
  · simp [Lox.isLocal, hscope]

end Stands

theorem Findings.Blames.scope {f : Findings} {scopes : Scopes} {names : List Token}
    {around : List Enclosure} {os : List Occurrence}
    (h : f.Blames (Scopes.allRedeclared (.empty :: scopes) names).errors os) :
    f.Blames [] (⟨.scope names, around⟩ :: os) := by
  rw [Scopes.allRedeclared_eq_repeated .empty scopes [] (fun _ => rfl)] at h
  exact h

theorem allRedeclared_singleton (scopes : Scopes) (name : Token) :
    (scopes.allRedeclared [name]).errors = (scopes.redeclared name).errors := by
  rw [Scopes.allRedeclared, Findings.errors_append]
  exact List.append_nil _

/-- A declaration clashes before anything else is found in it. -/
theorem Findings.Blames.declare {f : Findings} {os : List Occurrence} (hf : f.Blames [] os)
    (scopes : Scopes) (around : List Enclosure) (name : Token) :
    (scopes.redeclared name ++ f).Blames (scopes.allRedeclared [name]).errors
      (⟨.declaration name, around⟩ :: os) := by
  rw [Findings.Blames, Findings.errors_append, allRedeclared_singleton]
  exact hf.append_left _

/-- A branch declares nothing, so that nothing in it clashes outside. -/
theorem Findings.Blames.branch {f : Findings} {scopes : Scopes} {s : Stmt} {os : List Occurrence}
    (hf : f.Blames (scopes.allRedeclared s.declared?.toList).errors os) (hs : s.declared? = .none) :
    f.Blames [] os := by
  rw [hs] at hf
  exact hf

/-- At most one of the two rules for a `return` is broken. -/
theorem ret_blames (around : List Enclosure) (keyword : Token) (hasValue : Bool) :
    (Findings.errorIf ((surroundings around).function = .topLevel) keyword .returnOutsideFunction ++
      .errorIf (hasValue && (surroundings around).function = .initializer) keyword
        .valueFromInitializer).Blames [] [⟨.ret keyword hasValue, around⟩] := by
  rw [Findings.Blames, List.flatMap_singleton, surroundings, Occurrence.violations]
  cases innermostFunction? around with
  | none => cases hasValue <;> exact List.Perm.refl _
  | some inside =>
    obtain ⟨isMethod, f⟩ := inside
    cases isMethod with
    | false => cases hasValue <;> exact List.Perm.refl _
    | true =>
      cases hinit : f.isInitializer <;> cases hasValue <;> simp only [hinit] <;>
        exact List.Perm.refl _

mutual

theorem Stmt.resolve_blames {scopes : Scopes} {around : List Enclosure} (h : Stands scopes around) :
    ∀ s : Stmt, s.Orderly → (s.resolve (surroundings around) scopes).Blames
      (scopes.allRedeclared s.declared?.toList).errors (s.occurrences around)
  | .expr e, _ | .print _ e, _ => e.resolve_blames h.initializing_eq
  | .varDecl name init, _ =>
    (Expr.resolveOption_blames (h.initializer name) init).declare scopes around name
  | .block body, hbody =>
    have hinside : Stands (.empty :: scopes) (.block body :: around) := .push h.settled rfl
    (Stmt.resolveAll_blames hinside body hbody).scope
  | .ifThen condition yes, ⟨hnone, hyes⟩ =>
    (condition.resolve_blames h.initializing_eq).append ((yes.resolve_blames h hyes).branch hnone)
  | .ifElse condition yes no, ⟨⟨hnone, hyes⟩, hnone', hno⟩ =>
    ((condition.resolve_blames h.initializing_eq).append
      ((yes.resolve_blames h hyes).branch hnone)).append ((no.resolve_blames h hno).branch hnone')
  | .whileLoop condition body, ⟨hnone, hbody⟩ =>
    (condition.resolve_blames h.initializing_eq).append ((body.resolve_blames h hbody).branch hnone)
  | .ret keyword value, _ =>
    (ret_blames around keyword value.isSome).append
      (Expr.resolveOption_blames h.initializing_eq value)
  | .funDecl function, hfunction =>
    (function.resolve_blames around h.settled false _ hfunction).declare scopes around function.name
  | .classDecl name none methods, hmethods =>
    (FunDecl.resolveMethods_blames (.classBody name .none :: around) h.settled _ methods
      hmethods).declare scopes around name
  | .classDecl name (some parent) methods, hmethods =>
    have hname := Findings.blames_errorIf (parent.lexeme == name.lexeme) parent .inheritsFromItself
      ⟨.subclass name parent, around⟩ rfl
    have hparent := Scopes.read_blames ((h.bind name.lexeme).initializing_eq parent.lexeme)
    have hinside := FunDecl.resolveMethods_blames (.classBody name (some parent) :: around) h.settled _
      methods hmethods
    ((hname.append hparent).append hinside).declare scopes around name

theorem Stmt.resolveAll_blames {scopes : Scopes} {around : List Enclosure} (h : Stands scopes around) :
    ∀ body : List Stmt, Stmt.OrderlyAll body →
      (Stmt.resolveAll (surroundings around) scopes body).Blames
        (scopes.allRedeclared (declaredIn body)).errors (Stmt.occurrencesAll around body)
  | [], _ => Findings.blames_none
  | s :: rest, ⟨hs, hrest⟩ => by
    rw [Stmt.resolveAll, Stmt.bind_eq_bindAll, declaredIn_cons, Scopes.allRedeclared_append]
    exact (s.resolve_blames h hs).append
      (Stmt.resolveAll_blames (h.bindAll s.declared?.toList) rest hrest)

/-- The scope of a function is its own, so that the scopes around do not matter. -/
theorem FunDecl.resolve_blames (around : List Enclosure) (h : Settled around) (isMethod : Bool)
    (scopes : Scopes) : ∀ f : FunDecl, f.Orderly →
      (f.resolve (surroundings (.function isMethod f :: around)) scopes).Blames []
        (f.occurrences isMethod around)
  | ⟨name, params, body⟩, hbody => by
    have hinside : Stands (.empty :: scopes) (.function isMethod ⟨name, params, body⟩ :: around) :=
      .push h rfl
    have hwalk := Stmt.resolveAll_blames (hinside.bindAll params) body hbody
    have hparams : (Scopes.allRedeclared (.empty :: scopes) params).Blames
        (Scopes.allRedeclared (.empty :: scopes) params).errors [] := by
      rw [Findings.Blames, List.flatMap_nil, List.append_nil]
    have hall := hparams.append hwalk
    rw [← Scopes.allRedeclared_append] at hall
    exact hall.scope

theorem FunDecl.resolveMethods_blames (around : List Enclosure) (h : Settled around)
    (scopes : Scopes) : ∀ methods : List FunDecl, FunDecl.OrderlyAll methods →
      (FunDecl.resolveMethods (surroundings around) scopes methods).Blames []
        (FunDecl.occurrencesAll around methods)
  | [], _ => Findings.blames_none
  | m :: rest, ⟨hm, hrest⟩ =>
    (m.resolve_blames around h true scopes hm).append
      (FunDecl.resolveMethods_blames around h scopes rest hrest)

end

theorem Scopes.allRedeclared_nil (names : List Token) : (Scopes.allRedeclared [] names).errors = [] := by
  induction names with
  | nil => rfl
  | cons name names ih =>
    rw [Scopes.allRedeclared, Findings.errors_append, Scopes.bind, ih]
    rfl

theorem resolve_errors_perm {program : List Stmt} (h : Stmt.OrderlyAll program) :
    (resolve program).errors.Perm ((occurrences program).flatMap Occurrence.violations) := by
  have hblames := Stmt.resolveAll_blames .initial program h
  rwa [Findings.Blames, Scopes.allRedeclared_nil] at hblames

/-- A program of the parser passes the walk if none of its constructs breaks a rule. Otherwise every
violation is reported once, at its token. -/
theorem resolve_reports_exactly_violations {tokens : List Token} {program : List Stmt}
    (h : parse tokens = .ok program) :
    ((resolve program).errors = [] ↔ ∀ o ∈ occurrences program, o.violations = []) ∧
      (resolve program).errors.Perm ((occurrences program).flatMap Occurrence.violations) := by
  have hperm := resolve_errors_perm (orderly_of_parse h)
  refine ⟨?_, hperm⟩
  rw [← List.flatMap_eq_nil_iff]
  constructor
  · intro hnone
    exact List.nil_perm.1 (hnone ▸ hperm)
  · intro hnone
    exact List.perm_nil.1 (hnone ▸ hperm)

/-- Every rule is broken here, each of them once; functions inside methods and classes inside classes
break none that holds only outside them. -/
theorem resolve_reports_everyRule :
    ∃ tokens program, tokens = (Lox.scan 0 ("return 1; { var a = a; fun f(a, a) { this; super.b; } }" ++
        "class A < A { init() { return super.b; fun g() { return 2; } } }" ++
        "class B { m() { class C < A { n() { return super.m; } } super.m; } }")).tokens.toList ∧
      parse tokens = .ok program ∧
      ((resolve program).errors = [] ↔ ∀ o ∈ occurrences program, o.violations = []) ∧
      (resolve program).errors.Perm ((occurrences program).flatMap Occurrence.violations) ∧
      (resolve program).errors.map (fun e => (e.token.lexeme, e.fault)) =
        [("return", .returnOutsideFunction), ("a", .readInOwnInitializer), ("a", .alreadyDeclared),
          ("this", .thisOutsideClass), ("super", .superOutsideClass), ("A", .inheritsFromItself),
          ("return", .valueFromInitializer), ("super", .superWithoutSuperclass)] := by
  obtain ⟨tokens, htokens⟩ : ∃ tokens, tokens =
      (Lox.scan 0 ("return 1; { var a = a; fun f(a, a) { this; super.b; } }" ++
        "class A < A { init() { return super.b; fun g() { return 2; } } }" ++
        "class B { m() { class C < A { n() { return super.m; } } super.m; } }")).tokens.toList :=
    ⟨_, rfl⟩
  have hreported : (parse tokens).toOption.map
      (fun program => (resolve program).errors.map fun e => (e.token.lexeme, e.fault)) =
        some [("return", .returnOutsideFunction), ("a", .readInOwnInitializer),
          ("a", .alreadyDeclared), ("this", .thisOutsideClass), ("super", .superOutsideClass),
          ("A", .inheritsFromItself), ("return", .valueFromInitializer),
          ("super", .superWithoutSuperclass)] := by
    rw [htokens]
    decide +kernel
  cases hparse : parse tokens with
  | error faults =>
    rw [hparse] at hreported
    contradiction
  | ok program =>
    rw [hparse] at hreported
    obtain ⟨hiff, hperm⟩ := resolve_reports_exactly_violations hparse
    exact ⟨tokens, program, htokens, hparse, hiff, hperm, Option.some.inj hreported⟩

end Lox
