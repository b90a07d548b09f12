import Lox.Proofs.Relabelling.Resolution
import Lox.Proofs.Scoping.Mention

/-!
Distances of mentions. In a program without scope errors the distances that are found are those of its
mentions, and every mention that is read is ready where it is found: `this` and `super` stand inside
classes, and no variable is read in its own initializer.
-/
namespace Lox

namespace ScopeStack

/-- Every name is ready but one that is being initialized in the innermost scope. -/
structure Ripe (stack : ScopeStack) : Prop where
  outer : ∀ scope ∈ stack.tail, ∀ name, scope.names.get? name ≠ some false
  keywords : ∀ scope ∈ stack, ∀ name, isScopeKeyword name → scope.names.get? name ≠ some false

def Ready (stack : ScopeStack) : Prop := ∀ scope ∈ stack, ∀ name, scope.names.get? name ≠ some false

/-- The innermost `super` lies right behind the innermost `this`, in scopes of one class. -/
def FindsSuper (stack : ScopeStack) : Prop :=
  ∃ distance cls, stack.scopes.distance? "super" = some (distance + 1) ∧
    stack.openers[distance]? = some (.receiver cls) ∧
    stack.openers[distance + 1]? = some (.superclass cls)

def Within (stack : ScopeStack) : ClassContext → Prop
  | .outside => True
  | .base => (stack.scopes.distance? "this").isSome
  | .derived => (stack.scopes.distance? "this").isSome ∧ stack.FindsSuper

end ScopeStack

/-- A mention that is read is found ready. -/
def Mention.WellScoped (m : Mention) : Prop :=
  match m.access with
  | .declaration | .assignment => ¬ isScopeKeyword m.token.lexeme
  | .variable =>
    ∀ distance scope, m.distance? = some distance → m.stack[distance]? = some scope →
      scope.names.get? m.token.lexeme = some true
  | .this =>
    m.token.lexeme = "this" ∧ ∃ distance scope, m.distance? = some distance ∧
      m.stack[distance]? = some scope ∧ scope.names.get? "this" = some true
  | .super => m.token.lexeme = "super" ∧ m.stack.FindsSuper

/-- The findings of a walk are those of the mentions. -/
structure Findings.Cover (findings : Findings) (mentions : List Mention) : Prop where
  hops : ∀ hop, hop ∈ findings.hops ↔ ∃ m ∈ mentions, m.hop? = some hop
  sound : ∀ m ∈ mentions, m.WellScoped

namespace Findings

variable {f g : Findings} {ms ns : List Mention}

theorem cover_none : Findings.none.Cover [] := by
  constructor
  · intro hop
    simp [Findings.none]
  · intro m hm
    contradiction

theorem Cover.append (hf : f.Cover ms) (hg : g.Cover ns) : (f ++ g).Cover (ms ++ ns) := by
  constructor
  · intro hop
    rw [hops_append, List.mem_append, hf.hops, hg.hops]
    simp only [List.mem_append, or_and_right, exists_or]
  · intro m hm
    rcases List.mem_append.1 hm with hm | hm
    · exact hf.sound m hm
    · exact hg.sound m hm

theorem Cover.append_comm (hf : f.Cover ms) (hg : g.Cover ns) : (f ++ g).Cover (ns ++ ms) := by
  have h := hf.append hg
  constructor
  · intro hop
    rw [h.hops]
    simp only [List.mem_append, Or.comm]
  · intro m hm
    exact h.sound m (List.mem_append.2 (List.mem_append.1 hm).symm)

theorem Cover.of_nil_append (hf : f.Cover []) (hg : g.Cover ns) : (f ++ g).Cover ns := hf.append hg

theorem cover_errorIf (condition : Bool) (t : Token) (fault : ScopeFault) :
    (Findings.errorIf condition t fault).Cover [] := by
  cases condition
  · exact cover_none
  · constructor
    · intro hop
      simp [Findings.errorIf, Findings.error]
    · intro m hm
      contradiction

/-- Declarations are mentioned and not resolved. -/
theorem Cover.declare (hf : f.Cover ms) {name : Token} (hname : ¬ isScopeKeyword name.lexeme)
    (stack : ScopeStack) : f.Cover (⟨.declaration, name, stack⟩ :: ms) := by
  constructor
  · intro hop
    rw [hf.hops]
    simp [Mention.hop?, exists_eq_or_imp]
  · intro m hm
    rcases List.mem_cons.1 hm with rfl | hm
    · exact hname
    · exact hf.sound m hm

theorem errors_errorIf {condition : Bool} {t : Token} {fault : ScopeFault}
    (h : (Findings.errorIf condition t fault).errors = []) : condition = false := by
  cases condition
  · rfl
  · contradiction

end Findings

namespace Scopes

variable {scopes : Scopes} {name other : String}

theorem distance?_bind_of_ne (ready : Bool) (h : other ≠ name) :
    (scopes.bind name ready).distance? other = scopes.distance? other := by
  cases scopes with
  | nil => rfl
  | cons scope outer =>
    simp only [bind, distance?, List.findIdx?_cons, Bindings.binds, Bindings.get?_insert, if_neg h]

theorem distance?_bind_congr (ready ready' : Bool) :
    (scopes.bind name ready).distance? other = (scopes.bind name ready').distance? other := by
  cases scopes with
  | nil => rfl
  | cons scope outer =>
    have hbinds : (scope.insert name ready).binds other = (scope.insert name ready').binds other := by
      simp only [Bindings.binds, Bindings.get?_insert]
      split <;> rfl
    simp only [bind, distance?, List.findIdx?_cons, hbinds]

theorem distance?_cons_of_unbound {scope : Bindings Bool} (h : scope.get? name = none) :
    distance? (scope :: scopes) name = (scopes.distance? name).map (· + 1) := by
  simp [distance?, List.findIdx?_cons, Bindings.binds, h]

theorem distance?_cons_of_bound {scope : Bindings Bool} {ready : Bool}
    (h : scope.get? name = some ready) : distance? (scope :: scopes) name = some 0 := by
  simp [distance?, List.findIdx?_cons, Bindings.binds, h]

end Scopes

namespace ScopeStack

variable {stack : ScopeStack} {name : String}

theorem exists_of_distance? {distance : Nat} (h : stack.scopes.distance? name = some distance) :
    ∃ scope ready, stack[distance]? = some scope ∧ scope.names.get? name = some ready := by
  obtain ⟨hlt, hbinds, -⟩ := List.findIdx?_eq_some_iff_getElem.1 h
  have hlength : distance < stack.length := by
    rwa [scopes, List.length_map] at hlt
  simp only [scopes, List.getElem_map, Bindings.binds] at hbinds
  obtain ⟨ready, hready⟩ := Option.isSome_iff_exists.1 hbinds
  exact ⟨stack[distance], ready, List.getElem?_eq_getElem hlength, hready⟩

theorem Ready.ripe (h : stack.Ready) : stack.Ripe := by
  constructor
  · intro scope hscope
    exact h scope (List.mem_of_mem_tail hscope)
  · intro scope hscope name _
    exact h scope hscope name

theorem Ready.push (h : stack.Ready) {scope : OpenScope}
    (hscope : ∀ name, scope.names.get? name ≠ some false) : Ready (scope :: stack) := by
  intro scope' hscope'
  rcases List.mem_cons.1 hscope' with rfl | hscope'
  · exact hscope
  · exact h scope' hscope'

theorem Ready.bind (h : stack.Ready) (name : String) : (stack.bind name true).Ready := by
  cases stack with
  | nil => exact h
  | cons scope outer =>
    apply Ready.push
    · intro scope' hscope'
      exact h scope' (List.mem_cons_of_mem _ hscope')
    · intro other
      rw [Bindings.get?_insert]
      split
      · simp
      · exact h scope (List.mem_cons_self ..) other

theorem Ready.bindAll (h : stack.Ready) (names : List Token) : (stack.bindAll names).Ready := by
  unfold ScopeStack.bindAll
  induction names generalizing stack with
  | nil => exact h
  | cons name names ih => exact ih (h.bind name.lexeme)

theorem Ready.get?_bind_false (h : stack.Ready) {other : String} (hne : other ≠ name) :
    ∀ scope ∈ stack.bind name false, scope.names.get? other ≠ some false := by
  cases stack with
  | nil => exact fun scope hscope => h scope hscope other
  | cons scope outer =>
    intro scope' hscope'
    rcases List.mem_cons.1 hscope' with rfl | hscope'
    · rw [Bindings.get?_insert, if_neg hne]
      exact h scope (List.mem_cons_self ..) other
    · exact h scope' (List.mem_cons_of_mem _ hscope') other

theorem Ready.bind_false (h : stack.Ready) (hname : ¬ isScopeKeyword name) :
    (stack.bind name false).Ripe := by
  constructor
  · cases stack with
    | nil => exact h.ripe.outer
    | cons scope outer =>
      intro scope' hscope'
      exact h scope' (List.mem_cons_of_mem _ hscope')
  · intro scope' hscope' keyword hkeyword
    apply h.get?_bind_false _ scope' hscope'
    rintro rfl
    exact hname hkeyword

theorem FindsSuper.bind (h : stack.FindsSuper) (ready : Bool) (hname : ¬ isScopeKeyword name) :
    (stack.bind name ready).FindsSuper := by
  obtain ⟨distance, cls, hdistance, hreceiver, hsuperclass⟩ := h
  have hne : "super" ≠ name := fun h => hname (.inr h.symm)
  refine ⟨distance, cls, ?_, ?_, ?_⟩
  · rw [scopes_bind, Scopes.distance?_bind_of_ne ready hne]
    exact hdistance
  · rw [openers_bind]
    exact hreceiver
  · rw [openers_bind]
    exact hsuperclass

theorem FindsSuper.push (h : stack.FindsSuper) {scope : OpenScope}
    (hscope : scope.names.get? "super" = none) : FindsSuper (scope :: stack) := by
  obtain ⟨distance, cls, hdistance, hreceiver, hsuperclass⟩ := h
  refine ⟨distance + 1, cls, ?_, hreceiver, hsuperclass⟩
  rw [scopes, List.map_cons, Scopes.distance?_cons_of_unbound hscope]
  exact congrArg (Option.map (· + 1)) hdistance

theorem Within.bind {cls : ClassContext} (h : stack.Within cls) (ready : Bool)
    (hname : ¬ isScopeKeyword name) : (stack.bind name ready).Within cls := by
  have hne : "this" ≠ name := fun h => hname (.inl h.symm)
  cases cls with
  | outside => trivial
  | base =>
    rw [Within, scopes_bind, Scopes.distance?_bind_of_ne ready hne]
    exact h
  | derived =>
    constructor
    · rw [scopes_bind, Scopes.distance?_bind_of_ne ready hne]
      exact h.1
    · exact h.2.bind ready hname

theorem Within.bindAll {cls : ClassContext} (h : stack.Within cls) {names : List Token}
    (hnames : ∀ name ∈ names, ¬ isScopeKeyword name.lexeme) : (stack.bindAll names).Within cls := by
  unfold ScopeStack.bindAll
  induction names generalizing stack with
  | nil => exact h
  | cons name names ih =>
    apply ih
    · exact h.bind true (hnames name (List.mem_cons_self ..))
    · intro name' hname'
      exact hnames name' (List.mem_cons_of_mem _ hname')

theorem Within.push {cls : ClassContext} (h : stack.Within cls) {scope : OpenScope}
    (hscope : ∀ name, isScopeKeyword name → scope.names.get? name = none) :
    Within (scope :: stack) cls := by
  have hthis : Scopes.distance? (scope.names :: stack.scopes) "this" =
      (stack.scopes.distance? "this").map (· + 1) :=
    Scopes.distance?_cons_of_unbound (hscope "this" (.inl rfl))
  cases cls with
  | outside => trivial
  | base =>
    change (Scopes.distance? (scope.names :: stack.scopes) "this").isSome
    rw [hthis, Option.isSome_map]
    exact h
  | derived =>
    constructor
    · change (Scopes.distance? (scope.names :: stack.scopes) "this").isSome
      rw [hthis, Option.isSome_map]
      exact h.1
    · exact h.2.push (hscope "super" (.inr rfl))

theorem get?_keywordScope (keyword name : String) :
    (keywordScope keyword).get? name = if name = keyword then some true else none := by
  rw [keywordScope, Bindings.get?_insert, Bindings.get?_empty]

theorem keywordScope_ready (keyword name : String) : (keywordScope keyword).get? name ≠ some false := by
  rw [get?_keywordScope]
  split <;> simp

theorem within_base (stack : ScopeStack) (cls : Token) : Within (.receiver cls :: stack) .base := by
  have hbound : (keywordScope "this").get? "this" = some true := by
    rw [get?_keywordScope, if_pos rfl]
  have hthis : Scopes.distance? (keywordScope "this" :: stack.scopes) "this" = some 0 :=
    Scopes.distance?_cons_of_bound hbound
  change (Scopes.distance? (keywordScope "this" :: stack.scopes) "this").isSome
  rw [hthis]
  rfl

theorem within_derived (stack : ScopeStack) (cls : Token) :
    Within (.receiver cls :: .superclass cls :: stack) .derived := by
  constructor
  · exact within_base (.superclass cls :: stack) cls
  · have hunbound : (keywordScope "this").get? "super" = none := by
      rw [get?_keywordScope, if_neg (by decide)]
    have hbound : (keywordScope "super").get? "super" = some true := by
      rw [get?_keywordScope, if_pos rfl]
    refine ⟨0, cls, ?_, rfl, rfl⟩
    change Scopes.distance? (keywordScope "this" :: keywordScope "super" :: stack.scopes) "super" = some 1
    rw [Scopes.distance?_cons_of_unbound hunbound, Scopes.distance?_cons_of_bound hbound]
    rfl

end ScopeStack

theorem cover_use {access : Access} {token : Token} {stack : ScopeStack}
    (haccess : access ≠ .declaration) (hsound : Mention.WellScoped ⟨access, token, stack⟩) :
    (stack.scopes.use token).Cover [⟨access, token, stack⟩] := by
  constructor
  · intro hop
    simp only [List.mem_singleton, exists_eq_left, Mention.hop?, if_neg haccess, Mention.distance?,
      Scopes.use]
    cases stack.scopes.distance? token.lexeme with
    | none => simp [Findings.none]
    | some distance => simp [eq_comm]
  · intro m hm
    rw [List.mem_singleton.1 hm]
    exact hsound

theorem wellScoped_variable {stack : ScopeStack} (hripe : stack.Ripe) {name : Token}
    (h : (stack.scopes.read name).errors = []) : Mention.WellScoped ⟨.variable, name, stack⟩ := by
  rw [Scopes.read, Findings.errors_append, List.append_eq_nil_iff] at h
  have hready := of_decide_eq_false (Findings.errors_errorIf h.1)
  intro distance scope hdistance hscope
  obtain ⟨scope', ready, hscope', hbound⟩ := ScopeStack.exists_of_distance? hdistance
  cases hscope.symm.trans hscope'
  cases ready with
  | true => exact hbound
  | false =>
    exfalso
    cases stack with
    | nil => contradiction
    | cons first outer =>
      cases distance with
      | zero =>
        cases hscope
        exact hready hbound
      | succ distance =>
        exact hripe.outer scope (List.mem_of_getElem? hscope) name.lexeme hbound

theorem cover_read {stack : ScopeStack} (hripe : stack.Ripe) {name : Token}
    (h : (stack.scopes.read name).errors = []) :
    (stack.scopes.read name).Cover [⟨.variable, name, stack⟩] := by
  have hsound := wellScoped_variable hripe h
  unfold Scopes.read
  exact (Findings.cover_errorIf _ _ _).append (cover_use nofun hsound)

/-- A superclass is not the class itself, so it is found as if the class were not there yet. -/
theorem cover_superclass {stack : ScopeStack} (hready : stack.Ready) {name parent : Token}
    (hne : parent.lexeme ≠ name.lexeme) :
    ((stack.bind name.lexeme true).scopes.read parent).Cover
      [⟨.variable, parent, stack.bind name.lexeme false⟩] := by
  have hsound : Mention.WellScoped ⟨.variable, parent, stack.bind name.lexeme false⟩ := by
    intro distance scope hdistance hscope
    obtain ⟨scope', ready, hscope', hbound⟩ := ScopeStack.exists_of_distance? hdistance
    cases hscope.symm.trans hscope'
    have hnot := hready.get?_bind_false hne scope (List.mem_of_getElem? hscope)
    cases ready with
    | true => exact hbound
    | false => contradiction
  have huse : (stack.bind name.lexeme true).scopes.use parent =
      (stack.bind name.lexeme false).scopes.use parent := by
    unfold Scopes.use
    rw [ScopeStack.scopes_bind, ScopeStack.scopes_bind, Scopes.distance?_bind_congr true false]
  unfold Scopes.read
  rw [huse]
  exact (Findings.cover_errorIf _ _ _).append (cover_use nofun hsound)

theorem wellScoped_this {stack : ScopeStack} (hripe : stack.Ripe) {keyword : Token}
    (hspelled : keyword.lexeme = "this") (hthis : (stack.scopes.distance? "this").isSome) :
    Mention.WellScoped ⟨.this, keyword, stack⟩ := by
  obtain ⟨distance, hdistance⟩ := Option.isSome_iff_exists.1 hthis
  obtain ⟨scope, ready, hscope, hbound⟩ := ScopeStack.exists_of_distance? hdistance
  have hready := hripe.keywords scope (List.mem_of_getElem? hscope) "this" (.inl rfl)
  refine ⟨hspelled, distance, scope, ?_, hscope, ?_⟩
  · rw [Mention.distance?, hspelled]
    exact hdistance
  · cases ready with
    | true => exact hbound
    | false => contradiction

section Expressions

variable {around : Surroundings} {stack : ScopeStack}

mutual

theorem Expr.cover (hripe : stack.Ripe) (hwithin : stack.Within around.cls) : ∀ e : Expr,
    (∀ m ∈ e.mentions stack, m.Spelled) →
    (e.resolve around stack.scopes).errors = [] →
    (e.resolve around stack.scopes).Cover (e.mentions stack)
  | .literal _, _, _ => Findings.cover_none
  | .var name, _, h => cover_read hripe h
  | .assign name value, hspelled, h => by
    rw [Expr.resolve, Findings.errors_append, List.append_eq_nil_iff] at h
    have htarget := hspelled ⟨.assignment, name, stack⟩ (List.mem_cons_self ..)
    have hvalue := Expr.cover hripe hwithin value (fun m hm => hspelled m (List.mem_cons_of_mem _ hm)) h.1
    have hname : (stack.scopes.use name).Cover [⟨.assignment, name, stack⟩] := cover_use nofun htarget
    exact hvalue.append_comm hname
  | .unary _ operand, hspelled, h => Expr.cover hripe hwithin operand hspelled h
  | .group inner, hspelled, h => Expr.cover hripe hwithin inner hspelled h
  | .get object _, hspelled, h => Expr.cover hripe hwithin object hspelled h
  | .binary left _ right, hspelled, h | .logical left _ right, hspelled, h => by
    rw [Expr.resolve, Findings.errors_append, List.append_eq_nil_iff] at h
    have hleft := Expr.cover hripe hwithin left (fun m hm => hspelled m (List.mem_append_left _ hm)) h.1
    have hright := Expr.cover hripe hwithin right (fun m hm => hspelled m (List.mem_append_right _ hm)) h.2
    exact hleft.append hright
  | .call callee _ args, hspelled, h => by
    rw [Expr.resolve, Findings.errors_append, List.append_eq_nil_iff] at h
    have hcallee := Expr.cover hripe hwithin callee (fun m hm => hspelled m (List.mem_append_left _ hm)) h.1
    have hargs := Expr.coverAll hripe hwithin args (fun m hm => hspelled m (List.mem_append_right _ hm)) h.2
    exact hcallee.append hargs
  | .set object _ value, hspelled, h => by
    rw [Expr.resolve, Findings.errors_append, List.append_eq_nil_iff] at h
    have hvalue := Expr.cover hripe hwithin value (fun m hm => hspelled m (List.mem_append_right _ hm)) h.1
    have hobject := Expr.cover hripe hwithin object (fun m hm => hspelled m (List.mem_append_left _ hm)) h.2
    exact hvalue.append_comm hobject
  | .this keyword, hspelled, h => by
    have hkeyword := hspelled _ (List.mem_singleton_self _)
    rw [Expr.resolve] at h ⊢
    cases hcls : around.cls <;> rw [hcls] at h hwithin
    case outside => contradiction
    case base => exact cover_use nofun (wellScoped_this hripe hkeyword hwithin)
    case derived => exact cover_use nofun (wellScoped_this hripe hkeyword hwithin.1)
  | .super keyword _, hspelled, h => by
    have hkeyword := hspelled _ (List.mem_singleton_self _)
    rw [Expr.resolve] at h ⊢
    cases hcls : around.cls <;> rw [hcls] at h hwithin
    case outside => contradiction
    case base => contradiction
    case derived => exact cover_use nofun ⟨hkeyword, hwithin.2⟩

theorem Expr.coverAll (hripe : stack.Ripe) (hwithin : stack.Within around.cls) :
    ∀ es : List Expr, (∀ m ∈ Expr.mentionsAll stack es, m.Spelled) →
    (Expr.resolveAll around stack.scopes es).errors = [] →
    (Expr.resolveAll around stack.scopes es).Cover (Expr.mentionsAll stack es)
  | [], _, _ => Findings.cover_none
  | e :: rest, hspelled, h => by
    rw [Expr.resolveAll, Findings.errors_append, List.append_eq_nil_iff] at h
    have hfirst := Expr.cover hripe hwithin e (fun m hm => hspelled m (List.mem_append_left _ hm)) h.1
    have hrest := Expr.coverAll hripe hwithin rest (fun m hm => hspelled m (List.mem_append_right _ hm)) h.2
    exact hfirst.append hrest

end

theorem Expr.coverOption (hripe : stack.Ripe) (hwithin : stack.Within around.cls) (e : Option Expr)
    (hspelled : ∀ m ∈ Expr.mentionsOption stack e, m.Spelled)
    (h : (Expr.resolveOption around stack.scopes e).errors = []) :
    (Expr.resolveOption around stack.scopes e).Cover (Expr.mentionsOption stack e) := by
  cases e with
  | none => exact Findings.cover_none
  | some e => exact Expr.cover hripe hwithin e hspelled h

end Expressions

theorem Scopes.cover_redeclared (scopes : Scopes) (name : Token) : (scopes.redeclared name).Cover [] :=
  Findings.cover_errorIf _ _ _

theorem Scopes.cover_allRedeclared (scopes : Scopes) (names : List Token) :
    (scopes.allRedeclared names).Cover [] := by
  induction names generalizing scopes with
  | nil => exact Findings.cover_none
  | cons name names ih => exact (scopes.cover_redeclared name).append (ih _)

theorem Findings.Cover.declareAll {f : Findings} {ms : List Mention} (hf : f.Cover ms)
    {names : List Token} (hnames : ∀ name ∈ names, ¬ isScopeKeyword name.lexeme)
    (stack : ScopeStack) : f.Cover (names.map (⟨.declaration, ·, stack⟩) ++ ms) := by
  induction names with
  | nil => exact hf
  | cons name names ih =>
    have hrest := ih fun name' hname' => hnames name' (List.mem_cons_of_mem _ hname')
    exact hrest.declare (hnames name (List.mem_cons_self ..)) stack

theorem ScopeStack.Ready.bindIn {stack : ScopeStack} (h : stack.Ready) (s : Stmt) :
    (s.bindIn stack).Ready := by
  cases s with
  | varDecl name _ | classDecl name _ _ => exact h.bind name.lexeme
  | funDecl function => exact h.bind function.name.lexeme
  | _ => exact h

theorem ScopeStack.Within.bindIn {stack : ScopeStack} {cls : ClassContext} (h : stack.Within cls)
    {s : Stmt} (hspelled : ∀ m ∈ s.mentions stack, m.Spelled) : (s.bindIn stack).Within cls := by
  cases s with
  | varDecl name _ | funDecl _ | classDecl name _ _ =>
    unfold Stmt.mentions at hspelled
    exact h.bind true (hspelled _ (List.mem_cons_self ..))
  | _ => exact h

mutual

theorem Stmt.cover (around : Surroundings) {stack : ScopeStack} (hready : stack.Ready)
    (hwithin : stack.Within around.cls) : ∀ s : Stmt, (∀ m ∈ s.mentions stack, m.Spelled) →
    (s.resolve around stack.scopes).errors = [] →
    (s.resolve around stack.scopes).Cover (s.mentions stack)
  | .expr e, hspelled, h | .print _ e, hspelled, h => e.cover hready.ripe hwithin hspelled h
  | .varDecl name init, hspelled, h => by
    rw [Stmt.resolve, Findings.errors_append, List.append_eq_nil_iff] at h
    rw [Stmt.mentions] at hspelled ⊢
    have hname : ¬ isScopeKeyword name.lexeme := hspelled _ (List.mem_cons_self ..)
    rw [Stmt.resolve, ← ScopeStack.scopes_bind] at *
    have hinit := Expr.coverOption (hready.bind_false hname) (hwithin.bind false hname) init
      (fun m hm => hspelled m (List.mem_cons_of_mem _ hm)) h.2
    exact ((Scopes.cover_redeclared _ name).of_nil_append hinit).declare hname stack
  | .block body, hspelled, h => by
    rw [Stmt.resolve] at h ⊢
    rw [Stmt.mentions] at hspelled ⊢
    exact Stmt.coverAll around (hready.push (by simp [OpenScope.block]))
      (hwithin.push (by simp [OpenScope.block])) body hspelled h
  | .ifThen condition yes, hspelled, h => by
    rw [Stmt.resolve, Findings.errors_append, List.append_eq_nil_iff] at h
    rw [Stmt.mentions] at hspelled ⊢
    rw [Stmt.resolve]
    have hcondition := condition.cover hready.ripe hwithin
      (fun m hm => hspelled m (List.mem_append_left _ hm)) h.1
    have hyes := yes.cover around hready hwithin
      (fun m hm => hspelled m (List.mem_append_right _ hm)) h.2
    exact hcondition.append hyes
  | .ifElse condition yes no, hspelled, h => by
    rw [Stmt.resolve, Findings.errors_append, Findings.errors_append, List.append_eq_nil_iff,
      List.append_eq_nil_iff] at h
    rw [Stmt.mentions] at hspelled ⊢
    rw [Stmt.resolve]
    have hcondition := condition.cover hready.ripe hwithin
      (fun m hm => hspelled m (List.mem_append_left _ (List.mem_append_left _ hm))) h.1.1
    have hyes := yes.cover around hready hwithin
      (fun m hm => hspelled m (List.mem_append_left _ (List.mem_append_right _ hm))) h.1.2
    have hno := no.cover around hready hwithin
      (fun m hm => hspelled m (List.mem_append_right _ hm)) h.2
    exact (hcondition.append hyes).append hno
  | .whileLoop condition body, hspelled, h => by
    rw [Stmt.resolve, Findings.errors_append, List.append_eq_nil_iff] at h
    rw [Stmt.mentions] at hspelled ⊢
    rw [Stmt.resolve]
    have hcondition := condition.cover hready.ripe hwithin
      (fun m hm => hspelled m (List.mem_append_left _ hm)) h.1
    have hbody := body.cover around hready hwithin
      (fun m hm => hspelled m (List.mem_append_right _ hm)) h.2
    exact hcondition.append hbody
  | .ret keyword value, hspelled, h => by
    rw [Stmt.resolve, Findings.errors_append, List.append_eq_nil_iff] at h
    rw [Stmt.mentions] at hspelled ⊢
    rw [Stmt.resolve]
    have hvalue := Expr.coverOption hready.ripe hwithin value hspelled h.2
    have herrors := (Findings.cover_errorIf (around.function = .topLevel) keyword
      .returnOutsideFunction).append (Findings.cover_errorIf
        (value.isSome && around.function = .initializer) keyword .valueFromInitializer)
    exact herrors.of_nil_append hvalue
  | .funDecl function, hspelled, h => by
    rw [Stmt.resolve, Findings.errors_append, List.append_eq_nil_iff] at h
    rw [Stmt.mentions] at hspelled ⊢
    rw [Stmt.resolve]
    have hname : ¬ isScopeKeyword function.name.lexeme := hspelled _ (List.mem_cons_self ..)
    rw [← ScopeStack.scopes_bind] at h ⊢
    have hfunction := function.cover { around with function := .function } (hready.bind _)
      (hwithin.bind true hname) (fun m hm => hspelled m (List.mem_cons_of_mem _ hm)) h.2
    exact ((Scopes.cover_redeclared _ function.name).of_nil_append hfunction).declare hname stack
  | .classDecl name none methods, hspelled, h => by
    rw [Stmt.resolve, Findings.errors_append, List.append_eq_nil_iff] at h
    rw [Stmt.mentions] at hspelled ⊢
    rw [Stmt.resolve]
    rw [← ScopeStack.scopes_bind] at h ⊢
    have hmethods := FunDecl.coverAll { around with cls := .base }
      ((hready.bind name.lexeme).push (ScopeStack.keywordScope_ready "this"))
      (ScopeStack.within_base _ name) methods
      (fun m hm => hspelled m (List.mem_cons_of_mem _ hm)) h.2
    have hname : ¬ isScopeKeyword name.lexeme := hspelled _ (List.mem_cons_self ..)
    exact ((Scopes.cover_redeclared _ name).of_nil_append hmethods).declare hname stack
  | .classDecl name (some parent) methods, hspelled, h => by
    rw [Stmt.resolve, Findings.errors_append, Findings.errors_append, Findings.errors_append,
      List.append_eq_nil_iff, List.append_eq_nil_iff, List.append_eq_nil_iff] at h
    rw [Stmt.mentions] at hspelled ⊢
    rw [Stmt.resolve]
    rw [← ScopeStack.scopes_bind] at h ⊢
    have hinside := hready.bind name.lexeme
    have hne : parent.lexeme ≠ name.lexeme := ne_of_beq_false (Findings.errors_errorIf h.2.1.1)
    have hparent := cover_superclass hready hne
    have hmethods := FunDecl.coverAll { around with cls := .derived }
      ((hinside.push (ScopeStack.keywordScope_ready "super")).push
        (ScopeStack.keywordScope_ready "this"))
      (ScopeStack.within_derived _ name) methods
      (fun m hm => hspelled m (List.mem_cons_of_mem _ (List.mem_cons_of_mem _ hm))) h.2.2
    have hself := Findings.cover_errorIf (parent.lexeme == name.lexeme) parent .inheritsFromItself
    have hname : ¬ isScopeKeyword name.lexeme := hspelled _ (List.mem_cons_self ..)
    exact ((Scopes.cover_redeclared _ name).of_nil_append
      ((hself.append hparent).append hmethods)).declare hname stack

theorem Stmt.coverAll (around : Surroundings) {stack : ScopeStack} (hready : stack.Ready)
    (hwithin : stack.Within around.cls) : ∀ ss : List Stmt,
    (∀ m ∈ Stmt.mentionsAll stack ss, m.Spelled) →
    (Stmt.resolveAll around stack.scopes ss).errors = [] →
    (Stmt.resolveAll around stack.scopes ss).Cover (Stmt.mentionsAll stack ss)
  | [], _, _ => Findings.cover_none
  | s :: rest, hspelled, h => by
    rw [Stmt.resolveAll, Findings.errors_append, List.append_eq_nil_iff, ← Stmt.scopes_bindIn] at h
    rw [Stmt.mentionsAll] at hspelled ⊢
    rw [Stmt.resolveAll, ← Stmt.scopes_bindIn]
    have hfirst := s.cover around hready hwithin (fun m hm => hspelled m (List.mem_append_left _ hm)) h.1
    have hrest := Stmt.coverAll around (hready.bindIn s)
      (hwithin.bindIn fun m hm => hspelled m (List.mem_append_left _ hm)) rest
      (fun m hm => hspelled m (List.mem_append_right _ hm)) h.2
    exact hfirst.append hrest

theorem FunDecl.cover (around : Surroundings) {stack : ScopeStack} (hready : stack.Ready)
    (hwithin : stack.Within around.cls) : ∀ f : FunDecl, (∀ m ∈ f.mentions stack, m.Spelled) →
    (f.resolve around stack.scopes).errors = [] →
    (f.resolve around stack.scopes).Cover (f.mentions stack)
  | ⟨name, params, body⟩, hspelled, h => by
    rw [FunDecl.resolve, Findings.errors_append, List.append_eq_nil_iff] at h
    rw [FunDecl.mentions] at hspelled ⊢
    rw [FunDecl.resolve]
    have hparams : ∀ param ∈ params, ¬ isScopeKeyword param.lexeme := fun param hparam =>
      hspelled ⟨.declaration, param, .function name :: stack⟩
        (List.mem_append_left _ (List.mem_map_of_mem hparam))
    have hinside : ScopeStack.Ready (.function name :: stack) :=
      hready.push (by simp [OpenScope.function])
    have hbody := Stmt.coverAll around (hinside.bindAll params)
      ((hwithin.push (by simp [OpenScope.function])).bindAll hparams) body
      (fun m hm => hspelled m (List.mem_append_right _ hm))
    rw [ScopeStack.scopes_bindAll] at hbody
    exact ((Scopes.cover_allRedeclared _ params).of_nil_append (hbody h.2)).declareAll hparams _

theorem FunDecl.coverAll (around : Surroundings) {stack : ScopeStack} (hready : stack.Ready)
    (hwithin : stack.Within around.cls) : ∀ ms : List FunDecl,
    (∀ m ∈ FunDecl.mentionsAll stack ms, m.Spelled) →
    (FunDecl.resolveMethods around stack.scopes ms).errors = [] →
    (FunDecl.resolveMethods around stack.scopes ms).Cover (FunDecl.mentionsAll stack ms)
  | [], _, _ => Findings.cover_none
  | f :: rest, hspelled, h => by
    rw [FunDecl.resolveMethods, Findings.errors_append, List.append_eq_nil_iff] at h
    rw [FunDecl.mentionsAll] at hspelled ⊢
    rw [FunDecl.resolveMethods]
    have hfirst := f.cover
      { around with function := if f.isInitializer then .initializer else .method } hready hwithin
      (fun m hm => hspelled m (List.mem_append_left _ hm)) h.1
    have hrest := FunDecl.coverAll around hready hwithin rest
      (fun m hm => hspelled m (List.mem_append_right _ hm)) h.2
    exact hfirst.append hrest

end

theorem resolve_cover {program : List Stmt} (hspelled : ∀ m ∈ Stmt.mentionsAll [] program, m.Spelled)
    (h : (resolve program).errors = []) : (resolve program).Cover (Stmt.mentionsAll [] program) := by
  have hready : ScopeStack.Ready [] := by
    intro scope hscope
    contradiction
  exact Stmt.coverAll {} hready trivial program hspelled h

end Lox
