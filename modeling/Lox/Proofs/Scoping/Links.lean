import Lox.Proofs.Scoping.Session
import Lox.Proofs.Scoping.Slots

/-!
Constructs and mentions. A construct stands under the slots of the parts around it, and its mention under
the scopes that the walk had there, one scope for every slot. So the distance of a variable leads to the
one slot that holds its name, and those of `this` and `super` to the frames of the innermost class.
-/
namespace Lox

/-- A scope of the walk binds only what the slot holds. -/
def OpenScope.Under (scope : OpenScope) : Slot → Prop
  | .scope names => ∀ name, scope.names.binds name = true → name ∈ names
  | .keyword keyword => ∀ name, scope.names.binds name = true ↔ name = keyword

def ScopeStack.Under (stack : ScopeStack) (around : List Enclosure) : Prop :=
  List.Forall₂ OpenScope.Under stack (slots around)

theorem OpenScope.Under.holds {scope : OpenScope} {slot : Slot} (h : scope.Under slot) {name : String}
    (hbinds : scope.names.binds name = true) : slot.holds name := by
  cases slot with
  | scope names => exact h name hbinds
  | keyword keyword => exact (h name).1 hbinds

theorem OpenScope.Under.insert {scope : OpenScope} {slot : Slot} (h : scope.Under slot) {name : String}
    (hname : slot.holds name) (ready : Bool) :
    OpenScope.Under { scope with names := scope.names.insert name ready } slot := by
  have hbinds : ∀ other, (scope.names.insert name ready).binds other = true ↔
      other = name ∨ scope.names.binds other = true := by
    intro other
    simp only [Bindings.binds, Bindings.get?_insert]
    split <;> simp [*]
  cases slot with
  | scope names =>
    intro other hother
    rcases (hbinds other).1 hother with rfl | hother
    · exact hname
    · exact h other hother
  | keyword keyword =>
    intro other
    rw [hbinds, h other]
    constructor
    · rintro (hsame | hother)
      · rw [hsame]
        exact hname
      · exact hother
    · exact .inr

theorem under_keyword (opener : Opener) (keyword : String) :
    OpenScope.Under ⟨opener, keywordScope keyword⟩ (.keyword keyword) := by
  intro name
  rw [Bindings.binds, ScopeStack.get?_keywordScope]
  split <;> simp [*]

theorem under_empty (opener : Opener) (names : List String) :
    OpenScope.Under ⟨opener, .empty⟩ (.scope names) := by
  intro name hname
  contradiction

namespace ScopeStack.Under

variable {plan : Plan} {stack : ScopeStack} {around : List Enclosure}

theorem bind (h : stack.Under around) {name : String} (hname : plan.Admits around name)
    (ready : Bool) : (stack.bind name ready).Under around := by
  unfold ScopeStack.Under at h ⊢
  unfold Plan.Admits Plan.chain at hname
  generalize slots around = chain at h hname ⊢
  cases h with
  | nil => exact .nil
  | cons hscope hrest => exact .cons (hscope.insert (hname _ rfl) ready) hrest

theorem bindAll (h : stack.Under around) {names : List Token}
    (hnames : ∀ t ∈ names, plan.Admits around t.lexeme) : (stack.bindAll names).Under around := by
  unfold ScopeStack.bindAll
  induction names generalizing stack with
  | nil => exact h
  | cons name names ih =>
    rw [List.forall_mem_cons] at hnames
    exact ih (h.bind hnames.1 true) hnames.2

theorem bindIn (h : stack.Under around) {s : Stmt}
    (hs : ∀ t ∈ s.declared?, plan.Admits around t.lexeme) : (s.bindIn stack).Under around := by
  cases s with
  | varDecl name _ => exact h.bind (hs name rfl) true
  | funDecl f => exact h.bind (hs f.name rfl) true
  | classDecl name _ _ => exact h.bind (hs name rfl) true
  | expr _ | print _ _ | block _ | ifThen _ _ | ifElse _ _ _ | whileLoop _ _ | ret _ _ => exact h

end ScopeStack.Under

def Construct.mention? : Construct → Option (Access × Token)
  | .declaration name => some (.declaration, name)
  | .variable name => some (.variable, name)
  | .assignment name => some (.assignment, name)
  | .this keyword => some (.this, keyword)
  | .super keyword => some (.super, keyword)
  | .scope _ | .ret _ _ | .subclass _ _ => none

/-- A construct is mentioned where it stands. -/
structure Occurrence.Linked (plan : Plan) (ms : List Mention) (o : Occurrence) : Prop where
  mention : ∀ access t, o.construct.mention? = some (access, t) →
    ∃ stack : ScopeStack, ⟨access, t, stack⟩ ∈ ms ∧ stack.Under o.around
  admits : ∀ name, o.construct = .declaration name → plan.Admits o.around name.lexeme
  plain : Plain o.around

section Links

variable {plan : Plan} {ms : List Mention}

theorem linked_of_mention {construct : Construct} {access : Access} {t : Token} {stack : ScopeStack}
    {around : List Enclosure} (hconstruct : construct.mention? = some (access, t))
    (hmem : ⟨access, t, stack⟩ ∈ ms) (hunder : stack.Under around) (hplain : Plain around)
    (hadmits : ∀ name, construct = .declaration name → plan.Admits around name.lexeme) :
    Occurrence.Linked plan ms ⟨construct, around⟩ := by
  refine ⟨fun access' t' h => ?_, hadmits, hplain⟩
  cases hconstruct.symm.trans h
  exact ⟨stack, hmem, hunder⟩

theorem linked_of_none {construct : Construct} {around : List Enclosure}
    (hconstruct : construct.mention? = none) (hplain : Plain around) :
    Occurrence.Linked plan ms ⟨construct, around⟩ := by
  refine ⟨fun access t h => ?_, fun name h => ?_, hplain⟩
  · cases hconstruct.symm.trans h
  · dsimp only at h
    rw [h] at hconstruct
    cases hconstruct

section Expressions

variable {stack : ScopeStack} {around : List Enclosure}

theorem linked_read {construct : Construct} {access : Access} {t : Token} (hunder : stack.Under around)
    (hplain : Plain around) (hconstruct : construct.mention? = some (access, t))
    (haccess : access ≠ .declaration) (h : ⟨access, t, stack⟩ ∈ ms) :
    Occurrence.Linked plan ms ⟨construct, around⟩ := by
  apply linked_of_mention hconstruct h hunder hplain
  intro name hname
  rw [hname] at hconstruct
  cases hconstruct
  contradiction

mutual

theorem Expr.linked (hunder : stack.Under around) (hplain : Plain around) :
    ∀ e : Expr, e.mentions stack ⊆ ms → ∀ o ∈ e.occurrences around, o.Linked plan ms
  | .literal _, _ => List.forall_mem_nil _
  | .var _, h | .this _, h | .super _ _, h =>
    List.forall_mem_singleton.2
      (linked_read hunder hplain rfl (by simp) (h (List.mem_singleton_self _)))
  | .assign _ value, h =>
    have h := List.cons_subset.1 h
    List.forall_mem_cons.2 ⟨linked_read hunder hplain rfl (by simp) h.1, value.linked hunder hplain h.2⟩
  | .unary _ e, h | .group e, h | .get e _, h => e.linked hunder hplain h
  | .binary left _ right, h | .logical left _ right, h | .set left _ right, h =>
    have h := List.append_subset.1 h
    List.forall_mem_append.2 ⟨left.linked hunder hplain h.1, right.linked hunder hplain h.2⟩
  | .call callee _ args, h =>
    have h := List.append_subset.1 h
    List.forall_mem_append.2 ⟨callee.linked hunder hplain h.1, Expr.linkedAll hunder hplain args h.2⟩

theorem Expr.linkedAll (hunder : stack.Under around) (hplain : Plain around) :
    ∀ es : List Expr, Expr.mentionsAll stack es ⊆ ms →
      ∀ o ∈ Expr.occurrencesAll around es, o.Linked plan ms
  | [], _ => List.forall_mem_nil _
  | e :: rest, h =>
    have h := List.append_subset.1 h
    List.forall_mem_append.2 ⟨e.linked hunder hplain h.1, Expr.linkedAll hunder hplain rest h.2⟩

end

theorem Expr.linkedOption (hunder : stack.Under around) (hplain : Plain around) (e : Option Expr)
    (h : Expr.mentionsOption stack e ⊆ ms) : ∀ o ∈ Expr.occurrencesOption around e, o.Linked plan ms := by
  cases e with
  | none => exact List.forall_mem_nil _
  | some e => exact e.linked hunder hplain h

end Expressions

theorem exists_mention_of_declaredIn {body : List Stmt} (stack : ScopeStack) :
    ∀ t ∈ declaredIn body, ∃ inner, ⟨.declaration, t, inner⟩ ∈ Stmt.mentionsAll stack body := by
  induction body generalizing stack with
  | nil => exact List.forall_mem_nil _
  | cons s rest ih =>
    rw [declaredIn_cons, List.forall_mem_append, Stmt.mentionsAll]
    constructor
    · intro t ht
      refine ⟨stack, List.mem_append_left _ ?_⟩
      cases s with
      | varDecl name _ | funDecl f =>
        rw [List.mem_singleton.1 ht]
        exact List.mem_cons_self
      | classDecl name superclass methods =>
        rw [List.mem_singleton.1 ht]
        cases superclass <;> exact List.mem_cons_self
      | expr _ | print _ _ | block _ | ifThen _ _ | ifElse _ _ _ | whileLoop _ _ | ret _ _ =>
        contradiction
    · intro t ht
      obtain ⟨inner, hinner⟩ := ih (s.bindIn stack) t ht
      exact ⟨inner, List.mem_append_right _ hinner⟩

theorem plain_cons {e : Enclosure} {around : List Enclosure} {names : List Token}
    (hslots : e.slots = [.scope (names.map Token.lexeme)])
    (hnames : ∀ t ∈ names, ¬ isScopeKeyword t.lexeme) (h : Plain around) : Plain (e :: around) := by
  intro words hwords
  rw [slots_cons, hslots, List.singleton_append, List.mem_cons] at hwords
  rcases hwords with hwords | hwords
  · cases hwords
    exact List.forall_mem_map.2 hnames
  · exact h words hwords

theorem plain_classBody {around : List Enclosure} (h : Plain around) (name : Token)
    (superclass : Option Token) : Plain (.classBody name superclass :: around) := by
  intro words hwords
  cases superclass with
  | none => exact h words (by simpa [Enclosure.slots] using hwords)
  | some _ => exact h words (by simpa [Enclosure.slots] using hwords)

theorem admits_cons {e : Enclosure} {around : List Enclosure} {names : List Token}
    (hslots : e.slots = [.scope (names.map Token.lexeme)]) :
    ∀ t ∈ names, plan.Admits (e :: around) t.lexeme := by
  intro t ht slot hslot
  rw [Plan.chain, slots_cons, hslots] at hslot
  cases hslot
  exact List.mem_map_of_mem ht

theorem linked_declaration {stack : ScopeStack} {around : List Enclosure} {name : Token}
    (hunder : stack.Under around) (hplain : Plain around) (hadmits : plan.Admits around name.lexeme)
    (h : ⟨.declaration, name, stack⟩ ∈ ms) :
    Occurrence.Linked plan ms ⟨.declaration name, around⟩ := by
  apply linked_of_mention rfl h hunder hplain
  rintro _ ⟨⟩
  exact hadmits

theorem not_keyword_of_declaredIn (hspelled : ∀ m ∈ ms, m.Spelled) {body : List Stmt}
    {stack : ScopeStack} (h : Stmt.mentionsAll stack body ⊆ ms) :
    ∀ t ∈ declaredIn body, ¬ isScopeKeyword t.lexeme := by
  intro t ht
  obtain ⟨inner, hinner⟩ := exists_mention_of_declaredIn stack t ht
  exact hspelled _ (h hinner)

mutual

theorem Stmt.linked (hspelled : ∀ m ∈ ms, m.Spelled) {stack : ScopeStack} {around : List Enclosure}
    (hunder : stack.Under around) (hplain : Plain around) : ∀ s : Stmt, s.Orderly →
      (∀ t ∈ s.declared?, plan.Admits around t.lexeme) → s.mentions stack ⊆ ms →
      ∀ o ∈ s.occurrences around, o.Linked plan ms
  | .expr e, _, _, h | .print _ e, _, _, h => e.linked hunder hplain h
  | .varDecl name init, _, hname, h =>
    have h := List.cons_subset.1 h
    have hinit : (stack.bind name.lexeme false).Under (.initializer name :: around) :=
      hunder.bind (hname name rfl) false
    List.forall_mem_cons.2 ⟨linked_declaration hunder hplain (hname name rfl) h.1,
      Expr.linkedOption hinit hplain init h.2⟩
  | .block body, horderly, _, h =>
    have hinside : ScopeStack.Under (.block body :: stack) (.block body :: around) :=
      .cons (under_empty _ _) hunder
    have hplain := plain_cons rfl (not_keyword_of_declaredIn hspelled h) hplain
    List.forall_mem_cons.2 ⟨linked_of_none rfl hplain,
      Stmt.linkedAll hspelled hinside hplain body horderly (admits_cons rfl) h⟩
  | .ifThen condition yes, ⟨hnone, hyes⟩, _, h =>
    have h := List.append_subset.1 h
    List.forall_mem_append.2 ⟨condition.linked hunder hplain h.1,
      yes.linked hspelled hunder hplain hyes (by simp [hnone]) h.2⟩
  | .ifElse condition yes no, ⟨⟨hnone, hyes⟩, hnone', hno⟩, _, h =>
    have h := List.append_subset.1 h
    have hfirst := List.append_subset.1 h.1
    List.forall_mem_append.2 ⟨List.forall_mem_append.2 ⟨condition.linked hunder hplain hfirst.1,
      yes.linked hspelled hunder hplain hyes (by simp [hnone]) hfirst.2⟩,
      no.linked hspelled hunder hplain hno (by simp [hnone']) h.2⟩
  | .whileLoop condition body, ⟨hnone, hbody⟩, _, h =>
    have h := List.append_subset.1 h
    List.forall_mem_append.2 ⟨condition.linked hunder hplain h.1,
      body.linked hspelled hunder hplain hbody (by simp [hnone]) h.2⟩
  | .ret _ value, _, _, h =>
    List.forall_mem_cons.2 ⟨linked_of_none rfl hplain, Expr.linkedOption hunder hplain value h⟩
  | .funDecl f, horderly, hname, h =>
    have h := List.cons_subset.1 h
    List.forall_mem_cons.2 ⟨linked_declaration hunder hplain (hname f.name rfl) h.1,
      f.linked hspelled (hunder.bind (hname f.name rfl) true) hplain false horderly h.2⟩
  | .classDecl name .none methods, horderly, hname, h =>
    have h := List.cons_subset.1 h
    have hinside : ScopeStack.Under (.receiver name :: stack.bind name.lexeme true)
        (.classBody name .none :: around) :=
      .cons (under_keyword _ _) (hunder.bind (hname name rfl) true)
    List.forall_mem_cons.2 ⟨linked_declaration hunder hplain (hname name rfl) h.1,
      FunDecl.linkedAll hspelled hinside (plain_classBody hplain _ _) methods horderly h.2⟩
  | .classDecl name (some parent) methods, horderly, hname, h =>
    have h := List.cons_subset.1 h
    have hparent := List.cons_subset.1 h.2
    have hinside : ScopeStack.Under
        (.receiver name :: .superclass name :: stack.bind name.lexeme true)
        (.classBody name (some parent) :: around) :=
      .cons (under_keyword _ _) (.cons (under_keyword _ _) (hunder.bind (hname name rfl) true))
    List.forall_mem_cons.2 ⟨linked_declaration hunder hplain (hname name rfl) h.1,
      List.forall_mem_cons.2 ⟨linked_of_none rfl hplain,
        List.forall_mem_cons.2
          ⟨linked_read (hunder.bind (hname name rfl) false) hplain rfl (by simp) hparent.1,
            FunDecl.linkedAll hspelled hinside (plain_classBody hplain _ _) methods horderly
              hparent.2⟩⟩⟩

theorem Stmt.linkedAll (hspelled : ∀ m ∈ ms, m.Spelled) {stack : ScopeStack}
    {around : List Enclosure} (hunder : stack.Under around) (hplain : Plain around) :
    ∀ body : List Stmt, Stmt.OrderlyAll body →
      (∀ t ∈ declaredIn body, plan.Admits around t.lexeme) → Stmt.mentionsAll stack body ⊆ ms →
      ∀ o ∈ Stmt.occurrencesAll around body, o.Linked plan ms
  | [], _, _, _ => List.forall_mem_nil _
  | s :: rest, ⟨hs, hrest⟩, hnames, h => by
    rw [declaredIn_cons, List.forall_mem_append] at hnames
    rw [Stmt.mentionsAll, List.append_subset] at h
    have hname : ∀ t ∈ s.declared?, plan.Admits around t.lexeme := by
      intro t ht
      exact hnames.1 t (Option.mem_toList.2 ht)
    exact List.forall_mem_append.2 ⟨s.linked hspelled hunder hplain hs hname h.1,
      Stmt.linkedAll hspelled (hunder.bindIn hname) hplain rest hrest hnames.2 h.2⟩

theorem FunDecl.linked (hspelled : ∀ m ∈ ms, m.Spelled) {stack : ScopeStack}
    {around : List Enclosure} (hunder : stack.Under around) (hplain : Plain around)
    (isMethod : Bool) : ∀ f : FunDecl, f.Orderly → f.mentions stack ⊆ ms →
      ∀ o ∈ f.occurrences isMethod around, o.Linked plan ms
  | ⟨name, params, body⟩, hbody, h => by
    obtain ⟨hparams, hrest⟩ := List.append_subset.1 h
    have hadmits : ∀ t ∈ params ++ declaredIn body,
        plan.Admits (.function isMethod ⟨name, params, body⟩ :: around) t.lexeme := admits_cons rfl
    have hinside : ScopeStack.Under (.function name :: stack)
        (.function isMethod ⟨name, params, body⟩ :: around) := .cons (under_empty _ _) hunder
    have hwords : ∀ t ∈ params ++ declaredIn body, ¬ isScopeKeyword t.lexeme := by
      rw [List.forall_mem_append]
      refine ⟨fun t ht => ?_, not_keyword_of_declaredIn hspelled hrest⟩
      exact hspelled _ (hparams (List.mem_map_of_mem ht))
    have hplain : Plain (.function isMethod ⟨name, params, body⟩ :: around) :=
      plain_cons rfl hwords hplain
    rw [List.forall_mem_append] at hadmits
    exact List.forall_mem_cons.2 ⟨linked_of_none rfl hplain,
      Stmt.linkedAll hspelled (hinside.bindAll hadmits.1) hplain body hbody hadmits.2 hrest⟩

theorem FunDecl.linkedAll (hspelled : ∀ m ∈ ms, m.Spelled) {stack : ScopeStack}
    {around : List Enclosure} (hunder : stack.Under around) (hplain : Plain around) :
    ∀ methods : List FunDecl, FunDecl.OrderlyAll methods → FunDecl.mentionsAll stack methods ⊆ ms →
      ∀ o ∈ FunDecl.occurrencesAll around methods, o.Linked plan ms
  | [], _, _ => List.forall_mem_nil _
  | m :: rest, ⟨hm, hrest⟩, h =>
    have h := List.append_subset.1 h
    List.forall_mem_append.2 ⟨m.linked hspelled hunder hplain true hm h.1,
      FunDecl.linkedAll hspelled hunder hplain rest hrest h.2⟩

end

end Links

section Distances

variable {stack : ScopeStack} {around : List Enclosure}

theorem ScopeStack.Under.getElem? (h : stack.Under around) {i : Nat} {slot : Slot}
    (hslot : (slots around)[i]? = some slot) : ∃ scope, stack[i]? = some scope ∧ scope.Under slot := by
  unfold ScopeStack.Under at h
  generalize slots around = chain at h hslot
  induction h generalizing i with
  | nil => contradiction
  | @cons scope _ _ _ hscope _ ih =>
    cases i with
    | zero =>
      cases hslot
      exact ⟨scope, rfl, hscope⟩
    | succ i => exact ih hslot

theorem ScopeStack.Under.slot_at_distance (h : stack.Under around) {name : String} {distance : Nat}
    (hdistance : stack.scopes.distance? name = some distance) :
    ∃ slot, (slots around)[distance]? = some slot ∧ slot.holds name := by
  obtain ⟨scope, ready, hscope, hready⟩ := ScopeStack.exists_of_distance? hdistance
  have hlength : stack.length = (slots around).length := h.length_eq
  have hlt : distance < (slots around).length := by
    rw [← hlength]
    exact (List.getElem?_eq_some_iff.1 hscope).1
  have hslot := List.getElem?_eq_getElem hlt
  obtain ⟨scope', hscope', hunder⟩ := h.getElem? hslot
  cases hscope.symm.trans hscope'
  refine ⟨_, hslot, hunder.holds ?_⟩
  rw [Bindings.binds, hready]
  rfl

theorem ScopeStack.distance_le {name : String} {distance i : Nat} {scope : OpenScope}
    (hdistance : stack.scopes.distance? name = some distance) (hscope : stack[i]? = some scope)
    (hbinds : scope.names.binds name = true) : distance ≤ i := by
  obtain ⟨hlt, -, hnearer⟩ := List.findIdx?_eq_some_iff_getElem.1 hdistance
  apply Nat.le_of_not_lt
  intro hi
  obtain ⟨hi', rfl⟩ := List.getElem?_eq_some_iff.1 hscope
  have hunbound := hnearer i hi
  simp only [ScopeStack.scopes, List.getElem_map] at hunbound
  exact hunbound hbinds

theorem ScopeStack.Under.innermost (h : stack.Under around) (hplain : Plain around) {word : String}
    (hword : isScopeKeyword word) {i : Nat} (hslot : (slots around)[i]? = some (.keyword word)) :
    ∃ distance, stack.scopes.distance? word = some distance ∧ Innermost around word distance := by
  have hbinds : ∀ (i : Nat) (slot : Slot), (slots around)[i]? = some slot → slot.holds word →
      ∃ scope : OpenScope, stack[i]? = some scope ∧ scope.names.binds word = true := by
    intro i slot hslot hholds
    obtain ⟨scope, hscope, hunder⟩ := h.getElem? hslot
    rw [hplain.eq_keyword (List.mem_of_getElem? hslot) hword hholds] at hunder
    exact ⟨scope, hscope, (hunder word).2 rfl⟩
  obtain ⟨scope, hscope, hbound⟩ := hbinds i _ hslot rfl
  have hsome : (stack.scopes.distance? word).isSome = true := by
    rw [Scopes.distance?, List.findIdx?_isSome, List.any_eq_true]
    exact ⟨scope.names, List.mem_map_of_mem (List.mem_of_getElem? hscope), hbound⟩
  obtain ⟨distance, hdistance⟩ := Option.isSome_iff_exists.1 hsome
  refine ⟨distance, hdistance, ?_, ?_⟩
  · obtain ⟨slot, hfound, hholds⟩ := h.slot_at_distance hdistance
    rw [hfound, hplain.eq_keyword (List.mem_of_getElem? hfound) hword hholds]
  · intro i slot hslot hholds
    obtain ⟨scope, hscope, hbound⟩ := hbinds i slot hslot hholds
    exact ScopeStack.distance_le hdistance hscope hbound

end Distances

section Programs

variable {plan : Plan} {ms : List Mention} {o : Occurrence} {program : List Stmt}

theorem Occurrence.Linked.found (h : o.Linked plan ms) (hknows : Scene.Knows plan.hops ms)
    {access : Access} {t : Token} (hmention : o.construct.mention? = some (access, t))
    (haccess : access ≠ .declaration) :
    ∃ stack : ScopeStack, stack.Under o.around ∧ ⟨access, t, stack⟩ ∈ ms ∧
      plan.hops[t.index]? = stack.scopes.distance? t.lexeme := by
  obtain ⟨stack, hmem, hunder⟩ := h.mention access t hmention
  exact ⟨stack, hunder, hmem, (hknows _ hmem).2 haccess⟩

theorem declaredLocally_of_slot (ho : o ∈ occurrences program) {slot : Slot} {name : String}
    (hslot : slot ∈ slots o.around) (hname : ¬ isScopeKeyword name) (hholds : slot.holds name) :
    DeclaredLocally program name := by
  obtain ⟨names, rfl, hmem⟩ := eq_scope_of_holds hslot hname hholds
  obtain ⟨e, he, tokens, htokens, rfl⟩ := mem_slots hslot
  exact ⟨o, ho, e, he, tokens, htokens, hmem⟩

theorem good_variable (hlinked : o.Linked plan ms) (hknows : Scene.Knows plan.hops ms)
    (hspelled : ∀ m ∈ ms, m.Spelled) (h : Unshadowed program)
    (hglobals : plan.globals = globalNames program)
    (htable : ∀ hop ∈ (resolve program).hops, (plan.hops[hop.token.index]?).isSome = true)
    (ho : o ∈ occurrences program) {t : Token}
    (hconstruct : o.construct = .variable t ∨ o.construct = .assignment t) : o.Good plan := by
  have hfound : ∀ {access : Access}, o.construct.mention? = some (access, t) →
      access = .variable ∨ access = .assignment → ∃ stack : ScopeStack, stack.Under o.around ∧
        plan.hops[t.index]? = stack.scopes.distance? t.lexeme ∧ ¬ isScopeKeyword t.lexeme := by
    intro access hmention haccess
    have hreads : access ≠ .declaration := by
      rcases haccess with rfl | rfl <;> simp
    obtain ⟨stack, hunder, hmem, hhop⟩ := hlinked.found hknows hmention hreads
    have hword := hspelled _ hmem
    refine ⟨stack, hunder, hhop, ?_⟩
    rcases haccess with rfl | rfl <;> exact hword
  have hmention : o.construct.mention? = some (.variable, t) ∨
      o.construct.mention? = some (.assignment, t) := by
    rcases hconstruct with hconstruct | hconstruct <;> rw [hconstruct]
    · exact .inl rfl
    · exact .inr rfl
  obtain ⟨stack, hunder, hhop, hname⟩ :=
    hmention.elim (fun h => hfound h (.inl rfl)) fun h => hfound h (.inr rfl)
  suffices hplace : ∀ (i : Nat) (slot : Slot), (plan.chain o.around)[i]? = some slot →
      slot.holds t.lexeme → i = plan.hops[t.index]?.getD (slots o.around).length by
    rcases hconstruct with hconstruct | hconstruct <;> rw [Occurrence.Good, hconstruct] <;>
      exact hplace
  intro i slot hslot hholds
  rcases Plan.chain_cases hslot with hslot | ⟨rfl, rfl⟩
  · have hdeclared := declaredLocally_of_slot ho (List.mem_of_getElem? hslot) hname hholds
    obtain ⟨hop, hhopMem, hindex⟩ := h.used _ hdeclared o ho t hconstruct rfl
    have hsome := htable hop hhopMem
    rw [hindex] at hsome
    obtain ⟨distance, hdistance⟩ := Option.isSome_iff_exists.1 hsome
    obtain ⟨found, hfound, hfoundHolds⟩ := hunder.slot_at_distance (hhop.symm.trans hdistance)
    rw [hdistance, Option.getD_some]
    exact h.place_unique ho hname hslot hholds hfound hfoundHolds
  · cases hdistance : plan.hops[t.index]? with
    | none => rfl
    | some distance =>
      obtain ⟨found, hfound, hfoundHolds⟩ := hunder.slot_at_distance (hhop.symm.trans hdistance)
      have hdeclared := declaredLocally_of_slot ho (List.mem_of_getElem? hfound) hname hfoundHolds
      exact absurd (hglobals ▸ hholds) (h.global _ hdeclared)

theorem good_this (h : o.Linked plan ms) (hknows : Scene.Knows plan.hops ms)
    (hspelled : ∀ m ∈ ms, m.Spelled) {keyword : Token} (hconstruct : o.construct = .this keyword)
    (hviolations : o.violations = []) : o.Good plan := by
  have hmention : o.construct.mention? = some (.this, keyword) := by
    rw [hconstruct]
    rfl
  obtain ⟨stack, hunder, hmem, hhop⟩ := h.found hknows hmention (by simp)
  have hlexeme : keyword.lexeme = "this" := hspelled _ hmem
  rw [Occurrence.violations, hconstruct] at hviolations
  rw [Occurrence.Good, hconstruct]
  cases hclass : innermostClass? o.around with
  | none =>
    rw [hclass] at hviolations
    contradiction
  | some superclass =>
    obtain ⟨i, hslot, -⟩ := exists_innermostClass hclass
    obtain ⟨distance, hdistance, hinnermost⟩ := hunder.innermost h.plain (.inl rfl) hslot
    refine ⟨hlexeme, distance, ?_, hinnermost⟩
    rw [hhop, hlexeme, hdistance]

/-- There the innermost class around `super` has a superclass, whose frame is right outside that of
`this`. -/
theorem good_super (h : o.Linked plan ms) (hknows : Scene.Knows plan.hops ms)
    (hspelled : ∀ m ∈ ms, m.Spelled) {keyword : Token} (hconstruct : o.construct = .super keyword)
    (hviolations : o.violations = []) : o.Good plan := by
  have hmention : o.construct.mention? = some (.super, keyword) := by
    rw [hconstruct]
    rfl
  obtain ⟨stack, hunder, hmem, hhop⟩ := h.found hknows hmention (by simp)
  have hlexeme : keyword.lexeme = "super" := hspelled _ hmem
  rw [Occurrence.violations, hconstruct] at hviolations
  rw [Occurrence.Good, hconstruct]
  rcases hclass : innermostClass? o.around with _ | _ | superclass
  · rw [hclass] at hviolations
    contradiction
  · rw [hclass] at hviolations
    contradiction
  · obtain ⟨distance, hthis, hsuper, hleast⟩ := exists_innermostClass hclass
    have hinnermost : ∀ {word : String} {place : Nat}, isScopeKeyword word →
        (slots o.around)[place]? = some (.keyword word) →
        (∀ i, (slots o.around)[i]? = some (.keyword word) → place ≤ i) →
        Innermost o.around word place := by
      intro word place hword hfound hbefore
      refine ⟨hfound, fun i slot hslot hholds => hbefore i ?_⟩
      rw [hslot, h.plain.eq_keyword (List.mem_of_getElem? hslot) hword hholds]
    have hthisInnermost := hinnermost (.inl rfl) hthis fun i hi => hleast i _ hi
    have hsuperInnermost : Innermost o.around "super" (distance + 1) := by
      apply hinnermost (.inr rfl) (hsuper rfl)
      intro i hi
      apply Nat.lt_of_le_of_ne (hleast i _ hi)
      rintro rfl
      rw [hthis] at hi
      simp at hi
    obtain ⟨found, hfound, hfoundInnermost⟩ := hunder.innermost h.plain (.inr rfl) (hsuper rfl)
    refine ⟨distance, ?_, hthisInnermost, hsuperInnermost⟩
    rw [hhop, hlexeme, hfound, hfoundInnermost.unique hsuperInnermost]

/-- The constructs of a program are where its plan says. -/
theorem good_of_unshadowed {index : Nat} {source : String}
    (hparse : parse (Lox.scan index source).tokens.toList = .ok program)
    (hresolve : (resolve program).errors = []) (h : Unshadowed program) {hops : HopTable}
    (hknows : Scene.Knows hops (Stmt.mentionsAll [] program))
    (htable : ∀ hop ∈ (resolve program).hops, (hops[hop.token.index]?).isSome = true) :
    ∀ o ∈ occurrences program, o.Good ⟨hops, globalNames program⟩ := by
  intro o ho
  have hspelled := spelled_of_parse hparse
  have horderly := orderly_of_parse hparse
  have hadmits : ∀ t ∈ declaredIn program, Plan.Admits ⟨hops, globalNames program⟩ [] t.lexeme := by
    rintro t ht _ ⟨⟩
    exact List.mem_cons_of_mem _ (List.mem_map_of_mem ht)
  have hunder : ScopeStack.Under [] [] := List.Forall₂.nil
  have hplain : Plain [] := fun names hnames => nomatch hnames
  have hlinked : o.Linked ⟨hops, globalNames program⟩ (Stmt.mentionsAll [] program) :=
    Stmt.linkedAll hspelled hunder hplain program horderly hadmits (List.Subset.refl _) o ho
  have hviolations : o.violations = [] := by
    have hperm := resolve_errors_perm horderly
    rw [hresolve] at hperm
    exact List.flatMap_eq_nil_iff.1 (List.nil_perm.1 hperm) o ho
  cases hconstruct : o.construct with
  | declaration name =>
    rw [Occurrence.Good, hconstruct]
    exact hlinked.admits name hconstruct
  | «variable» t =>
    exact good_variable hlinked hknows hspelled h rfl htable ho (.inl hconstruct)
  | assignment t =>
    exact good_variable hlinked hknows hspelled h rfl htable ho (.inr hconstruct)
  | this keyword => exact good_this hlinked hknows hspelled hconstruct hviolations
  | super keyword => exact good_super hlinked hknows hspelled hconstruct hviolations
  | scope _ | ret _ _ | subclass _ _ =>
    rw [Occurrence.Good, hconstruct]
    trivial

end Programs

end Lox
