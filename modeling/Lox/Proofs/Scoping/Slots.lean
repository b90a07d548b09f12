import Lox.Evaluation.Result
import Lox.Proofs.Scoping.Mention
import Lox.Proofs.Scoping.Violations

/-!
Slots. What the frames around a piece of code can bind is read off the program: the frame of a scope binds
names that the scope declares, the frame of a keyword binds that keyword alone. Where no name is declared
again further inside, and none of the global ones in a local scope, at most one slot holds the name of a
variable, and it lies at the distance of the variable.
-/
namespace Lox

inductive Slot where
  | scope (names : List String)
  /-- The frame is made with the keyword bound. -/
  | keyword (name : String)

def Slot.holds : Slot → String → Prop
  | .scope names, name => name ∈ names
  | .keyword word, name => name = word

/-- The frames that a part puts around what stands in it, innermost first. -/
def Enclosure.slots : Enclosure → List Slot
  | .block body => [.scope ((declaredIn body).map Token.lexeme)]
  | .function _ f => [.scope (f.declared.map Token.lexeme)]
  | .classBody _ none => [.keyword "this"]
  | .classBody _ (some _) => [.keyword "this", .keyword "super"]
  | .initializer _ => []

def slots (around : List Enclosure) : List Slot := around.flatMap Enclosure.slots

@[simp] theorem slots_cons (e : Enclosure) (around : List Enclosure) :
    slots (e :: around) = e.slots ++ slots around := List.flatMap_cons

/-- What is known of a program before it is executed. -/
structure Plan where
  hops : HopTable
  globals : List String

def Plan.chain (plan : Plan) (around : List Enclosure) : List Slot :=
  slots around ++ [.scope plan.globals]

def Plan.Admits (plan : Plan) (around : List Enclosure) (name : String) : Prop :=
  ∀ slot, (plan.chain around).head? = some slot → slot.holds name

/-- The innermost slot that holds a keyword is one made for it. -/
structure Innermost (around : List Enclosure) (keyword : String) (distance : Nat) : Prop where
  found : (slots around)[distance]? = some (.keyword keyword)
  least : ∀ i slot, (slots around)[i]? = some slot → slot.holds keyword → distance ≤ i

/-- Where a construct stands, its name lies where its distance says, and nowhere else in the chain; the
keywords lie in the frames of the innermost class. -/
def Occurrence.Good (plan : Plan) (o : Occurrence) : Prop :=
  match o.construct with
  | .declaration name => plan.Admits o.around name.lexeme
  | .variable name | .assignment name =>
    ∀ i slot, (plan.chain o.around)[i]? = some slot → slot.holds name.lexeme →
      i = plan.hops[name.index]?.getD (slots o.around).length
  | .this keyword =>
    keyword.lexeme = "this" ∧ ∃ distance, plan.hops[keyword.index]? = some distance ∧
      Innermost o.around "this" distance
  | .super keyword =>
    ∃ distance, plan.hops[keyword.index]? = some (distance + 1) ∧
      Innermost o.around "this" distance ∧ Innermost o.around "super" (distance + 1)
  | .scope _ | .ret _ _ | .subclass _ _ => True

/-- The names of the global scope: what every program finds defined, and what it declares there. -/
def globalNames (program : List Stmt) : List String :=
  "clock" :: (declaredIn program).map Token.lexeme

def DeclaredLocally (program : List Stmt) (name : String) : Prop :=
  ∃ o ∈ occurrences program, ∃ e ∈ o.around, ∃ tokens, e.scope? = some tokens ∧
    name ∈ tokens.map Token.lexeme

/-- No scope declares a name of a local scope around it, and no local scope a name that is global: one
of the global scope, or one that some variable or assignment finds in no local scope. -/
structure Unshadowed (program : List Stmt) : Prop where
  nested : ∀ o ∈ occurrences program,
    (o.around.filterMap Enclosure.scope?).Pairwise fun inner outer =>
      ∀ t ∈ inner, ∀ u ∈ outer, t.lexeme ≠ u.lexeme
  global : ∀ name, DeclaredLocally program name → name ∉ globalNames program
  used : ∀ name, DeclaredLocally program name → ∀ o ∈ occurrences program, ∀ t,
    o.construct = .variable t ∨ o.construct = .assignment t → t.lexeme = name →
      ∃ hop ∈ (resolve program).hops, hop.token.index = t.index

def localNames (program : List Stmt) : List String :=
  (occurrences program).flatMap fun o =>
    (o.around.filterMap Enclosure.scope?).flatMap fun tokens => tokens.map Token.lexeme

theorem declaredLocally_iff {program : List Stmt} {name : String} :
    DeclaredLocally program name ↔ name ∈ localNames program := by
  simp only [DeclaredLocally, localNames, List.mem_flatMap, List.mem_filterMap]
  constructor
  · rintro ⟨o, ho, e, he, tokens, htokens, hname⟩
    exact ⟨o, ho, tokens, ⟨e, he, htokens⟩, hname⟩
  · rintro ⟨o, ho, tokens, ⟨e, he, htokens⟩, hname⟩
    exact ⟨o, ho, e, he, tokens, htokens, hname⟩

def Construct.used? : Construct → Option Token
  | .variable name | .assignment name => some name
  | _ => none

theorem Construct.used?_eq_some {c : Construct} {t : Token} :
    c.used? = some t ↔ c = .variable t ∨ c = .assignment t := by
  cases c <;> simp [used?]

theorem unshadowed_iff (program : List Stmt) :
    Unshadowed program ↔
      (∀ o ∈ occurrences program, (o.around.filterMap Enclosure.scope?).Pairwise fun inner outer =>
        ∀ t ∈ inner, ∀ u ∈ outer, t.lexeme ≠ u.lexeme) ∧
      (∀ name ∈ localNames program, name ∉ globalNames program) ∧
      ∀ t ∈ (occurrences program).filterMap (·.construct.used?), t.lexeme ∈ localNames program →
        ∃ hop ∈ (resolve program).hops, hop.token.index = t.index := by
  constructor
  · intro h
    refine ⟨h.nested, fun name hname => h.global name (declaredLocally_iff.2 hname), ?_⟩
    intro t ht hlocal
    obtain ⟨o, ho, hused⟩ := List.mem_filterMap.1 ht
    exact h.used _ (declaredLocally_iff.2 hlocal) o ho t (Construct.used?_eq_some.1 hused) rfl
  · rintro ⟨hnested, hglobal, hused⟩
    constructor
    · exact hnested
    · exact fun name hname => hglobal name (declaredLocally_iff.1 hname)
    · rintro _ hlocal o ho t hconstruct rfl
      apply hused t _ (declaredLocally_iff.1 hlocal)
      exact List.mem_filterMap.2 ⟨o, ho, Construct.used?_eq_some.2 hconstruct⟩

instance (program : List Stmt) : Decidable (Unshadowed program) :=
  decidable_of_iff' _ (unshadowed_iff program)

def Plain (around : List Enclosure) : Prop :=
  ∀ names, .scope names ∈ slots around → ∀ name ∈ names, ¬ isScopeKeyword name

section Places

variable {around : List Enclosure}

theorem Plan.chain_cases {plan : Plan} {i : Nat} {slot : Slot}
    (h : (plan.chain around)[i]? = some slot) :
    (slots around)[i]? = some slot ∨ i = (slots around).length ∧ slot = .scope plan.globals := by
  unfold Plan.chain at h
  by_cases hlocal : i < (slots around).length
  · rw [List.getElem?_append_left hlocal] at h
    exact .inl h
  · rw [List.getElem?_append_right (Nat.le_of_not_lt hlocal)] at h
    obtain ⟨hzero, rfl⟩ := List.getElem?_eq_some_iff.1 h
    have hzero : i - (slots around).length = 0 := Nat.lt_one_iff.1 hzero
    refine .inr ⟨by omega, ?_⟩
    simp only [hzero, List.getElem_cons_zero]

theorem mem_slots {names : List String} (h : .scope names ∈ slots around) :
    ∃ e ∈ around, ∃ tokens, e.scope? = some tokens ∧ names = tokens.map Token.lexeme := by
  obtain ⟨e, he, hnames⟩ := List.mem_flatMap.1 h
  refine ⟨e, he, ?_⟩
  cases e with
  | block body =>
    cases List.mem_singleton.1 hnames
    exact ⟨_, rfl, rfl⟩
  | function isMethod f =>
    cases List.mem_singleton.1 hnames
    exact ⟨_, rfl, rfl⟩
  | classBody name superclass =>
    cases superclass <;> simp [Enclosure.slots] at hnames
  | initializer name => contradiction

theorem isScopeKeyword_of_mem_slots {word : String} (h : .keyword word ∈ slots around) :
    isScopeKeyword word := by
  obtain ⟨e, -, hword⟩ := List.mem_flatMap.1 h
  unfold isScopeKeyword
  cases e with
  | block body => simp [Enclosure.slots] at hword
  | function isMethod f => simp [Enclosure.slots] at hword
  | classBody name superclass =>
    cases superclass with
    | none =>
      cases List.mem_singleton.1 hword
      exact .inl rfl
    | some parent => simpa [Enclosure.slots] using hword
  | initializer name => contradiction

theorem Plain.eq_keyword (h : Plain around) {slot : Slot} (hslot : slot ∈ slots around) {word : String}
    (hword : isScopeKeyword word) (hholds : slot.holds word) : slot = .keyword word := by
  cases slot with
  | scope names => exact absurd hword (h names hslot word hholds)
  | keyword other => rw [show word = other from hholds]

theorem eq_scope_of_holds {slot : Slot} (hslot : slot ∈ slots around) {name : String}
    (hname : ¬ isScopeKeyword name) (hholds : slot.holds name) :
    ∃ names, slot = .scope names ∧ name ∈ names := by
  cases slot with
  | scope names => exact ⟨names, rfl, hholds⟩
  | keyword word =>
    rw [show name = word from hholds] at hname
    exact absurd (isScopeKeyword_of_mem_slots hslot) hname

theorem pairwise_slots
    (h : (around.filterMap Enclosure.scope?).Pairwise fun inner outer =>
      ∀ t ∈ inner, ∀ u ∈ outer, t.lexeme ≠ u.lexeme) :
    (slots around).Pairwise fun inner outer =>
      ∀ name, inner.holds name → outer.holds name → isScopeKeyword name := by
  induction around with
  | nil => exact .nil
  | cons e around ih =>
    have hscope : ∀ {tokens : List Token}, e.scope? = some tokens →
        e.slots = [.scope (tokens.map Token.lexeme)] → (slots (e :: around)).Pairwise fun inner outer =>
          ∀ name, inner.holds name → outer.holds name → isScopeKeyword name := by
      intro tokens htokens hslots
      rw [List.filterMap_cons_some htokens, List.pairwise_cons] at h
      rw [slots_cons, hslots, List.singleton_append, List.pairwise_cons]
      refine ⟨fun slot hslot name hinner houter => ?_, ih h.2⟩
      apply Classical.byContradiction
      intro hname
      obtain ⟨names, rfl, -⟩ := eq_scope_of_holds hslot hname houter
      obtain ⟨outer, houterMem, outerTokens, houterTokens, rfl⟩ := mem_slots hslot
      obtain ⟨t, ht, rfl⟩ := List.mem_map.1 hinner
      obtain ⟨u, hu, hsame⟩ := List.mem_map.1 houter
      exact h.1 outerTokens (List.mem_filterMap.2 ⟨outer, houterMem, houterTokens⟩) t ht u hu hsame.symm
    cases e with
    | block body => exact hscope rfl rfl
    | function isMethod f => exact hscope rfl rfl
    | initializer name => exact ih h
    | classBody name superclass =>
      have hrest := ih h
      have hthis : ∀ (slot : Slot) (name : String), (Slot.keyword "this").holds name → slot.holds name →
          isScopeKeyword name := fun _ _ h _ => .inl h
      have hsuper : ∀ (slot : Slot) (name : String), (Slot.keyword "super").holds name →
          slot.holds name → isScopeKeyword name := fun _ _ h _ => .inr h
      cases superclass with
      | none => exact .cons (fun slot _ => hthis slot) hrest
      | some parent => exact .cons (fun slot _ => hthis slot) (.cons (fun slot _ => hsuper slot) hrest)

/-- Two slots that hold one name belong to scopes of which one is inside the other. -/
theorem Unshadowed.place_unique {program : List Stmt} (h : Unshadowed program) {o : Occurrence}
    (ho : o ∈ occurrences program) {name : String} (hname : ¬ isScopeKeyword name) {i j : Nat}
    {slot slot' : Slot} (hslot : (slots o.around)[i]? = some slot) (hholds : slot.holds name)
    (hslot' : (slots o.around)[j]? = some slot') (hholds' : slot'.holds name) : i = j := by
  have hpairwise := List.pairwise_iff_getElem.1 (pairwise_slots (h.nested o ho))
  obtain ⟨hi, rfl⟩ := List.getElem?_eq_some_iff.1 hslot
  obtain ⟨hj, rfl⟩ := List.getElem?_eq_some_iff.1 hslot'
  rcases Nat.lt_trichotomy i j with hbefore | hsame | hbehind
  · exact absurd (hpairwise i j hi hj hbefore name hholds hholds') hname
  · exact hsame
  · exact absurd (hpairwise j i hj hi hbehind name hholds' hholds) hname

/-- Inside a class the slots of the innermost one come before those of others. -/
theorem exists_innermostClass {superclass : Option Token}
    (h : innermostClass? around = some superclass) :
    ∃ distance, (slots around)[distance]? = some (.keyword "this") ∧
      (superclass.isSome → (slots around)[distance + 1]? = some (.keyword "super")) ∧
      ∀ i word, (slots around)[i]? = some (.keyword word) → distance ≤ i := by
  induction around with
  | nil => contradiction
  | cons e around ih =>
    cases e with
    | classBody name parent =>
      cases h
      refine ⟨0, ?_, ?_, fun i word _ => Nat.zero_le i⟩
      · cases superclass <;> rfl
      · intro hsome
        cases superclass with
        | none => contradiction
        | some parent => rfl
    | initializer name => exact ih h
    | block _ | function _ _ =>
      obtain ⟨distance, hthis, hsuper, hleast⟩ := ih h
      refine ⟨distance + 1, hthis, hsuper, fun i word hword => ?_⟩
      cases i with
      | zero => cases hword
      | succ i => exact Nat.succ_le_succ (hleast i word hword)

theorem Innermost.unique {word : String} {distance other : Nat} (h : Innermost around word distance)
    (h' : Innermost around word other) : distance = other :=
  Nat.le_antisymm (h.least _ _ h'.found rfl) (h'.least _ _ h.found rfl)

end Places

end Lox
