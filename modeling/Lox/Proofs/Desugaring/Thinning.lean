import Lox.Proofs.Desugaring.Resolution
import Lox.Proofs.Scoping.Distances

/-!
The scopes around a surface tree among those around its desugared tree. Desugaring adds the scope of the
block around the body and the increment of a `for`, in which nothing is ever declared. So a name is found
in the same scope of both, and its distances differ by the added scopes that lie in between.
-/
namespace Lox

namespace Surface

/-- A scope around code of a desugared tree is there around the surface code too, or is added. -/
inductive Layer where
  | shared | added
deriving DecidableEq

/-- The scopes around code of a desugared tree, innermost first. -/
abbrev Thinning := List Layer

namespace Thinning

def image? : Thinning → Nat → Option Nat
  | [], _ => none
  | .shared :: _, 0 => some 0
  | .shared :: t, d + 1 => (image? t d).map (· + 1)
  | .added :: t, d => (image? t d).map (· + 1)

/-- Declarations do not stand directly in added scopes. -/
def Declares (t : Thinning) : Prop := t.head? ≠ some .added

theorem declares_nil : Declares [] := nofun

theorem declares_shared (t : Thinning) : Declares (.shared :: t) := nofun

theorem image?_shared {t : Thinning} {d d' : Nat} (h : t.image? d = some d') :
    image? (.shared :: t) (d + 1) = some (d' + 1) := by
  rw [image?, h]
  rfl

theorem image?_added {t : Thinning} {d d' : Nat} (h : t.image? d = some d') :
    image? (.added :: t) d = some (d' + 1) := by
  rw [image?, h]
  rfl

end Thinning

structure Use where
  access : Access
  token : Token
  thinning : Thinning

/-- Distances of a use in the two trees. A use of `super` finds the frame of `this` one frame further
in. -/
def Use.Spans (u : Use) (d d' : Nat) : Prop :=
  u.thinning.image? d = some d' ∧
    (u.access = .super → ∃ e e', d = e + 1 ∧ d' = e' + 1 ∧ u.thinning.image? e = some e')

mutual

/-- The uses of names in a tree, in the order in which the walk for distances comes across them. -/
def usesIn (t : Thinning) : Expr → List Use
  | .literal _ => []
  | .var name => [⟨.variable, name, t⟩]
  | .assign name value => usesIn t value ++ [⟨.assignment, name, t⟩]
  | .unary _ operand => usesIn t operand
  | .binary left _ right => usesIn t left ++ usesIn t right
  | .logical left _ right => usesIn t left ++ usesIn t right
  | .group inner => usesIn t inner
  | .call callee _ args => usesIn t callee ++ usesInAll t args
  | .get object _ => usesIn t object
  | .set object _ value => usesIn t value ++ usesIn t object
  | .this keyword => [⟨.this, keyword, t⟩]
  | .super keyword _ => [⟨.super, keyword, t⟩]

def usesInAll (t : Thinning) : List Expr → List Use
  | [] => []
  | e :: rest => usesIn t e ++ usesInAll t rest

end

def usesInOption (t : Thinning) (e : Option Expr) : List Use := e.elim [] (usesIn t)

namespace Initializer

def uses (t : Thinning) : Initializer → List Use
  | .var _ value => usesInOption t value
  | .expr e => usesIn t e

def usesOption (t : Thinning) (initializer : Option Initializer) : List Use :=
  initializer.elim [] (·.uses (.shared :: t))

def inside (t : Thinning) (initializer : Option Initializer) : Thinning :=
  initializer.elim t fun _ => .shared :: t

end Initializer

/-- The scopes around the body of a `for`, which an increment puts into a block. -/
def bodyThinning (t : Thinning) (increment : Option Expr) : Thinning :=
  increment.elim t fun _ => .added :: t

mutual

def Stmt.uses (t : Thinning) : Stmt → List Use
  | .expr e => usesIn t e
  | .print _ value => usesIn t value
  | .block body => Decl.usesAll (.shared :: t) body
  | .ifThen condition yes => usesIn t condition ++ yes.uses t
  | .ifElse condition yes no => usesIn t condition ++ yes.uses t ++ no.uses t
  | .whileLoop condition body => usesIn t condition ++ body.uses t
  | .forLoop initializer condition increment body =>
    let inside := Initializer.inside t initializer
    Initializer.usesOption t initializer ++ usesInOption inside condition ++
      body.uses (bodyThinning inside increment) ++ usesInOption (.added :: inside) increment
  | .ret _ value => usesInOption t value

def Decl.uses (t : Thinning) : Decl → List Use
  | .var _ value => usesInOption t value
  | .function f => f.uses t
  | .cls _ superclass methods =>
    match superclass with
    | none => FunDecl.usesAll (.shared :: t) methods
    | some parent =>
      ⟨.variable, parent, t⟩ :: FunDecl.usesAll (.shared :: .shared :: t) methods
  | .stmt s => s.uses t

def Decl.usesAll (t : Thinning) : List Decl → List Use
  | [] => []
  | d :: rest => d.uses t ++ Decl.usesAll t rest

def FunDecl.uses (t : Thinning) : FunDecl → List Use
  | ⟨_, _, body⟩ => Decl.usesAll (.shared :: t) body

def FunDecl.usesAll (t : Thinning) : List FunDecl → List Use
  | [] => []
  | f :: rest => f.uses t ++ FunDecl.usesAll t rest

end

theorem Stmt.uses_forLoop_none (t : Thinning) (condition increment : Option Expr) (body : Stmt) :
    (Stmt.forLoop none condition increment body).uses t = usesInOption t condition ++
      (body.uses (bodyThinning t increment) ++ usesInOption (.added :: t) increment) := by
  rw [uses, ← List.append_assoc]
  rfl

theorem Stmt.uses_forLoop_some (t : Thinning) (i : Initializer) (condition increment : Option Expr)
    (body : Stmt) :
    (Stmt.forLoop (some i) condition increment body).uses t = i.uses (.shared :: t) ++
      (Stmt.forLoop none condition increment body).uses (.shared :: t) := by
  rw [uses_forLoop_none, ← List.append_assoc, ← List.append_assoc]
  rfl

theorem FunDecl.uses_eq (f : FunDecl) (t : Thinning) :
    f.uses t = Decl.usesAll (.shared :: t) f.body := by
  cases f
  rfl

theorem FunDecl.mem_usesAll {t : Thinning} {u : Use} {f : FunDecl} {fs : List FunDecl} (hf : f ∈ fs)
    (hu : u ∈ f.uses t) : u ∈ FunDecl.usesAll t fs := by
  induction fs with
  | nil => contradiction
  | cons first rest ih =>
    rcases List.mem_cons.1 hf with rfl | hf
    · exact List.mem_append_left _ hu
    · exact List.mem_append_right _ (ih hf)

end Surface

open Surface (Thinning)

namespace Scopes

def Calm (scopes : Scopes) : Prop := ∀ name : String, scopes.head?.bind (·.get? name) ≠ some false

inductive Woven : Thinning → Scopes → Scopes → Prop
  | nil : Woven [] [] []
  | shared {t outer outer'} (scope : Bindings Bool) (h : Woven t outer outer') :
      Woven (.shared :: t) (scope :: outer) (scope :: outer')
  | added {t scopes scopes'} (hcalm : scopes.Calm) (h : Woven t scopes scopes') :
      Woven (.added :: t) scopes (.empty :: scopes')

/-- The innermost `super` lies right behind a scope of both trees. -/
def FitsSuper (t : Thinning) (scopes scopes' : Scopes) : Prop :=
  ∀ d d', scopes.distance? "super" = some d → scopes'.distance? "super" = some d' →
    ∃ e e', d = e + 1 ∧ d' = e' + 1 ∧ t.image? e = some e'

variable {t : Thinning} {scopes scopes' : Scopes} {name : String}

theorem calm_empty (scopes : Scopes) : Calm (.empty :: scopes) := by
  intro name
  simp

theorem Calm.bind (h : scopes.Calm) (name : String) : (scopes.bind name true).Calm := by
  intro other
  cases scopes with
  | nil => simp [Scopes.bind]
  | cons scope outer =>
    have hother := h other
    simp only [Scopes.bind, List.head?_cons, Option.bind_some, Bindings.get?_insert] at hother ⊢
    split
    · simp
    · exact hother

theorem Calm.bindAll (h : scopes.Calm) (names : List Token) : (scopes.bindAll names).Calm := by
  unfold Scopes.bindAll
  induction names generalizing scopes with
  | nil => exact h
  | cons name names ih => exact ih (h.bind name.lexeme)

namespace Woven

theorem distance? (h : Woven t scopes scopes') (name : String) :
    (scopes.distance? name = none ∧ scopes'.distance? name = none) ∨
      ∃ d d', scopes.distance? name = some d ∧ scopes'.distance? name = some d' ∧
        t.image? d = some d' := by
  induction h with
  | nil => exact .inl ⟨rfl, rfl⟩
  | shared scope h ih =>
    cases hscope : scope.get? name with
    | some ready =>
      exact .inr ⟨0, 0, distance?_cons_of_bound hscope, distance?_cons_of_bound hscope, rfl⟩
    | none =>
      rw [distance?_cons_of_unbound hscope, distance?_cons_of_unbound hscope]
      obtain ⟨hnone, hnone'⟩ | ⟨d, d', hd, hd', himage⟩ := ih
      · rw [hnone, hnone']
        exact .inl ⟨rfl, rfl⟩
      · rw [hd, hd']
        exact .inr ⟨d + 1, d' + 1, rfl, rfl, Thinning.image?_shared himage⟩
  | added _ h ih =>
    rw [distance?_cons_of_unbound (Bindings.get?_empty name)]
    obtain ⟨hnone, hnone'⟩ | ⟨d, d', hd, hd', himage⟩ := ih
    · rw [hnone, hnone']
      exact .inl ⟨rfl, rfl⟩
    · rw [hd, hd']
      exact .inr ⟨d, d' + 1, rfl, rfl, Thinning.image?_added himage⟩

/-- The innermost scopes are the same, or the one of the desugared tree is added. -/
theorem head (h : Woven t scopes scopes') :
    scopes'.head? = scopes.head? ∨ scopes.Calm ∧ scopes'.head? = some .empty := by
  cases h with
  | nil | shared _ _ => exact .inl rfl
  | added hcalm _ => exact .inr ⟨hcalm, rfl⟩

theorem head_of_declares (h : Woven t scopes scopes') (ht : t.Declares) :
    scopes'.head? = scopes.head? := by
  cases h with
  | nil | shared _ _ => rfl
  | added _ _ => exact absurd rfl ht

theorem bind (h : Woven t scopes scopes') (ht : t.Declares) (name : String) (ready : Bool) :
    Woven t (scopes.bind name ready) (scopes'.bind name ready) := by
  cases h with
  | nil => exact .nil
  | shared scope h => exact .shared _ h
  | added _ _ => exact absurd rfl ht

end Woven

structure Aligned (t : Thinning) (scopes scopes' : Scopes) : Prop where
  woven : Woven t scopes scopes'
  fitsSuper : FitsSuper t scopes scopes'

namespace Aligned

theorem nil : Aligned [] [] [] := ⟨.nil, nofun⟩

theorem push (h : Aligned t scopes scopes') {scope : Bindings Bool}
    (hscope : scope.get? "super" = none) :
    Aligned (.shared :: t) (scope :: scopes) (scope :: scopes') := by
  refine ⟨.shared scope h.woven, ?_⟩
  intro d d' hd hd'
  rw [distance?_cons_of_unbound hscope, Option.map_eq_some_iff] at hd hd'
  obtain ⟨outer, houter, rfl⟩ := hd
  obtain ⟨outer', houter', rfl⟩ := hd'
  obtain ⟨e, e', rfl, rfl, himage⟩ := h.fitsSuper outer outer' houter houter'
  exact ⟨e + 1, e' + 1, rfl, rfl, Thinning.image?_shared himage⟩

theorem add (h : Aligned t scopes scopes') (hcalm : scopes.Calm) :
    Aligned (.added :: t) scopes (.empty :: scopes') := by
  refine ⟨.added hcalm h.woven, ?_⟩
  intro d d' hd hd'
  rw [distance?_cons_of_unbound (Bindings.get?_empty _), Option.map_eq_some_iff] at hd'
  obtain ⟨outer', houter', rfl⟩ := hd'
  obtain ⟨e, e', rfl, rfl, himage⟩ := h.fitsSuper d outer' hd houter'
  exact ⟨e, e' + 1, rfl, rfl, Thinning.image?_added himage⟩

theorem bind (h : Aligned t scopes scopes') (ht : t.Declares) (hname : ¬ isScopeKeyword name)
    (ready : Bool) : Aligned t (scopes.bind name ready) (scopes'.bind name ready) := by
  refine ⟨h.woven.bind ht name ready, ?_⟩
  have hne : "super" ≠ name := fun hsuper => hname (.inr hsuper.symm)
  intro d d' hd hd'
  rw [distance?_bind_of_ne ready hne] at hd hd'
  exact h.fitsSuper d d' hd hd'

theorem bindAll (h : Aligned t scopes scopes') (ht : t.Declares) {names : List Token}
    (hnames : ∀ name ∈ names, ¬ isScopeKeyword name.lexeme) :
    Aligned t (scopes.bindAll names) (scopes'.bindAll names) := by
  unfold Scopes.bindAll
  induction names generalizing scopes scopes' with
  | nil => exact h
  | cons name names ih =>
    apply ih
    · exact h.bind ht (hnames name (List.mem_cons_self ..)) true
    · intro name' hname'
      exact hnames name' (List.mem_cons_of_mem _ hname')

theorem derived (h : Aligned t scopes scopes') :
    Aligned (.shared :: .shared :: t) (keywordScope "this" :: keywordScope "super" :: scopes)
      (keywordScope "this" :: keywordScope "super" :: scopes') := by
  have hthis : (keywordScope "this").get? "super" = none := by
    simp [keywordScope]
  have hsuper : (keywordScope "super").get? "super" = some true := by
    simp [keywordScope]
  refine ⟨.shared _ (.shared _ h.woven), ?_⟩
  intro d d' hd hd'
  rw [distance?_cons_of_unbound hthis, distance?_cons_of_bound hsuper] at hd hd'
  cases hd
  cases hd'
  exact ⟨0, 0, rfl, rfl, rfl⟩

end Aligned

end Scopes

end Lox
