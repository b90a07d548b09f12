import Lox.Proofs.Parsing.Acceptance
import Lox.Scope

/-!
Where the constructs of a program stand. Every construct that scopes matter for is found together with
the parts of the program around it, innermost first. What a scope declares is read off the program and
not off a walk through it.
-/
namespace Lox

/-- The name that a statement declares in the scope it stands in. Branches and bodies of loops are
statements of their own. -/
def Stmt.declared? : Stmt → Option Token
  | .varDecl name _ => some name
  | .funDecl function => some function.name
  | .classDecl name _ _ => some name
  | _ => none

def declaredIn (body : List Stmt) : List Token := body.filterMap Stmt.declared?

theorem declaredIn_cons (s : Stmt) (rest : List Stmt) :
    declaredIn (s :: rest) = s.declared?.toList ++ declaredIn rest := by
  unfold declaredIn
  rw [List.filterMap_cons]
  cases s.declared? <;> rfl

def FunDecl.declared (f : FunDecl) : List Token := f.params ++ declaredIn f.body

/-- A part of a program that constructs stand in. -/
inductive Enclosure where
  | block (body : List Stmt)
  | function (isMethod : Bool) (function : FunDecl)
  | classBody (name : Token) (superclass : Option Token)
  /-- The initializer of a variable. -/
  | initializer (name : Token)

def Enclosure.scope? : Enclosure → Option (List Token)
  | .block body => some (declaredIn body)
  | .function _ f => some f.declared
  | .classBody _ _ | .initializer _ => none

inductive Construct where
  /-- A block, or the parameters and the body of a function. -/
  | scope (names : List Token)
  /-- A statement that declares a name. -/
  | declaration (name : Token)
  | variable (name : Token)
  | assignment (name : Token)
  | this (keyword : Token)
  | super (keyword : Token)
  | ret (keyword : Token) (hasValue : Bool)
  | subclass (name superclass : Token)

/-- A construct and what is around it. A scope stands in the part that opens it. -/
structure Occurrence where
  construct : Construct
  around : List Enclosure

mutual

def Expr.occurrences (around : List Enclosure) : Expr → List Occurrence
  | .literal _ => []
  | .var name => [⟨.variable name, around⟩]
  | .assign name value => ⟨.assignment name, around⟩ :: value.occurrences around
  | .unary _ operand => operand.occurrences around
  | .binary left _ right => left.occurrences around ++ right.occurrences around
  | .logical left _ right => left.occurrences around ++ right.occurrences around
  | .group inner => inner.occurrences around
  | .call callee _ args => callee.occurrences around ++ Expr.occurrencesAll around args
  | .get object _ => object.occurrences around
  | .set object _ value => object.occurrences around ++ value.occurrences around
  | .this keyword => [⟨.this keyword, around⟩]
  | .super keyword _ => [⟨.super keyword, around⟩]

def Expr.occurrencesAll (around : List Enclosure) : List Expr → List Occurrence
  | [] => []
  | e :: rest => e.occurrences around ++ Expr.occurrencesAll around rest

end

def Expr.occurrencesOption (around : List Enclosure) (e : Option Expr) : List Occurrence :=
  e.elim [] (·.occurrences around)

mutual

def Stmt.occurrences (around : List Enclosure) : Stmt → List Occurrence
  | .expr e => e.occurrences around
  | .print _ value => value.occurrences around
  | .varDecl name init =>
    ⟨.declaration name, around⟩ :: Expr.occurrencesOption (.initializer name :: around) init
  | .block body =>
    ⟨.scope (declaredIn body), .block body :: around⟩ ::
      Stmt.occurrencesAll (.block body :: around) body
  | .ifThen condition yes => condition.occurrences around ++ yes.occurrences around
  | .ifElse condition yes no =>
    condition.occurrences around ++ yes.occurrences around ++ no.occurrences around
  | .whileLoop condition body => condition.occurrences around ++ body.occurrences around
  | .ret keyword value =>
    ⟨.ret keyword value.isSome, around⟩ :: Expr.occurrencesOption around value
  | .funDecl function => ⟨.declaration function.name, around⟩ :: function.occurrences false around
  | .classDecl name none methods =>
    ⟨.declaration name, around⟩ :: FunDecl.occurrencesAll (.classBody name none :: around) methods
  | .classDecl name (some parent) methods =>
    ⟨.declaration name, around⟩ :: ⟨.subclass name parent, around⟩ :: ⟨.variable parent, around⟩ ::
      FunDecl.occurrencesAll (.classBody name (some parent) :: around) methods

def Stmt.occurrencesAll (around : List Enclosure) : List Stmt → List Occurrence
  | [] => []
  | s :: rest => s.occurrences around ++ Stmt.occurrencesAll around rest

def FunDecl.occurrences (isMethod : Bool) (around : List Enclosure) : FunDecl → List Occurrence
  | ⟨name, params, body⟩ =>
    let inside := .function isMethod ⟨name, params, body⟩ :: around
    ⟨.scope (params ++ declaredIn body), inside⟩ :: Stmt.occurrencesAll inside body

def FunDecl.occurrencesAll (around : List Enclosure) : List FunDecl → List Occurrence
  | [] => []
  | m :: rest => m.occurrences true around ++ FunDecl.occurrencesAll around rest

end

def occurrences (program : List Stmt) : List Occurrence := Stmt.occurrencesAll [] program

mutual

theorem Expr.suffix_around (around : List Enclosure) :
    ∀ e : Expr, ∀ o ∈ e.occurrences around, around <:+ o.around
  | .literal _, _, ho => by
    rw [Expr.occurrences] at ho
    contradiction
  | .var _, _, ho | .this _, _, ho | .super _ _, _, ho => by
    rw [Expr.occurrences, List.mem_singleton] at ho
    exact ho ▸ List.suffix_rfl
  | .assign _ value, o, ho => by
    rw [Expr.occurrences, List.mem_cons] at ho
    rcases ho with rfl | ho
    · exact List.suffix_rfl
    · exact value.suffix_around around o ho
  | .unary _ operand, o, ho => operand.suffix_around around o ho
  | .binary left _ right, o, ho | .logical left _ right, o, ho | .set left _ right, o, ho => by
    rw [Expr.occurrences, List.mem_append] at ho
    exact ho.elim (left.suffix_around around o) (right.suffix_around around o)
  | .group inner, o, ho => inner.suffix_around around o ho
  | .call callee _ args, o, ho => by
    rw [Expr.occurrences, List.mem_append] at ho
    exact ho.elim (callee.suffix_around around o) (Expr.suffix_aroundAll around args o)
  | .get object _, o, ho => object.suffix_around around o ho

theorem Expr.suffix_aroundAll (around : List Enclosure) :
    ∀ es : List Expr, ∀ o ∈ Expr.occurrencesAll around es, around <:+ o.around
  | [], _, ho => by
    rw [Expr.occurrencesAll] at ho
    contradiction
  | e :: rest, o, ho => by
    rw [Expr.occurrencesAll, List.mem_append] at ho
    exact ho.elim (e.suffix_around around o) (Expr.suffix_aroundAll around rest o)

end

theorem Expr.suffix_aroundOption (around : List Enclosure) (e : Option Expr) :
    ∀ o ∈ Expr.occurrencesOption around e, around <:+ o.around := by
  cases e with
  | none => exact List.forall_mem_nil _
  | some e => exact e.suffix_around around

mutual

theorem Stmt.suffix_around (around : List Enclosure) :
    ∀ s : Stmt, ∀ o ∈ s.occurrences around, around <:+ o.around
  | .expr e, o, ho | .print _ e, o, ho => e.suffix_around around o ho
  | .varDecl name init, o, ho => by
    rw [Stmt.occurrences, List.mem_cons] at ho
    rcases ho with rfl | ho
    · exact List.suffix_rfl
    · exact (List.suffix_cons _ _).trans (Expr.suffix_aroundOption (.initializer name :: around) init o ho)
  | .block body, o, ho => by
    rw [Stmt.occurrences, List.mem_cons] at ho
    rcases ho with rfl | ho
    · exact List.suffix_cons _ _
    · exact (List.suffix_cons _ _).trans (Stmt.suffix_aroundAll (.block body :: around) body o ho)
  | .ifThen condition yes, o, ho | .whileLoop condition yes, o, ho => by
    rw [Stmt.occurrences, List.mem_append] at ho
    exact ho.elim (condition.suffix_around around o) (yes.suffix_around around o)
  | .ifElse condition yes no, o, ho => by
    rw [Stmt.occurrences, List.mem_append, List.mem_append] at ho
    exact ho.elim (fun ho => ho.elim (condition.suffix_around around o) (yes.suffix_around around o))
      (no.suffix_around around o)
  | .ret _ value, o, ho => by
    rw [Stmt.occurrences, List.mem_cons] at ho
    rcases ho with rfl | ho
    · exact List.suffix_rfl
    · exact Expr.suffix_aroundOption around value o ho
  | .funDecl function, o, ho => by
    rw [Stmt.occurrences, List.mem_cons] at ho
    rcases ho with rfl | ho
    · exact List.suffix_rfl
    · exact function.suffix_around false around o ho
  | .classDecl name none methods, o, ho => by
    rw [Stmt.occurrences, List.mem_cons] at ho
    rcases ho with rfl | ho
    · exact List.suffix_rfl
    · exact (List.suffix_cons _ _).trans
        (FunDecl.suffix_aroundAll (.classBody name none :: around) methods o ho)
  | .classDecl name (some parent) methods, o, ho => by
    rw [Stmt.occurrences, List.mem_cons, List.mem_cons, List.mem_cons] at ho
    rcases ho with rfl | rfl | rfl | ho
    · exact List.suffix_rfl
    · exact List.suffix_rfl
    · exact List.suffix_rfl
    · exact (List.suffix_cons _ _).trans
        (FunDecl.suffix_aroundAll (.classBody name (some parent) :: around) methods o ho)

theorem Stmt.suffix_aroundAll (around : List Enclosure) :
    ∀ ss : List Stmt, ∀ o ∈ Stmt.occurrencesAll around ss, around <:+ o.around
  | [], _, ho => by
    rw [Stmt.occurrencesAll] at ho
    contradiction
  | s :: rest, o, ho => by
    rw [Stmt.occurrencesAll, List.mem_append] at ho
    exact ho.elim (s.suffix_around around o) (Stmt.suffix_aroundAll around rest o)

theorem FunDecl.suffix_around (isMethod : Bool) (around : List Enclosure) :
    ∀ f : FunDecl, ∀ o ∈ f.occurrences isMethod around, around <:+ o.around
  | ⟨name, params, body⟩, o, ho => by
    rw [FunDecl.occurrences, List.mem_cons] at ho
    rcases ho with rfl | ho
    · exact List.suffix_cons _ _
    · exact (List.suffix_cons _ _).trans
        (Stmt.suffix_aroundAll (.function isMethod ⟨name, params, body⟩ :: around) body o ho)

theorem FunDecl.suffix_aroundAll (around : List Enclosure) :
    ∀ methods : List FunDecl, ∀ o ∈ FunDecl.occurrencesAll around methods, around <:+ o.around
  | [], _, ho => by
    rw [FunDecl.occurrencesAll] at ho
    contradiction
  | m :: rest, o, ho => by
    rw [FunDecl.occurrencesAll, List.mem_append] at ho
    exact ho.elim (m.suffix_around true around o) (FunDecl.suffix_aroundAll around rest o)

end

mutual

/-- Branches and bodies of loops declare nothing in the scope around them. -/
def Stmt.Orderly : Stmt → Prop
  | .expr _ | .print _ _ | .varDecl _ _ | .ret _ _ => True
  | .block body => Stmt.OrderlyAll body
  | .ifThen _ yes => yes.declared? = none ∧ yes.Orderly
  | .ifElse _ yes no => (yes.declared? = none ∧ yes.Orderly) ∧ no.declared? = none ∧ no.Orderly
  | .whileLoop _ body => body.declared? = none ∧ body.Orderly
  | .funDecl function => function.Orderly
  | .classDecl _ _ methods => FunDecl.OrderlyAll methods

def Stmt.OrderlyAll : List Stmt → Prop
  | [] => True
  | s :: rest => s.Orderly ∧ Stmt.OrderlyAll rest

def FunDecl.Orderly : FunDecl → Prop
  | ⟨_, _, body⟩ => Stmt.OrderlyAll body

def FunDecl.OrderlyAll : List FunDecl → Prop
  | [] => True
  | m :: rest => m.Orderly ∧ FunDecl.OrderlyAll rest

end

theorem Stmt.orderly_of_mem {s : Stmt} : ∀ {body : List Stmt}, Stmt.OrderlyAll body → s ∈ body → s.Orderly
  | first :: rest, h, hs => by
    rcases List.mem_cons.1 hs with rfl | hs
    · exact h.1
    · exact Stmt.orderly_of_mem h.2 hs

theorem FunDecl.orderly_of_mem {f : FunDecl} : ∀ {methods : List FunDecl},
    FunDecl.OrderlyAll methods → f ∈ methods → f.Orderly
  | first :: rest, h, hf => by
    rcases List.mem_cons.1 hf with rfl | hf
    · exact h.1
    · exact FunDecl.orderly_of_mem h.2 hf

theorem FunDecl.occurrences_subset {f : FunDecl} : ∀ {methods : List FunDecl}, f ∈ methods →
    ∀ around, f.occurrences true around ⊆ FunDecl.occurrencesAll around methods
  | first :: rest, hf, around => by
    rcases List.mem_cons.1 hf with rfl | hf
    · exact List.subset_append_left _ _
    · exact List.Subset.trans (FunDecl.occurrences_subset hf around) (List.subset_append_right _ _)

/-- A statement that is no declaration, nor has one for a branch. -/
def Stmt.Bare (s : Stmt) : Prop := s.declared? = none ∧ s.Orderly

theorem Stmt.bare_forLoop {init : Option Stmt} {body : Stmt} (condition increment : Option Expr)
    (hinit : ∀ s ∈ init, s.Orderly) (hbody : body.Bare) :
    (Stmt.forLoop init condition increment body).Bare := by
  cases increment with
  | none =>
    cases init with
    | none => exact ⟨rfl, hbody⟩
    | some first => exact ⟨rfl, hinit first rfl, hbody, trivial⟩
  | some increment =>
    have hturn : (Stmt.block [body, .expr increment]).Bare := ⟨rfl, hbody.2, trivial, trivial⟩
    cases init with
    | none => exact ⟨rfl, hturn⟩
    | some first => exact ⟨rfl, hinit first rfl, hturn, trivial⟩

namespace Grammar

theorem VarDecl.orderly {ts s n} : VarDecl ts s n → s.Orderly
  | .bare _ _ | .initialized _ _ _ _ => trivial

theorem ExpressionStatement.bare {ts s n} : ExpressionStatement ts s n → s.Bare
  | .mk _ _ => ⟨rfl, trivial⟩

theorem ForInitializer.orderly {ts init n} : ForInitializer ts init n → ∀ s ∈ init, s.Orderly
  | .none _, _, hs => nomatch hs
  | .var _ h, _, rfl => h.orderly
  | .expr h, _, rfl => h.bare.2

mutual

theorem Declarations.orderly {ts body n} : Declarations ts body n → Stmt.OrderlyAll body
  | .nil => trivial
  | .cons h hrest => ⟨h.orderly, hrest.orderly⟩

theorem Declaration.orderly {ts s n} : Declaration ts s n → s.Orderly
  | .cls _ _ _ _ h _ => h.orderly
  | .function _ h => h.orderly
  | .var _ h => h.orderly
  | .statement h => h.bare.2

theorem Methods.orderly {ts methods n} : Methods ts methods n → FunDecl.OrderlyAll methods
  | .nil => trivial
  | .cons h hrest => ⟨h.orderly, hrest.orderly⟩

theorem Function.orderly {ts f n} : Function ts f n → f.Orderly
  | .mk _ _ _ _ h => h.orderly

theorem Block.orderly {ts body n} : Block ts body n → Stmt.OrderlyAll body
  | .mk _ h _ => h.orderly

theorem Statement.bare {isOpen ts s n} : Statement isOpen ts s n → s.Bare
  | .ifThen _ _ _ _ hyes => ⟨rfl, hyes.bare⟩
  | .ifElse _ _ _ _ hyes _ hno => ⟨rfl, hyes.bare, hno.bare⟩
  | .print _ _ _ | .ret _ _ _ => ⟨rfl, trivial⟩
  | .whileLoop _ _ _ _ hbody => ⟨rfl, hbody.bare⟩
  | .forLoop _ _ hinit _ _ _ _ hbody => Stmt.bare_forLoop _ _ hinit.orderly hbody.bare
  | .block h => ⟨rfl, h.orderly⟩
  | .expr h => h.bare

end

end Grammar

theorem orderly_of_parse {tokens : List Token} {program : List Stmt}
    (h : parse tokens = .ok program) : Stmt.OrderlyAll program :=
  (program_of_parse h).orderly

end Lox
