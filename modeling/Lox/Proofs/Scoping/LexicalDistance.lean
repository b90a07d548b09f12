import Lox.Proofs.Scoping.Distances
import Lox.Proofs.Scoping.Nesting
import Lox.Proofs.Scoping.Words

/-!
Distances and the text of a program. A walk records for a node that uses a name how many of the scopes
around the node lie inside the innermost one that has the name, also where it finds errors. Only a
misplaced keyword has no distance.
-/
namespace Lox

def ScopeFault.IsMisplacedKeyword : ScopeFault → Prop
  | .thisOutsideClass | .superOutsideClass | .superWithoutSuperclass => True
  | _ => False

namespace Findings

def Misplaces (f : Findings) (t : Token) : Prop :=
  ∃ fault, fault.IsMisplacedKeyword ∧ ⟨t, fault⟩ ∈ f.errors

/-- The distances of a walk are those of the mentions, but for misplaced keywords. -/
structure Locates (f : Findings) (ms : List Mention) : Prop where
  only : ∀ hop ∈ f.hops, ∃ m ∈ ms, m.hop? = some hop
  all : ∀ m ∈ ms, ∀ hop, m.hop? = some hop → hop ∈ f.hops ∨ f.Misplaces m.token

variable {f g : Findings} {ms ns : List Mention}

theorem Misplaces.append_left {t : Token} (h : f.Misplaces t) : (f ++ g).Misplaces t := by
  obtain ⟨fault, hfault, hmem⟩ := h
  exact ⟨fault, hfault, List.mem_append_left _ hmem⟩

theorem Misplaces.append_right {t : Token} (h : g.Misplaces t) : (f ++ g).Misplaces t := by
  obtain ⟨fault, hfault, hmem⟩ := h
  exact ⟨fault, hfault, List.mem_append_right _ hmem⟩

theorem locates_of_hops (h : f.hops = []) : f.Locates [] := by
  constructor
  · intro hop hhop
    rw [h] at hhop
    contradiction
  · intro m hm
    contradiction

theorem Locates.append (hf : f.Locates ms) (hg : g.Locates ns) : (f ++ g).Locates (ms ++ ns) := by
  constructor
  · intro hop hhop
    rcases List.mem_append.1 hhop with hhop | hhop
    · obtain ⟨m, hm, h⟩ := hf.only hop hhop
      exact ⟨m, List.mem_append_left _ hm, h⟩
    · obtain ⟨m, hm, h⟩ := hg.only hop hhop
      exact ⟨m, List.mem_append_right _ hm, h⟩
  · intro m hm hop h
    rcases List.mem_append.1 hm with hm | hm
    · exact (hf.all m hm hop h).imp (List.mem_append_left _) Misplaces.append_left
    · exact (hg.all m hm hop h).imp (List.mem_append_right _) Misplaces.append_right

theorem Locates.of_perm (hf : f.Locates ms) (h : ms.Perm ns) : f.Locates ns := by
  constructor
  · intro hop hhop
    obtain ⟨m, hm, hdistance⟩ := hf.only hop hhop
    exact ⟨m, h.subset hm, hdistance⟩
  · intro m hm
    exact hf.all m (h.symm.subset hm)

theorem Locates.append_comm (hf : f.Locates ms) (hg : g.Locates ns) :
    (f ++ g).Locates (ns ++ ms) :=
  (hf.append hg).of_perm List.perm_append_comm

theorem Locates.of_nil_append (hf : f.Locates []) (hg : g.Locates ns) : (f ++ g).Locates ns :=
  hf.append hg

theorem locates_errorIf (condition : Bool) (t : Token) (fault : ScopeFault) :
    (Findings.errorIf condition t fault).Locates [] := by
  cases condition <;> exact locates_of_hops rfl

theorem locates_declarations (h : f.hops = []) (stack : ScopeStack) (names : List Token) :
    f.Locates (names.map (⟨.declaration, ·, stack⟩)) := by
  constructor
  · intro hop hhop
    rw [h] at hhop
    contradiction
  · intro m hm hop hdistance
    obtain ⟨name, -, rfl⟩ := List.mem_map.1 hm
    contradiction

theorem Locates.declare (hf : f.Locates ms) (name : Token) (stack : ScopeStack) :
    f.Locates (⟨.declaration, name, stack⟩ :: ms) :=
  Locates.append (f := .none) (locates_declarations rfl stack [name]) hf

theorem locates_misplaced {t : Token} (fault : ScopeFault) (hfault : fault.IsMisplacedKeyword)
    (access : Access) (stack : ScopeStack) : (Findings.error t fault).Locates [⟨access, t, stack⟩] := by
  constructor
  · intro hop hhop
    contradiction
  · intro m hm hop _
    rw [List.mem_singleton.1 hm]
    exact .inr ⟨fault, hfault, List.mem_singleton_self _⟩

end Findings

section Walks

variable {access : Access} (stack : ScopeStack) (t : Token)

theorem use_locates (haccess : access ≠ .declaration) :
    (stack.scopes.use t).Locates [⟨access, t, stack⟩] := by
  have hhops : ∀ hop, hop ∈ (stack.scopes.use t).hops ↔
      Mention.hop? ⟨access, t, stack⟩ = some hop := by
    intro hop
    simp only [Mention.hop?, if_neg haccess, Mention.distance?, Scopes.use]
    cases stack.scopes.distance? t.lexeme with
    | none => simp [Findings.none]
    | some distance => simp [eq_comm]
  constructor
  · intro hop hhop
    exact ⟨_, List.mem_singleton_self _, (hhops hop).1 hhop⟩
  · intro m hm hop hhop
    rw [List.mem_singleton.1 hm] at hhop
    exact .inl ((hhops hop).2 hhop)

theorem read_locates : (stack.scopes.read t).Locates [⟨.variable, t, stack⟩] :=
  (Findings.locates_errorIf _ _ _).of_nil_append (use_locates stack t nofun)

/-- A superclass is found in the same scope whether its subclass is ready or not. -/
theorem readSuperclass_locates (name : Token) :
    ((stack.scopes.bind name.lexeme true).read t).Locates
      [⟨.variable, t, stack.bind name.lexeme false⟩] := by
  have huse : (stack.scopes.bind name.lexeme true).use t =
      (stack.bind name.lexeme false).scopes.use t := by
    unfold Scopes.use
    rw [ScopeStack.scopes_bind, Scopes.distance?_bind_congr true false]
  unfold Scopes.read
  rw [huse]
  exact (Findings.locates_errorIf _ _ _).of_nil_append (use_locates _ t nofun)

theorem redeclared_locates (scopes : Scopes) : (scopes.redeclared t).Locates [] :=
  Findings.locates_errorIf _ _ _

theorem allRedeclared_hops (scopes : Scopes) (names : List Token) :
    (scopes.allRedeclared names).hops = [] := by
  induction names generalizing scopes with
  | nil => rfl
  | cons name names ih =>
    rw [Scopes.allRedeclared, Findings.hops_append, ih, List.append_nil, Scopes.redeclared]
    cases (scopes.head?.any (·.binds name.lexeme)) <;> rfl

variable (around : Surroundings)

mutual

theorem Expr.resolve_locates : ∀ e : Expr,
    (e.resolve around stack.scopes).Locates (e.mentions stack)
  | .literal _ => Findings.locates_of_hops rfl
  | .var name => read_locates stack name
  | .assign name value =>
    have hname : (stack.scopes.use name).Locates [⟨.assignment, name, stack⟩] :=
      use_locates stack name nofun
    (Expr.resolve_locates value).append_comm hname
  | .unary _ e | .group e | .get e _ => Expr.resolve_locates e
  | .binary left _ right | .logical left _ right =>
    (Expr.resolve_locates left).append (Expr.resolve_locates right)
  | .set object _ value => (Expr.resolve_locates value).append_comm (Expr.resolve_locates object)
  | .call callee _ args => (Expr.resolve_locates callee).append (Expr.resolveAll_locates args)
  | .this keyword => by
    rw [Expr.resolve]
    cases around.cls with
    | outside => exact Findings.locates_misplaced .thisOutsideClass trivial .this stack
    | base | derived => exact use_locates stack keyword nofun
  | .super keyword _ => by
    rw [Expr.resolve]
    cases around.cls with
    | outside => exact Findings.locates_misplaced .superOutsideClass trivial .super stack
    | base =>
      exact Findings.locates_misplaced .superWithoutSuperclass trivial .super stack
    | derived => exact use_locates stack keyword nofun

theorem Expr.resolveAll_locates : ∀ es : List Expr,
    (Expr.resolveAll around stack.scopes es).Locates (Expr.mentionsAll stack es)
  | [] => Findings.locates_of_hops rfl
  | e :: rest => (Expr.resolve_locates e).append (Expr.resolveAll_locates rest)

end

theorem Expr.resolveOption_locates (e : Option Expr) :
    (Expr.resolveOption around stack.scopes e).Locates (Expr.mentionsOption stack e) := by
  cases e with
  | none => exact Findings.locates_of_hops rfl
  | some e => exact e.resolve_locates stack around

end Walks

mutual

theorem Stmt.resolve_locates (around : Surroundings) (stack : ScopeStack) : ∀ s : Stmt,
    (s.resolve around stack.scopes).Locates (s.mentions stack)
  | .expr e | .print _ e => e.resolve_locates stack around
  | .varDecl name init => by
    have hinit := Expr.resolveOption_locates (stack.bind name.lexeme false) around init
    rw [ScopeStack.scopes_bind] at hinit
    exact ((redeclared_locates name _).of_nil_append hinit).declare name stack
  | .block body => Stmt.resolveAll_locates around (.block body :: stack) body
  | .ifThen condition yes =>
    (condition.resolve_locates stack around).append (yes.resolve_locates around stack)
  | .ifElse condition yes no =>
    ((condition.resolve_locates stack around).append (yes.resolve_locates around stack)).append
      (no.resolve_locates around stack)
  | .whileLoop condition body =>
    (condition.resolve_locates stack around).append (body.resolve_locates around stack)
  | .ret _ value =>
    ((Findings.locates_errorIf _ _ _).append (Findings.locates_errorIf _ _ _)).of_nil_append
      (Expr.resolveOption_locates stack around value)
  | .funDecl function => by
    have hfunction := function.resolve_locates { around with function := .function }
      (stack.bind function.name.lexeme true)
    rw [ScopeStack.scopes_bind] at hfunction
    exact ((redeclared_locates function.name _).of_nil_append hfunction).declare function.name stack
  | .classDecl name none methods => by
    have hmethods := FunDecl.resolveMethods_locates { around with cls := .base }
      (.receiver name :: stack.bind name.lexeme true) methods
    rw [ScopeStack.scopes_cons, ScopeStack.scopes_bind] at hmethods
    exact ((redeclared_locates name _).of_nil_append hmethods).declare name stack
  | .classDecl name (some parent) methods => by
    have hmethods := FunDecl.resolveMethods_locates { around with cls := .derived }
      (.receiver name :: .superclass name :: stack.bind name.lexeme true) methods
    rw [ScopeStack.scopes_cons, ScopeStack.scopes_cons, ScopeStack.scopes_bind] at hmethods
    have hparent := (Findings.locates_errorIf (parent.lexeme == name.lexeme) parent
      .inheritsFromItself).of_nil_append (readSuperclass_locates stack parent name)
    exact ((redeclared_locates name _).of_nil_append (hparent.append hmethods)).declare name stack

theorem Stmt.resolveAll_locates (around : Surroundings) (stack : ScopeStack) : ∀ body : List Stmt,
    (Stmt.resolveAll around stack.scopes body).Locates (Stmt.mentionsAll stack body)
  | [] => Findings.locates_of_hops rfl
  | s :: rest => by
    have hrest := Stmt.resolveAll_locates around (s.bindIn stack) rest
    rw [Stmt.scopes_bindIn] at hrest
    exact (s.resolve_locates around stack).append hrest

theorem FunDecl.resolve_locates (around : Surroundings) (stack : ScopeStack) : ∀ f : FunDecl,
    (f.resolve around stack.scopes).Locates (f.mentions stack)
  | ⟨name, params, body⟩ => by
    have hbody := Stmt.resolveAll_locates around
      (ScopeStack.bindAll (.function name :: stack) params) body
    rw [ScopeStack.scopes_bindAll] at hbody
    exact (Findings.locates_declarations (allRedeclared_hops _ params) _ params).append hbody

theorem FunDecl.resolveMethods_locates (around : Surroundings) (stack : ScopeStack) :
    ∀ methods : List FunDecl,
      (FunDecl.resolveMethods around stack.scopes methods).Locates (FunDecl.mentionsAll stack methods)
  | [] => Findings.locates_of_hops rfl
  | f :: rest =>
    (f.resolve_locates _ stack).append (FunDecl.resolveMethods_locates around stack rest)

end

theorem resolve_locates (program : List Stmt) :
    (resolve program).Locates (Stmt.mentionsAll [] program) :=
  Stmt.resolveAll_locates {} [] program

theorem findIdx?_mem_eq_some {name : String} {scopes : List (List String)} {distance : Nat}
    (h : scopes.findIdx? (fun names => decide (name ∈ names)) = some distance) :
    (∃ names ∈ scopes, name ∈ names) ∧
      distance = (scopes.takeWhile fun names => decide (name ∉ names)).length := by
  induction scopes generalizing distance with
  | nil => contradiction
  | cons names outer ih =>
    rw [List.findIdx?_cons] at h
    by_cases hname : name ∈ names
    · simp only [hname, decide_true, if_true, Option.some.injEq] at h
      simp [hname, ← h]
    · simp only [hname, decide_false, Bool.false_eq_true, if_false, Option.map_eq_some_iff] at h
      obtain ⟨distance', houter, rfl⟩ := h
      obtain ⟨⟨names', hnames', hname'⟩, hdistance⟩ := ih houter
      exact ⟨⟨names', List.mem_cons_of_mem _ hnames', hname'⟩, by simp [hname, hdistance]⟩

theorem hop?_eq_some {m : Mention} {hop : Hop} (h : m.hop? = some hop) :
    m.access ≠ .declaration ∧ hop.token = m.token := by
  unfold Mention.hop? at h
  split at h
  · contradiction
  · obtain ⟨distance, -, rfl⟩ := Option.map_eq_some_iff.1 h
    exact ⟨‹_›, rfl⟩

theorem distance?_of_hop? {m : Mention} {hop : Hop} (h : m.hop? = some hop) :
    m.distance? = some hop.distance := by
  unfold Mention.hop? at h
  split at h
  · contradiction
  · obtain ⟨distance, hdistance, rfl⟩ := Option.map_eq_some_iff.1 h
    exact hdistance

/-- The distances that a walk records are lexical: a node has one if and only if one of the local scopes
around it has its name, and then it is the number of these scopes inside the innermost that does. -/
theorem distances_are_lexical {tokens : List Token} {program : List Stmt}
    (htokens : (tokens.map Token.index).Nodup) (hparse : parse tokens = .ok program) :
    (∀ hop ∈ (resolve program).hops,
      ∃ access scopes, access ≠ .declaration ∧ UsesIn program access hop.token scopes) ∧
    ∀ access t scopes, access ≠ .declaration → UsesIn program access t scopes →
      ¬ (resolve program).Misplaces t →
      ((∃ hop ∈ (resolve program).hops, hop.token.index = t.index) ↔
        ∃ names ∈ scopes, t.lexeme ∈ names) ∧
      ∀ hop ∈ (resolve program).hops, hop.token.index = t.index →
        hop.distance = (scopes.takeWhile fun names => decide (t.lexeme ∉ names)).length := by
  have hlocates := resolve_locates program
  have hdistinct := Drawn.distinct ((program_of_parse hparse).drawn []) htokens
  constructor
  · intro hop hhop
    obtain ⟨⟨access, t, stack⟩, hm, hdistance⟩ := hlocates.only hop hhop
    obtain ⟨haccess, rfl⟩ := hop?_eq_some hdistance
    obtain ⟨scopes, huse⟩ := usesIn_of_mention haccess hm
    exact ⟨access, scopes, haccess, huse⟩
  · intro access t scopes haccess huse hplaced
    obtain ⟨stack, hlists, hm⟩ := huse.mention (orderly_of_parse hparse)
    -- An entry at the index of the node is that of its mention.
    have hsame : ∀ hop ∈ (resolve program).hops, hop.token.index = t.index →
        scopes.findIdx? (fun names => decide (t.lexeme ∈ names)) = some hop.distance := by
      intro hop hhop hindex
      obtain ⟨m, hm', hdistance⟩ := hlocates.only hop hhop
      have htoken := (hop?_eq_some hdistance).2
      cases hdistinct m hm' _ hm (htoken ▸ hindex)
      rw [← hlists.distance?_eq]
      exact distance?_of_hop? hdistance
    constructor
    · constructor
      · rintro ⟨hop, hhop, hindex⟩
        exact (findIdx?_mem_eq_some (hsame hop hhop hindex)).1
      · rintro ⟨names, hnames, hname⟩
        have hfound : (stack.scopes.distance? t.lexeme).isSome = true := by
          rw [hlists.distance?_eq, List.findIdx?_isSome, List.any_eq_true]
          exact ⟨names, hnames, decide_eq_true hname⟩
        obtain ⟨distance, hdistance⟩ := Option.isSome_iff_exists.1 hfound
        have hhop : Mention.hop? ⟨access, t, stack⟩ = some ⟨t, distance⟩ := by
          rw [Mention.hop?, if_neg haccess, Mention.distance?, hdistance]
          rfl
        exact ⟨_, (hlocates.all _ hm _ hhop).resolve_right hplaced, rfl⟩
    · intro hop hhop hindex
      exact (findIdx?_mem_eq_some (hsame hop hhop hindex)).2

/-- The assignment stands in a method of a derived class in a block; the program is not accepted, for
its return. -/
theorem distances_are_lexical_rejected :
    ∃ tokens program hop access scopes,
      tokens = (Lox.scan 0 "{ var a; class B < A { m(b) { super.m; a = b; } } return; }").tokens.toList ∧
      parse tokens = .ok program ∧ (resolve program).errors ≠ [] ∧
      hop ∈ (resolve program).hops ∧ hop.token.lexeme = "a" ∧ hop.distance = 3 ∧
      access ≠ .declaration ∧ UsesIn program access hop.token scopes ∧ (∃ names ∈ scopes, "a" ∈ names) ∧
      3 = (scopes.takeWhile fun names => decide ("a" ∉ names)).length := by
  obtain ⟨tokens, htokens⟩ : ∃ tokens, tokens = (Lox.scan 0
      "{ var a; class B < A { m(b) { super.m; a = b; } } return; }").tokens.toList := ⟨_, rfl⟩
  have hnodup : (tokens.map Token.index).Nodup := by
    rw [htokens]
    decide +kernel
  have hfound : (parse tokens).toOption.map (fun program =>
      ((resolve program).hops.map fun hop => (hop.token.lexeme, hop.distance),
        (resolve program).errors.map fun e => e.fault)) =
      some ([("super", 2), ("b", 0), ("a", 3)], [.returnOutsideFunction]) := by
    rw [htokens]
    decide +kernel
  cases hparse : parse tokens with
  | error faults =>
    rw [hparse] at hfound
    contradiction
  | ok program =>
    rw [hparse] at hfound
    obtain ⟨hhops, herrors⟩ := Prod.mk.inj (Option.some.inj hfound)
    obtain ⟨hop, hhop, ha⟩ : ∃ hop ∈ (resolve program).hops,
        (hop.token.lexeme, hop.distance) = ("a", 3) := by
      apply List.mem_map.1
      rw [hhops]
      decide
    obtain ⟨hlexeme, hdistance⟩ := Prod.mk.inj ha
    have hplaced : ¬ (resolve program).Misplaces hop.token := by
      rintro ⟨fault, hfault, hmem⟩
      have hfaults : fault ∈ [ScopeFault.returnOutsideFunction] :=
        herrors ▸ List.mem_map_of_mem (f := ScopeError.fault) hmem
      cases List.mem_singleton.1 hfaults
      exact hfault
    obtain ⟨hused, hlexical⟩ := distances_are_lexical hnodup hparse
    obtain ⟨access, scopes, haccess, huse⟩ := hused hop hhop
    obtain ⟨hiff, hlength⟩ := hlexical access hop.token scopes haccess huse hplaced
    have hrejected : (resolve program).errors ≠ [] := by
      intro hnone
      rw [hnone] at herrors
      contradiction
    have hscope := hiff.1 ⟨hop, hhop, rfl⟩
    have hinside := hlength hop hhop rfl
    rw [hlexeme] at hscope hinside
    rw [hdistance] at hinside
    exact ⟨tokens, program, hop, access, scopes, htokens, hparse, hrejected, hhop, hlexeme, hdistance,
      haccess, huse, hscope, hinside⟩

end Lox
