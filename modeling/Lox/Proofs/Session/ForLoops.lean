import Lox.Proofs.Desugaring.Parsing
import Lox.Proofs.Desugaring.Simulation

/-!
Programs with `for`. The tree that the parser builds, with loops in blocks, and the tree with `for` nodes in
the same places have the same scope errors and run alike.
-/
namespace Lox

namespace Surface

variable {tables : Tables} {ample : Ample}

theorem executeTop_agrees {n n' : Nat} (hn : ample.Permits n n') (hless : ample.Permits n (n' - 1))
    (hstop : n' = 0 → ample = .surface) {origins : Origins} {ctx : Context} {ctx' : Lox.Context}
    (ds : List Decl) (h : Stands tables origins [] ctx ctx' (Decl.usesAll [] ds)) :
    Agrees tables ample origins (executeTop n ctx ds)
      (Session.executeTop n' ctx' (Decl.desugarAll ds)) fun _ _ _ => True := by
  induction ds generalizing origins with
  | nil => exact agrees_pure trivial
  | cons d rest ih =>
    have heval : ∀ e, Stands tables origins [] ctx ctx' (usesIn [] e) → ∀ k', n' = k' + 1 →
        Agrees tables ample origins (evaluate n ctx e) (Lox.evaluate k' ctx' e)
          (Value.Alike tables) := by
      rintro e he k' rfl
      exact evaluate_agrees hless e he
    apply (declare_agrees Thinning.declares_nil h.left hstop heval fun s hs => execute_agrees hn s hs).bind
    intro later _ _ hlater _
    exact ih (h.right.mono hlater)

theorem meets_initial {n n' : Nat} (hn : ample.Permits n n') (hless : ample.Permits n (n' - 1))
    (hstop : n' = 0 → ample = .surface) {tree : List Decl} (hlink : tables.Link (Decl.usesAll [] tree))
    (clock : Clock) (console : Console) :
    Meets tables ample [some 0] (fun _ _ _ => True)
      (executeTop n ⟨tables.surface, globalEnv, 0⟩ tree (.initial clock console))
      (Session.executeTop n' ⟨.distances tables.core, globalEnv, 0⟩ (Decl.desugarAll tree)
        (.initial clock console)) :=
  executeTop_agrees hn hless hstop tree ⟨rfl, rfl, .global, rfl, hlink⟩ _ _
    (World.alike_initial tables clock console)

theorem Meets.settle_surface {origins : Origins} {Q : Origins → Unit → Unit → Prop}
    {r : Option (Except RuntimeError Unit × World)} {r' : Result Unit}
    (h : Meets tables .surface origins Q r r') {s s' : Session} {e? : Option RuntimeError}
    (hsettled : s.settle r' = some (e?, s')) : settle r = some (e?, s'.world.console) := by
  cases h with
  | value _ hworld _ =>
    cases hsettled
    rw [settle, hworld.console]
  | error e hconsole =>
    cases hsettled
    rw [settle, hconsole]
  | surfaceStops h _ => contradiction
  | coreStops _ _ => contradiction

theorem Meets.settle_core {origins : Origins} {Q : Origins → Unit → Unit → Prop}
    {r : Option (Except RuntimeError Unit × World)} {r' : Result Unit}
    (h : Meets tables .core origins Q r r') (s : Session) {e? : Option RuntimeError} {c : Console}
    (hsettled : settle r = some (e?, c)) : ∃ s', s.settle r' = some (e?, s') ∧ s'.world.console = c := by
  cases h with
  | value _ hworld _ =>
    cases hsettled
    exact ⟨_, rfl, hworld.console⟩
  | error e hconsole =>
    cases hsettled
    exact ⟨_, rfl, hconsole⟩
  | surfaceStops _ _ => contradiction
  | coreStops h _ => contradiction

end Surface

/-- How a program ends in a session that has run nothing: its runtime error, if it ends with one, and the
console behind it. -/
def Session.EndsFresh (clock : Clock) (console : Console) (program : List Stmt)
    (e? : Option RuntimeError) (c : Console) : Prop :=
  ∃ fuel s, ((initial clock console).adopt (resolve program).hops).execute? fuel program =
    some (e?, s) ∧ s.world.console = c

open Surface in
theorem endsFresh_iff {tree : List Decl} {clock : Clock} {console : Console}
    (hlink : ∀ u ∈ Decl.usesAll [] tree,
      u.Linked ((Session.initial clock console).adopt (Surface.resolve tree).hops).hops
        ((Session.initial clock console).adopt (resolve (Decl.desugarAll tree)).hops).hops)
    (e? : Option RuntimeError) (c : Console) :
    Session.EndsFresh clock console (Decl.desugarAll tree) e? c ↔
      ∃ fuel, Surface.run? fuel clock console tree = some (e?, c) := by
  have hlinked : Tables.Link ⟨_, _⟩ (Decl.usesAll [] tree) := hlink
  constructor
  · rintro ⟨fuel, s, hrun, rfl⟩
    have hn : Ample.surface.Permits (8 * fuel) fuel := Nat.le_refl _
    have hless : Ample.surface.Permits (8 * fuel) (fuel - 1) :=
      Nat.mul_le_mul_left 8 (Nat.sub_le fuel 1)
    have hmeets := meets_initial hn hless (fun _ => rfl) hlinked clock console
    exact ⟨8 * fuel, hmeets.settle_surface hrun⟩
  · rintro ⟨fuel, hrun⟩
    have hn : Ample.core.Permits fuel (8 * fuel + 1) := Nat.le_succ _
    have hless : Ample.core.Permits fuel (8 * fuel + 1 - 1) := Nat.le_refl _
    have hmeets := meets_initial hn hless nofun hlinked clock console
    exact ⟨8 * fuel + 1, hmeets.settle_core _ hrun⟩

/-- Desugaring `for` preserves meaning. Every program that the parser accepts has a surface tree, with a
`for` node wherever the tree of the parser has a loop for a `for`. Both have the same scope errors, and if
there are none they end alike in a session that has run nothing: neither ends, or both end with the same
runtime error or with none, and with the same output. -/
theorem for_desugaring_preserves_meaning {source : String} {program : List Stmt}
    (h : parse (scan 0 source).tokens.toList = .ok program) :
    ∃ tree, Surface.parse (scan 0 source).tokens.toList = .ok tree ∧
      Surface.Decl.desugarAll tree = program ∧
      (Surface.resolve tree).errors = (resolve program).errors ∧
      ((resolve program).errors = [] → ∀ clock console e? c,
        Session.EndsFresh clock console program e? c ↔
          ∃ fuel, Surface.run? fuel clock console tree = some (e?, c)) := by
  obtain ⟨tree, htree, rfl⟩ := exists_surface_of_parse h
  have herrors := (Surface.paired_resolve (spelled_of_parse h)).errors
  refine ⟨tree, htree, rfl, herrors.symm, ?_⟩
  intro _ clock console e? c
  exact endsFresh_iff (Surface.linked_of_parse h) e? c

/-- A loop with all clauses, whose body leaves a function behind that knows the variable of the loop, and
one without clauses that a return ends. -/
def capturingSource : String :=
  "var g; for (var s = \"a\"; s != \"aaa\"; s = s + \"a\") " ++
    "\x7b var t = s; fun f() \x7b print s + t; \x7d g = f; \x7d " ++
    "g(); fun h() \x7b for (;;) return \"r\"; \x7d print h();"

theorem for_desugaring_preserves_meaning_capturing :
    ∃ program tree, parse (scan 0 capturingSource).tokens.toList = .ok program ∧
      Surface.parse (scan 0 capturingSource).tokens.toList = .ok tree ∧
      Surface.Decl.desugarAll tree = program ∧ (Surface.resolve tree).errors = [] ∧
      ∃ fuel c, Surface.run? fuel ⟨0, 0⟩ (.separate .unlimited .unlimited) tree = some (none, c) ∧
        c.output = "aaaaa\nr\n" := by
  have hevaluated : (parse (scan 0 capturingSource).tokens.toList).toOption.map (fun program =>
      ((resolve program).errors,
        (((Session.initial ⟨0, 0⟩ (.separate .unlimited .unlimited)).adopt
          (resolve program).hops).execute? 60 program).map
            fun ended => (ended.1, ended.2.world.console.output))) =
      some ([], some (none, "aaaaa\nr\n")) := by
    decide +kernel
  obtain ⟨tokens, htokens⟩ : ∃ tokens, tokens = (scan 0 capturingSource).tokens.toList := ⟨_, rfl⟩
  rw [← htokens] at hevaluated ⊢
  cases hparse : parse tokens with
  | error faults =>
    rw [hparse] at hevaluated
    contradiction
  | ok program =>
    rw [hparse] at hevaluated
    injection Option.some.inj hevaluated with herrors hruns
    obtain ⟨⟨e?, s⟩, hrun, hanswer⟩ := Option.map_eq_some_iff.1 hruns
    injection hanswer with he houtput
    subst he
    rw [htokens] at hparse
    obtain ⟨tree, htree, hdesugar, hsame, halike⟩ := for_desugaring_preserves_meaning hparse
    obtain ⟨fuel, hsurface⟩ := (halike herrors ⟨0, 0⟩ (.separate .unlimited .unlimited) none
      s.world.console).1 ⟨60, s, hrun, rfl⟩
    rw [← htokens] at htree
    exact ⟨program, tree, rfl, htree, hdesugar, hsame.trans herrors, fuel, s.world.console, hsurface,
      houtput⟩

end Lox
