import Lox.Proofs.Scoping.Links
import Lox.Proofs.Scoping.Search

/-!
Runs that search. In a session that has run nothing, a program that shadows no name does the same whether
its names are found at the distances it was resolved to or by a search through the frames.
-/
namespace Lox

theorem laid_initial {plan : Plan} (hclock : "clock" ∈ plan.globals) (clock : Clock) (console : Console) :
    (World.initial clock console).Laid plan [.scope plan.globals] := by
  constructor
  case size => rfl
  case global => rfl
  case holds =>
    intro frame name hname
    obtain ⟨value, hvalue⟩ := Option.isSome_iff_exists.1 hname
    obtain ⟨rfl, rfl, -⟩ := World.eq_of_getIn_initial hvalue
    exact ⟨_, rfl, hclock⟩
  case keywords =>
    intro frame word hword
    cases List.mem_singleton.1 (List.mem_of_getElem? hword)
  case values =>
    intro frame name value hvalue
    obtain ⟨-, -, rfl⟩ := World.eq_of_getIn_initial hvalue
    trivial
  case fields =>
    intro id fields name value hid
    contradiction

namespace Session

theorem executeTop_agrees (fuel : Nat) {plan : Plan} {layout : Layout} {ctx : Context}
    (program : List Stmt) (h : plan.Stands layout ctx [] (Stmt.occurrencesAll [] program)) :
    Agrees plan layout (executeTop fuel ctx program) (executeTop fuel ctx.searching program)
      fun _ _ => True := by
  induction program generalizing layout with
  | nil => exact agrees_pure trivial
  | cons stmt rest ih =>
    apply (execute_agrees fuel stmt h.left).bind
    intro layout₁ _ h₁ _
    exact ih (h.right.mono h₁)

def executeBy? (addressing : HopTable → Addressing) (fuel : Nat) (s : Session)
    (program : List Stmt) : Option (Option RuntimeError × Session) :=
  match executeTop fuel ⟨addressing s.hops, globalEnv, 0⟩ program s.world with
  | .ok _ world => some (none, { s with world })
  | .error e world => some (some e, { s with world })
  | .exhausted => none

/-- A run with its names found in a given way, and the runtime error that it ends with. -/
def runBy? (addressing : HopTable → Addressing) (fuel : Nat) (s : Session) (source : String) :
    Option (Option RuntimeError × Status × Session) :=
  let s' := (s.skipSource source).mapConsole (s.prepare source).1
  match (s.prepare source).2 with
  | none => some (none, .staticError, s')
  | some program =>
    ((s'.adopt (resolve program).hops).executeBy? addressing fuel program).map fun ended =>
      (ended.1, conclude ended)

theorem runBy?_distances (fuel : Nat) (s : Session) (source : String) :
    (s.runBy? .distances fuel source).map Prod.snd = s.run? fuel source := by
  rw [run?_eq]
  unfold runBy? proceed?
  cases (s.prepare source).2 with
  | none => rfl
  | some program =>
    dsimp only
    rw [Option.map_map]
    rfl

theorem isSome_adopt {s ready : Session} {source : String} {program : List Stmt}
    (h : (s.prepare source).2 = some program)
    (hknows : Scene.Knows (ready.adopt (resolve program).hops).hops (Stmt.mentionsAll [] program)) :
    ∀ hop ∈ (resolve program).hops,
      ((ready.adopt (resolve program).hops).hops[hop.token.index]?).isSome = true := by
  intro hop hhop
  obtain ⟨m, hm, hfound, htoken⟩ := mention_of_hop h hhop
  unfold Mention.hop? at hfound
  split at hfound
  · contradiction
  · rename_i haccess
    obtain ⟨distance, hdistance, -⟩ := Option.map_eq_some_iff.1 hfound
    rw [← htoken, (hknows m hm).2 haccess, hdistance]
    rfl

theorem executeBy?_search {clock : Clock} {console : Console} {debugParse : Bool} {source : String}
    {program : List Stmt} {s : Session} (hs : s = { initial clock console with debugParse })
    (hprepare : (s.prepare source).2 = some program) (h : Unshadowed program) (fuel : Nat)
    (f : Console → Console) :
    (((s.skipSource source).mapConsole f).adopt (resolve program).hops).executeBy? .distances fuel
        program =
      (((s.skipSource source).mapConsole f).adopt (resolve program).hops).executeBy? (fun _ => .search)
        fuel program := by
  obtain ⟨-, hparse, hresolve⟩ := prepare_eq_some hprepare
  have hfresh : ∀ i, s.nextIndex ≤ i → ((s.skipSource source).mapConsole f).hops[i]? = none := by
    intro i hi
    rw [hs] at hi ⊢
    exact (numbered_initial clock console).hops i hi
  have hknows := knows_adopt hprepare hfresh
  have hgood := good_of_unshadowed hparse hresolve h hknows (isSome_adopt hprepare hknows)
  generalize hready : ((s.skipSource source).mapConsole f).adopt (resolve program).hops = ready at hgood
  have hstands : Plan.Stands ⟨ready.hops, globalNames program⟩ [.scope (globalNames program)]
      ⟨.distances ready.hops, globalEnv, 0⟩ [] (Stmt.occurrencesAll [] program) :=
    ⟨rfl, ⟨[], rfl, rfl⟩, hgood⟩
  have hlaid : ready.world.Laid ⟨ready.hops, globalNames program⟩ [.scope (globalNames program)] := by
    have hclock : "clock" ∈ globalNames program := List.mem_cons_self ..
    have hinitial : (World.initial clock console).Laid ⟨ready.hops, globalNames program⟩
        [.scope (globalNames program)] := laid_initial hclock clock console
    apply hinitial.changeWorld
    · rw [← hready, hs]
      rfl
    · have hobjects : ready.world.objects = #[] := by
        rw [← hready, hs]
        rfl
      rw [hobjects]
      intro id fields name value hid
      contradiction
  unfold executeBy?
  rw [(executeTop_agrees fuel program hstands _ hlaid).1]
  rfl

/-- Where no name of a local scope is one of a scope around it, nor a global one, a run in a session
that has run nothing ends in the same way, with the same output, the same runtime error if any and in the
same session, whether names are found at their distances or by a search from the current frame. -/
theorem distances_agree_with_search (clock : Clock) (console : Console) (debugParse : Bool)
    {source : String} {program : List Stmt}
    (hparse : parse (Lox.scan 0 source).tokens.toList = .ok program) (h : Unshadowed program)
    (fuel : Nat) :
    let s : Session := { initial clock console with debugParse }
    (s.runBy? .distances fuel source).map Prod.snd = s.run? fuel source ∧
      s.runBy? .distances fuel source = s.runBy? (fun _ => .search) fuel source := by
  intro s
  refine ⟨runBy?_distances fuel s source, ?_⟩
  unfold runBy?
  cases hprepare : (s.prepare source).2 with
  | none => rfl
  | some prepared =>
    have hprepared := (prepare_eq_some hprepare).2.1
    have hsame : prepared = program := by
      rw [show s.nextIndex = 0 from rfl, hparse] at hprepared
      cases hprepared
      rfl
    subst hsame
    dsimp only
    rw [executeBy?_search rfl hprepare h fuel]

/-- A function that counts in a variable around it, and a method that reaches its superclass and its
receiver from a function inside it. -/
def countingSource : String :=
  "var s = \"s\"; class A { m(x) { return x + s; } } class B < A " ++
    "{ m(y) { fun f() { this.t = s; return super.m(y) + this.t; } return f(); } }" ++
    "{ var n = s; fun g() { n = n + s; return n; } g(); print g() + B().m(s); }"

theorem distances_agree_with_search_counting :
    ∃ program s', parse (Lox.scan 0 countingSource).tokens.toList = .ok program ∧
      (resolve program).errors = [] ∧ Unshadowed program ∧
      (initial ⟨0, 0⟩ (.separate .unlimited .unlimited)).run? 60 countingSource = some (.success, s') ∧
      (initial ⟨0, 0⟩ (.separate .unlimited .unlimited)).runBy? (fun _ => .search) 60 countingSource =
        some (none, .success, s') ∧
      s'.world.console.output = "ssssss\n" := by
  -- Evaluated in one go: scanning the source takes the longest, and both parts do it.
  have hevaluated : (parse (Lox.scan 0 countingSource).tokens.toList).toOption.map (fun program =>
        decide ((resolve program).errors = [] ∧ Unshadowed program)) = some true ∧
      ((initial ⟨0, 0⟩ (.separate .unlimited .unlimited)).runBy? .distances 60 countingSource).map
        (fun ended => (ended.1, ended.2.1, ended.2.2.world.console.output)) =
          some (none, .success, "ssssss\n") := by
    decide +kernel
  obtain ⟨hchecked, hruns⟩ := hevaluated
  obtain ⟨tokens, htokens⟩ : ∃ tokens, tokens = (Lox.scan 0 countingSource).tokens.toList := ⟨_, rfl⟩
  rw [← htokens] at hchecked ⊢
  cases hparse : parse tokens with
  | error faults =>
    rw [hparse] at hchecked
    contradiction
  | ok program =>
    rw [hparse] at hchecked
    obtain ⟨hresolve, hunshadowed⟩ := of_decide_eq_true (Option.some.inj hchecked)
    obtain ⟨⟨e?, status, s'⟩, hrun, hanswer⟩ := Option.map_eq_some_iff.1 hruns
    injection hanswer with he hanswer
    injection hanswer with hstatus houtput
    subst he hstatus
    rw [htokens] at hparse
    obtain ⟨hplain, hsearch⟩ := distances_agree_with_search ⟨0, 0⟩ (.separate .unlimited .unlimited)
      false hparse hunshadowed 60
    change (runBy? .distances 60 (initial ⟨0, 0⟩ (.separate .unlimited .unlimited))
      countingSource).map Prod.snd = _ at hplain
    change runBy? .distances 60 (initial ⟨0, 0⟩ (.separate .unlimited .unlimited))
      countingSource = _ at hsearch
    rw [hrun] at hplain hsearch
    exact ⟨program, s', rfl, hresolve, hunshadowed, hplain.symm, hsearch.symm, houtput⟩

end Session

end Lox
