import Lox.Proofs.Scanning
import Lox.Proofs.Session.Preparation

/-!
The numbering of tokens in sessions. A session holds no token and no distance at an index that it has yet
to give away, so a relabelling that keeps what lies below the next index leaves it as it is; what a run
adds stems from the tokens of its source.
-/
namespace Lox

namespace Relabelling

/-- A relabelling that moves no token with an index below a bound, and none from above to below it. -/
structure KeepsBelow (r : Relabelling) (bound : Nat) : Prop where
  fixes : r.Fixes (·.index < bound)
  above : ∀ t : Token, bound ≤ t.index → bound ≤ r.index t

theorem KeepsBelow.mono {r : Relabelling} {bound less : Nat} (h : r.KeepsBelow bound)
    (hless : less ≤ bound) : r.KeepsBelow less := by
  constructor
  · intro t ht
    exact h.fixes t (Nat.lt_of_lt_of_le ht hless)
  · intro t ht
    by_cases hbound : t.index < bound
    · have hkept : r.index t = t.index := congrArg Token.index (h.fixes t hbound)
      omega
    · have habove := h.above t (Nat.le_of_not_lt hbound)
      omega

def movingOthers (kept : List Token) : Relabelling where
  line t := if t ∈ kept then t.line else t.line + 1
  index t := t.index

theorem movingOthers_eq_iff (kept : List Token) (t : Token) : movingOthers kept t = t ↔ t ∈ kept := by
  constructor
  · intro h
    have hline := congrArg Token.line h
    by_cases ht : t ∈ kept
    · exact ht
    · simp [movingOthers, ht] at hline
  · intro h
    simp [apply, movingOthers, h]

theorem Fixes.map_eq {r : Relabelling} {tokens : List Token} (h : r.Fixes (· ∈ tokens)) :
    tokens.map r = tokens :=
  (List.map_inj_left.2 h).trans (List.map_id _)

end Relabelling

section Parsed

variable {tokens : List Token} {program : List Stmt}

theorem relabel_program_of_fixes {r : Relabelling} (hparse : parse tokens = .ok program)
    (h : r.Fixes (· ∈ tokens)) : program.map (·.relabel r) = program := by
  have hrelabel := parse_relabel r tokens
  rw [h.map_eq, hparse] at hrelabel
  exact (Except.ok.inj hrelabel).symm

theorem hop_token_mem (hparse : parse tokens = .ok program) {hop : Hop}
    (hhop : hop ∈ (resolve program).hops) : hop.token ∈ tokens := by
  let r := Relabelling.movingOthers tokens
  have hfixes : r.Fixes (· ∈ tokens) := fun t ht => (Relabelling.movingOthers_eq_iff tokens t).2 ht
  have hresolve := resolve_relabel r program
  rw [relabel_program_of_fixes hparse hfixes] at hresolve
  have hhops : (resolve program).hops.map (·.relabel r) = (resolve program).hops :=
    (congrArg Findings.hops hresolve).symm
  have hkept := congrArg Hop.token (List.map_inj_left.1 (hhops.trans (List.map_id _).symm) hop hhop)
  exact (Relabelling.movingOthers_eq_iff tokens hop.token).1 hkept

end Parsed

namespace Session

theorem adopt_append (s : Session) (hops more : List Hop) :
    s.adopt (hops ++ more) = (s.adopt hops).adopt more := by
  simp [adopt]

theorem adopt_getElem?_of_ne (s : Session) (hops : List Hop) (i : Nat)
    (h : ∀ hop ∈ hops, hop.token.index ≠ i) : (s.adopt hops).hops[i]? = s.hops[i]? := by
  induction hops generalizing s with
  | nil => rfl
  | cons hop hops ih =>
    have hne := h hop (List.mem_cons_self ..)
    have hinsert : (s.adopt [hop]).hops[i]? = s.hops[i]? := by
      simp [adopt, Std.TreeMap.getElem?_insert, hne]
    have happend := s.adopt_append [hop] hops
    rw [List.singleton_append] at happend
    rw [happend, ih, hinsert]
    intro hop' hhop'
    exact h hop' (List.mem_cons_of_mem _ hhop')

theorem adopt_getElem?_of_mem (s : Session) {hops : List Hop} {hop : Hop} (hmem : hop ∈ hops)
    (h : ∀ hop' ∈ hops, hop'.token.index = hop.token.index → hop' = hop) :
    (s.adopt hops).hops[hop.token.index]? = some hop.distance := by
  induction hops generalizing s with
  | nil => contradiction
  | cons first hops ih =>
    have happend := s.adopt_append [first] hops
    rw [List.singleton_append] at happend
    rw [happend]
    by_cases hrest : hop ∈ hops
    · exact ih _ hrest fun hop' hhop' => h hop' (List.mem_cons_of_mem _ hhop')
    · have hfirst : hop = first := (List.mem_cons.1 hmem).resolve_right hrest
      have hothers : ∀ hop' ∈ hops, hop'.token.index ≠ hop.token.index := by
        intro hop' hhop' hindex
        rw [h hop' (List.mem_cons_of_mem _ hhop') hindex] at hhop'
        exact hrest hhop'
      rw [adopt_getElem?_of_ne _ _ _ hothers, hfirst]
      simp [adopt]

theorem adopt_relabel {r : Relabelling} {s s' : Session} (hops : List Hop) (t : Token)
    (hindex : ∀ hop ∈ hops, r.index hop.token = r.index t ↔ hop.token.index = t.index)
    (h : s'.hops[r.index t]? = s.hops[t.index]?) :
    (s'.adopt (hops.map (·.relabel r))).hops[r.index t]? = (s.adopt hops).hops[t.index]? := by
  induction hops generalizing s s' with
  | nil => exact h
  | cons hop hops ih =>
    have hhop := hindex hop (List.mem_cons_self ..)
    have hinsert : (s'.adopt [hop.relabel r]).hops[r.index t]? = (s.adopt [hop]).hops[t.index]? := by
      simp [adopt, Std.TreeMap.getElem?_insert, Hop.relabel, hhop, h]
    have happend := s.adopt_append [hop] hops
    have happend' := s'.adopt_append [hop.relabel r] (hops.map (·.relabel r))
    rw [List.singleton_append] at happend happend'
    rw [List.map_cons, happend, happend']
    apply ih _ hinsert
    intro hop' hhop'
    exact hindex hop' (List.mem_cons_of_mem _ hhop')

theorem executeTop_mirrors {r : Relabelling} {C : Console → Console → Prop} (hC : PrintsAlike C)
    (fuel : Nat) {ctx ctx' : Context} (h : ctx.Alike r ctx') (program : List Stmt) :
    Mirrors r C id (executeTop fuel ctx program)
      (executeTop fuel ctx' (program.map (·.relabel r))) := by
  induction program with
  | nil => exact mirrors_pure ()
  | cons s rest ih =>
    apply Mirrors.bind (execute_mirrors hC fuel h s)
    intro _
    exact ih

/-- No token and no distance of a session has an index that is still to be given away. -/
structure Numbered (s : Session) : Prop where
  world : ∀ r : Relabelling, r.KeepsBelow s.nextIndex → s.world.Alike r Eq s.world
  hops : ∀ i, s.nextIndex ≤ i → s.hops[i]? = none

theorem printsAlike_eq : PrintsAlike Eq := by
  rintro c _ rfl text
  exact ⟨rfl, rfl⟩

theorem numbered_initial (clock : Clock) (console : Console) : (initial clock console).Numbered := by
  constructor
  · intro r _
    constructor
    · simp [initial, World.initial, Frames.create, Frames.empty, Frames.map, Bindings.map_ofList,
        Value.relabel, Callable.relabel]
    · simp [initial, World.initial]
    · rfl
    · rfl
    · rfl
  · intro i _
    simp [initial]

theorem Numbered.mapConsole {s : Session} (h : s.Numbered) (f : Console → Console) :
    (s.mapConsole f).Numbered := by
  constructor
  · intro r hr
    exact { h.world r hr with console := rfl }
  · exact h.hops

theorem Numbered.raise {s : Session} (h : s.Numbered) {nextIndex : Nat}
    (hle : s.nextIndex ≤ nextIndex) : ({ s with nextIndex } : Session).Numbered := by
  constructor
  · intro r hr
    exact h.world r (hr.mono hle)
  · intro i hi
    exact h.hops i (Nat.le_trans hle hi)

theorem Numbered.skipSource {s : Session} (h : s.Numbered) (source : String) :
    (s.skipSource source).Numbered :=
  h.raise (Nat.le_succ_of_le (scan_index_le s.nextIndex source))

/-- Indices below the next one, as the tokens of a source have them behind it. -/
def Covers (s : Session) (tokens : List Token) : Prop := ∀ t ∈ tokens, t.index < s.nextIndex

theorem Covers.fixes {s : Session} {tokens : List Token} (h : s.Covers tokens) {r : Relabelling}
    (hr : r.KeepsBelow s.nextIndex) : r.Fixes (· ∈ tokens) :=
  fun t ht => hr.fixes t (h t ht)

theorem covers_skipSource (s : Session) (source : String) :
    (s.skipSource source).Covers (Lox.scan s.nextIndex source).tokens.toList := by
  intro t ht
  exact Nat.lt_succ_of_lt ((scan_numbered s.nextIndex source).mem ht).2

theorem Numbered.adopt {s : Session} (h : s.Numbered) {tokens : List Token} {program : List Stmt}
    (hparse : parse tokens = .ok program) (hcovers : s.Covers tokens) :
    (s.adopt (resolve program).hops).Numbered := by
  constructor
  · exact h.world
  · intro i hi
    rw [adopt_getElem?_of_ne]
    · exact h.hops i hi
    · intro hop hhop hindex
      have hlt := hcovers _ (hop_token_mem hparse hhop)
      have hle : s.nextIndex ≤ i := hi
      omega

theorem Numbered.agree {s : Session} (h : s.Numbered) {r : Relabelling}
    (hr : r.KeepsBelow s.nextIndex) (t : Token) : s.hops[r.index t]? = s.hops[t.index]? := by
  by_cases hlt : t.index < s.nextIndex
  · have hindex : r.index t = t.index := congrArg Token.index (hr.fixes t hlt)
    rw [hindex]
  · have hle := Nat.le_of_not_lt hlt
    rw [h.hops _ hle, h.hops _ (hr.above t hle)]

theorem executeTop_alike {s : Session} {tokens : List Token} {program : List Stmt}
    (hparse : parse tokens = .ok program) {r : Relabelling} {C : Console → Console → Prop}
    (hC : PrintsAlike C) (hfixes : r.Fixes (· ∈ tokens))
    (hhops : ∀ t : Token, s.hops[r.index t]? = s.hops[t.index]?) (hworld : s.world.Alike r C s.world)
    (fuel : Nat) :
    Result.Alike r C id (executeTop fuel ⟨.distances s.hops, globalEnv, 0⟩ program s.world)
      (executeTop fuel ⟨.distances s.hops, globalEnv, 0⟩ program s.world) := by
  have hctx : Context.Alike r ⟨.distances s.hops, globalEnv, 0⟩ ⟨.distances s.hops, globalEnv, 0⟩ :=
    ⟨hhops, rfl, rfl⟩
  have hboth := executeTop_mirrors hC fuel hctx program _ _ hworld
  rwa [relabel_program_of_fixes hparse hfixes] at hboth

def settle (s : Session) : Result Unit → Option (Option RuntimeError × Session)
  | .ok _ world => some (none, { s with world })
  | .error e world => some (some e, { s with world })
  | .exhausted => none

theorem execute?_eq_settle (fuel : Nat) (s : Session) (program : List Stmt) :
    s.execute? fuel program =
      s.settle (executeTop fuel ⟨.distances s.hops, globalEnv, 0⟩ program s.world) := rfl

theorem settle_alike {s s' : Session} {r : Relabelling} {C : Console → Console → Prop}
    {result result' : Result Unit} (h : Result.Alike r C id result result')
    {R : Status × Session → Status × Session → Prop}
    (hok : ∀ w w', result = .ok () w → w.Alike r C w' →
      R (conclude (none, { s with world := w })) (conclude (none, { s' with world := w' })))
    (herror : ∀ e w w', result = .error e w → w.Alike r C w' →
      R (conclude (some e, { s with world := w }))
        (conclude (some (e.relabel r), { s' with world := w' }))) :
    Option.Rel R ((s.settle result).map conclude) ((s'.settle result').map conclude) := by
  cases result <;> cases result'
  case ok.ok value w value' w' => exact .some (hok w w' rfl h.2)
  case error.error e w e' w' =>
    obtain ⟨rfl, hw⟩ := h
    exact .some (herror e w w' rfl hw)
  case exhausted.exhausted => exact .none
  all_goals contradiction

theorem execute?_eq_some {fuel : Nat} {s s' : Session} {program : List Stmt}
    {e? : Option RuntimeError} (h : s.execute? fuel program = some (e?, s')) :
    ∃ w, s' = { s with world := w } ∧
      executeTop fuel ⟨.distances s.hops, globalEnv, 0⟩ program s.world =
        match e? with
        | none => .ok () w
        | some e => .error e w := by
  unfold execute? at h
  dsimp only at h
  cases hresult : executeTop fuel ⟨.distances s.hops, globalEnv, 0⟩ program s.world with
  | ok value w =>
    rw [hresult] at h
    cases h
    exact ⟨w, rfl, rfl⟩
  | error e w =>
    rw [hresult] at h
    cases h
    exact ⟨w, rfl, rfl⟩
  | exhausted =>
    rw [hresult] at h
    contradiction

theorem Numbered.execute {s : Session} (h : s.Numbered) {tokens : List Token} {program : List Stmt}
    (hparse : parse tokens = .ok program) (hcovers : s.Covers tokens) {fuel : Nat}
    {e? : Option RuntimeError} {s' : Session} (hrun : s.execute? fuel program = some (e?, s')) :
    s'.Numbered := by
  obtain ⟨w, rfl, hresult⟩ := execute?_eq_some hrun
  constructor
  · intro r hr
    have halike := executeTop_alike hparse printsAlike_eq (hcovers.fixes hr) (h.agree hr) (h.world r hr) fuel
    rw [hresult] at halike
    cases e? with
    | none => exact halike.2
    | some e => exact halike.2
  · exact h.hops

theorem prepare_eq_some {s : Session} {source : String} {program : List Stmt}
    (h : (s.prepare source).2 = some program) :
    (Lox.scan s.nextIndex source).errors = #[] ∧
      parse (Lox.scan s.nextIndex source).tokens.toList = .ok program ∧
      (resolve program).errors = [] := by
  unfold prepare at h
  dsimp only at h
  cases hparse : parse (Lox.scan s.nextIndex source).tokens.toList with
  | error faults =>
    rw [hparse] at h
    contradiction
  | ok parsed =>
    rw [hparse] at h
    dsimp only at h
    split at h
    · rename_i hlexical
      split at h
      · rename_i hscope
        cases h
        exact ⟨Array.isEmpty_iff.1 hlexical, rfl, List.isEmpty_iff.1 hscope⟩
      · contradiction
    · contradiction

theorem prepare_snd_of_valid {s : Session} {source : String} {program : List Stmt}
    (hlexical : (Lox.scan s.nextIndex source).errors = #[])
    (hparse : parse (Lox.scan s.nextIndex source).tokens.toList = .ok program)
    (hresolve : (resolve program).errors = []) : (s.prepare source).2 = some program := by
  simp [prepare, hlexical, hparse, hresolve]

theorem Numbered.run {s : Session} (h : s.Numbered) {fuel : Nat} {source : String} {status : Status}
    {s' : Session} (hrun : s.run? fuel source = some (status, s')) : s'.Numbered := by
  rw [run?_eq] at hrun
  have hready : ((s.skipSource source).mapConsole (s.prepare source).1).Numbered :=
    (h.skipSource source).mapConsole _
  cases hprepared : (s.prepare source).2 with
  | none =>
    rw [hprepared] at hrun
    cases hrun
    exact hready
  | some program =>
    rw [hprepared] at hrun
    obtain ⟨-, hparse, -⟩ := prepare_eq_some hprepared
    have hcovers := covers_skipSource s source
    obtain ⟨⟨e?, s''⟩, hexecute, hconclude⟩ := Option.map_eq_some_iff.1 hrun
    have hnumbered := (hready.adopt hparse hcovers).execute hparse hcovers hexecute
    cases e? with
    | none =>
      cases hconclude
      exact hnumbered
    | some e =>
      cases hconclude
      exact hnumbered.mapConsole _

/-- The sessions that runs lead to. Parsed programs can be shown in some runs and not in others. -/
inductive Reachable : Session → Prop
  | initial (clock : Clock) (console : Console) : Reachable (initial clock console)
  | run {fuel s source status s'} (h : Reachable s)
      (hrun : s.run? fuel source = some (status, s')) : Reachable s'
  | debugParse {s} (debugParse : Bool) (h : Reachable s) : Reachable { s with debugParse }

theorem Reachable.numbered {s : Session} (h : s.Reachable) : s.Numbered := by
  induction h with
  | initial clock console => exact numbered_initial clock console
  | run _ hrun ih => exact ih.run hrun
  | debugParse _ _ ih => exact ⟨ih.world, ih.hops⟩

end Session

end Lox
