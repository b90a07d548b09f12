import Lox.Proofs.Evaluation.Ending
import Lox.Proofs.Session.Numbering

/-!
Runs without loops end. What a run can call is reachable in its world: from the global variables, through
the environments of functions and methods and the fields of objects. If none of that has a loop, and the
program has none, then the run ends and leaves a world of which the same is true.
-/
namespace Lox

/-- The functions that can be called through a value: itself, or the methods of its class. -/
def Value.Offers (value : Value) (closure : Closure) : Prop :=
  match value with
  | .callable (.function _ f) => f = closure
  | .callable (.cls c) | .object _ c => ∃ name, c.findMethod? name = some closure
  | .callable (.native _) | .nil | .bool _ | .num _ | .str _ => False

/-- What code can come to in a world. -/
inductive World.Reaches (w : World) : Value → Prop
  | global {frame name value} (hframe : frame ∈ globalEnv)
      (h : w.frames.getIn frame name = some value) : w.Reaches value
  | captured {value closure frame name value'} (hvalue : w.Reaches value)
      (hoffers : value.Offers closure) (hframe : frame ∈ closure.env)
      (h : w.frames.getIn frame name = some value') : w.Reaches value'
  | field {id c fields name value} (hobject : w.Reaches (.object id c))
      (hfields : w.objects[id]? = some fields) (h : fields.get? name = some value) : w.Reaches value

/-- No function or method that code can come to has a loop. -/
def World.LoopFree (w : World) : Prop :=
  ∀ value closure, w.Reaches value → value.Offers closure → closure.decl.loopFree = true

def World.region (w : World) : Region where
  frames frame := frame ∈ globalEnv ∨
    (∃ value closure, w.Reaches value ∧ value.Offers closure ∧ frame ∈ closure.env) ∨
    w.frames.frames.size ≤ frame
  objects id := (∃ c, w.Reaches (.object id c)) ∨ w.objects.size ≤ id

namespace World

variable {w : World}

theorem LoopFree.tame_offered (h : w.LoopFree) {value : Value} (hreaches : w.Reaches value)
    {closure : Closure} (hoffers : value.Offers closure) : closure.Tame w.region :=
  ⟨h value closure hreaches hoffers,
    fun _ hframe => .inr (.inl ⟨value, closure, hreaches, hoffers, hframe⟩)⟩

theorem LoopFree.tame_reached (h : w.LoopFree) {value : Value} (hreaches : w.Reaches value) :
    value.Tame w.region := by
  cases value with
  | callable f =>
    cases f with
    | native _ => trivial
    | function id closure => exact h.tame_offered hreaches rfl
    | cls c => exact fun name method hfind => h.tame_offered hreaches ⟨name, hfind⟩
  | object id c =>
    exact ⟨.inl ⟨c, hreaches⟩, fun name method hfind => h.tame_offered hreaches ⟨name, hfind⟩⟩
  | nil | bool _ | num _ | str _ => trivial

/-- What can be reached stands in the region, so a world whose reachable functions are free of loops is
tame there. -/
theorem LoopFree.tame (h : w.LoopFree) : w.Tame w.region where
  globals _ hframe := .inl hframe
  bindings := by
    rintro frame hframe name value hbound
    apply h.tame_reached
    rcases hframe with hframe | ⟨holder, closure, hreaches, hoffers, hframe⟩ | hframe
    · exact .global hframe hbound
    · exact .captured hreaches hoffers hframe hbound
    · rw [Frames.getIn, Array.getElem?_eq_none hframe] at hbound
      contradiction
  fields := by
    rintro id hid fields hfields name value hfield
    apply h.tame_reached
    rcases hid with ⟨c, hreaches⟩ | hid
    · exact .field hreaches hfields hfield
    · rw [Array.getElem?_eq_none hid] at hfields
      contradiction
  newFrames _ hframe := .inr (.inr hframe)
  newObjects _ hid := .inr hid

theorem Tame.offered {R : Region} {value : Value} (h : value.Tame R) {closure : Closure}
    (hoffers : value.Offers closure) : closure.Tame R := by
  cases value with
  | callable f =>
    cases f with
    | native _ => contradiction
    | function id f =>
      cases hoffers
      exact h
    | cls c => exact hoffers.elim (h · closure)
  | object id c => exact hoffers.elim (h.2 · closure)
  | nil | bool _ | num _ | str _ => contradiction

theorem Tame.loopFree {R : Region} (h : w.Tame R) : w.LoopFree := by
  have hreached : ∀ value, w.Reaches value → value.Tame R := by
    intro value hreaches
    induction hreaches with
    | global hframe hbound => exact h.bindings _ (h.globals _ hframe) _ _ hbound
    | captured _ hoffers hframe hbound ih =>
      exact h.bindings _ ((Tame.offered ih hoffers).env _ hframe) _ _ hbound
    | field _ hfields hfield ih => exact h.fields _ ih.1 _ hfields _ _ hfield
  intro value closure hreaches hoffers
  exact (Tame.offered (hreached value hreaches) hoffers).loopFree

theorem loopFree_initial (clock : Clock) (console : Console) : (initial clock console).LoopFree := by
  have hreached : ∀ value, (initial clock console).Reaches value →
      value = .callable (.native .clock) := by
    intro value hreaches
    induction hreaches with
    | global _ hbound => exact (eq_of_getIn_initial hbound).2.2
    | captured _ hoffers _ _ ih =>
      rw [ih] at hoffers
      contradiction
    | field _ _ _ ih => contradiction
  intro value closure hreaches hoffers
  rw [hreached value hreaches] at hoffers
  contradiction

end World

namespace Session

theorem executeTop_ends {R : Region} {ctx : Context} (hctx : ctx.Ready R) {program : List Stmt}
    (h : Stmt.loopFreeAll program = true) :
    Ends R (fun fuel => executeTop fuel ctx program) fun _ => True := by
  induction program with
  | nil => exact .pure trivial
  | cons s rest ih =>
    rw [Stmt.loopFreeAll, Bool.and_eq_true] at h
    exact (execute_ends hctx s h.1).bind fun _ _ => ih h.2

/-- However its functions, methods and initializers call each other, a run without loops ends: with
success or a runtime error, the same for every bound from some bound on, and in a world without loops. -/
theorem run?_ends {s : Session} {source : String} {program : List Stmt} (hworld : s.world.LoopFree)
    (hlexical : (Lox.scan s.nextIndex source).errors = #[])
    (hparse : parse (Lox.scan s.nextIndex source).tokens.toList = .ok program)
    (hresolve : (resolve program).errors = []) (hprogram : Stmt.loopFreeAll program = true) :
    ∃ n status last, (status = .success ∨ status = .runtimeError) ∧ last.world.LoopFree ∧
      ∀ fuel, n ≤ fuel → s.run? fuel source = some (status, last) := by
  obtain ⟨ready, hready⟩ : ∃ ready, ready =
      ((s.skipSource source).mapConsole (s.prepare source).1).adopt (resolve program).hops := ⟨_, rfl⟩
  have htame : ready.world.Tame s.world.region := by
    rw [hready]
    exact { hworld.tame with }
  have hctx : Context.Ready s.world.region ⟨.distances ready.hops, globalEnv, 0⟩ :=
    ⟨htame.globals, fun _ => callsEnd _ 1⟩
  -- From a bound on, the program has one and the same result; what is left is to conclude from it.
  obtain ⟨n, result, hsettled, hresult⟩ := executeTop_ends hctx hprogram ready.world htame
  have hrun : ∀ fuel, n ≤ fuel → s.run? fuel source = (ready.settle result).map conclude := by
    intro fuel hfuel
    rw [run?_eq, prepare_snd_of_valid hlexical hparse hresolve, proceed?, ← hready, execute?_eq_settle]
    exact congrArg (fun result => (ready.settle result).map conclude) (hresult fuel hfuel)
  cases result with
  | ok value w =>
    exact ⟨n, .success, { ready with world := w }, .inl rfl, hsettled.2.loopFree, hrun⟩
  | error e w =>
    have hlast : ({ w with console := w.console.report ((Diagnostic.runtime e).text ++ "\n") } :
        World).LoopFree := World.Tame.loopFree (R := s.world.region) { hsettled with }
    exact ⟨n, .runtimeError, report { ready with world := w } (.runtime e), .inr rfl, hlast, hrun⟩
  | exhausted => contradiction

/-- A function, an initializer and methods that call each other for ever. -/
def endlessSource : String :=
  "class A { init(f) { this.f = f; } run() { return this.f(this); } } " ++
    "class B < A { run() { return super.run(); } } fun again(b) { return B(again).run(); } again(nil);"

theorem run?_ends_endless :
    ∃ n status last, (status = .success ∨ status = .runtimeError) ∧ last.world.LoopFree ∧
      ∀ fuel, n ≤ fuel →
        (initial ⟨0, 0⟩ (.separate .unlimited .unlimited)).run? fuel endlessSource =
          some (status, last) := by
  have hevaluated : (Lox.scan 0 endlessSource).errors.isEmpty = true ∧
      (parse (Lox.scan 0 endlessSource).tokens.toList).toOption.map (fun program =>
        decide ((resolve program).errors = []) && Stmt.loopFreeAll program) = some true := by
    decide +kernel
  obtain ⟨hlexical, hprogram⟩ := hevaluated
  cases hparse : parse (Lox.scan 0 endlessSource).tokens.toList with
  | error faults =>
    rw [hparse] at hprogram
    contradiction
  | ok program =>
    rw [hparse] at hprogram
    obtain ⟨hresolve, hfree⟩ := Bool.and_eq_true_iff.1 (Option.some.inj hprogram)
    exact run?_ends (World.loopFree_initial _ _) (Array.isEmpty_iff.1 hlexical) hparse
      (of_decide_eq_true hresolve) hfree

end Session

end Lox
