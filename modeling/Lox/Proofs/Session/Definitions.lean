import Lox.Proofs.Evaluation.Keeping
import Lox.Proofs.Session.Runs
import Lox.Proofs.Session.Splitting

/-!
Where names come from. Only a declaration binds a name, in the frame that it is carried out in. No
expression does, whatever it calls; and what is bound once stays bound in all runs to come.
-/
namespace Lox

def World.Defines (w : World) (frame : FrameId) (name : String) : Prop :=
  (w.frames.getIn frame name).isSome = true

theorem Stmt.boundAll_eq : ∀ {ss : List Stmt}, Stmt.OrderlyAll ss →
    Stmt.boundAll ss = (declaredIn ss).map Token.lexeme
  | [], _ => rfl
  | s :: rest, h => by
    rw [Stmt.boundAll, Stmt.bound_eq h.1, Stmt.boundAll_eq h.2, declaredIn_cons, List.map_append]

theorem Stmt.orderlyAll_of_prefix {rest : List Stmt} : ∀ {front : List Stmt},
    Stmt.OrderlyAll (front ++ rest) → Stmt.OrderlyAll front
  | [], _ => trivial
  | _ :: _, h => ⟨h.1, Stmt.orderlyAll_of_prefix h.2⟩

theorem Job.world?_of_left? {fuel : Nat} {w w' : World} {values : List Value} {job : Job}
    (h : job.left? fuel w = some (values, w')) : job.world? fuel w = some w' := by
  have hresult : ∀ {α : Type} {result : Result α} {f : α → List Value},
      result.left? f = some (values, w') → result.world? = some w' := by
    intro α result f hleft
    cases result with
    | ok _ _ | error _ _ =>
      cases hleft
      rfl
    | exhausted => contradiction
  cases job <;> exact hresult h

namespace Session

theorem executeTop_binds (fuel : Nat) (ctx : Context) (program : List Stmt) :
    Binds ctx.env (Stmt.boundAll program) (executeTop fuel ctx program) := by
  induction program with
  | nil => exact binds_pure _
  | cons s rest ih =>
    simp only [executeTop]
    apply ((execute_binds fuel ctx s).mono (List.subset_append_left _ _)).bind
    exact fun _ => ih.mono (List.subset_append_right _ _)

end Session

section Runs

variable {r : Run} {fuel : Nat} {job : Job} {values : List Value} {w last : World}

def Run.last? (r : Run) : Option World :=
  (Session.executeTop r.fuel r.session.topLevel r.program r.session.world).world?

theorem Run.Meets.keeps (h : r.Meets fuel job w) : r.session.world.Keeps w := by
  obtain ⟨front, stmt, rest, w₀, -, hfront, hreaches⟩ := h
  exact ((Session.executeTop_binds r.fuel r.session.topLevel front).keeps_ok hfront).trans hreaches.keeps

theorem Run.Meets.ends (h : r.Meets fuel job w) (hlast : r.last? = some last) :
    ∃ w', job.world? fuel w = some w' ∧ w'.Keeps last := by
  obtain ⟨front, stmt, rest, w₀, hprogram, hfront, hreaches⟩ := h
  rw [Run.last?, hprogram, Session.executeTop_append, Evaluation.bind_run, hfront] at hlast
  obtain ⟨w₁, hstmt, hkeeps⟩ := ends_of_bind r.session.topLevel.env (Stmt.boundAll rest)
    (fun _ => Session.executeTop_binds r.fuel r.session.topLevel rest) hlast
  obtain ⟨w', hjob, hkeeps'⟩ := hreaches.ends hstmt
  exact ⟨w', hjob, hkeeps'.trans hkeeps⟩

/-- A state of a run lies between its first and its last. -/
theorem Run.Passes.keeps (h : r.Passes values w) : r.session.world.Keeps w := by
  cases h with
  | start => exact .refl _
  | started hmeets => exact hmeets.keeps
  | ended hmeets hleft => exact hmeets.keeps.trans (Job.keeps (Job.world?_of_left? hleft))

theorem Run.Passes.keeps_last (h : r.Passes values w) (hlast : r.last? = some last) : w.Keeps last := by
  cases h with
  | start => exact (Session.executeTop_binds r.fuel r.session.topLevel r.program).keeps hlast
  | started hmeets =>
    obtain ⟨w', hjob, hkeeps⟩ := hmeets.ends hlast
    exact (Job.keeps hjob).trans hkeeps
  | ended hmeets hleft =>
    obtain ⟨w', hjob, hkeeps⟩ := hmeets.ends hlast
    rw [Job.world?_of_left? hleft] at hjob
    cases hjob
    exact hkeeps

end Runs

namespace Session

theorem keeps_of_run {s s' : Session} {fuel : Nat} {source : String} {status : Status}
    (hrun : s.run? fuel source = some (status, s')) :
    s.world.Keeps s'.world ∧ ∀ r ∈ s.runOf? fuel source, ∃ last, r.last? = some last ∧
      last.Keeps s'.world := by
  unfold runOf?
  cases hprepared : (s.prepare source).2 with
  | none =>
    rw [run?_eq, hprepared] at hrun
    cases hrun
    exact ⟨.of_frames rfl, nofun⟩
  | some program =>
    rw [run?_loaded hprepared] at hrun
    obtain ⟨⟨e?, s''⟩, hexecute, hconclude⟩ := Option.map_eq_some_iff.1 hrun
    obtain ⟨w, rfl, hexecuted⟩ := execute?_eq_some hexecute
    have hlast : (executeTop fuel (s.loaded source program).topLevel program
        (s.loaded source program).world).world? = some w := by
      unfold topLevel
      rw [hexecuted]
      cases e? <;> rfl
    have hframes : w.Keeps s'.world := by
      cases e? <;> cases hconclude <;> exact .of_frames rfl
    have hloaded : s.world.Keeps (s.loaded source program).world := .of_frames rfl
    have hran := (executeTop_binds fuel (s.loaded source program).topLevel program).keeps hlast
    refine ⟨(hloaded.trans hran).trans hframes, ?_⟩
    rintro r ⟨⟩
    exact ⟨w, hlast, hframes⟩

theorem keeps_of_runOf {s : Session} {fuel : Nat} {source : String} {r : Run}
    (hr : r ∈ (s.runOf? fuel source).toList) : s.world.Keeps r.session.world := by
  obtain ⟨program, -, rfl⟩ := Option.map_eq_some_iff.1 (Option.mem_toList.1 hr)
  exact .of_frames rfl

theorem pairwise_append_runOf {s : Session} {past : List Run} {fuel : Nat} {source : String}
    (hpast : ∀ r ∈ past, ∀ values w, r.Passes values w → w.Keeps s.world)
    (hpairwise : past.Pairwise fun r r' =>
      ∀ values w values' w', r.Passes values w → r'.Passes values' w' → w.Keeps w') :
    (past ++ (s.runOf? fuel source).toList).Pairwise fun r r' =>
      ∀ values w values' w', r.Passes values w → r'.Passes values' w' → w.Keeps w' := by
  refine List.pairwise_append.2 ⟨hpairwise, ?_, fun r hr r' hr' values w values' w' hpasses hpasses' => ?_⟩
  · cases s.runOf? fuel source with
    | none => exact .nil
    | some r => exact List.pairwise_singleton _ r
  · exact ((hpast r hr values w hpasses).trans (keeps_of_runOf hr')).trans hpasses'.keeps

theorem Lived.keeps {s : Session} {runs : List Run} (h : s.Lived runs) :
    (∀ r ∈ runs, ∀ values w, r.Passes values w → w.Keeps s.world) ∧
      runs.Pairwise fun r r' =>
        ∀ values w values' w', r.Passes values w → r'.Passes values' w' → w.Keeps w' := by
  induction h with
  | initial clock console => exact ⟨List.forall_mem_nil _, .nil⟩
  | debugParse debugParse _ ih => exact ih
  | @run fuel s source status s' runs hlived hrun ih =>
    obtain ⟨hpast, hpairwise⟩ := ih
    obtain ⟨hsession, hlast⟩ := keeps_of_run hrun
    refine ⟨List.forall_mem_append.2 ⟨fun r hr values w hpasses => ?_, fun r hr values w hpasses => ?_⟩, ?_⟩
    · exact (hpast r hr values w hpasses).trans hsession
    · obtain ⟨last, hended, hkeeps⟩ := hlast r (Option.mem_toList.1 hr)
      exact (hpasses.keeps_last hended).trans hkeeps
    · exact pairwise_append_runOf hpast hpairwise

/-- Only declarations bind names. However an expression ends, whatever it calls, the frames that were there
before bind the names that they did; and a statement of a program that is executed adds at most the name
that it declares itself, to the innermost frame that it is executed in. So the global names that a program
adds are those of its declarations outside of functions and blocks, and what a frame, such as the global
one, binds in some state of a run is bound in all states of later runs. -/
theorem only_declarations_bind {runs : List Run} (h : Executes runs) :
    (∀ fuel ctx e w w', (evaluate fuel ctx e w).world? = some w' →
      ∀ frame < w.frames.frames.size, ∀ name, w'.Defines frame name ↔ w.Defines frame name) ∧
    (∀ r ∈ runs, ∀ fuel ctx s w w', r.Meets fuel (.execute ctx s) w →
      (execute fuel ctx s w).world? = some w' →
        ∀ frame < w.frames.frames.size, ∀ name, (w.Defines frame name → w'.Defines frame name) ∧
          (w'.Defines frame name → w.Defines frame name ∨
            ctx.env.head? = some frame ∧ ∃ token, s.declared? = some token ∧ token.lexeme = name)) ∧
    (∀ r ∈ runs, ∀ front rest w, r.program = front ++ rest →
      (executeTop r.fuel r.session.topLevel front r.session.world).world? = some w →
        ∀ name, w.Defines 0 name →
          r.session.world.Defines 0 name ∨ name ∈ (declaredIn front).map Token.lexeme) ∧
    runs.Pairwise fun r r' => ∀ values w values' w', r.Passes values w → r'.Passes values' w' →
      ∀ frame name, w.Defines frame name → w'.Defines frame name := by
  refine ⟨?_, ?_, ?_, ?_⟩
  · intro fuel ctx e w w' hrun frame hframe name
    have hgains := evaluate_binds fuel ctx e [] w w' hrun
    refine ⟨fun hbound => ?_, hgains.kept frame name⟩
    rcases hgains.gained frame name hframe hbound with hbound | ⟨hhead, -⟩
    · exact hbound
    · contradiction
  · intro r hr fuel ctx s w w' hmeets hrun frame hframe name
    obtain ⟨L, hnoted⟩ := h.noted
    obtain ⟨L₀, -, -, around, -, horderly⟩ := ((hnoted r hr).met _ _ _ hmeets).started
    have hgains := execute_binds fuel ctx s w w' hrun
    refine ⟨hgains.kept frame name, fun hbound => ?_⟩
    rcases hgains.gained frame name hframe hbound with hbound | ⟨hhead, hname⟩
    · exact .inl hbound
    · rw [Stmt.bound_eq horderly] at hname
      obtain ⟨token, htoken, hlexeme⟩ := List.mem_map.1 hname
      exact .inr ⟨hhead, token, Option.mem_toList.1 htoken, hlexeme⟩
  · intro r hr front rest w hprogram hrun name hbound
    obtain ⟨s, source, hreachable, hsession, hprepared⟩ := h.prepared r hr
    obtain ⟨-, hparse, -⟩ := prepare_eq_some hprepared
    have horderly := orderly_of_parse hparse
    rw [hprogram] at horderly
    have hgains := executeTop_binds r.fuel r.session.topLevel front _ w hrun
    -- The global frame is there before the run, so what it binds anew is what the statements declare.
    have hglobal : 0 < r.session.world.frames.frames.size := by
      obtain ⟨L, hnoted⟩ := h.noted
      obtain ⟨L₀, -, hw⟩ := (hnoted r hr).start
      rw [← hw.frames, hw.global]
      rfl
    rcases hgains.gained 0 name hglobal hbound with hbound | ⟨-, hname⟩
    · exact .inl hbound
    · rw [Stmt.boundAll_eq (Stmt.orderlyAll_of_prefix horderly)] at hname
      exact .inr hname
  · obtain ⟨s, past, fuel, source, hlived, rfl⟩ := h
    exact pairwise_append_runOf hlived.keeps.1 hlived.keeps.2

/-- The first class that is declared is the first global variable of the program. -/
theorem only_declarations_bind_delegating :
    ∃ stmt rest w', delegatingProgram = stmt :: rest ∧
      (execute 20 delegatingRun.session.topLevel stmt delegatingRun.session.world).world? = some w' ∧
      w'.Defines 0 "A" ∧
      ∀ name, w'.Defines 0 name → delegatingRun.session.world.Defines 0 name ∨ "A" = name := by
  refine ⟨_, _, _, rfl, rfl, rfl, fun name hname => ?_⟩
  have hmeets : delegatingRun.Meets 20 (.execute delegatingRun.session.topLevel
      (delegatingProgram.head (by decide))) delegatingRun.session.world :=
    ⟨[], _, _, _, rfl, rfl, .refl⟩
  have hbound := (only_declarations_bind executes_delegatingRun).2.1 delegatingRun
    (List.mem_singleton_self _) 20 _ _ _ _ hmeets rfl 0 Nat.zero_lt_one name
  rcases hbound.2 hname with hbound | ⟨-, token, htoken, hlexeme⟩
  · exact .inl hbound
  · cases htoken
    exact .inr hlexeme

end Session

end Lox
