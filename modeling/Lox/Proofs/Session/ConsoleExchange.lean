import Lox.Proofs.Session.StaticErrors

/-!
Sessions with another console. What a session does depends on its console only through the answers to
what it prints and reports; where two consoles answer alike, the sessions stay the same but for them.
-/
namespace Lox

namespace Session

def withConsole (s : Session) (c : Console) : Session := s.mapConsole fun _ => c

@[simp] theorem withConsole_console (s : Session) (c : Console) :
    (s.withConsole c).world.console = c := rfl

theorem adopt_withConsole (s : Session) (c : Console) (hops : List Hop) :
    (s.withConsole c).adopt hops = (s.adopt hops).withConsole c := rfl

/-- The same answer from sessions that are the same but for consoles in the relation. -/
def SameButConsole {α : Type} (C : Console → Console → Prop) (answer answer' : α × Session) : Prop :=
  ∃ c, C answer.2.world.console c ∧ answer' = (answer.1, answer.2.withConsole c)

variable {C : Console → Console → Prop} {s : Session} {c : Console}

theorem executeTop_withConsole (hprint : PrintsAlike C) (fuel : Nat) (ctx : Context) (program : List Stmt)
    {w : World} (hc : C w.console c) :
    Result.Alike .stay C id (executeTop fuel ctx program w)
      (executeTop fuel ctx program { w with console := c }) := by
  have hprogram : program.map (·.relabel .stay) = program := by simp
  have hrun := executeTop_mirrors hprint fuel ctx.alike_stay program w _ (World.alike_stay hc)
  rwa [hprogram] at hrun

theorem proceed?_withConsole (hprint : PrintsAlike C) (hreport : KeptByReports C)
    (hc : C s.world.console c) (fuel : Nat) (program? : Option (List Stmt)) :
    Option.Rel (SameButConsole C) (proceed? fuel s program?)
      (proceed? fuel (s.withConsole c) program?) := by
  cases program? with
  | none => exact .some ⟨c, hc, rfl⟩
  | some program =>
    rw [proceed?, proceed?, adopt_withConsole]
    apply settle_alike (executeTop_withConsole hprint fuel _ program hc)
    · intro w w' _ hw
      obtain ⟨hw', hconsole⟩ := hw.eq_of_stay
      rw [hw']
      exact ⟨w'.console, hconsole, rfl⟩
    · intro e w w' _ hw
      obtain ⟨hw', hconsole⟩ := hw.eq_of_stay
      rw [hw']
      exact ⟨_, hreport _ _ hconsole ((Diagnostic.runtime e).text ++ "\n"), rfl⟩

theorem run?_withConsole (hprint : PrintsAlike C) (hcomplain : ComplainsAlike C)
    (hc : C s.world.console c) (fuel : Nat) (source : String) :
    Option.Rel (SameButConsole C) (s.run? fuel source) ((s.withConsole c).run? fuel source) := by
  rw [run?_eq, run?_eq]
  exact proceed?_withConsole hprint hcomplain.keptByReports (prepare_alike hcomplain hc s source) fuel
    (s.prepare source).2

/-- Before a console that refuses as little, a run ends the same and adds the same texts. -/
theorem run?_beside (hc : s.world.console.Twins c) (fuel : Nat)
    (source : String) :
    Option.Rel (fun answer answer' => answer.2.world.console.Twins answer'.2.world.console ∧
        answer' = (answer.1, answer.2.withConsole
          (c.extend (transcript answer.1 s.world.console answer.2.world.console).out
            (transcript answer.1 s.world.console answer.2.world.console).err)))
      (s.run? fuel source) ((s.withConsole c).run? fuel source) := by
  have hrun := run?_withConsole (gainAlike_printsAlike hc) (gainAlike_complainsAlike hc)
    (Console.gainAlike_refl _ c) fuel source
  generalize s.run? fuel source = answer at hrun ⊢
  generalize run? fuel _ source = answer' at hrun ⊢
  cases hrun with
  | none => exact .none
  | some hanswer =>
    obtain ⟨c', ⟨out, err, hout, rfl⟩, rfl⟩ := hanswer
    have htwins := hc.extend out err
    rw [← hout] at htwins
    refine .some ⟨htwins, ?_⟩
    rw [hout]
    cases hbase : s.world.console <;> cases hother : c <;> rw [hbase, hother] at hc
    case separate.separate => simp [transcript, textSince_append, Console.diagnostics_extend]
    case shared.shared =>
      simp only [transcript, Console.output_extend, textSince_append]
      rfl
    all_goals contradiction

end Session

end Lox
