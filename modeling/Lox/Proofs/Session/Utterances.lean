import Lox.Proofs.Session.Console
import Mathlib.Data.List.Forall2

/-!
What runs say, one text after the other. Utterances that are the same but for the lines in diagnostics
leave consoles that differ in these lines only.
-/
namespace Lox

namespace Diagnostic

/-- The text of a diagnostic with any line in place of its own. -/
def wording (d : Diagnostic) (line : Nat) : String :=
  let place := "[line " ++ toString line ++ "]"
  match d with
  | lexical e => place ++ " Error: " ++ e.message
  | grammar site fault => place ++ " Error " ++ site.text ++ ": " ++ fault.message
  | scope e => place ++ " Error " ++ (Site.token e.token).text ++ ": " ++ e.fault.message
  | runtime e => e.fault.message ++ "\n" ++ place

theorem text_eq_wording (d : Diagnostic) : d.text = d.wording d.line := by
  cases d <;> rfl

def SameButLine (d d' : Diagnostic) : Prop := ∀ line, d'.wording line = d.wording line

variable {r : Relabelling}

theorem sameButLine_lexical {e e' : LexicalError} (h : e'.message = e.message) :
    SameButLine (lexical e) (lexical e') := by
  intro line
  simp [wording, h]

theorem sameButLine_ofSyntaxError (finish finish' : EndMark) (e : SyntaxError) :
    SameButLine (ofSyntaxError finish e) (ofSyntaxError finish' (e.relabel r)) := by
  obtain ⟨token?, fault⟩ := e
  intro line
  cases token? <;> rfl

theorem sameButLine_scope (e : ScopeError) : SameButLine (scope e) (scope (e.relabel r)) :=
  fun _ => rfl

theorem sameButLine_runtime (e : RuntimeError) : SameButLine (runtime e) (runtime (e.relabel r)) :=
  fun _ => rfl

end Diagnostic

inductive Utterance where
  /-- A line that the program prints. -/
  | output (text : String)
  /-- A parsed statement that is shown. -/
  | tree (text : String)
  | diagnostic (d : Diagnostic)

inductive Utterance.SameButLine : Utterance → Utterance → Prop
  | refl (u : Utterance) : SameButLine u u
  | diagnostic {d d'} (h : d.SameButLine d') : SameButLine (.diagnostic d) (.diagnostic d')

namespace Console

variable {base c c' : Console}

def hear (c : Console) : Utterance → Console
  | .output text => (c.print text).2
  | .tree text => c.report text
  | .diagnostic d => c.report (d.text ++ "\n")

/-- Two consoles behind the same utterances, but for the lines in diagnostics. -/
def HeardAlike (base c c' : Console) : Prop :=
  ∃ us us', List.Forall₂ Utterance.SameButLine us us' ∧ c = us.foldl hear base ∧
    c' = us'.foldl hear base

theorem heardAlike_refl (base : Console) : base.HeardAlike base base := ⟨[], [], .nil, rfl, rfl⟩

theorem HeardAlike.hear (h : base.HeardAlike c c') {u u' : Utterance} (hu : u.SameButLine u') :
    base.HeardAlike (c.hear u) (c'.hear u') := by
  obtain ⟨us, us', hsame, rfl, rfl⟩ := h
  refine ⟨us ++ [u], us' ++ [u'], List.rel_append hsame (.cons hu .nil), ?_, ?_⟩
  · rw [List.foldl_append]
    rfl
  · rw [List.foldl_append]
    rfl

theorem HeardAlike.report (h : base.HeardAlike c c') {d d' : Diagnostic} (hd : d.SameButLine d') :
    base.HeardAlike (c.report (d.text ++ "\n")) (c'.report (d'.text ++ "\n")) :=
  h.hear (.diagnostic hd)

theorem HeardAlike.reportAll (h : base.HeardAlike c c') {ds ds' : List Diagnostic}
    (hds : List.Forall₂ Diagnostic.SameButLine ds ds') :
    base.HeardAlike (c.reportAll ds) (c'.reportAll ds') := by
  induction hds generalizing c c' with
  | nil => exact h
  | cons hd _ ih => exact ih (h.report hd)

theorem HeardAlike.output {out err : Sink} (h : (separate out err).HeardAlike c c') :
    c'.output = c.output := by
  obtain ⟨us, us', hsame, rfl, rfl⟩ := h
  have hsinks : ∀ err', ∃ out₁ err₁ err₁', us.foldl Console.hear (separate out err) = separate out₁ err₁ ∧
      us'.foldl Console.hear (separate out err') = separate out₁ err₁' := by
    induction hsame generalizing out err with
    | nil => exact fun err' => ⟨out, err, err', rfl, rfl⟩
    | cons hu _ ih =>
      intro err'
      cases hu with
      | refl =>
        rename_i u _ _ _
        cases u with
        | output text => exact ih err'
        | tree text | diagnostic d => exact ih _
      | diagnostic hd => exact ih _
  obtain ⟨out₁, err₁, err₁', h, h'⟩ := hsinks err
  rw [h, h']
  rfl

theorem NeverRefuses.hear (h : c.NeverRefuses) (u : Utterance) : (c.hear u).NeverRefuses := by
  cases u with
  | output text =>
    obtain ⟨out, err, hprint, -⟩ := h.twins.print text
    rw [Console.hear, hprint]
    exact h.extend out err
  | tree text =>
    obtain ⟨out, err, hcomplain, -⟩ := h.twins.complain text
    rw [Console.hear, Console.report, hcomplain]
    exact h.extend out err
  | diagnostic d =>
    obtain ⟨out, err, hcomplain, -⟩ := h.twins.complain (d.text ++ "\n")
    rw [Console.hear, Console.report, hcomplain]
    exact h.extend out err

theorem NeverRefuses.hearAll (h : base.NeverRefuses) (us : List Utterance) :
    (us.foldl Console.hear base).NeverRefuses := by
  induction us generalizing base with
  | nil => exact h
  | cons u us ih => exact ih (h.hear u)

theorem HeardAlike.neverRefuses (hbase : base.NeverRefuses) (h : base.HeardAlike c c') :
    c.NeverRefuses ∧ c'.NeverRefuses := by
  obtain ⟨us, us', -, rfl, rfl⟩ := h
  exact ⟨hbase.hearAll us, hbase.hearAll us'⟩

theorem NeverRefuses.heardAlike_printsAlike (hbase : base.NeverRefuses) :
    PrintsAlike base.HeardAlike := by
  intro c c' h text
  obtain ⟨hc, hc'⟩ := h.neverRefuses hbase
  obtain ⟨out, err, hprint, -⟩ := hc.twins.print text
  obtain ⟨out', err', hprint', -⟩ := hc'.twins.print text
  refine ⟨?_, h.hear (.refl (.output text))⟩
  rw [hprint, hprint']

theorem NeverRefuses.heardAlike_complainsAlike (hbase : base.NeverRefuses) :
    ComplainsAlike base.HeardAlike := by
  intro c c' h text
  obtain ⟨hc, hc'⟩ := h.neverRefuses hbase
  obtain ⟨out, err, hcomplain, -⟩ := hc.twins.complain text
  obtain ⟨out', err', hcomplain', -⟩ := hc'.twins.complain text
  refine ⟨?_, h.hear (.refl (.tree text))⟩
  rw [hcomplain, hcomplain']

end Console

end Lox
