import Lox.Proofs.Session.Preparation

/-!
What a session says. Consoles that never refuse take every text, so that two of them gain the same texts
from the same offers, whatever they took before; what is shown before a run is offered to the diagnostics
only.
-/
namespace Lox

namespace Sink

def NeverRefuses (s : Sink) : Prop := ∀ taken offered, s.refusal? taken offered = none

def extend (s : Sink) (text : String) : Sink := { s with taken := s.taken ++ text }

theorem offer_of_neverRefuses {s : Sink} (h : s.NeverRefuses) (text : String) :
    s.offer text = (none, s.extend text) := by
  unfold offer
  rw [h]
  rfl

theorem extend_extend (s : Sink) (first second : String) :
    (s.extend first).extend second = s.extend (first ++ second) := by
  simp [extend, String.append_assoc]

end Sink

namespace Console

def NeverRefuses : Console → Prop
  | separate out err => out.NeverRefuses ∧ err.NeverRefuses
  | shared sink => sink.NeverRefuses

/-- A console behind more output and more diagnostics. A shared sink takes both as one text. -/
def extend (c : Console) (out err : String) : Console :=
  match c with
  | separate o e => separate (o.extend out) (e.extend err)
  | shared sink => shared (sink.extend out)

theorem extend_extend (c : Console) (out err out' err' : String) :
    (c.extend out err).extend out' err' = c.extend (out ++ out') (err ++ err') := by
  cases c <;> simp [extend, Sink.extend_extend]

@[simp] theorem extend_empty (c : Console) : c.extend "" "" = c := by
  cases c <;> simp [extend, Sink.extend]

theorem NeverRefuses.extend {c : Console} (h : c.NeverRefuses) (out err : String) :
    (c.extend out err).NeverRefuses := by
  cases c with
  | separate o e => exact h
  | shared sink => exact h

@[simp] theorem output_extend (c : Console) (out err : String) :
    (c.extend out err).output = c.output ++ out := by
  cases c <;> rfl

/-- The diagnostics behind more of them, which a shared sink does not tell apart. -/
theorem diagnostics_extend (c : Console) (out err : String) :
    (c.extend out err).diagnostics =
      c.diagnostics ++ match c with
        | separate _ _ => err
        | shared _ => "" := by
  cases c <;> rfl

/-- Two consoles of one kind that refuse nothing. -/
def Twins : Console → Console → Prop
  | c@(separate _ _), c'@(separate _ _) => c.NeverRefuses ∧ c'.NeverRefuses
  | c@(shared _), c'@(shared _) => c.NeverRefuses ∧ c'.NeverRefuses
  | _, _ => False

theorem NeverRefuses.twins {c : Console} (h : c.NeverRefuses) : c.Twins c := by
  cases c with
  | separate o e => exact ⟨h, h⟩
  | shared sink => exact ⟨h, h⟩

theorem Twins.extend {c c' : Console} (h : c.Twins c') (out err : String) :
    (c.extend out err).Twins (c'.extend out err) := by
  cases c <;> cases c' <;> exact h

theorem Twins.extend_right {c c' : Console} (h : c.Twins c') (out err : String) :
    c.Twins (c'.extend out err) := by
  cases c <;> cases c' <;> exact h

theorem Twins.neverRefuses_right {c c' : Console} (h : c.Twins c') : c'.NeverRefuses := by
  cases c <;> cases c' <;> first | exact h.2 | contradiction

theorem Twins.neverRefuses {c c' : Console} (h : c.Twins c') : c.NeverRefuses := by
  cases c <;> cases c' <;> first | exact h.1 | contradiction

theorem NeverRefuses.twins_extend {c : Console} (h : c.NeverRefuses) (out err : String) :
    c.Twins (c.extend out err) := by
  cases c with
  | separate o e => exact ⟨h, h⟩
  | shared sink => exact ⟨h, h⟩

def GainAlike (base base' c c' : Console) : Prop :=
  ∃ out err, c = base.extend out err ∧ c' = base'.extend out err

theorem gainAlike_refl (base base' : Console) : GainAlike base base' base base' :=
  ⟨"", "", (extend_empty base).symm, (extend_empty base').symm⟩

theorem Twins.print {c c' : Console} (h : c.Twins c') (text : String) :
    ∃ out err, c.print text = (none, c.extend out err) ∧ c'.print text = (none, c'.extend out err) := by
  refine ⟨text, "", ?_⟩
  cases c <;> cases c'
  case separate.separate o e o' e' =>
    obtain ⟨⟨ho, -⟩, ho', -⟩ := h
    simp [Console.print, Console.extend, Sink.offer_of_neverRefuses ho,
      Sink.offer_of_neverRefuses ho', Sink.extend]
  case shared.shared s s' =>
    obtain ⟨hs, hs'⟩ := h
    simp [Console.print, Console.extend, Sink.offer_of_neverRefuses hs,
      Sink.offer_of_neverRefuses hs']
  all_goals contradiction

theorem Twins.complain {c c' : Console} (h : c.Twins c') (text : String) :
    ∃ out err, c.complain text = (none, c.extend out err) ∧
      c'.complain text = (none, c'.extend out err) := by
  cases c <;> cases c'
  case separate.separate o e o' e' =>
    obtain ⟨⟨-, he⟩, -, he'⟩ := h
    refine ⟨"", text, ?_⟩
    simp [Console.complain, Console.extend, Sink.offer_of_neverRefuses he,
      Sink.offer_of_neverRefuses he', Sink.extend]
  case shared.shared s s' =>
    obtain ⟨hs, hs'⟩ := h
    refine ⟨text, "", ?_⟩
    simp [Console.complain, Console.extend, Sink.offer_of_neverRefuses hs,
      Sink.offer_of_neverRefuses hs']
  all_goals contradiction

end Console

/-- Consoles in the relation answer every diagnostic alike and stay in the relation. -/
def ComplainsAlike (C : Console → Console → Prop) : Prop :=
  ∀ c c', C c c' → ∀ text,
    (c'.complain text).1 = (c.complain text).1 ∧ C (c.complain text).2 (c'.complain text).2

/-- Consoles in the relation stay in it when a diagnostic is offered, whichever of them takes it. -/
def KeptByReports (C : Console → Console → Prop) : Prop :=
  ∀ c c', C c c' → ∀ text, C (c.report text) (c'.report text)

theorem ComplainsAlike.keptByReports {C : Console → Console → Prop} (h : ComplainsAlike C) :
    KeptByReports C :=
  fun c c' hc text => (h c c' hc text).2

theorem gainAlike_printsAlike {base base' : Console} (h : base.Twins base') :
    PrintsAlike (Console.GainAlike base base') := by
  rintro _ _ ⟨out, err, rfl, rfl⟩ text
  obtain ⟨out', err', hprint, hprint'⟩ := (h.extend out err).print text
  rw [hprint, hprint']
  exact ⟨rfl, out ++ out', err ++ err', Console.extend_extend .., Console.extend_extend ..⟩

theorem gainAlike_complainsAlike {base base' : Console} (h : base.Twins base') :
    ComplainsAlike (Console.GainAlike base base') := by
  rintro _ _ ⟨out, err, rfl, rfl⟩ text
  obtain ⟨out', err', hcomplain, hcomplain'⟩ := (h.extend out err).complain text
  rw [hcomplain, hcomplain']
  exact ⟨rfl, out ++ out', err ++ err', Console.extend_extend .., Console.extend_extend ..⟩

/-- A console that was offered diagnostics only. -/
def OnlyComplained (base c : Console) : Prop := ∃ texts : List String, c = texts.foldl Console.report base

theorem onlyComplained_complainsAlike (base : Console) :
    ComplainsAlike fun c c' => c = c' ∧ OnlyComplained base c := by
  rintro c _ ⟨rfl, texts, rfl⟩ text
  refine ⟨rfl, rfl, texts ++ [text], ?_⟩
  rw [List.foldl_append]
  rfl

theorem OnlyComplained.separate {out err : Sink} {c : Console} (h : OnlyComplained (.separate out err) c) :
    ∃ err', c = .separate out err' := by
  obtain ⟨texts, rfl⟩ := h
  induction texts generalizing err with
  | nil => exact ⟨err, rfl⟩
  | cons text texts ih => exact ih

theorem OnlyComplained.output {base c : Console} (h : OnlyComplained base c) {out err : Sink}
    (hbase : base = .separate out err) : c.output = base.output := by
  subst hbase
  obtain ⟨err', rfl⟩ := h.separate
  rfl

section Shown

variable {C : Console → Console → Prop} {c c' : Console}

theorem reportAll_alike (hC : ComplainsAlike C) (h : C c c') (ds : List Diagnostic) :
    C (c.reportAll ds) (c'.reportAll ds) := by
  unfold Console.reportAll
  induction ds generalizing c c' with
  | nil => exact h
  | cons d ds ih => exact ih (hC c c' h _).2

theorem dump_alike (hC : ComplainsAlike C) (h : C c c') (program : List Stmt) :
    C (Session.dump c program) (Session.dump c' program) := by
  induction program generalizing c c' with
  | nil => exact h
  | cons s rest ih =>
    obtain ⟨hrefusal, hcomplained⟩ := hC c c' h (s.parenthesized ++ "\n")
    unfold Session.dump
    generalize c.complain (s.parenthesized ++ "\n") = answer at *
    generalize c'.complain (s.parenthesized ++ "\n") = answer' at *
    obtain ⟨refusal, c₁⟩ := answer
    obtain ⟨refusal', c₁'⟩ := answer'
    cases hrefusal
    cases refusal with
    | none => exact ih hcomplained
    | some reason => exact hcomplained

theorem announce_alike (hC : ComplainsAlike C) (h : C c c') (debugParse : Bool)
    (program : List Stmt) :
    C (Session.announce debugParse program c) (Session.announce debugParse program c') := by
  cases debugParse with
  | false => exact h
  | true => exact dump_alike hC h program

theorem prepare_alike (hC : ComplainsAlike C) (h : C c c') (s : Session) (source : String) :
    C ((s.prepare source).1 c) ((s.prepare source).1 c') := by
  unfold Session.prepare
  dsimp only
  split
  · exact reportAll_alike hC (reportAll_alike hC h _) _
  · split
    · split
      · exact announce_alike hC (reportAll_alike hC h _) _ _
      · exact reportAll_alike hC (announce_alike hC (reportAll_alike hC h _) _ _) _
    · exact reportAll_alike hC h _

end Shown

end Lox
