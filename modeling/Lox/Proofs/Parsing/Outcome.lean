import Lox.Proofs.Grammar

/-!
Equations of the primitive procedures and of sequencing. A procedure takes a token or does not, and which
of the two is decided by the kind of the next token.
-/
namespace Lox

/-- Whether a fault ends the declaration in which it is met. The others are noted on the way. -/
def SyntaxFault.panics : SyntaxFault → Bool
  | expected _ | expectedExpression => true
  | invalidAssignmentTarget | tooManyParameters | tooManyArguments => false

namespace Parse

variable {α β : Type}

namespace Outcome

def andThen (o : Outcome α) (next : α → Procedure β) : Outcome β :=
  match o with
  | .ok value noted rest => (next value rest).after noted
  | .fail error noted rest => .fail error noted rest
  | .exhausted => .exhausted

@[simp] theorem after_nil (o : Outcome α) : o.after [] = o := by
  cases o <;> rfl

@[simp] theorem after_append (o : Outcome α) (noted later : List SyntaxError) :
    o.after (noted ++ later) = (o.after later).after noted := by
  cases o <;> simp [after]

end Outcome

open Outcome

theorem pure_run (value : α) (ts : List Token) :
    (Pure.pure value : Procedure α) ts = .ok value [] ts := rfl

theorem bind_run (p : Procedure α) (next : α → Procedure β) (ts : List Token) :
    (p >>= next) ts = (p ts).andThen next := rfl

theorem peek?_run (ts : List Token) : peek? ts = .ok ts.head? [] ts := rfl

theorem skip_run (ts : List Token) : skip ts = .ok () [] ts.tail := rfl

theorem noteAt_run (t : Token) (fault : SyntaxFault) (ts : List Token) :
    noteAt t fault ts = .ok () [⟨some t, fault⟩] ts := rfl

theorem fail_run (fault : SyntaxFault) (ts : List Token) :
    (fail fault : Procedure α) ts = .fail ⟨ts.head?, fault⟩ [] ts := rfl

theorem exhausted_run (ts : List Token) : (exhausted : Procedure α) ts = .exhausted := rfl

theorem andThen_ok (value : α) (noted : List SyntaxError) (rest : List Token)
    (next : α → Procedure β) :
    (Outcome.ok value noted rest).andThen next = (next value rest).after noted := rfl

theorem require_cons {what : Expectation} {t : Token} (h : t.kind = what.kind) (rest : List Token) :
    require what (t :: rest) = .ok t [] rest := by
  simp [require, h]

theorem acceptIf_cons {p : Kind → Bool} {t : Token} (h : p t.kind = true) (rest : List Token) :
    acceptIf p (t :: rest) = .ok (some t) [] rest := by
  simp [acceptIf, h]

def Next (p : Kind → Prop) (ts : List Token) : Prop := ∀ t ∈ ts.head?, p t.kind

theorem Next.imp {p q : Kind → Prop} {ts : List Token} (h : Next p ts) (hpq : ∀ k, p k → q k) :
    Next q ts :=
  fun t ht => hpq _ (h t ht)

@[simp] theorem next_nil (p : Kind → Prop) : Next p [] := by
  simp [Next]

@[simp] theorem next_cons (p : Kind → Prop) (t : Token) (rest : List Token) :
    Next p (t :: rest) ↔ p t.kind := by
  simp [Next]

theorem acceptIf_of_next {p : Kind → Bool} {ts : List Token} (h : Next (p · = false) ts) :
    acceptIf p ts = .ok none [] ts := by
  cases ts with
  | nil => rfl
  | cons t rest => simp [acceptIf, (next_cons _ _ _).1 h]

theorem acceptIf_cases (p : Kind → Bool) (ts : List Token) :
    (∃ t rest, ts = t :: rest ∧ p t.kind = true ∧ acceptIf p ts = .ok (some t) [] rest) ∨
      (Next (p · = false) ts ∧ acceptIf p ts = .ok none [] ts) := by
  cases ts with
  | nil => exact .inr ⟨next_nil _, rfl⟩
  | cons t rest =>
    cases h : p t.kind with
    | true => exact .inl ⟨t, rest, rfl, h, acceptIf_cons h rest⟩
    | false => exact .inr ⟨(next_cons _ _ _).2 h, acceptIf_of_next ((next_cons _ _ _).2 h)⟩

theorem require_cases (what : Expectation) (ts : List Token) :
    (∃ t rest, ts = t :: rest ∧ t.kind = what.kind ∧ require what ts = .ok t [] rest) ∨
      require what ts = .fail ⟨ts.head?, .expected what⟩ [] ts := by
  cases ts with
  | nil => exact .inr rfl
  | cons t rest =>
    by_cases h : t.kind = what.kind
    · exact .inl ⟨t, rest, rfl, h, require_cons h rest⟩
    · exact .inr (by simp [require, h])

def noteExcess (count : Nat) (fault : SyntaxFault) : Procedure Unit := fun ts =>
  .ok () (Grammar.excess count ts.head? fault) ts

theorem noteExcess_bind (count : Nat) (fault : SyntaxFault) (next : Unit → Procedure α) :
    (if maxArity ≤ count then note fault >>= next else next ()) = noteExcess count fault >>= next := by
  funext ts
  rw [bind_run, noteExcess, andThen_ok, Grammar.excess]
  split
  · rfl
  · rw [after_nil]

theorem argumentList_succ (fuel count : Nat) :
    argumentList (fuel + 1) count = noteExcess count .tooManyArguments >>= fun _ => do
      let first ← expression fuel
      match ← accept .comma with
      | none => return [first]
      | some _ => return first :: (← argumentList fuel (count + 1)) := by
  rw [← noteExcess_bind]
  rfl

theorem parameterList_succ (fuel count : Nat) :
    parameterList (fuel + 1) count = noteExcess count .tooManyParameters >>= fun _ => do
      let first ← require .parameterName
      match ← accept .comma with
      | none => return [first]
      | some _ => return first :: (← parameterList fuel (count + 1)) := by
  rw [← noteExcess_bind]
  rfl

end Parse

end Lox
