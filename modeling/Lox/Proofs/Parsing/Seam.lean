import Lox.Proofs.Parsing.Bounds

/-!
The seam behind a correct program. Its last statement stops where the tokens of another source begin,
whatever these are, unless they begin with an `else`. What is behind the seam is then parsed as if nothing
stood in front of it.
-/
namespace Lox

namespace Parse

open Grammar

theorem program_behind {ts more statements n} {fuel : Nat} (helse : Next (· ≠ .kwElse) more)
    (h : Declarations ts statements n) (hrun : program fuel (ts ++ more) ≠ .exhausted) :
    ∃ fuel' later noted, program fuel' more = .ok later noted [] ∧
      program fuel (ts ++ more) = .ok (statements ++ later) (n ++ noted) [] := by
  induction fuel generalizing ts statements n with
  | zero => exact absurd rfl hrun
  | succ fuel ih =>
    cases h with
    | nil =>
      rw [List.nil_append] at hrun ⊢
      obtain ⟨later, noted, hmore⟩ := exists_of_program hrun
      exact ⟨fuel + 1, later, noted, hmore, hmore⟩
    | @cons _ us _ _ _ _ h hrest =>
      -- The first declaration is read whole, since what is behind it is no `else`.
      have hfirst := declaration_yields h fuel (us ++ more) (next_ne_else hrest helse)
      obtain ⟨t, ts, rfl, -⟩ := h.starts
      rw [List.append_assoc] at hrun ⊢
      rw [List.cons_append] at hfirst hrun ⊢
      rw [program_succ] at hrun ⊢
      rcases hfirst with hfirst | hfirst
      · rw [hfirst] at hrun
        exact absurd rfl hrun
      · have hbehind : program fuel (us ++ more) ≠ .exhausted := by
          intro hexhausted
          rw [hfirst, andThen_ok, bind_run, hexhausted] at hrun
          exact hrun rfl
        obtain ⟨fuel', later, noted, hmore, hjoined⟩ := ih hrest hbehind
        refine ⟨fuel', later, noted, hmore, ?_⟩
        rw [hfirst, andThen_ok, bind_run, hjoined, andThen_ok, pure_run]
        simp [Outcome.after]

end Parse

open Parse

/-- A correct program changes nothing behind it, if no `else` is there: the statements of a correct source
follow its own, and the faults of another one are the faults of both. -/
theorem parse_append_behind {tokens more : List Token} {statements : List Stmt}
    (h : parse tokens = .ok statements) (helse : ∀ t ∈ more.head?, t.kind ≠ .kwElse) :
    parse (tokens ++ more) = (parse more).map (statements ++ ·) := by
  obtain ⟨fuel, later, noted, hmore, hjoined⟩ :=
    program_behind helse (program_of_parse h) (program_ne_exhausted (tokens ++ more))
  rw [parse_of_run hmore, parse_of_run hjoined, List.nil_append]
  split <;> rfl

/-- Two faults behind a correct statement. -/
theorem parse_append_behind_faults :
    let tokens : List Token := [.sample .kwPrint, .sample .number, .sample .semicolon]
    let more : List Token := [.sample .rightBrace, .sample .kwPrint, .sample .semicolon]
    parse tokens = .ok [.print (.sample .kwPrint) (.literal .nil)] ∧
      (∀ t ∈ more.head?, t.kind ≠ .kwElse) ∧
      parse (tokens ++ more) = .error
        [⟨some (.sample .rightBrace), .expectedExpression⟩,
          ⟨some (.sample .semicolon), .expectedExpression⟩] := by
  intro tokens more
  have hcorrect : parse tokens = .ok [.print (.sample .kwPrint) (.literal .nil)] := rfl
  have helse : ∀ t ∈ more.head?, t.kind ≠ .kwElse := by simp [more, Token.sample]
  exact ⟨hcorrect, helse, parse_append_behind hcorrect helse⟩

/-- An `else` is a fault by itself, but goes on with an open statement in front of it. -/
example :
    let condition : List Token := [.sample .kwIf, .sample .leftParen, .sample .kwNil, .sample .rightParen]
    let value : List Token := [.sample .kwNil, .sample .semicolon]
    let more : List Token := .sample .kwElse :: value
    parse (condition ++ value) = .ok [.ifThen (.literal .nil) (.expr (.literal .nil))] ∧
      parse more = .error [⟨some (.sample .kwElse), .expectedExpression⟩] ∧
      parse (condition ++ value ++ more) =
        .ok [.ifElse (.literal .nil) (.expr (.literal .nil)) (.expr (.literal .nil))] := by
  exact ⟨rfl, rfl, rfl⟩

end Lox
