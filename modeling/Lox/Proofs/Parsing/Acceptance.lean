import Lox.Proofs.Parsing.Completeness
import Lox.Proofs.Parsing.Progress
import Lox.Proofs.Parsing.Soundness

/-!
The parser accepts exactly the programs of the grammar. A sequence of tokens is refused by a panic or is
a program, and of a program the parser returns the tree, or the faults that leave it grammatical.
-/
namespace Lox

namespace Grammar

open Parse

theorem clean_excess {fault : SyntaxFault} (count : Nat) (token? : Option Token)
    (h : fault.panics = false) : Clean (excess count token? fault) := by
  unfold excess
  split
  · exact (clean_singleton _).2 h
  · exact clean_nil

mutual

theorem Expression.clean {ts e n} : Expression ts e n → Clean n
  | .value h => h.clean
  | .assignment htarget _ hvalue _ => by simp [htarget.clean, hvalue.clean]
  | .noTarget htarget _ hvalue _ => by simp [htarget.clean, hvalue.clean, SyntaxFault.panics]

theorem Chain.clean {level ts e n} : Chain level ts e n → Clean n
  | .first h => h.clean
  | .join hleft _ hright => by simp [hleft.clean, hright.clean]

theorem Operand.clean {level ts e n} : Operand level ts e n → Clean n
  | .chain _ h => h.clean
  | .unary _ h => h.clean

theorem Unary.clean {ts e n} : Unary ts e n → Clean n
  | .operator _ h => h.clean
  | .call h => h.clean

theorem Call.clean {ts e n} : Call ts e n → Clean n
  | .primary h => h.clean
  | .call hcallee _ hargs _ => by simp [hcallee.clean, hargs.clean]
  | .get hobject _ _ => hobject.clean

theorem Arguments.clean {ts args n} : Arguments ts args n → Clean n
  | .none => clean_nil
  | .some h => h.clean

theorem ArgumentList.clean {count ts args n} : ArgumentList count ts args n → Clean n
  | .last h => (clean_append _ _).2 ⟨clean_excess _ _ rfl, h.clean⟩
  | .more h _ hrest =>
    (clean_append _ _).2 ⟨clean_excess _ _ rfl, (clean_append _ _).2 ⟨h.clean, hrest.clean⟩⟩

theorem Primary.clean {ts e n} : Primary ts e n → Clean n
  | .literal _ | .var _ | .this _ | .super _ _ _ => clean_nil
  | .group _ h _ => h.clean

end

theorem OptionalExpression.clean {ts e n} : OptionalExpression ts e n → Clean n
  | .none => clean_nil
  | .some h => h.clean

theorem ParameterList.clean {count ts params n} : ParameterList count ts params n → Clean n
  | .last _ => clean_excess _ _ rfl
  | .more _ _ hrest => (clean_append _ _).2 ⟨clean_excess _ _ rfl, hrest.clean⟩

theorem Parameters.clean {ts params n} : Parameters ts params n → Clean n
  | .none => clean_nil
  | .some h => h.clean

theorem VarDecl.clean {ts s n} : VarDecl ts s n → Clean n
  | .bare _ _ => clean_nil
  | .initialized _ _ h _ => h.clean

theorem ExpressionStatement.clean {ts s n} : ExpressionStatement ts s n → Clean n
  | .mk h _ => h.clean

theorem ForInitializer.clean {ts s n} : ForInitializer ts s n → Clean n
  | .none _ => clean_nil
  | .var _ h => h.clean
  | .expr h => h.clean

mutual

theorem Declarations.clean {ts body n} : Declarations ts body n → Clean n
  | .nil => clean_nil
  | .cons h hrest => by simp [h.clean, hrest.clean]

theorem Declaration.clean {ts s n} : Declaration ts s n → Clean n
  | .cls _ _ _ _ h _ => h.clean
  | .function _ h => h.clean
  | .var _ h => h.clean
  | .statement h => h.clean

theorem Methods.clean {ts members n} : Methods ts members n → Clean n
  | .nil => clean_nil
  | .cons h hrest => by simp [h.clean, hrest.clean]

theorem Function.clean {ts f n} : Function ts f n → Clean n
  | .mk _ _ hparams _ hbody => by simp [hparams.clean, hbody.clean]

theorem Block.clean {ts body n} : Block ts body n → Clean n
  | .mk _ h _ => h.clean

theorem Statement.clean {isOpen ts s n} : Statement isOpen ts s n → Clean n
  | .ifThen _ _ hc _ hyes => by simp [hc.clean, hyes.clean]
  | .ifElse _ _ hc _ hyes _ hno => by simp [hc.clean, hyes.clean, hno.clean]
  | .print _ h _ => h.clean
  | .ret _ h _ => h.clean
  | .whileLoop _ _ hc _ hbody => by simp [hc.clean, hbody.clean]
  | .forLoop _ _ hinit hc _ hinc _ hbody => by
    simp [hinit.clean, hc.clean, hinc.clean, hbody.clean]
  | .block h => h.clean
  | .expr h => h.clean

end

end Grammar

open Parse

variable {tokens : List Token} {statements : List Stmt} {noted : List SyntaxError}

theorem program_ne_exhausted (tokens : List Token) :
    program (depthFor tokens) tokens ≠ .exhausted := by
  intro h
  have htakes : Takes 0 (program (depthFor tokens)) tokens := by
    apply program_takes
    unfold depthFor
    omega
  unfold Takes at htakes
  rwa [h] at htakes

theorem faults_ne_nil {faults : List SyntaxError} (h : parse tokens = .error faults) : faults ≠ [] := by
  unfold parse at h
  cases hrun : program (depthFor tokens) tokens with
  | ok statements noted rest =>
    rw [hrun] at h
    cases noted with
    | nil => contradiction
    | cons e noted =>
      cases h
      exact List.cons_ne_nil e noted
  | fail error noted rest =>
    rw [hrun] at h
    cases h
    exact List.append_ne_nil_of_right_ne_nil noted (List.cons_ne_nil error [])
  | exhausted => exact absurd hrun (program_ne_exhausted tokens)

theorem program_run (h : Grammar.Program tokens statements noted) :
    program (depthFor tokens) tokens = .ok statements noted [] := by
  have hyields := program_yields h (depthFor tokens)
  unfold Yields at hyields
  rcases hyields with hrun | hrun
  · exact absurd hrun (program_ne_exhausted tokens)
  · exact hrun

theorem parse_of_program (h : Grammar.Program tokens statements noted) :
    parse tokens = if noted = [] then .ok statements else .error noted := by
  unfold parse
  rw [program_run h]
  cases noted with
  | nil => rfl
  | cons e noted => rfl

theorem exists_program_of_clean
    (h : ∀ errors, parse tokens = .error errors → Clean errors) :
    ∃ statements noted, Grammar.Program tokens statements noted := by
  have hreads := program_reads (depthFor tokens) tokens
  unfold Reads at hreads
  unfold parse at h
  cases hrun : program (depthFor tokens) tokens with
  | ok statements noted rest =>
    rw [hrun] at hreads h
    have hclean : Clean noted := by
      cases noted with
      | nil => exact clean_nil
      | cons e noted => exact h _ rfl
    obtain ⟨used, hused, hprogram, rfl⟩ := hreads hclean
    rw [List.append_nil] at hused
    subst hused
    exact ⟨statements, noted, hprogram⟩
  | fail error noted rest =>
    rw [hrun] at hreads h
    exact absurd (h _ rfl) hreads
  | exhausted => exact absurd hrun (program_ne_exhausted tokens)

theorem program_of_parse (h : parse tokens = .ok statements) : Grammar.Program tokens statements [] := by
  have hclean : ∀ errors, parse tokens = .error errors → Clean errors := by simp [h]
  obtain ⟨statements', noted, hprogram⟩ := exists_program_of_clean hclean
  have hparse := parse_of_program hprogram
  rw [h] at hparse
  split at hparse
  · rename_i hnoted
    cases hparse
    subst hnoted
    exact hprogram
  · contradiction

theorem Grammar.Declarations.append {ts us P Q n m} : Declarations ts P n → Declarations us Q m →
    Declarations (ts ++ us) (P ++ Q) (n ++ m)
  | .nil, hQ => hQ
  | .cons h hrest, hQ => by
    simpa using Declarations.cons h (hrest.append hQ)

theorem parse_append {more : List Token} {later : List Stmt} (h : parse tokens = .ok statements)
    (hmore : parse more = .ok later) : parse (tokens ++ more) = .ok (statements ++ later) := by
  have hprogram := (program_of_parse h).append (program_of_parse hmore)
  rw [parse_of_program hprogram]
  rfl

/-- Tokens are read without a panic exactly if they are a program. Then the tree and the faults are
those of the grammar, which gives them one of each; the parser returns the tree if there is no fault. -/
theorem parse_reads_exactly_programs (tokens : List Token) :
    ((∀ errors, parse tokens = .error errors → ∀ e ∈ errors, e.fault.panics = false) ↔
      ∃ statements noted, Grammar.Program tokens statements noted) ∧
    ∀ statements noted, Grammar.Program tokens statements noted →
      program (depthFor tokens) tokens = .ok statements noted [] ∧
      parse tokens = if noted = [] then .ok statements else .error noted := by
  constructor
  · constructor
    · exact exists_program_of_clean
    · rintro ⟨statements, noted, h⟩ errors herrors
      rw [parse_of_program h] at herrors
      split at herrors
      · contradiction
      · cases herrors
        exact h.clean
  · intro statements noted h
    exact ⟨program_run h, parse_of_program h⟩

end Lox
