import Lox.Proofs.Parsing.Outcome

/-!
Soundness of parsing: what a procedure reads without a panic belongs to the grammar, with the tree that
the procedure returns and the faults that it notes. `Reads` has a rule for each primitive and one for
sequencing, so that every procedure is followed step by step.
-/
namespace Lox.Parse

open Grammar

variable {α β : Type}

def Clean (noted : List SyntaxError) : Prop := ∀ e ∈ noted, e.fault.panics = false

@[simp] theorem clean_nil : Clean [] := by
  simp [Clean]

@[simp] theorem clean_append (noted later : List SyntaxError) :
    Clean (noted ++ later) ↔ Clean noted ∧ Clean later := by
  simp [Clean, or_imp, forall_and]

@[simp] theorem clean_singleton (e : SyntaxError) : Clean [e] ↔ e.fault.panics = false := by
  simp [Clean]

/-- A procedure, unless it panics, takes tokens from the front that its result, the faults it notes and
the rest fit to. -/
def Reads (p : Procedure α) (ts : List Token)
    (fits : List Token → α → List SyntaxError → List Token → Prop) : Prop :=
  match p ts with
  | .ok value noted rest => Clean noted → ∃ used, ts = used ++ rest ∧ fits used value noted rest
  | .fail error noted _ => ¬ Clean (noted ++ [error])
  | .exhausted => True

section Rules

variable {ts : List Token} {fits : List Token → α → List SyntaxError → List Token → Prop}
  {fits' : List Token → β → List SyntaxError → List Token → Prop}

theorem Reads.mono {p : Procedure α}
    {weaker : List Token → α → List SyntaxError → List Token → Prop} (h : Reads p ts fits)
    (hfits : ∀ used value noted rest, fits used value noted rest → weaker used value noted rest) :
    Reads p ts weaker := by
  unfold Reads at *
  split at h
  · intro hclean
    obtain ⟨used, hts, hused⟩ := h hclean
    exact ⟨used, hts, hfits _ _ _ _ hused⟩
  · exact h
  · trivial

theorem Reads.bind {p : Procedure α} {next : α → Procedure β} (h : Reads p ts fits)
    (hnext : ∀ used value noted mid, ts = used ++ mid → fits used value noted mid →
      Reads (next value) mid fun later value' noted' rest =>
        fits' (used ++ later) value' (noted ++ noted') rest) :
    Reads (p >>= next) ts fits' := by
  unfold Reads at h ⊢
  rw [bind_run]
  cases hp : p ts with
  | ok value noted mid =>
    rw [hp] at h
    rw [andThen_ok]
    by_cases hnoted : Clean noted
    · obtain ⟨used, rfl, hused⟩ := h hnoted
      have hrest := hnext used value noted mid rfl hused
      unfold Reads at hrest
      cases hk : next value mid with
      | ok value' noted' rest =>
        rw [hk] at hrest
        intro hclean
        obtain ⟨later, rfl, hlater⟩ := hrest ((clean_append _ _).1 hclean).2
        exact ⟨used ++ later, by simp, hlater⟩
      | fail error noted' rest =>
        rw [hk] at hrest
        intro hclean
        simp only [clean_append] at hclean hrest
        exact hrest ⟨hclean.1.2, hclean.2⟩
      | exhausted => trivial
    · cases next value mid with
      | ok value' noted' rest => exact fun hclean => absurd ((clean_append _ _).1 hclean).1 hnoted
      | fail error noted' rest =>
        intro hclean
        simp only [clean_append] at hclean
        exact hnoted hclean.1.1
      | exhausted => trivial
  | fail error noted rest => simpa only [hp, Outcome.andThen] using h
  | exhausted => trivial

theorem reads_exhausted : Reads (exhausted : Procedure α) ts fits := trivial

theorem reads_pure {value : α} (h : fits [] value [] ts) : Reads (pure value) ts fits :=
  fun _ => ⟨[], rfl, h⟩

theorem reads_fail {fault : SyntaxFault} (h : fault.panics = true) :
    Reads (fail fault : Procedure α) ts fits := by
  unfold Reads
  rw [fail_run]
  simp [h]

theorem reads_of_run {p : Procedure α} {next : α → Procedure β} {value : α}
    {noted : List SyntaxError} {mid : List Token} (used : List Token)
    (hrun : p ts = .ok value noted mid) (hts : ts = used ++ mid)
    (h : Reads (next value) mid fun later value' noted' rest =>
      fits' (used ++ later) value' (noted ++ noted') rest) :
    Reads (p >>= next) ts fits' := by
  unfold Reads at h ⊢
  rw [bind_run, hrun, andThen_ok]
  cases hk : next value mid with
  | ok value' noted' rest =>
    rw [hk] at h
    intro hclean
    obtain ⟨later, rfl, hlater⟩ := h ((clean_append _ _).1 hclean).2
    exact ⟨used ++ later, by simpa using hts, hlater⟩
  | fail error noted' rest =>
    rw [hk] at h
    intro hclean
    simp only [clean_append] at hclean h
    exact h ⟨hclean.1.2, hclean.2⟩
  | exhausted => trivial

theorem reads_require {what : Expectation} {next : Token → Procedure β}
    (h : ∀ t mid, ts = t :: mid → t.kind = what.kind →
      Reads (next t) mid fun later => fits' (t :: later)) :
    Reads (require what >>= next) ts fits' := by
  rcases require_cases what ts with ⟨t, rest, rfl, hkind, hrun⟩ | hrun
  · exact reads_of_run [t] hrun rfl (h t rest rfl hkind)
  · unfold Reads
    rw [bind_run, hrun]
    simp [Outcome.andThen, SyntaxFault.panics]

theorem reads_acceptIf {p : Kind → Bool} {next : Option Token → Procedure β}
    (hsome : ∀ t mid, ts = t :: mid → p t.kind = true →
      Reads (next (some t)) mid fun later => fits' (t :: later))
    (hnone : Next (p · = false) ts → Reads (next none) ts fits') :
    Reads (acceptIf p >>= next) ts fits' := by
  rcases acceptIf_cases p ts with ⟨t, rest, rfl, hkind, hrun⟩ | ⟨hnext, hrun⟩
  · exact reads_of_run [t] hrun rfl (hsome t rest rfl hkind)
  · exact reads_of_run [] hrun rfl (hnone hnext)

theorem reads_accept {kind : Kind} {next : Option Token → Procedure β}
    (hsome : ∀ t mid, ts = t :: mid → t.kind = kind →
      Reads (next (some t)) mid fun later => fits' (t :: later))
    (hnone : Next (· ≠ kind) ts → Reads (next none) ts fits') :
    Reads (accept kind >>= next) ts fits' :=
  reads_acceptIf (fun t mid hts h => hsome t mid hts (by simpa using h))
    fun h => hnone (h.imp fun _ => by simp)

theorem reads_peek? {next : Option Token → Procedure β} (h : Reads (next ts.head?) ts fits') :
    Reads (peek? >>= next) ts fits' :=
  reads_of_run [] (peek?_run ts) rfl h

theorem reads_skip {t : Token} {rest : List Token} {next : Unit → Procedure β}
    (h : Reads (next ()) rest fun later => fits' (t :: later)) :
    Reads (skip >>= next) (t :: rest) fits' :=
  reads_of_run [t] (skip_run _) rfl h

theorem reads_noteAt {t : Token} {fault : SyntaxFault} {next : Unit → Procedure β}
    (h : Reads (next ()) ts fun later value noted => fits' later value (⟨some t, fault⟩ :: noted)) :
    Reads (noteAt t fault >>= next) ts fits' :=
  reads_of_run [] (noteAt_run t fault ts) rfl h

theorem reads_noteExcess {count : Nat} {fault : SyntaxFault} {next : Unit → Procedure β}
    (h : Reads (next ()) ts fun later value noted =>
      fits' later value (excess count ts.head? fault ++ noted)) :
    Reads (noteExcess count fault >>= next) ts fits' :=
  reads_of_run [] rfl rfl h

end Rules

mutual

theorem expression_reads (fuel : Nat) (ts : List Token) :
    Reads (expression fuel) ts fun used e noted _ => Expression used e noted := by
  cases fuel with
  | zero => exact reads_exhausted
  | succ fuel =>
    rw [expression]
    refine (chain_reads fuel .or ts).bind fun us target n mid _ htarget => ?_
    refine reads_accept (fun equals mid' _ hequals => ?_) fun _ => ?_
    · refine (expression_reads fuel mid').bind fun vs value m rest _ hvalue => ?_
      cases he : target.assigned? value with
      | some e => exact reads_pure (by simpa using .assignment htarget hequals hvalue he)
      | none =>
        exact reads_noteAt (reads_pure (by simpa using .noTarget htarget hequals hvalue he))
    · exact reads_pure (by simpa using .value htarget)
termination_by fuel
decreasing_by all_goals omega

theorem chain_reads (fuel : Nat) (level : Level) (ts : List Token) :
    Reads (chain fuel level) ts fun used e noted _ => Chain level used e noted := by
  cases fuel with
  | zero => exact reads_exhausted
  | succ fuel =>
    rw [chain]
    exact (operand_reads fuel level ts).bind fun us left n mid _ hleft =>
      chainRest_reads fuel level mid (.first hleft)
termination_by fuel
decreasing_by all_goals omega

/-- The chain that has been read is the left operand of what follows. -/
theorem chainRest_reads (fuel : Nat) (level : Level) (ts : List Token) {us : List Token}
    {left : Expr} {n : List SyntaxError} (hleft : Chain level us left n) :
    Reads (chainRest fuel level left) ts fun used e noted _ =>
      Chain level (us ++ used) e (n ++ noted) := by
  cases fuel with
  | zero => exact reads_exhausted
  | succ fuel =>
    rw [chainRest]
    refine reads_acceptIf (fun op mid _ hop => ?_) fun _ => ?_
    · refine (operand_reads fuel level mid).bind fun vs right m mid' _ hright => ?_
      have hjoin := hleft.join (by simpa using hop) hright
      exact (chainRest_reads fuel level mid' hjoin).mono fun used e noted rest h => by
        simpa using h
    · exact reads_pure (by simpa using hleft)
termination_by fuel
decreasing_by all_goals omega

theorem operand_reads (fuel : Nat) (level : Level) (ts : List Token) :
    Reads (operand fuel level) ts fun used e noted _ => Operand level used e noted := by
  cases fuel with
  | zero => exact reads_exhausted
  | succ fuel =>
    rw [operand]
    cases hnext : level.next? with
    | some next => exact (chain_reads fuel next ts).mono fun _ _ _ _ => .chain hnext
    | none => exact (unary_reads fuel ts).mono fun _ _ _ _ => .unary hnext
termination_by fuel
decreasing_by all_goals omega

theorem unary_reads (fuel : Nat) (ts : List Token) :
    Reads (unary fuel) ts fun used e noted _ => Unary used e noted := by
  cases fuel with
  | zero => exact reads_exhausted
  | succ fuel =>
    rw [unary]
    refine reads_acceptIf (fun op mid _ hop => ?_) fun _ => ?_
    · refine (unary_reads fuel mid).bind fun us e n rest _ he => ?_
      exact reads_pure (by simpa using .operator (by simpa using hop) he)
    · refine (primary_reads fuel ts).bind fun us callee n rest _ hcallee => ?_
      exact (callRest_reads fuel rest (.primary hcallee)).mono fun _ _ _ _ => .call
termination_by fuel
decreasing_by all_goals omega

theorem callRest_reads (fuel : Nat) (ts : List Token) {us : List Token} {callee : Expr}
    {n : List SyntaxError} (hcallee : Call us callee n) :
    Reads (callRest fuel callee) ts fun used e noted _ => Call (us ++ used) e (n ++ noted) := by
  cases fuel with
  | zero => exact reads_exhausted
  | succ fuel =>
    rw [callRest]
    refine reads_acceptIf (fun t mid _ ht => ?_) fun _ => ?_
    · dsimp only
      split
      · rename_i hdot
        refine reads_require fun property mid' _ hproperty => ?_
        exact (callRest_reads fuel mid' (hcallee.get hdot hproperty)).mono
          fun used e noted _ h => by simpa using h
      · rename_i hdot
        have hstart : t.kind = .leftParen := by simpa [hdot] using ht
        refine (arguments_reads fuel mid).bind fun vs args m mid' _ hargs => ?_
        refine reads_require fun paren mid'' _ hparen => ?_
        exact (callRest_reads fuel mid'' (hcallee.call hstart hargs hparen)).mono
          fun used e noted _ h => by simpa using h
    · exact reads_pure (by simpa using hcallee)
termination_by fuel
decreasing_by all_goals omega

theorem arguments_reads (fuel : Nat) (ts : List Token) :
    Reads (arguments fuel) ts fun used args noted _ => Arguments used args noted := by
  cases fuel with
  | zero => exact reads_exhausted
  | succ fuel =>
    rw [arguments]
    refine reads_peek? ?_
    split
    · exact reads_pure .none
    · exact (argumentList_reads fuel 0 ts).mono fun _ _ _ _ => .some
termination_by fuel
decreasing_by all_goals omega

theorem argumentList_reads (fuel count : Nat) (ts : List Token) :
    Reads (argumentList fuel count) ts fun used args noted _ =>
      ArgumentList count used args noted := by
  cases fuel with
  | zero => exact reads_exhausted
  | succ fuel =>
    rw [argumentList_succ]
    refine reads_noteExcess ?_
    refine (expression_reads fuel ts).bind fun us first n mid hts hfirst => ?_
    rw [hts, hfirst.starts.head?_append]
    refine reads_accept (fun comma mid' _ hcomma => ?_) fun _ => ?_
    · refine (argumentList_reads fuel (count + 1) mid').bind fun vs args m rest _ hargs => ?_
      exact reads_pure (by simpa using .more hfirst hcomma hargs)
    · exact reads_pure (by simpa using .last hfirst)
termination_by fuel
decreasing_by all_goals omega

theorem primary_reads (fuel : Nat) (ts : List Token) :
    Reads (primary fuel) ts fun used e noted _ => Primary used e noted := by
  cases fuel with
  | zero => exact reads_exhausted
  | succ fuel =>
    rw [primary]
    refine reads_peek? ?_
    cases ts with
    | nil => exact reads_fail rfl
    | cons t rest =>
      dsimp only [List.head?_cons]
      split
      case h_1 h | h_2 h | h_3 h | h_4 h | h_5 h =>
        exact reads_skip (reads_pure (.literal (by simp [h, literalKinds])))
      case h_6 h => exact reads_skip (reads_pure (.var h))
      case h_7 h => exact reads_skip (reads_pure (.this h))
      case h_8 h =>
        refine reads_skip (reads_require fun dot mid _ hdot => ?_)
        exact reads_require fun method mid' _ hmethod => reads_pure (.super h hdot hmethod)
      case h_9 h =>
        refine reads_skip ?_
        refine (expression_reads fuel rest).bind fun us inner n mid _ hinner => ?_
        exact reads_require fun finish mid' _ hfinish =>
          reads_pure (by simpa using .group h hinner hfinish)
      case h_10 => exact reads_fail rfl
termination_by fuel
decreasing_by all_goals omega

end

theorem optionalExpression_reads (fuel : Nat) (stop : Kind) (ts : List Token) :
    Reads (optionalExpression fuel stop) ts fun used e noted _ =>
      OptionalExpression used e noted := by
  refine reads_peek? ?_
  split
  · exact reads_pure .none
  · exact (expression_reads fuel ts).bind fun us e n rest _ he => reads_pure (by simpa using .some he)

theorem parameterList_reads (fuel count : Nat) (ts : List Token) :
    Reads (parameterList fuel count) ts fun used params noted _ =>
      ParameterList count used params noted := by
  induction fuel generalizing count ts with
  | zero => exact reads_exhausted
  | succ fuel ih =>
    rw [parameterList_succ]
    refine reads_noteExcess ?_
    refine reads_require fun first mid hts hfirst => ?_
    rw [hts, List.head?_cons]
    refine reads_accept (fun comma mid' _ hcomma => ?_) fun _ => ?_
    · exact (ih (count + 1) mid').bind fun us params n rest _ hparams =>
        reads_pure (by simpa using .more hfirst hcomma hparams)
    · exact reads_pure (by simpa using .last hfirst)

theorem parameters_reads (fuel : Nat) (ts : List Token) :
    Reads (parameters fuel) ts fun used params noted _ => Parameters used params noted := by
  refine reads_peek? ?_
  split
  · exact reads_pure .none
  · exact (parameterList_reads fuel 0 ts).mono fun _ _ _ _ => .some

theorem varDecl_reads (fuel : Nat) (ts : List Token) :
    Reads (varDecl fuel) ts fun used s noted _ => VarDecl used s noted := by
  refine reads_require fun name mid _ hname => ?_
  refine reads_accept (fun equals mid' _ hequals => ?_) fun _ => ?_
  · refine (expression_reads fuel mid').bind fun us e n mid'' _ he => ?_
    exact reads_require fun finish rest _ hfinish =>
      reads_pure (by simpa using .initialized hname hequals he hfinish)
  · exact reads_require fun finish rest _ hfinish => reads_pure (.bare hname hfinish)

theorem expressionStatement_reads (fuel : Nat) (ts : List Token) :
    Reads (expressionStatement fuel) ts fun used s noted _ => ExpressionStatement used s noted := by
  refine (expression_reads fuel ts).bind fun us e n mid _ he => ?_
  exact reads_require fun finish rest _ hfinish => reads_pure (by simpa using .mk he hfinish)

theorem forInitializer_reads (fuel : Nat) (ts : List Token) :
    Reads (forInitializer fuel) ts fun used s noted _ => ForInitializer used s noted := by
  refine reads_acceptIf (fun t mid _ ht => ?_) fun _ => ?_
  · dsimp only
    split
    · rename_i hvar
      exact (varDecl_reads fuel mid).bind fun us s n rest _ hs =>
        reads_pure (by simpa using .var hvar hs)
    · rename_i hvar
      exact reads_pure (.none (by simpa [hvar] using ht))
  · exact (expressionStatement_reads fuel ts).bind fun us s n rest _ hs =>
      reads_pure (by simpa using .expr hs)

theorem superclassClause_reads (ts : List Token) :
    Reads superclassClause ts fun used parent noted _ => Superclass used parent ∧ noted = [] := by
  refine reads_accept (fun less mid _ hless => ?_) fun _ => ?_
  · exact reads_require fun parent rest _ hparent => reads_pure ⟨.some hless hparent, rfl⟩
  · exact reads_pure ⟨.none, rfl⟩

theorem Reads.recover {p : Procedure α} {ts : List Token}
    (fits : List Token → α → List SyntaxError → List Token → Prop) (h : Reads p ts fits) :
    Reads (recover p) ts fun used value? noted rest =>
      ∃ value, value? = some value ∧ fits used value noted rest := by
  unfold Reads at h ⊢
  unfold Parse.recover
  cases hp : p ts with
  | ok value noted rest =>
    rw [hp] at h
    intro hclean
    obtain ⟨used, hts, hused⟩ := h hclean
    exact ⟨used, hts, value, rfl, hused⟩
  | fail error noted rest =>
    rw [hp] at h
    exact fun hclean => absurd hclean h
  | exhausted => trivial

mutual

theorem declaration_reads (fuel : Nat) (ts : List Token) :
    Reads (declaration fuel) ts fun used s? noted _ =>
      ∃ s, s? = some s ∧ Declaration used s noted := by
  cases fuel with
  | zero => exact reads_exhausted
  | succ fuel =>
    rw [declaration]
    apply Reads.recover (fun used s noted _ => Declaration used s noted)
    refine reads_acceptIf (fun t mid _ ht => ?_) fun _ => ?_
    · dsimp only
      split
      case h_1 h => exact (classDecl_reads fuel mid).mono fun _ _ _ _ hs => hs t h
      case h_2 h =>
        exact (function_reads fuel .function mid).bind fun us f n rest _ hf =>
          reads_pure (by simpa using .function h hf)
      case h_3 hcls hfun =>
        have hvar : t.kind = .kwVar := by
          rcases (by simpa using ht : t.kind = .kwClass ∨ t.kind = .kwFun ∨ t.kind = .kwVar) with
            h | h | h
          · exact absurd h hcls
          · exact absurd h hfun
          · exact h
        exact (varDecl_reads fuel mid).mono fun _ _ _ _ => .var hvar
    · exact (statement_reads fuel ts).mono fun _ _ _ _ ⟨_, hs, _⟩ => .statement hs
termination_by fuel
decreasing_by all_goals omega

theorem classDecl_reads (fuel : Nat) (ts : List Token) :
    Reads (classDecl fuel) ts fun used s noted _ =>
      ∀ keyword : Token, keyword.kind = .kwClass → Declaration (keyword :: used) s noted := by
  cases fuel with
  | zero => exact reads_exhausted
  | succ fuel =>
    rw [classDecl]
    refine reads_require fun name mid _ hname => ?_
    refine (superclassClause_reads mid).bind fun parents superclass _ mid' _ hparents => ?_
    obtain ⟨hparents, rfl⟩ := hparents
    refine reads_require fun start mid'' _ hstart => ?_
    refine (methods_reads fuel mid'').bind fun us members n mid''' _ hmembers => ?_
    exact reads_require fun finish rest _ hfinish => reads_pure fun keyword hkeyword => by
      simpa using .cls hkeyword hname hparents hstart hmembers hfinish
termination_by fuel
decreasing_by all_goals omega

theorem methods_reads (fuel : Nat) (ts : List Token) :
    Reads (methods fuel) ts fun used members noted _ => Methods used members noted := by
  cases fuel with
  | zero => exact reads_exhausted
  | succ fuel =>
    rw [methods]
    refine reads_peek? ?_
    split
    · exact reads_pure .nil
    · refine (function_reads fuel .method ts).bind fun us f n mid _ hf => ?_
      exact (methods_reads fuel mid).bind fun vs members m rest _ hmembers =>
        reads_pure (by simpa using .cons hf hmembers)
termination_by fuel
decreasing_by all_goals omega

theorem function_reads (fuel : Nat) (role : Role) (ts : List Token) :
    Reads (function fuel role) ts fun used f noted _ => Function used f noted := by
  cases fuel with
  | zero => exact reads_exhausted
  | succ fuel =>
    rw [function]
    refine reads_require fun name mid _ hname => reads_require fun start mid' _ hstart => ?_
    refine (parameters_reads fuel mid').bind fun us params n mid'' _ hparams => ?_
    refine reads_require fun finish mid''' _ hfinish => reads_require fun left mid'''' _ hleft => ?_
    refine (block_reads fuel mid'''').bind fun vs body m rest _ hbody => ?_
    exact reads_pure (by simpa using .mk hname hstart hparams hfinish (hbody left hleft))
termination_by fuel
decreasing_by all_goals omega

theorem block_reads (fuel : Nat) (ts : List Token) :
    Reads (block fuel) ts fun used body noted _ =>
      ∀ start : Token, start.kind = .leftBrace → Block (start :: used) body noted := by
  cases fuel with
  | zero => exact reads_exhausted
  | succ fuel =>
    rw [block]
    refine (declarations_reads fuel ts).bind fun us body n mid _ hbody => ?_
    exact reads_require fun finish rest _ hfinish => reads_pure fun start hstart => by
      simpa using .mk hstart hbody hfinish
termination_by fuel
decreasing_by all_goals omega

theorem declarations_reads (fuel : Nat) (ts : List Token) :
    Reads (declarations fuel) ts fun used body noted _ => Declarations used body noted := by
  cases fuel with
  | zero => exact reads_exhausted
  | succ fuel =>
    rw [declarations]
    refine reads_peek? ?_
    split
    · exact reads_pure .nil
    · refine (declaration_reads fuel ts).bind fun us s? n mid _ hs => ?_
      obtain ⟨s, rfl, hs⟩ := hs
      exact (declarations_reads fuel mid).bind fun vs body m rest _ hbody =>
        reads_pure (by simpa using .cons hs hbody)
termination_by fuel
decreasing_by all_goals omega

/-- Behind an open statement there is no `else`: it would have been taken. -/
theorem statement_reads (fuel : Nat) (ts : List Token) :
    Reads (statement fuel) ts fun used s noted rest =>
      ∃ isOpen, Statement isOpen used s noted ∧ (isOpen = true → Next (· ≠ .kwElse) rest) := by
  cases fuel with
  | zero => exact reads_exhausted
  | succ fuel =>
    have hexpr := (expressionStatement_reads fuel ts).mono fun used s noted rest hs =>
      show ∃ isOpen, Statement isOpen used s noted ∧ (isOpen = true → Next (· ≠ .kwElse) rest) from
        ⟨false, .expr hs, by simp⟩
    rw [statement]
    refine reads_peek? ?_
    cases ts with
    | nil => exact hexpr
    | cons keyword rest =>
      dsimp only [List.head?_cons]
      split
      case h_1 h =>
        refine reads_skip (reads_require fun start mid _ hstart => ?_)
        refine (expression_reads fuel mid).bind fun us c n mid' _ hc => ?_
        refine reads_require fun finish mid'' _ hfinish => ?_
        refine (statement_reads fuel mid'').bind fun vs yes m mid''' _ hyes => ?_
        obtain ⟨isOpen, hyes, hend⟩ := hyes
        refine reads_accept (fun els mid₄ hmid hels => ?_) fun hnext => ?_
        · have hclosed : isOpen = false := by
            cases isOpen with
            | false => rfl
            | true =>
              have hnext := hend rfl
              rw [hmid, next_cons] at hnext
              exact absurd hels hnext
          subst hclosed
          refine (statement_reads fuel mid₄).bind fun ws no k rest' _ hno => ?_
          obtain ⟨isOpen', hno, hend'⟩ := hno
          exact reads_pure
            ⟨isOpen', by simpa using .ifElse h hstart hc hfinish hyes hels hno, hend'⟩
        · exact reads_pure ⟨true, by simpa using .ifThen h hstart hc hfinish hyes, fun _ => hnext⟩
      case h_2 h =>
        refine reads_skip ((expression_reads fuel rest).bind fun us e n mid _ he => ?_)
        exact reads_require fun finish mid' _ hfinish =>
          reads_pure ⟨false, by simpa using .print h he hfinish, by simp⟩
      case h_3 h =>
        refine reads_skip ((optionalExpression_reads fuel _ rest).bind fun us e n mid _ he => ?_)
        exact reads_require fun finish mid' _ hfinish =>
          reads_pure ⟨false, by simpa using .ret h he hfinish, by simp⟩
      case h_4 h =>
        refine reads_skip (reads_require fun start mid _ hstart => ?_)
        refine (expression_reads fuel mid).bind fun us c n mid' _ hc => ?_
        refine reads_require fun finish mid'' _ hfinish => ?_
        refine (statement_reads fuel mid'').bind fun vs body m rest' _ hbody => ?_
        obtain ⟨isOpen, hbody, hend⟩ := hbody
        exact reads_pure ⟨isOpen, by simpa using .whileLoop h hstart hc hfinish hbody, hend⟩
      case h_5 h =>
        refine reads_skip (reads_require fun start mid _ hstart => ?_)
        refine (forInitializer_reads fuel mid).bind fun us init n mid₁ _ hinit => ?_
        refine (optionalExpression_reads fuel _ mid₁).bind fun vs c m mid₂ _ hc => ?_
        refine reads_require fun middle mid₃ _ hmiddle => ?_
        refine (optionalExpression_reads fuel _ mid₃).bind fun ws inc k mid₄ _ hinc => ?_
        refine reads_require fun finish mid₅ _ hfinish => ?_
        refine (statement_reads fuel mid₅).bind fun xs body l rest' _ hbody => ?_
        obtain ⟨isOpen, hbody, hend⟩ := hbody
        exact reads_pure
          ⟨isOpen, by simpa using .forLoop h hstart hinit hc hmiddle hinc hfinish hbody, hend⟩
      case h_6 h =>
        refine reads_skip ((block_reads fuel rest).bind fun us body n rest' _ hbody => ?_)
        exact reads_pure ⟨false, by simpa using .block (hbody keyword h), by simp⟩
      case h_7 => exact hexpr
termination_by fuel
decreasing_by all_goals omega

end

theorem program_reads (fuel : Nat) (ts : List Token) :
    Reads (program fuel) ts fun used statements noted rest =>
      Program used statements noted ∧ rest = [] := by
  induction fuel generalizing ts with
  | zero => exact reads_exhausted
  | succ fuel ih =>
    rw [program]
    refine reads_peek? ?_
    split
    · rename_i hend
      exact reads_pure ⟨.nil, by simpa using hend⟩
    · refine (declaration_reads fuel ts).bind fun us s? n mid _ hs => ?_
      obtain ⟨s, rfl, hs⟩ := hs
      refine (ih mid).bind fun vs statements m rest _ hrest => ?_
      exact reads_pure ⟨by simpa using .cons hs hrest.1, hrest.2⟩

end Lox.Parse
