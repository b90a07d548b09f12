import Lox.Proofs.Parsing.Outcome

/-!
Progress of parsing. Between two tokens that are read the procedures nest less than 32 deep, so that a
depth in proportion to the tokens always suffices: parsing ends on every sequence of tokens, with a
result or a failure, and a declaration that is entered before the end takes at least one token.
-/
namespace Lox.Parse

variable {α β : Type}

/-- A procedure does not run out of depth and takes at least `count` tokens if it does not fail. -/
def Takes (count : Nat) (p : Procedure α) (ts : List Token) : Prop :=
  match p ts with
  | .ok _ _ rest => rest.length + count ≤ ts.length
  | .fail _ _ rest => rest.length ≤ ts.length
  | .exhausted => False

section Rules

variable {count : Nat} {ts : List Token}

theorem Takes.mono {p : Procedure α} {less : Nat} (h : Takes count p ts) (hless : less ≤ count) :
    Takes less p ts := by
  unfold Takes at *
  split at h
  · omega
  · exact h
  · exact h

theorem takes_of_run {p : Procedure α} {next : α → Procedure β} {value : α} {noted : List SyntaxError}
    {mid : List Token} (first : Nat) (hrun : p ts = .ok value noted mid)
    (hmid : mid.length + first ≤ ts.length) (hnext : Takes (count - first) (next value) mid) :
    Takes count (p >>= next) ts := by
  unfold Takes at hnext ⊢
  rw [bind_run, hrun, andThen_ok]
  cases hk : next value mid with
  | ok value' noted' rest =>
    rw [hk] at hnext
    dsimp only [Outcome.after] at hnext ⊢
    omega
  | fail error noted' rest =>
    rw [hk] at hnext
    dsimp only [Outcome.after] at hnext ⊢
    omega
  | exhausted => rwa [hk] at hnext

theorem Takes.bind {p : Procedure α} {next : α → Procedure β} {first : Nat} (h : Takes first p ts)
    (hnext : ∀ value mid, mid.length + first ≤ ts.length → Takes (count - first) (next value) mid) :
    Takes count (p >>= next) ts := by
  unfold Takes at h
  split at h
  · rename_i hp
    exact takes_of_run first hp h (hnext _ _ h)
  · rename_i hp
    unfold Takes
    rwa [bind_run, hp]
  · contradiction

theorem takes_pure (value : α) : Takes 0 (pure value) ts := Nat.le_refl _

theorem takes_fail (fault : SyntaxFault) : Takes count (fail fault : Procedure α) ts := Nat.le_refl _

theorem takes_require {what : Expectation} {next : Token → Procedure β}
    (h : ∀ t mid, mid.length + 1 ≤ ts.length → Takes (count - 1) (next t) mid) :
    Takes count (require what >>= next) ts := by
  rcases require_cases what ts with ⟨t, rest, rfl, -, hrun⟩ | hrun
  · exact takes_of_run 1 hrun (Nat.le_refl _) (h _ _ (Nat.le_refl _))
  · unfold Takes
    rw [bind_run, hrun]
    exact Nat.le_refl _

theorem takes_acceptIf {p : Kind → Bool} {next : Option Token → Procedure β}
    (hsome : ∀ t mid, mid.length + 1 ≤ ts.length → Takes (count - 1) (next (some t)) mid)
    (hnone : Takes count (next none) ts) : Takes count (acceptIf p >>= next) ts := by
  rcases acceptIf_cases p ts with ⟨t, rest, rfl, -, hrun⟩ | ⟨-, hrun⟩
  · exact takes_of_run 1 hrun (Nat.le_refl _) (hsome _ _ (Nat.le_refl _))
  · exact takes_of_run 0 hrun (Nat.le_refl _) hnone

theorem takes_peek? {next : Option Token → Procedure β} (h : Takes count (next ts.head?) ts) :
    Takes count (peek? >>= next) ts :=
  takes_of_run 0 (peek?_run ts) (Nat.le_refl _) h

theorem takes_skip {t : Token} {rest : List Token} {next : Unit → Procedure β}
    (h : Takes (count - 1) (next ()) rest) : Takes count (skip >>= next) (t :: rest) :=
  takes_of_run 1 (skip_run _) (Nat.le_refl _) h

theorem takes_noteAt {t : Token} {fault : SyntaxFault} {next : Unit → Procedure β}
    (h : Takes count (next ()) ts) : Takes count (noteAt t fault >>= next) ts :=
  takes_of_run 0 (noteAt_run t fault ts) (Nat.le_refl _) h

theorem takes_noteExcess {limit : Nat} {fault : SyntaxFault} {next : Unit → Procedure β}
    (h : Takes count (next ()) ts) : Takes count (noteExcess limit fault >>= next) ts :=
  takes_of_run 0 rfl (Nat.le_refl _) h

theorem length_synchronize_le (t : Token) (rest : List Token) :
    (synchronize (t :: rest)).length ≤ rest.length := by
  induction rest generalizing t with
  | nil =>
    rw [synchronize]
    split
    · exact Nat.le_refl _
    · exact Nat.le_refl _
  | cons u rest ih =>
    rw [synchronize]
    split
    · exact Nat.le_refl _
    · split
      · exact Nat.le_refl _
      · exact Nat.le_trans (ih u) (Nat.le_succ _)

theorem Takes.recover {p : Procedure α} (h : Takes 1 p ts) (hts : ts ≠ []) :
    Takes 1 (recover p) ts := by
  have hpos : 0 < ts.length := List.length_pos_iff.2 hts
  unfold Takes at *
  unfold Parse.recover
  cases hp : p ts with
  | ok value noted rest => simpa only [hp] using h
  | fail error noted rest =>
    rw [hp] at h
    cases rest with
    | nil => exact hpos
    | cons t rest =>
      have hsync := length_synchronize_le t rest
      dsimp only [List.length_cons] at h ⊢
      omega
  | exhausted =>
    rw [hp] at h
    exact h.elim

end Rules

/-- How deep the procedures nest before a chain of a level reads its first token. -/
def levelDepth : Level → Nat
  | .or => 14
  | .and => 12
  | .equality => 10
  | .comparison => 8
  | .term => 6
  | .factor => 4

mutual

theorem expression_takes (fuel : Nat) (ts : List Token) (h : 32 * ts.length + 15 ≤ fuel) :
    Takes 1 (expression fuel) ts := by
  cases fuel with
  | zero => omega
  | succ fuel =>
    rw [expression]
    refine (chain_takes fuel .or ts (by simp only [levelDepth]; omega)).bind fun target mid hmid => ?_
    refine takes_acceptIf (fun equals mid' hmid' => ?_) (takes_pure _)
    refine (expression_takes fuel mid' (by omega)).bind fun value rest _ => ?_
    cases target.assigned? value with
    | some e => exact takes_pure _
    | none => exact takes_noteAt (takes_pure _)
termination_by fuel
decreasing_by all_goals omega

theorem chain_takes (fuel : Nat) (level : Level) (ts : List Token)
    (h : 32 * ts.length + levelDepth level ≤ fuel) : Takes 1 (chain fuel level) ts := by
  cases fuel with
  | zero => cases level <;> simp [levelDepth] at h
  | succ fuel =>
    rw [chain]
    refine (operand_takes fuel level ts (by omega)).bind fun left mid hmid => ?_
    exact chainRest_takes fuel level left mid (by omega)
termination_by fuel
decreasing_by all_goals omega

theorem chainRest_takes (fuel : Nat) (level : Level) (left : Expr) (ts : List Token)
    (h : 32 * ts.length + 1 ≤ fuel) : Takes 0 (chainRest fuel level left) ts := by
  cases fuel with
  | zero => omega
  | succ fuel =>
    rw [chainRest]
    refine takes_acceptIf (fun op mid hmid => ?_) (takes_pure _)
    have hdepth : levelDepth level ≤ 14 := by cases level <;> simp [levelDepth]
    refine (operand_takes fuel level mid (by omega)).bind
      fun right mid' hmid' => ?_
    exact chainRest_takes fuel level _ mid' (by omega)
termination_by fuel
decreasing_by all_goals omega

theorem operand_takes (fuel : Nat) (level : Level) (ts : List Token)
    (h : 32 * ts.length + levelDepth level ≤ fuel + 1) : Takes 1 (operand fuel level) ts := by
  cases fuel with
  | zero => cases level <;> simp [levelDepth] at h
  | succ fuel =>
    rw [operand]
    cases level with
    | factor => exact unary_takes fuel ts (by simp only [levelDepth] at h; omega)
    | or => exact chain_takes fuel .and ts (by simp only [levelDepth] at h ⊢; omega)
    | and => exact chain_takes fuel .equality ts (by simp only [levelDepth] at h ⊢; omega)
    | equality => exact chain_takes fuel .comparison ts (by simp only [levelDepth] at h ⊢; omega)
    | comparison => exact chain_takes fuel .term ts (by simp only [levelDepth] at h ⊢; omega)
    | term => exact chain_takes fuel .factor ts (by simp only [levelDepth] at h ⊢; omega)
termination_by fuel
decreasing_by all_goals omega

theorem unary_takes (fuel : Nat) (ts : List Token) (h : 32 * ts.length + 2 ≤ fuel) :
    Takes 1 (unary fuel) ts := by
  cases fuel with
  | zero => omega
  | succ fuel =>
    rw [unary]
    refine takes_acceptIf (fun op mid hmid => ?_) ?_
    · refine (unary_takes fuel mid (by omega)).bind fun e rest _ => ?_
      exact takes_pure _
    · refine (primary_takes fuel ts (by omega)).bind fun callee mid hmid => ?_
      exact callRest_takes fuel callee mid (by omega)
termination_by fuel
decreasing_by all_goals omega

theorem callRest_takes (fuel : Nat) (callee : Expr) (ts : List Token)
    (h : 32 * ts.length + 1 ≤ fuel) : Takes 0 (callRest fuel callee) ts := by
  cases fuel with
  | zero => omega
  | succ fuel =>
    rw [callRest]
    refine takes_acceptIf (fun t mid hmid => ?_) (takes_pure _)
    dsimp only
    split
    · refine takes_require fun property mid' hmid' => ?_
      exact callRest_takes fuel _ mid' (by omega)
    · refine (arguments_takes fuel mid (by omega)).bind fun args mid' hmid' => ?_
      refine takes_require fun paren mid'' hmid'' => ?_
      exact callRest_takes fuel _ mid'' (by omega)
termination_by fuel
decreasing_by all_goals omega

theorem arguments_takes (fuel : Nat) (ts : List Token) (h : 32 * ts.length + 17 ≤ fuel) :
    Takes 0 (arguments fuel) ts := by
  cases fuel with
  | zero => omega
  | succ fuel =>
    rw [arguments]
    refine takes_peek? ?_
    split
    · exact takes_pure _
    · exact (argumentList_takes fuel 0 ts (by omega)).mono (Nat.zero_le 1)
termination_by fuel
decreasing_by all_goals omega

theorem argumentList_takes (fuel count : Nat) (ts : List Token)
    (h : 32 * ts.length + 16 ≤ fuel) : Takes 1 (argumentList fuel count) ts := by
  cases fuel with
  | zero => omega
  | succ fuel =>
    rw [argumentList_succ]
    refine takes_noteExcess ?_
    refine (expression_takes fuel ts (by omega)).bind fun first mid hmid => ?_
    refine takes_acceptIf (fun comma mid' hmid' => ?_) (takes_pure _)
    refine (argumentList_takes fuel (count + 1) mid' (by omega)).bind
      fun args rest _ => ?_
    exact takes_pure _
termination_by fuel
decreasing_by all_goals omega

theorem primary_takes (fuel : Nat) (ts : List Token) (h : 32 * ts.length + 1 ≤ fuel) :
    Takes 1 (primary fuel) ts := by
  cases fuel with
  | zero => omega
  | succ fuel =>
    rw [primary]
    refine takes_peek? ?_
    cases ts with
    | nil => exact takes_fail _
    | cons t rest =>
      dsimp only [List.head?_cons, List.length_cons] at h ⊢
      split
      case h_8 =>
        refine takes_skip (takes_require fun dot mid _ => ?_)
        exact takes_require fun method mid' _ => takes_pure _
      case h_9 =>
        refine takes_skip ((expression_takes fuel rest (by omega)).bind ?_)
        exact fun inner mid _ => takes_require fun finish mid' _ => takes_pure _
      case h_10 => exact takes_fail _
      all_goals exact takes_skip (takes_pure _)
termination_by fuel
decreasing_by all_goals omega

end

theorem optionalExpression_takes (fuel : Nat) (stop : Kind) (ts : List Token)
    (h : 32 * ts.length + 15 ≤ fuel) : Takes 0 (optionalExpression fuel stop) ts := by
  refine takes_peek? ?_
  split
  · exact takes_pure _
  · exact (expression_takes fuel ts h).bind fun e rest _ => takes_pure _

theorem parameterList_takes (fuel count : Nat) (ts : List Token) (h : 32 * ts.length + 1 ≤ fuel) :
    Takes 1 (parameterList fuel count) ts := by
  induction fuel generalizing count ts with
  | zero => omega
  | succ fuel ih =>
    rw [parameterList_succ]
    refine takes_noteExcess (takes_require fun first mid hmid => ?_)
    refine takes_acceptIf (fun comma mid' hmid' => ?_) (takes_pure _)
    exact (ih (count + 1) mid' (by omega)).bind
      fun params rest _ => takes_pure _

theorem parameters_takes (fuel : Nat) (ts : List Token) (h : 32 * ts.length + 1 ≤ fuel) :
    Takes 0 (parameters fuel) ts := by
  refine takes_peek? ?_
  split
  · exact takes_pure _
  · exact (parameterList_takes fuel 0 ts h).mono (Nat.zero_le 1)

theorem varDecl_takes (fuel : Nat) (ts : List Token) (h : 32 * ts.length ≤ fuel) :
    Takes 1 (varDecl fuel) ts := by
  refine takes_require fun name mid hmid => takes_acceptIf (fun equals mid' hmid' => ?_) ?_
  · refine (expression_takes fuel mid' (by omega)).bind fun e mid'' _ => ?_
    exact takes_require fun finish rest _ => takes_pure _
  · exact takes_require fun finish rest _ => takes_pure _

theorem expressionStatement_takes (fuel : Nat) (ts : List Token)
    (h : 32 * ts.length + 15 ≤ fuel) : Takes 1 (expressionStatement fuel) ts :=
  (expression_takes fuel ts h).bind fun _ _ _ => takes_require fun _ _ _ => takes_pure _

theorem forInitializer_takes (fuel : Nat) (ts : List Token) (h : 32 * ts.length + 15 ≤ fuel) :
    Takes 1 (forInitializer fuel) ts := by
  refine takes_acceptIf (fun t mid hmid => ?_) ?_
  · dsimp only
    split
    · exact (varDecl_takes fuel mid (by omega)).bind
        fun s rest _ => takes_pure _
    · exact takes_pure _
  · exact (expressionStatement_takes fuel ts h).bind fun s rest _ => takes_pure _

theorem superclassClause_takes (ts : List Token) : Takes 0 superclassClause ts := by
  refine takes_acceptIf (fun less mid hmid => ?_) (takes_pure _)
  exact takes_require fun parent rest _ => takes_pure _

mutual

theorem declaration_takes (fuel : Nat) (ts : List Token) (h : 32 * ts.length + 17 ≤ fuel)
    (hts : ts ≠ []) : Takes 1 (declaration fuel) ts := by
  cases fuel with
  | zero => omega
  | succ fuel =>
    rw [declaration]
    refine Takes.recover ?_ hts
    refine takes_acceptIf (fun t mid hmid => ?_) (statement_takes fuel ts (by omega))
    dsimp only
    split
    · exact classDecl_takes fuel mid (by omega)
    · exact (function_takes fuel .function mid (by omega)).bind fun f rest _ => takes_pure _
    · exact (varDecl_takes fuel mid (by omega)).mono (Nat.zero_le 1)
termination_by fuel
decreasing_by all_goals omega

theorem classDecl_takes (fuel : Nat) (ts : List Token) (h : 32 * ts.length + 1 ≤ fuel) :
    Takes 0 (classDecl fuel) ts := by
  cases fuel with
  | zero => omega
  | succ fuel =>
    rw [classDecl]
    refine takes_require fun name mid hmid => ?_
    refine (superclassClause_takes mid).bind fun superclass mid' hmid' => ?_
    refine takes_require fun start mid'' hmid'' => ?_
    refine (methods_takes fuel mid'' (by omega)).bind fun members mid''' _ => ?_
    exact takes_require fun finish rest _ => takes_pure _
termination_by fuel
decreasing_by all_goals omega

theorem methods_takes (fuel : Nat) (ts : List Token) (h : 32 * ts.length + 2 ≤ fuel) :
    Takes 0 (methods fuel) ts := by
  cases fuel with
  | zero => omega
  | succ fuel =>
    rw [methods]
    refine takes_peek? ?_
    split
    · exact takes_pure _
    · refine (function_takes fuel .method ts (by omega)).bind fun f mid hmid => ?_
      exact (methods_takes fuel mid (by omega)).bind fun members rest _ => takes_pure _
termination_by fuel
decreasing_by all_goals omega

theorem function_takes (fuel : Nat) (role : Role) (ts : List Token)
    (h : 32 * ts.length + 1 ≤ fuel) : Takes 1 (function fuel role) ts := by
  cases fuel with
  | zero => omega
  | succ fuel =>
    rw [function]
    refine takes_require fun name mid hmid => takes_require fun start mid' hmid' => ?_
    refine (parameters_takes fuel mid' (by omega)).bind fun params mid'' hmid'' => ?_
    refine takes_require fun finish mid₃ hmid₃ => takes_require fun left mid₄ hmid₄ => ?_
    exact (block_takes fuel mid₄ (by omega)).bind fun body rest _ => takes_pure _
termination_by fuel
decreasing_by all_goals omega

theorem block_takes (fuel : Nat) (ts : List Token) (h : 32 * ts.length + 19 ≤ fuel) :
    Takes 0 (block fuel) ts := by
  cases fuel with
  | zero => omega
  | succ fuel =>
    rw [block]
    refine (declarations_takes fuel ts (by omega)).bind fun body mid _ => ?_
    exact takes_require fun finish rest _ => takes_pure _
termination_by fuel
decreasing_by all_goals omega

theorem declarations_takes (fuel : Nat) (ts : List Token) (h : 32 * ts.length + 18 ≤ fuel) :
    Takes 0 (declarations fuel) ts := by
  cases fuel with
  | zero => omega
  | succ fuel =>
    rw [declarations]
    refine takes_peek? ?_
    split
    · exact takes_pure _
    · rename_i hnext
      have hts : ts ≠ [] := by
        rintro rfl
        simp at hnext
      refine (declaration_takes fuel ts (by omega) hts).bind fun s? mid hmid => ?_
      exact (declarations_takes fuel mid (by omega)).bind fun body rest _ => takes_pure _
termination_by fuel
decreasing_by all_goals omega

theorem statement_takes (fuel : Nat) (ts : List Token) (h : 32 * ts.length + 16 ≤ fuel) :
    Takes 1 (statement fuel) ts := by
  cases fuel with
  | zero => omega
  | succ fuel =>
    have hexpr := expressionStatement_takes fuel ts (by omega)
    rw [statement]
    refine takes_peek? ?_
    cases ts with
    | nil => exact hexpr
    | cons keyword rest =>
      dsimp only [List.head?_cons, List.length_cons] at h ⊢
      split
      case h_1 =>
        refine takes_skip (takes_require fun start mid hmid => ?_)
        refine (expression_takes fuel mid (by omega)).bind
          fun c mid' hmid' => ?_
        refine takes_require fun finish mid'' hmid'' => ?_
        refine (statement_takes fuel mid'' (by omega)).bind
          fun yes mid₃ hmid₃ => ?_
        refine takes_acceptIf (fun els mid₄ hmid₄ => ?_) (takes_pure _)
        exact (statement_takes fuel mid₄ (by omega)).bind
          fun no rest' _ => takes_pure _
      case h_2 =>
        refine takes_skip ((expression_takes fuel rest (by omega)).bind ?_)
        exact fun e mid _ => takes_require fun finish mid' _ => takes_pure _
      case h_3 =>
        refine takes_skip ((optionalExpression_takes fuel _ rest (by omega)).bind ?_)
        exact fun e mid _ => takes_require fun finish mid' _ => takes_pure _
      case h_4 =>
        refine takes_skip (takes_require fun start mid hmid => ?_)
        refine (expression_takes fuel mid (by omega)).bind
          fun c mid' hmid' => ?_
        refine takes_require fun finish mid'' hmid'' => ?_
        exact (statement_takes fuel mid'' (by omega)).bind
          fun body rest' _ => takes_pure _
      case h_5 =>
        refine takes_skip (takes_require fun start mid hmid => ?_)
        refine (forInitializer_takes fuel mid (by omega)).bind
          fun init mid₁ hmid₁ => ?_
        refine (optionalExpression_takes fuel _ mid₁ (by omega)).bind fun c mid₂ hmid₂ => ?_
        refine takes_require fun middle mid₃ hmid₃ => ?_
        refine (optionalExpression_takes fuel _ mid₃ (by omega)).bind fun inc mid₄ hmid₄ => ?_
        refine takes_require fun finish mid₅ hmid₅ => ?_
        exact (statement_takes fuel mid₅ (by omega)).bind
          fun body rest' _ => takes_pure _
      case h_6 =>
        exact takes_skip ((block_takes fuel rest (by omega)).bind fun body mid _ => takes_pure _)
      case h_7 => exact hexpr
termination_by fuel
decreasing_by all_goals omega

end

theorem program_takes (fuel : Nat) (ts : List Token) (h : 32 * ts.length + 18 ≤ fuel) :
    Takes 0 (program fuel) ts := by
  induction fuel generalizing ts with
  | zero => omega
  | succ fuel ih =>
    rw [program]
    refine takes_peek? ?_
    split
    · exact takes_pure _
    · rename_i hnext
      have hts : ts ≠ [] := by
        rintro rfl
        simp at hnext
      refine (declaration_takes fuel ts (by omega) hts).bind fun s? mid hmid => ?_
      exact (ih mid (by omega)).bind fun statements rest _ => takes_pure _

end Lox.Parse
