import Lox.Proofs.Parsing.Acceptance

/-!
Where parsing panics first. What a procedure does before it panics depends on no token behind the one at
which it panics, and the tokens before that one are the start of a sequence of the grammar. So the first
panic of a program is met at the first token that no program continues.
-/
namespace Lox

def Token.sample (kind : Kind) : Token := ⟨kind, "", 0, 0, .nil⟩

theorem Token.kind_sample (kind : Kind) : (sample kind).kind = kind := rfl

namespace Parse

open Grammar

variable {α β : Type}

def firstPanic? (errors : List SyntaxError) : Option SyntaxError := errors.find? (·.fault.panics)

theorem firstPanic?_eq_none {errors : List SyntaxError} : firstPanic? errors = none ↔ Clean errors := by
  simp [firstPanic?, Clean]

theorem firstPanic?_append_of_clean {noted : List SyntaxError} (h : Clean noted)
    (later : List SyntaxError) : firstPanic? (noted ++ later) = firstPanic? later := by
  have hnone : noted.find? (·.fault.panics) = none := firstPanic?_eq_none.2 h
  rw [firstPanic?, List.find?_append, hnone, Option.none_or]
  rfl

theorem firstPanic?_append_of_some {noted : List SyntaxError} {e : SyntaxError}
    (h : firstPanic? noted = some e) (later : List SyntaxError) :
    firstPanic? (noted ++ later) = some e := by
  rw [firstPanic?, List.find?_append, ← firstPanic?, h, Option.some_or]

namespace Outcome

def errors : Outcome α → List SyntaxError
  | .ok _ noted _ => noted
  | .fail error noted _ => noted ++ [error]
  | .exhausted => []

def panic? (o : Outcome α) : Option SyntaxError := firstPanic? o.errors

theorem after_panic? {noted : List SyntaxError} (h : Clean noted) (o : Outcome α) :
    (o.after noted).panic? = o.panic? := by
  unfold panic?
  cases o with
  | ok value later rest => exact firstPanic?_append_of_clean h later
  | fail error later rest =>
    dsimp only [after, errors]
    rw [List.append_assoc]
    exact firstPanic?_append_of_clean h _
  | exhausted => rfl

theorem andThen_panic? {o : Outcome α} {e : SyntaxError} (h : o.panic? = some e)
    (next : α → Procedure β) :
    o.andThen next = .exhausted ∨ (o.andThen next).panic? = some e := by
  unfold panic? at h ⊢
  cases o with
  | ok value noted rest =>
    rw [andThen_ok]
    cases next value rest with
    | ok value' later rest' => exact .inr (firstPanic?_append_of_some h later)
    | fail error later rest' =>
      right
      dsimp only [after, errors]
      rw [List.append_assoc]
      exact firstPanic?_append_of_some h _
    | exhausted => exact .inl rfl
  | fail error noted rest => exact .inr h
  | exhausted => contradiction

def recovered : Outcome α → Outcome (Option α)
  | .ok value noted rest => .ok (some value) noted rest
  | .fail error noted rest => .ok none (noted ++ [error]) (synchronize rest)
  | .exhausted => .exhausted

theorem recovered_panic? (o : Outcome α) : o.recovered.panic? = o.panic? := by
  cases o <;> rfl

end Outcome

theorem recover_run (p : Procedure α) (ts : List Token) : recover p ts = (p ts).recovered := by
  unfold recover
  cases p ts <;> rfl

/-- A procedure panics with a given error first, unless it runs out of depth. -/
def Panics (p : Procedure α) (ts : List Token) (e : SyntaxError) : Prop :=
  p ts = .exhausted ∨ (p ts).panic? = some e

theorem Panics.bind {p : Procedure α} {ts : List Token} {e : SyntaxError} (h : Panics p ts e)
    (next : α → Procedure β) : Panics (p >>= next) ts e := by
  unfold Panics
  rw [bind_run]
  rcases h with h | h
  · exact .inl (by rw [h]; rfl)
  · exact Outcome.andThen_panic? h next

theorem Panics.recover {p : Procedure α} {ts : List Token} {e : SyntaxError} (h : Panics p ts e) :
    Panics (recover p) ts e := by
  unfold Panics at *
  rw [recover_run, Outcome.recovered_panic?]
  exact h.imp_left fun h => by rw [h]; rfl

theorem Yields.panics {p : Procedure α} {next : α → Procedure β} {ts mid : List Token} {value : α}
    {noted : List SyntaxError} {e : SyntaxError} (h : Yields p ts value noted mid)
    (hclean : Clean noted) (hnext : Panics (next value) mid e) : Panics (p >>= next) ts e := by
  unfold Panics at *
  rw [bind_run]
  rcases h with h | h
  · exact .inl (by rw [h]; rfl)
  · rw [h, andThen_ok]
    rcases hnext with hnext | hnext
    · exact .inl (by rw [hnext]; rfl)
    · exact .inr (by rwa [Outcome.after_panic? hclean])

/-- The outcome of a procedure that is given any depth. Without a panic, the tokens it took fit, and it
would have taken them in front of any tokens that start as the rest does. With one, the tokens in front of
the panic can be continued to tokens that fit, and it would have panicked so in front of any tokens that
start with the one at which it panicked. -/
inductive Fate (p : Nat → Procedure α) (fits : List Token → α → List Token → Prop) :
    List Token → Outcome α → Prop
  | exhausted {ts} : Fate p fits ts .exhausted
  | read (used) {value noted rest} (hclean : Clean noted) (hfits : fits used value rest)
      (hsame : ∀ fuel rest', rest'.head? = rest.head? →
        Yields (p fuel) (used ++ rest') value noted rest') :
      Fate p fits (used ++ rest) (.ok value noted rest)
  | panicked (used) {o rest e} (ho : o.panic? = some e) (htoken : e.token? = rest.head?)
      (hviable : ∃ more value rest', fits (used ++ more) value rest')
      (hsame : ∀ fuel rest', rest'.head? = rest.head? → Panics (p fuel) (used ++ rest') e) :
      Fate p fits (used ++ rest) o

/-- Some tokens fit, and the outcome at one depth tells that at any other one. -/
structure Determined (p : Nat → Procedure α) (fuel : Nat) (ts : List Token)
    (fits : List Token → α → List Token → Prop) : Prop where
  productive : ∃ used value rest, fits used value rest
  fate : Fate p fits ts (p fuel ts)

section Rules

variable {fuel : Nat} {ts : List Token} {fits : List Token → α → List Token → Prop}
  {fits' : List Token → β → List Token → Prop}

theorem head?_append_congr {rest rest' : List Token} (h : rest'.head? = rest.head?)
    (used : List Token) : (used ++ rest').head? = (used ++ rest).head? := by
  cases used with
  | nil => exact h
  | cons t used => rfl

theorem Fate.mono {p : Nat → Procedure α} {o : Outcome α}
    {weaker : List Token → α → List Token → Prop} (h : Fate p fits ts o)
    (hfits : ∀ used value rest, fits used value rest → weaker used value rest) :
    Fate p weaker ts o := by
  cases h with
  | exhausted => exact .exhausted
  | read used hclean hused hsame => exact .read used hclean (hfits _ _ _ hused) hsame
  | panicked used ho htoken hviable hsame =>
    obtain ⟨more, value, rest, hviable⟩ := hviable
    exact .panicked used ho htoken ⟨more, value, rest, hfits _ _ _ hviable⟩ hsame

theorem Determined.mono {p : Nat → Procedure α} {weaker : List Token → α → List Token → Prop}
    (h : Determined p fuel ts fits)
    (hfits : ∀ used value rest, fits used value rest → weaker used value rest) :
    Determined p fuel ts weaker := by
  obtain ⟨used, value, rest, hproductive⟩ := h.productive
  exact ⟨⟨used, value, rest, hfits _ _ _ hproductive⟩, h.fate.mono hfits⟩

theorem determined_zero {p : Nat → Procedure α} (hp : p 0 = exhausted)
    (h : ∃ used value rest, fits used value rest) : Determined p 0 ts fits := by
  refine ⟨h, ?_⟩
  rw [hp]
  exact .exhausted

/-- A panic stays one at greater depth, and a result the same. -/
theorem Determined.succ {p : Nat → Procedure α} (hp : p 0 = exhausted)
    (h : Determined (fun fuel => p (fuel + 1)) fuel ts fits) : Determined p (fuel + 1) ts fits := by
  have hfate : Fate (fun fuel => p (fuel + 1)) fits ts (p (fuel + 1) ts) := h.fate
  refine ⟨h.productive, ?_⟩
  generalize p (fuel + 1) ts = o at hfate
  cases hfate with
  | exhausted => exact .exhausted
  | read used hclean hused hsame =>
    refine .read used hclean hused fun fuel rest' hhead => ?_
    cases fuel with
    | zero => exact .inl (by rw [hp]; rfl)
    | succ fuel => exact hsame fuel rest' hhead
  | panicked used ho htoken hviable hsame =>
    refine .panicked used ho htoken hviable fun fuel rest' hhead => ?_
    cases fuel with
    | zero => exact .inl (by rw [hp]; rfl)
    | succ fuel => exact hsame fuel rest' hhead

theorem Fate.andThen {p : Nat → Procedure α} {next : Nat → α → Procedure β} {used mid : List Token}
    {value : α} {noted : List SyntaxError} {o : Outcome β} (hclean : Clean noted)
    (hp : ∀ fuel rest, rest.head? = mid.head? → Yields (p fuel) (used ++ rest) value noted rest)
    (h : Fate (next · value) (fun later => fits' (used ++ later)) mid o) :
    Fate (fun fuel => p fuel >>= next fuel) fits' (used ++ mid) (o.after noted) := by
  cases h with
  | exhausted => exact .exhausted
  | read later hclean' hlater hsame =>
    rw [← List.append_assoc]
    refine .read _ ((clean_append _ _).2 ⟨hclean, hclean'⟩) hlater fun fuel rest' hhead => ?_
    rw [List.append_assoc]
    exact (hp fuel _ (head?_append_congr hhead later)).bind (hsame fuel rest' hhead)
  | panicked later ho htoken hviable hsame =>
    obtain ⟨more, value', rest', hviable⟩ := hviable
    rw [← List.append_assoc]
    refine .panicked _ (by rwa [Outcome.after_panic? hclean]) htoken
      ⟨more, value', rest', by rwa [List.append_assoc]⟩ fun fuel rest' hhead => ?_
    rw [List.append_assoc]
    exact (hp fuel _ (head?_append_congr hhead later)).panics hclean (hsame fuel rest' hhead)

theorem Determined.bind {p : Nat → Procedure α} {next : Nat → α → Procedure β}
    (h : Determined p fuel ts fits)
    (hnext : ∀ used value mid, fits used value mid →
      Determined (next · value) fuel mid fun later => fits' (used ++ later)) :
    Determined (fun fuel => p fuel >>= next fuel) fuel ts fits' := by
  obtain ⟨⟨used, value, mid, hproductive⟩, hfate⟩ := h
  obtain ⟨later, value', rest, hlater⟩ := (hnext used value mid hproductive).productive
  refine ⟨⟨used ++ later, value', rest, hlater⟩, ?_⟩
  change Fate _ _ _ ((p fuel ts).andThen (next fuel))
  generalize p fuel ts = o at hfate
  cases hfate with
  | exhausted => exact .exhausted
  | read used hclean hused hsame => exact .andThen hclean hsame (hnext _ _ _ hused).fate
  | panicked used ho htoken hviable hsame =>
    rcases Outcome.andThen_panic? ho (next fuel) with hrun | hrun
    · rw [hrun]
      exact .exhausted
    · obtain ⟨more, value, mid, hviable⟩ := hviable
      obtain ⟨later, value', rest, hlater⟩ := (hnext _ _ _ hviable).productive
      exact .panicked used hrun htoken ⟨more ++ later, value', rest, by rwa [← List.append_assoc]⟩
        fun fuel rest' hhead => (hsame fuel rest' hhead).bind _

theorem determined_pure {value : α} (h : fits [] value ts) :
    Determined (fun _ => pure value) fuel ts fits :=
  ⟨⟨_, _, _, h⟩, .read [] clean_nil h fun _ _ _ => yields_pure⟩

theorem determined_fail {fault : SyntaxFault} (hfault : fault.panics = true)
    (h : ∃ used value rest, fits used value rest) :
    Determined (fun _ => (fail fault : Procedure α)) fuel ts fits := by
  have hpanic : ∀ us, ((fail fault : Procedure α) us).panic? = some ⟨us.head?, fault⟩ := by
    intro us
    simp [fail_run, Outcome.panic?, Outcome.errors, firstPanic?, hfault]
  refine ⟨h, .panicked [] (hpanic ts) rfl h fun _ rest hhead => ?_⟩
  exact .inr (by rw [List.nil_append, hpanic, hhead])

theorem determined_run {p : Procedure α} {next : Nat → α → Procedure β} {value : α}
    {noted : List SyntaxError} (used : List Token) {mid : List Token} (hclean : Clean noted)
    (hp : ∀ rest, rest.head? = mid.head? → p (used ++ rest) = .ok value noted rest)
    (h : Determined (next · value) fuel mid fun later => fits' (used ++ later)) :
    Determined (fun fuel => p >>= next fuel) fuel (used ++ mid) fits' := by
  obtain ⟨later, value', rest, hlater⟩ := h.productive
  refine ⟨⟨_, _, _, hlater⟩, ?_⟩
  change Fate _ _ _ ((p (used ++ mid)).andThen (next fuel))
  rw [hp mid rfl]
  exact h.fate.andThen hclean fun _ rest hhead => .inr (hp rest hhead)

theorem determined_require {what : Expectation} {next : Nat → Token → Procedure β}
    (h : ∀ t mid, t.kind = what.kind →
      Determined (next · t) fuel mid fun later => fits' (t :: later)) :
    Determined (fun fuel => require what >>= next fuel) fuel ts fits' := by
  rcases require_cases what ts with ⟨t, rest, rfl, hkind, -⟩ | hrun
  · exact determined_run [t] clean_nil (fun rest _ => require_cons hkind rest) (h t rest hkind)
  · obtain ⟨later, value, rest, hlater⟩ := (h (.sample what.kind) [] rfl).productive
    refine ⟨⟨_, value, rest, hlater⟩, ?_⟩
    change Fate _ _ _ ((require what ts).andThen (next fuel))
    rw [hrun]
    refine .panicked [] (e := ⟨ts.head?, .expected what⟩) rfl rfl ⟨_, _, _, hlater⟩ ?_
    intro fuel rest' hhead
    right
    rcases require_cases what rest' with ⟨t, rest, rfl, hkind, -⟩ | hrun'
    · cases ts with
      | nil => contradiction
      | cons u ts =>
        cases hhead
        rw [require_cons hkind] at hrun
        contradiction
    · change ((require what rest').andThen (next fuel)).panic? = _
      rw [hrun', hhead]
      rfl

theorem determined_acceptIf {q : Kind → Bool} {next : Nat → Option Token → Procedure β}
    (hsome : ∀ t mid, ts = t :: mid → q t.kind = true →
      Determined (next · (some t)) fuel mid fun later => fits' (t :: later))
    (hnone : Next (q · = false) ts → Determined (next · none) fuel ts fits') :
    Determined (fun fuel => acceptIf q >>= next fuel) fuel ts fits' := by
  rcases acceptIf_cases q ts with ⟨t, rest, rfl, hkind, -⟩ | ⟨hnext, -⟩
  · exact determined_run [t] clean_nil (fun rest _ => acceptIf_cons hkind rest)
      (hsome t rest rfl hkind)
  · refine determined_run [] clean_nil (fun rest hhead => acceptIf_of_next ?_) (hnone hnext)
    unfold Next
    rwa [List.nil_append, hhead]

theorem determined_accept {kind : Kind} {next : Nat → Option Token → Procedure β}
    (hsome : ∀ t mid, ts = t :: mid → t.kind = kind →
      Determined (next · (some t)) fuel mid fun later => fits' (t :: later))
    (hnone : Next (· ≠ kind) ts → Determined (next · none) fuel ts fits') :
    Determined (fun fuel => accept kind >>= next fuel) fuel ts fits' :=
  determined_acceptIf (fun t mid hts h => hsome t mid hts (by simpa using h))
    fun h => hnone (h.imp fun _ => by simp)

theorem determined_peek? {next : Nat → Option Token → Procedure β}
    (h : Determined (next · ts.head?) fuel ts fits') :
    Determined (fun fuel => peek? >>= next fuel) fuel ts fits' :=
  determined_run [] clean_nil (fun rest hhead => by rw [List.nil_append, peek?_run, hhead]) h

theorem determined_skip {t : Token} {rest : List Token} {next : Nat → Unit → Procedure β}
    (h : Determined (next · ()) fuel rest fun later => fits' (t :: later)) :
    Determined (fun fuel => skip >>= next fuel) fuel (t :: rest) fits' :=
  determined_run [t] clean_nil (fun _ _ => rfl) h

theorem determined_noteAt {t : Token} {fault : SyntaxFault} {next : Nat → Unit → Procedure β}
    (hfault : fault.panics = false) (h : Determined (next · ()) fuel ts fits') :
    Determined (fun fuel => noteAt t fault >>= next fuel) fuel ts fits' :=
  determined_run [] ((clean_singleton _).2 hfault) (fun rest _ => noteAt_run t fault rest) h

theorem determined_noteExcess {count : Nat} {fault : SyntaxFault} {next : Nat → Unit → Procedure β}
    (hfault : fault.panics = false) (h : Determined (next · ()) fuel ts fits') :
    Determined (fun fuel => noteExcess count fault >>= next fuel) fuel ts fits' :=
  determined_run [] (clean_excess count ts.head? hfault)
    (fun rest hhead => by rw [List.nil_append, noteExcess, hhead]) h

theorem Determined.recover {p : Nat → Procedure α} (fits : List Token → α → List Token → Prop)
    (h : Determined p fuel ts fits) :
    Determined (fun fuel => recover (p fuel)) fuel ts
      fun used value? rest => ∃ value, value? = some value ∧ fits used value rest := by
  obtain ⟨⟨used, value, rest, hproductive⟩, hfate⟩ := h
  refine ⟨⟨used, some value, rest, value, rfl, hproductive⟩, ?_⟩
  rw [recover_run]
  generalize p fuel ts = o at hfate
  cases hfate with
  | exhausted => exact .exhausted
  | read used hclean hused hsame =>
    exact .read used hclean ⟨_, rfl, hused⟩ fun fuel rest' hhead => (hsame fuel rest' hhead).recover
  | panicked used ho htoken hviable hsame =>
    obtain ⟨more, value, rest', hviable⟩ := hviable
    exact .panicked used (by rwa [Outcome.recovered_panic?]) htoken
      ⟨more, some value, rest', value, rfl, hviable⟩
      fun fuel rest' hhead => (hsame fuel rest' hhead).recover

end Rules

theorem exists_primary : ∃ ts e n, Primary ts e n :=
  ⟨[.sample .kwNil], _, _, .literal (by decide)⟩

theorem exists_unary : ∃ ts e n, Unary ts e n := by
  obtain ⟨ts, e, n, h⟩ := exists_primary
  exact ⟨ts, e, n, .call (.primary h)⟩

theorem exists_operand (level : Level) : ∃ ts e n, Operand level ts e n := by
  obtain ⟨ts, e, n, hunary⟩ := exists_unary
  have hfactor : Operand .factor ts e n := .unary rfl hunary
  have hterm : Operand .term ts e n := .chain rfl (.first hfactor)
  have hcomparison : Operand .comparison ts e n := .chain rfl (.first hterm)
  have hequality : Operand .equality ts e n := .chain rfl (.first hcomparison)
  have hand : Operand .and ts e n := .chain rfl (.first hequality)
  have hor : Operand .or ts e n := .chain rfl (.first hand)
  refine ⟨ts, e, n, ?_⟩
  cases level <;> assumption

theorem exists_chain (level : Level) : ∃ ts e n, Chain level ts e n := by
  obtain ⟨ts, e, n, h⟩ := exists_operand level
  exact ⟨ts, e, n, .first h⟩

theorem exists_expression : ∃ ts e n, Expression ts e n := by
  obtain ⟨ts, e, n, h⟩ := exists_chain .or
  exact ⟨ts, e, n, .value h⟩

theorem exists_argumentList (count : Nat) : ∃ ts args n, ArgumentList count ts args n := by
  obtain ⟨ts, e, n, h⟩ := exists_expression
  exact ⟨ts, [e], _, .last h⟩

theorem exists_block : ∃ ts body n, ∀ start : Token, start.kind = .leftBrace →
    Block (start :: ts) body n :=
  ⟨[.sample .rightBrace], [], [], fun _ hstart => .mk hstart .nil rfl⟩

theorem exists_function : ∃ ts f n, Function ts f n := by
  obtain ⟨ts, body, n, h⟩ := exists_block
  exact ⟨_, _, _, .mk (Token.kind_sample _) (Token.kind_sample _) .none (Token.kind_sample _)
    (h (.sample .leftBrace) rfl)⟩

theorem exists_statement : ∃ ts s n, Statement false ts s n := by
  obtain ⟨ts, body, n, h⟩ := exists_block
  exact ⟨_, _, _, .block (h (.sample .leftBrace) rfl)⟩

mutual

theorem expression_determined (fuel : Nat) (ts : List Token) :
    Determined expression fuel ts fun used e _ => ∃ n, Expression used e n := by
  cases fuel with
  | zero =>
    obtain ⟨us, e, h⟩ := exists_expression
    exact determined_zero rfl ⟨us, e, [], h⟩
  | succ fuel =>
    refine .succ rfl ?_
    simp only [expression]
    refine (chain_determined fuel .or ts).bind fun us target mid ⟨n, htarget⟩ => ?_
    refine determined_accept (fun equals mid' _ hequals => ?_) fun _ => ?_
    · refine (expression_determined fuel mid').bind fun vs value rest ⟨m, hvalue⟩ => ?_
      cases he : target.assigned? value with
      | some e => exact determined_pure ⟨_, by simpa using .assignment htarget hequals hvalue he⟩
      | none =>
        exact determined_noteAt rfl
          (determined_pure ⟨_, by simpa using .noTarget htarget hequals hvalue he⟩)
    · exact determined_pure ⟨n, by simpa using .value htarget⟩
termination_by fuel
decreasing_by all_goals omega

theorem chain_determined (fuel : Nat) (level : Level) (ts : List Token) :
    Determined (chain · level) fuel ts fun used e _ => ∃ n, Chain level used e n := by
  cases fuel with
  | zero =>
    obtain ⟨us, e, h⟩ := exists_chain level
    exact determined_zero rfl ⟨us, e, [], h⟩
  | succ fuel =>
    refine .succ rfl ?_
    simp only [chain]
    exact (operand_determined fuel level ts).bind fun us left mid ⟨n, hleft⟩ =>
      chainRest_determined fuel level mid (.first hleft)
termination_by fuel
decreasing_by all_goals omega

theorem chainRest_determined (fuel : Nat) (level : Level) (ts : List Token) {us : List Token}
    {left : Expr} {n : List SyntaxError} (hleft : Chain level us left n) :
    Determined (chainRest · level left) fuel ts fun used e _ => ∃ n, Chain level (us ++ used) e n := by
  cases fuel with
  | zero => exact determined_zero rfl ⟨[], left, [], n, by simpa using hleft⟩
  | succ fuel =>
    refine .succ rfl ?_
    simp only [chainRest]
    refine determined_acceptIf (fun op mid _ hop => ?_) fun _ => ?_
    · refine (operand_determined fuel level mid).bind fun vs right mid' ⟨m, hright⟩ => ?_
      have hjoin := hleft.join (by simpa using hop) hright
      exact (chainRest_determined fuel level mid' hjoin).mono fun used e rest h => by
        simpa using h
    · exact determined_pure ⟨n, by simpa using hleft⟩
termination_by fuel
decreasing_by all_goals omega

theorem operand_determined (fuel : Nat) (level : Level) (ts : List Token) :
    Determined (operand · level) fuel ts fun used e _ => ∃ n, Operand level used e n := by
  cases fuel with
  | zero =>
    obtain ⟨us, e, h⟩ := exists_operand level
    exact determined_zero rfl ⟨us, e, [], h⟩
  | succ fuel =>
    refine .succ rfl ?_
    simp only [operand]
    cases hnext : level.next? with
    | some next =>
      exact (chain_determined fuel next ts).mono fun _ _ _ ⟨n, h⟩ => ⟨n, .chain hnext h⟩
    | none => exact (unary_determined fuel ts).mono fun _ _ _ ⟨n, h⟩ => ⟨n, .unary hnext h⟩
termination_by fuel
decreasing_by all_goals omega

theorem unary_determined (fuel : Nat) (ts : List Token) :
    Determined unary fuel ts fun used e _ => ∃ n, Unary used e n := by
  cases fuel with
  | zero =>
    obtain ⟨us, e, h⟩ := exists_unary
    exact determined_zero rfl ⟨us, e, [], h⟩
  | succ fuel =>
    refine .succ rfl ?_
    simp only [unary]
    refine determined_acceptIf (fun op mid _ hop => ?_) fun _ => ?_
    · exact (unary_determined fuel mid).bind fun us e rest ⟨n, he⟩ =>
        determined_pure ⟨n, by simpa using .operator (by simpa using hop) he⟩
    · refine (primary_determined fuel ts).bind fun us callee mid ⟨n, hcallee⟩ => ?_
      exact (callRest_determined fuel mid (.primary hcallee)).mono fun _ _ _ ⟨n, h⟩ => ⟨n, .call h⟩
termination_by fuel
decreasing_by all_goals omega

theorem callRest_determined (fuel : Nat) (ts : List Token) {us : List Token} {callee : Expr}
    {n : List SyntaxError} (hcallee : Call us callee n) :
    Determined (callRest · callee) fuel ts fun used e _ => ∃ n, Call (us ++ used) e n := by
  cases fuel with
  | zero => exact determined_zero rfl ⟨[], callee, [], n, by simpa using hcallee⟩
  | succ fuel =>
    refine .succ rfl ?_
    simp only [callRest]
    refine determined_acceptIf (fun t mid _ ht => ?_) fun _ => ?_
    · by_cases hdot : t.kind = .dot
      · simp only [if_pos hdot]
        refine determined_require fun property mid' hproperty => ?_
        exact (callRest_determined fuel mid' (hcallee.get hdot hproperty)).mono
          fun used e _ h => by simpa using h
      · simp only [if_neg hdot]
        have hstart : t.kind = .leftParen := by simpa [hdot] using ht
        refine (arguments_determined fuel mid).bind fun vs args mid' ⟨m, hargs⟩ => ?_
        refine determined_require fun paren mid'' hparen => ?_
        exact (callRest_determined fuel mid'' (hcallee.call hstart hargs hparen)).mono
          fun used e _ h => by simpa using h
    · exact determined_pure ⟨n, by simpa using hcallee⟩
termination_by fuel
decreasing_by all_goals omega

theorem arguments_determined (fuel : Nat) (ts : List Token) :
    Determined arguments fuel ts fun used args _ => ∃ n, Arguments used args n := by
  cases fuel with
  | zero => exact determined_zero rfl ⟨[], [], [], [], .none⟩
  | succ fuel =>
    refine .succ rfl ?_
    simp only [arguments]
    refine determined_peek? ?_
    split
    · exact determined_pure ⟨[], .none⟩
    · exact (argumentList_determined fuel 0 ts).mono fun _ _ _ ⟨n, h⟩ => ⟨n, .some h⟩
termination_by fuel
decreasing_by all_goals omega

theorem argumentList_determined (fuel count : Nat) (ts : List Token) :
    Determined (argumentList · count) fuel ts fun used args _ => ∃ n, ArgumentList count used args n := by
  cases fuel with
  | zero =>
    obtain ⟨us, args, h⟩ := exists_argumentList count
    exact determined_zero rfl ⟨us, args, [], h⟩
  | succ fuel =>
    refine .succ rfl ?_
    simp only [argumentList_succ]
    refine determined_noteExcess rfl ?_
    refine (expression_determined fuel ts).bind fun us first mid ⟨n, hfirst⟩ => ?_
    refine determined_accept (fun comma mid' _ hcomma => ?_) fun _ => ?_
    · refine (argumentList_determined fuel (count + 1) mid').bind fun vs args rest ⟨m, hargs⟩ => ?_
      exact determined_pure ⟨_, by simpa using .more hfirst hcomma hargs⟩
    · exact determined_pure ⟨_, by simpa using .last hfirst⟩
termination_by fuel
decreasing_by all_goals omega

theorem primary_determined (fuel : Nat) (ts : List Token) :
    Determined primary fuel ts fun used e _ => ∃ n, Primary used e n := by
  obtain ⟨vs, e, hsome⟩ := exists_primary
  cases fuel with
  | zero => exact determined_zero rfl ⟨vs, e, [], hsome⟩
  | succ fuel =>
    refine .succ rfl ?_
    simp only [primary]
    refine determined_peek? ?_
    cases ts with
    | nil => exact determined_fail rfl ⟨vs, e, [], hsome⟩
    | cons t rest =>
      dsimp only [List.head?_cons]
      cases hkind : t.kind
      case number | string | kwTrue | kwFalse | kwNil =>
        exact determined_skip (determined_pure ⟨_, .literal (by simp [hkind, literalKinds])⟩)
      case identifier => exact determined_skip (determined_pure ⟨_, .var hkind⟩)
      case kwThis => exact determined_skip (determined_pure ⟨_, .this hkind⟩)
      case kwSuper =>
        refine determined_skip (determined_require fun dot mid hdot => ?_)
        exact determined_require fun method mid' hmethod =>
          determined_pure ⟨_, .super hkind hdot hmethod⟩
      case leftParen =>
        refine determined_skip ?_
        refine (expression_determined fuel rest).bind fun us inner mid ⟨n, hinner⟩ => ?_
        exact determined_require fun finish mid' hfinish =>
          determined_pure ⟨_, by simpa using .group hkind hinner hfinish⟩
      all_goals exact determined_fail rfl ⟨vs, e, [], hsome⟩
termination_by fuel
decreasing_by all_goals omega

end

theorem optionalExpression_determined (fuel : Nat) (stop : Kind) (ts : List Token) :
    Determined (optionalExpression · stop) fuel ts
      fun used e _ => ∃ n, OptionalExpression used e n := by
  refine determined_peek? ?_
  split
  · exact determined_pure ⟨[], .none⟩
  · exact (expression_determined fuel ts).bind fun us e rest ⟨n, he⟩ =>
      determined_pure ⟨n, by simpa using .some he⟩

theorem parameterList_determined (fuel count : Nat) (ts : List Token) :
    Determined (parameterList · count) fuel ts
      fun used params _ => ∃ n, ParameterList count used params n := by
  induction fuel generalizing count ts with
  | zero => exact determined_zero rfl ⟨_, _, [], _, .last (t := .sample .identifier) rfl⟩
  | succ fuel ih =>
    refine .succ rfl ?_
    simp only [parameterList_succ]
    refine determined_noteExcess rfl ?_
    refine determined_require fun first mid hfirst => ?_
    refine determined_accept (fun comma mid' _ hcomma => ?_) fun _ => ?_
    · exact (ih (count + 1) mid').bind fun us params rest ⟨n, hparams⟩ =>
        determined_pure ⟨_, by simpa using .more hfirst hcomma hparams⟩
    · exact determined_pure ⟨_, by simpa using .last hfirst⟩

theorem parameters_determined (fuel : Nat) (ts : List Token) :
    Determined parameters fuel ts fun used params _ => ∃ n, Parameters used params n := by
  refine determined_peek? ?_
  split
  · exact determined_pure ⟨[], .none⟩
  · exact (parameterList_determined fuel 0 ts).mono fun _ _ _ ⟨n, h⟩ => ⟨n, .some h⟩

theorem varDecl_determined (fuel : Nat) (ts : List Token) :
    Determined varDecl fuel ts fun used s _ => ∃ n, VarDecl used s n := by
  refine determined_require fun name mid hname => ?_
  refine determined_accept (fun equals mid' _ hequals => ?_) fun _ => ?_
  · refine (expression_determined fuel mid').bind fun us e mid'' ⟨n, he⟩ => ?_
    exact determined_require fun finish rest hfinish =>
      determined_pure ⟨n, by simpa using .initialized hname hequals he hfinish⟩
  · exact determined_require fun finish rest hfinish => determined_pure ⟨[], .bare hname hfinish⟩

theorem expressionStatement_determined (fuel : Nat) (ts : List Token) :
    Determined expressionStatement fuel ts fun used s _ => ∃ n, ExpressionStatement used s n := by
  refine (expression_determined fuel ts).bind fun us e mid ⟨n, he⟩ => ?_
  exact determined_require fun finish rest hfinish => determined_pure ⟨n, by simpa using .mk he hfinish⟩

theorem forInitializer_determined (fuel : Nat) (ts : List Token) :
    Determined forInitializer fuel ts fun used s _ => ∃ n, ForInitializer used s n := by
  refine determined_acceptIf (fun t mid _ ht => ?_) fun _ => ?_
  · dsimp only
    by_cases hvar : t.kind = .kwVar
    · simp only [if_pos hvar]
      exact (varDecl_determined fuel mid).bind fun us s rest ⟨n, hs⟩ =>
        determined_pure ⟨n, by simpa using .var hvar hs⟩
    · simp only [if_neg hvar]
      exact determined_pure ⟨[], .none (by simpa [hvar] using ht)⟩
  · exact (expressionStatement_determined fuel ts).bind fun us s rest ⟨n, hs⟩ =>
      determined_pure ⟨n, by simpa using .expr hs⟩

theorem superclassClause_determined (fuel : Nat) (ts : List Token) :
    Determined (fun _ => superclassClause) fuel ts fun used parent _ => Superclass used parent := by
  refine determined_accept (fun less mid _ hless => ?_) fun _ => ?_
  · exact determined_require fun parent rest hparent => determined_pure (.some hless hparent)
  · exact determined_pure .none

mutual

theorem declaration_determined (fuel : Nat) (ts : List Token) :
    Determined declaration fuel ts
      fun used s? _ => ∃ s, s? = some s ∧ ∃ n, Declaration used s n := by
  cases fuel with
  | zero =>
    obtain ⟨us, s, n, h⟩ := exists_statement
    exact determined_zero rfl ⟨us, some s, [], s, rfl, n, .statement h⟩
  | succ fuel =>
    refine .succ rfl ?_
    simp only [declaration]
    apply Determined.recover (fun used s _ => ∃ n, Declaration used s n)
    refine determined_acceptIf (fun t mid _ ht => ?_) fun _ => ?_
    · rcases (by simpa using ht : t.kind = .kwClass ∨ t.kind = .kwFun ∨ t.kind = .kwVar) with
        h | h | h
      · simp only [h]
        exact (classDecl_determined fuel mid).mono fun _ _ _ hs => hs t h
      · simp only [h]
        exact (function_determined fuel .function mid).bind fun us f rest ⟨n, hf⟩ =>
          determined_pure ⟨n, by simpa using .function h hf⟩
      · simp only [h]
        exact (varDecl_determined fuel mid).mono fun _ _ _ ⟨n, hs⟩ => ⟨n, .var h hs⟩
    · exact (statement_determined fuel ts).mono fun _ _ _ ⟨_, n, hs, _⟩ => ⟨n, .statement hs⟩
termination_by fuel
decreasing_by all_goals omega

theorem classDecl_determined (fuel : Nat) (ts : List Token) :
    Determined classDecl fuel ts fun used s _ =>
      ∀ keyword : Token, keyword.kind = .kwClass → ∃ n, Declaration (keyword :: used) s n := by
  cases fuel with
  | zero =>
    exact determined_zero rfl ⟨_, _, [], fun keyword hkeyword => ⟨_, .cls hkeyword
      (Token.kind_sample _) .none (Token.kind_sample _) .nil (Token.kind_sample _)⟩⟩
  | succ fuel =>
    refine .succ rfl ?_
    simp only [classDecl]
    refine determined_require fun name mid hname => ?_
    refine (superclassClause_determined fuel mid).bind fun parents superclass mid₁ hparents => ?_
    refine determined_require fun start mid₂ hstart => ?_
    refine (methods_determined fuel mid₂).bind fun us members mid₃ ⟨n, hmembers⟩ => ?_
    exact determined_require fun finish rest hfinish => determined_pure fun keyword hkeyword =>
      ⟨n, by simpa using .cls hkeyword hname hparents hstart hmembers hfinish⟩
termination_by fuel
decreasing_by all_goals omega

theorem methods_determined (fuel : Nat) (ts : List Token) :
    Determined methods fuel ts fun used members _ => ∃ n, Methods used members n := by
  cases fuel with
  | zero => exact determined_zero rfl ⟨[], [], [], [], .nil⟩
  | succ fuel =>
    refine .succ rfl ?_
    simp only [methods]
    refine determined_peek? ?_
    split
    · exact determined_pure ⟨[], .nil⟩
    · refine (function_determined fuel .method ts).bind fun us f mid ⟨n, hf⟩ => ?_
      exact (methods_determined fuel mid).bind fun vs members rest ⟨m, hmembers⟩ =>
        determined_pure ⟨_, by simpa using .cons hf hmembers⟩
termination_by fuel
decreasing_by all_goals omega

theorem function_determined (fuel : Nat) (role : Role) (ts : List Token) :
    Determined (function · role) fuel ts fun used f _ => ∃ n, Function used f n := by
  cases fuel with
  | zero =>
    obtain ⟨us, f, h⟩ := exists_function
    exact determined_zero rfl ⟨us, f, [], h⟩
  | succ fuel =>
    refine .succ rfl ?_
    simp only [function]
    refine determined_require fun name mid hname => determined_require fun start mid₁ hstart => ?_
    refine (parameters_determined fuel mid₁).bind fun us params mid₂ ⟨n, hparams⟩ => ?_
    refine determined_require fun finish mid₃ hfinish => determined_require fun left mid₄ hleft => ?_
    refine (block_determined fuel mid₄).bind fun vs body rest hbody => ?_
    obtain ⟨m, hbody⟩ := hbody left hleft
    exact determined_pure ⟨_, by simpa using .mk hname hstart hparams hfinish hbody⟩
termination_by fuel
decreasing_by all_goals omega

theorem block_determined (fuel : Nat) (ts : List Token) :
    Determined block fuel ts fun used body _ =>
      ∀ start : Token, start.kind = .leftBrace → ∃ n, Block (start :: used) body n := by
  cases fuel with
  | zero =>
    obtain ⟨us, body, n, h⟩ := exists_block
    exact determined_zero rfl ⟨us, body, [], fun start hstart => ⟨n, h start hstart⟩⟩
  | succ fuel =>
    refine .succ rfl ?_
    simp only [block]
    refine (declarations_determined fuel ts).bind fun us body mid ⟨n, hbody⟩ => ?_
    exact determined_require fun finish rest hfinish => determined_pure fun start hstart =>
      ⟨n, by simpa using .mk hstart hbody hfinish⟩
termination_by fuel
decreasing_by all_goals omega

theorem declarations_determined (fuel : Nat) (ts : List Token) :
    Determined declarations fuel ts fun used body _ => ∃ n, Declarations used body n := by
  cases fuel with
  | zero => exact determined_zero rfl ⟨[], [], [], [], .nil⟩
  | succ fuel =>
    refine .succ rfl ?_
    simp only [declarations]
    refine determined_peek? ?_
    split
    · exact determined_pure ⟨[], .nil⟩
    · refine (declaration_determined fuel ts).bind fun us s? mid ⟨s, hs?, n, hs⟩ => ?_
      subst hs?
      exact (declarations_determined fuel mid).bind fun vs body rest ⟨m, hbody⟩ =>
        determined_pure ⟨_, by simpa using .cons hs hbody⟩
termination_by fuel
decreasing_by all_goals omega

/-- As in soundness, no `else` is behind an open statement. -/
theorem statement_determined (fuel : Nat) (ts : List Token) :
    Determined statement fuel ts fun used s rest =>
      ∃ isOpen n, Statement isOpen used s n ∧ (isOpen = true → Next (· ≠ .kwElse) rest) := by
  cases fuel with
  | zero =>
    obtain ⟨us, s, n, h⟩ := exists_statement
    exact determined_zero rfl ⟨us, s, [], false, n, h, by simp⟩
  | succ fuel =>
    have hexpr := (expressionStatement_determined fuel ts).mono fun used s rest ⟨n, hs⟩ =>
      show ∃ isOpen n, Statement isOpen used s n ∧ (isOpen = true → Next (· ≠ Kind.kwElse) rest) from
        ⟨false, n, .expr hs, by simp⟩
    refine .succ rfl ?_
    simp only [statement]
    refine determined_peek? ?_
    cases ts with
    | nil => exact hexpr
    | cons keyword rest =>
      dsimp only [List.head?_cons]
      cases h : keyword.kind
      case kwIf =>
        refine determined_skip (determined_require fun start mid hstart => ?_)
        refine (expression_determined fuel mid).bind fun us c mid₁ ⟨n, hc⟩ => ?_
        refine determined_require fun finish mid₂ hfinish => ?_
        refine (statement_determined fuel mid₂).bind fun vs yes mid₃ ⟨isOpen, m, hyes, hend⟩ => ?_
        refine determined_accept (fun els mid₄ hmid hels => ?_) fun hnext => ?_
        · have hclosed : isOpen = false := by
            cases isOpen with
            | false => rfl
            | true =>
              have hnext := hend rfl
              rw [hmid, next_cons] at hnext
              exact absurd hels hnext
          subst hclosed
          refine (statement_determined fuel mid₄).bind fun ws no rest' ⟨isOpen, k, hno, hend'⟩ => ?_
          exact determined_pure ⟨isOpen, _,
            by simpa using .ifElse h hstart hc hfinish hyes hels hno, hend'⟩
        · exact determined_pure
            ⟨true, _, by simpa using .ifThen h hstart hc hfinish hyes, fun _ => hnext⟩
      case kwPrint =>
        refine determined_skip ((expression_determined fuel rest).bind fun us e mid ⟨n, he⟩ => ?_)
        exact determined_require fun finish mid' hfinish =>
          determined_pure ⟨false, n, by simpa using .print h he hfinish, by simp⟩
      case kwReturn =>
        refine determined_skip
          ((optionalExpression_determined fuel _ rest).bind fun us e mid ⟨n, he⟩ => ?_)
        exact determined_require fun finish mid' hfinish =>
          determined_pure ⟨false, n, by simpa using .ret h he hfinish, by simp⟩
      case kwWhile =>
        refine determined_skip (determined_require fun start mid hstart => ?_)
        refine (expression_determined fuel mid).bind fun us c mid₁ ⟨n, hc⟩ => ?_
        refine determined_require fun finish mid₂ hfinish => ?_
        refine (statement_determined fuel mid₂).bind fun vs body rest' ⟨isOpen, m, hbody, hend⟩ => ?_
        exact determined_pure
          ⟨isOpen, _, by simpa using .whileLoop h hstart hc hfinish hbody, hend⟩
      case kwFor =>
        refine determined_skip (determined_require fun start mid hstart => ?_)
        refine (forInitializer_determined fuel mid).bind fun us init mid₁ ⟨n, hinit⟩ => ?_
        refine (optionalExpression_determined fuel _ mid₁).bind fun vs c mid₂ ⟨m, hc⟩ => ?_
        refine determined_require fun middle mid₃ hmiddle => ?_
        refine (optionalExpression_determined fuel _ mid₃).bind fun ws inc mid₄ ⟨k, hinc⟩ => ?_
        refine determined_require fun finish mid₅ hfinish => ?_
        refine (statement_determined fuel mid₅).bind fun xs body rest' ⟨isOpen, l, hbody, hend⟩ => ?_
        exact determined_pure ⟨isOpen, _,
          by simpa using .forLoop h hstart hinit hc hmiddle hinc hfinish hbody, hend⟩
      case leftBrace =>
        refine determined_skip ((block_determined fuel rest).bind fun us body rest' hbody => ?_)
        obtain ⟨n, hbody⟩ := hbody keyword h
        exact determined_pure ⟨false, n, by simpa using .block hbody, by simp⟩
      all_goals exact hexpr
termination_by fuel
decreasing_by all_goals omega

end

theorem program_determined (fuel : Nat) (ts : List Token) :
    Determined program fuel ts
      fun used statements rest => (∃ n, Program used statements n) ∧ rest = [] := by
  induction fuel generalizing ts with
  | zero => exact determined_zero rfl ⟨[], [], [], ⟨[], .nil⟩, rfl⟩
  | succ fuel ih =>
    refine .succ rfl ?_
    simp only [program]
    refine determined_peek? ?_
    split
    · rename_i hend
      exact determined_pure ⟨⟨[], .nil⟩, by simpa using hend⟩
    · refine (declaration_determined fuel ts).bind fun us s? mid ⟨s, hs?, n, hs⟩ => ?_
      subst hs?
      refine (ih mid).bind fun vs statements rest hstatements => ?_
      obtain ⟨⟨m, hstatements⟩, hrest⟩ := hstatements
      exact determined_pure ⟨⟨_, by simpa using .cons hs hstatements⟩, hrest⟩

end Parse

open Parse

theorem errors_of_parse {tokens : List Token} {errors : List SyntaxError}
    (h : parse tokens = .error errors) : (program (depthFor tokens) tokens).errors = errors := by
  unfold parse at h
  generalize program (depthFor tokens) tokens = o at h
  cases o with
  | ok statements noted rest =>
    cases noted with
    | nil => contradiction
    | cons first noted =>
      cases h
      rfl
  | fail error noted rest =>
    cases h
    rfl
  | exhausted =>
    cases h
    rfl

theorem parse_of_panic? {tokens : List Token} {e : SyntaxError}
    (h : (program (depthFor tokens) tokens).panic? = some e) :
    ∃ errors, parse tokens = .error errors ∧ firstPanic? errors = some e := by
  unfold parse
  generalize program (depthFor tokens) tokens = o at h
  cases o with
  | ok statements noted rest =>
    cases noted with
    | nil => contradiction
    | cons first noted => exact ⟨_, rfl, h⟩
  | fail error noted rest => exact ⟨_, rfl, h⟩
  | exhausted => contradiction

/-- The first panic is at the first token that no program continues. The tokens in front of it start one,
and all that start with it and the tokens in front of it panic so. -/
theorem parse_panics_earliest {tokens : List Token} {errors : List SyntaxError} {e : SyntaxError}
    (h : parse tokens = .error errors) (he : firstPanic? errors = some e) :
    ∃ k ≤ tokens.length, e.token? = tokens[k]? ∧
      (∃ more, ∀ errors', parse (tokens.take k ++ more) = .error errors' → firstPanic? errors' = none) ∧
      ∀ others, others.take (k + 1) = tokens.take (k + 1) →
        ∃ errors', parse others = .error errors' ∧ firstPanic? errors' = some e := by
  have hpanic : (program (depthFor tokens) tokens).panic? = some e := by
    rw [Outcome.panic?, errors_of_parse h, he]
  have hfate := (program_determined (depthFor tokens) tokens).fate
  generalize program (depthFor tokens) tokens = o at hpanic hfate
  cases hfate with
  | exhausted => contradiction
  | read _ hclean _ _ =>
    rw [Outcome.panic?, Outcome.errors, firstPanic?_eq_none.2 hclean] at hpanic
    contradiction
  | @panicked used _ rest e' ho htoken hviable hsame =>
    obtain rfl : e' = e := Option.some.inj (ho.symm.trans hpanic)
    obtain ⟨more, statements, rest', ⟨noted, hprogram⟩, -⟩ := hviable
    have hget : (used ++ rest)[used.length]? = rest.head? := by
      rw [List.getElem?_append_right (Nat.le_refl _), Nat.sub_self, List.head?_eq_getElem?]
    refine ⟨used.length, by simp, by rw [htoken, hget], ⟨more, ?_⟩, ?_⟩
    -- What starts with the tokens in front of the panic can be a program, and programs do not panic.
    · intro errors' herrors
      rw [List.take_left, parse_of_program hprogram] at herrors
      split at herrors
      · contradiction
      · cases herrors
        exact firstPanic?_eq_none.2 hprogram.clean
    · intro others hothers
      have hfront : others.take used.length = used := by
        have htake := congrArg (List.take used.length) hothers
        simpa [List.take_take] using htake
      have hhead : (others.drop used.length).head? = rest.head? := by
        have hnext := congrArg (·[used.length]?) hothers
        simpa [List.getElem?_take, List.head?_drop, hget] using hnext
      have hsplit : used ++ others.drop used.length = others := by
        rw [← List.take_append_drop used.length others, hfront]
        simp
      -- Up to the token of the panic nothing else is looked at, so the depth is all that differs.
      have hother := hsame (depthFor others) _ hhead
      rw [hsplit] at hother
      rcases hother with hother | hother
      · exact absurd hother (program_ne_exhausted others)
      · exact parse_of_panic? hother

theorem parse_panics_earliest_missingExpression :
    let tokens : List Token := [.sample .kwPrint, .sample .semicolon]
    let e : SyntaxError := ⟨some (.sample .semicolon), .expectedExpression⟩
    ∃ k ≤ tokens.length, e.token? = tokens[k]? ∧
      (∃ more, ∀ errors', parse (tokens.take k ++ more) = .error errors' → firstPanic? errors' = none) ∧
      ∀ others, others.take (k + 1) = tokens.take (k + 1) →
        ∃ errors', parse others = .error errors' ∧ firstPanic? errors' = some e := by
  intro tokens e
  have hparse : parse tokens = .error [e] := by rfl
  exact parse_panics_earliest hparse (by rfl)

end Lox
