import Lox.Proofs.Parsing.Outcome

/-!
Completeness of parsing: a sequence of the grammar is read whole, with its tree and its faults, if what
stands behind it cannot extend it. One token decides that: `strength` ranks the kinds that extend an
expression by how tightly they bind, and only an `else` extends an open statement.
-/
namespace Lox

/-- How tightly a kind of token binds the expression on its left, zero if it does not. -/
def Kind.strength : Kind → Nat
  | .equal => 1
  | .kwOr => 2
  | .kwAnd => 3
  | .bangEqual | .equalEqual => 4
  | .greater | .greaterEqual | .less | .lessEqual => 5
  | .plus | .minus => 6
  | .slash | .star => 7
  | .leftParen | .dot => 8
  | _ => 0

namespace Level

def rank : Level → Nat
  | or => 2
  | and => 3
  | equality => 4
  | comparison => 5
  | term => 6
  | factor => 7

theorem strength_of_mem {level : Level} {kind : Kind} (h : kind ∈ level.operators) :
    kind.strength = level.rank := by
  cases level <;> simp only [operators, List.mem_cons, List.not_mem_nil, or_false] at h
  case or | and => subst h; rfl
  case equality | term | factor => rcases h with rfl | rfl <;> rfl
  case comparison => rcases h with rfl | rfl | rfl | rfl <;> rfl

theorem rank_next {level next : Level} (h : level.next? = some next) :
    next.rank = level.rank + 1 := by
  cases level <;> cases h <;> rfl

theorem rank_last {level : Level} (h : level.next? = none) : level.rank = 7 := by
  cases level <;> first | rfl | contradiction

end Level

namespace Parse

open Grammar

variable {α β : Type}

/-- A procedure returns a given result and rest, unless it runs out of depth. -/
def Yields (p : Procedure α) (ts : List Token) (value : α) (noted : List SyntaxError)
    (rest : List Token) : Prop :=
  p ts = .exhausted ∨ p ts = .ok value noted rest

/-- What stands behind an expression binds it less tightly than a rank. -/
def Stops (rank : Nat) (rest : List Token) : Prop := Next (·.strength < rank) rest

theorem Stops.mono {rank rank' : Nat} {rest : List Token} (h : Stops rank rest)
    (hrank : rank ≤ rank') : Stops rank' rest :=
  h.imp fun _ hk => Nat.lt_of_lt_of_le hk hrank

section Rules

variable {ts mid rest : List Token} {value : α} {result : β} {n m : List SyntaxError}

theorem yields_exhausted : Yields (exhausted : Procedure α) ts value n rest := .inl rfl

theorem yields_pure : Yields (pure value : Procedure α) ts value [] ts := .inr rfl

theorem yields_of_run {p : Procedure α} {next : α → Procedure β} (h : p ts = .ok value n mid)
    (hnext : Yields (next value) mid result m rest) :
    Yields (p >>= next) ts result (n ++ m) rest := by
  unfold Yields at *
  rw [bind_run, h, andThen_ok]
  rcases hnext with hnext | hnext <;> rw [hnext]
  · exact .inl rfl
  · exact .inr rfl

theorem Yields.bind {p : Procedure α} {next : α → Procedure β} (h : Yields p ts value n mid)
    (hnext : Yields (next value) mid result m rest) :
    Yields (p >>= next) ts result (n ++ m) rest := by
  rcases h with h | h
  · exact .inl (by rw [bind_run, h]; rfl)
  · exact yields_of_run h hnext

theorem Yields.bind_nil {p : Procedure α} {next : α → Procedure β} (h : Yields p ts value n mid)
    (hnext : Yields (next value) mid result [] rest) : Yields (p >>= next) ts result n rest := by
  simpa using h.bind hnext

theorem yields_require {what : Expectation} {t : Token} {next : Token → Procedure β}
    (hkind : t.kind = what.kind) (h : Yields (next t) rest result n mid) :
    Yields (require what >>= next) (t :: rest) result n mid :=
  yields_of_run (require_cons hkind rest) h

theorem yields_acceptIf {p : Kind → Bool} {t : Token} {next : Option Token → Procedure β}
    (hkind : p t.kind = true) (h : Yields (next (some t)) rest result n mid) :
    Yields (acceptIf p >>= next) (t :: rest) result n mid :=
  yields_of_run (acceptIf_cons hkind rest) h

theorem yields_accept {kind : Kind} {t : Token} {next : Option Token → Procedure β}
    (hkind : t.kind = kind) (h : Yields (next (some t)) rest result n mid) :
    Yields (accept kind >>= next) (t :: rest) result n mid :=
  yields_acceptIf (by simpa using hkind) h

theorem yields_acceptIf_none {p : Kind → Bool} {next : Option Token → Procedure β}
    (hnext : Next (p · = false) ts) (h : Yields (next none) ts result n mid) :
    Yields (acceptIf p >>= next) ts result n mid :=
  yields_of_run (acceptIf_of_next hnext) h

theorem yields_accept_none {kind : Kind} {next : Option Token → Procedure β}
    (hnext : Next (· ≠ kind) ts) (h : Yields (next none) ts result n mid) :
    Yields (accept kind >>= next) ts result n mid :=
  yields_acceptIf_none (hnext.imp fun _ hk => by simpa using hk) h

theorem yields_peek? {next : Option Token → Procedure β}
    (h : Yields (next ts.head?) ts result n mid) : Yields (peek? >>= next) ts result n mid :=
  yields_of_run (peek?_run ts) h

theorem yields_skip {t : Token} {next : Unit → Procedure β} (h : Yields (next ()) rest result n mid) :
    Yields (skip >>= next) (t :: rest) result n mid :=
  yields_of_run (skip_run _) h

theorem yields_noteAt {t : Token} {fault : SyntaxFault} {next : Unit → Procedure β}
    (h : Yields (next ()) ts result n mid) :
    Yields (noteAt t fault >>= next) ts result (⟨some t, fault⟩ :: n) mid :=
  yields_of_run (noteAt_run t fault ts) h

theorem yields_noteExcess {count : Nat} {fault : SyntaxFault} {next : Unit → Procedure β}
    (h : Yields (next ()) ts result n mid) :
    Yields (noteExcess count fault >>= next) ts result (excess count ts.head? fault ++ n) mid :=
  yields_of_run rfl h

theorem Yields.recover {p : Procedure α} (h : Yields p ts value n rest) :
    Yields (recover p) ts (some value) n rest := by
  unfold Yields at *
  unfold Parse.recover
  rcases h with h | h <;> rw [h]
  · exact .inl rfl
  · exact .inr rfl

end Rules

theorem chainRest_yields (fuel : Nat) {level : Level} (e : Expr) {rest : List Token}
    (h : Stops level.rank rest) : Yields (chainRest fuel level e) rest e [] rest := by
  cases fuel with
  | zero => exact yields_exhausted
  | succ fuel =>
    rw [chainRest]
    refine yields_acceptIf_none (h.imp fun kind hk => ?_) yields_pure
    cases hop : level.operators.contains kind with
    | false => rfl
    | true =>
      have hrank := Level.strength_of_mem (List.contains_iff_mem.1 hop)
      omega

theorem callRest_yields (fuel : Nat) (e : Expr) {rest : List Token} (h : Stops 8 rest) :
    Yields (callRest fuel e) rest e [] rest := by
  cases fuel with
  | zero => exact yields_exhausted
  | succ fuel =>
    rw [callRest]
    refine yields_acceptIf_none (h.imp fun kind hk => ?_) yields_pure
    cases kind <;> first | rfl | simp [Kind.strength] at hk

/-- A procedure gets to the result of another one behind some faults, unless it runs out of depth. -/
def Reaches (p : Procedure α) (ts : List Token) (n : List SyntaxError) (o : Outcome α) : Prop :=
  p ts = .exhausted ∨ p ts = o.after n

theorem Reaches.yields {p q : Procedure α} {ts mid rest : List Token} {value : α}
    {n m : List SyntaxError} (h : Reaches p ts n (q mid)) (hq : Yields q mid value m rest) :
    Yields p ts value (n ++ m) rest := by
  unfold Yields at *
  rcases h with h | h
  · exact .inl h
  · rw [h]
    rcases hq with hq | hq <;> rw [hq]
    · exact .inl rfl
    · exact .inr rfl

theorem Yields.reaches_bind {p : Procedure α} {next : α → Procedure β} {ts mid : List Token}
    {value : α} {n : List SyntaxError} (h : Yields p ts value n mid) :
    Reaches (p >>= next) ts n (next value mid) := by
  unfold Reaches
  rcases h with h | h <;> rw [bind_run, h]
  · exact .inl rfl
  · exact .inr rfl

theorem Reaches.trans {p q : Procedure α} {ts mid : List Token} {n m : List SyntaxError}
    {o : Outcome α} (h : Reaches p ts n (q mid)) (hq : Reaches q mid m o) :
    Reaches p ts (n ++ m) o := by
  unfold Reaches at *
  rcases h with h | h
  · exact .inl h
  · rw [h]
    rcases hq with hq | hq <;> rw [hq]
    · exact .inl rfl
    · exact .inr (Outcome.after_append _ _ _).symm

theorem next_append {p : Kind → Prop} {q : Kind → Bool} {us : List Token} (h : Starts q us)
    (hpq : ∀ kind, q kind = true → p kind) (rest : List Token) : Next p (us ++ rest) := by
  obtain ⟨t, us', rfl, ht⟩ := h
  exact (next_cons _ _ _).2 (hpq _ ht)

theorem startsExpression_ne_rightParen {kind : Kind} (h : startsExpression kind = true) :
    kind ≠ .rightParen := by
  rintro rfl
  contradiction

theorem chain_yields {fuel : Nat} {level : Level} {e : Expr} {ts rest : List Token}
    {n : List SyntaxError}
    (h : ∃ fuel', Reaches (chain fuel level) ts n (chainRest fuel' level e rest))
    (hstop : Stops level.rank rest) : Yields (chain fuel level) ts e n rest := by
  obtain ⟨fuel', h⟩ := h
  simpa using h.yields (chainRest_yields fuel' e hstop)

mutual

theorem expression_yields {ts e n} : Expression ts e n → ∀ (fuel : Nat) {rest : List Token},
    Stops 1 rest → Yields (expression fuel) (ts ++ rest) e n rest
  | _, 0, _, _ => yields_exhausted
  | .value h, fuel + 1, rest, hstop => by
    have hequal : Next (· ≠ .equal) rest := hstop.imp fun kind hk => by
      rintro rfl
      simp [Kind.strength] at hk
    have hchain := chain_yields (chain_reaches h fuel (hstop.mono (by decide)))
      (hstop.mono (by decide))
    rw [expression]
    exact hchain.bind_nil (yields_accept_none hequal yields_pure)
  | @Expression.assignment ts us n m equals target value e htarget hequals hvalue he, fuel + 1,
      rest, hstop => by
    have hnext : Stops 2 (equals :: (us ++ rest)) := by simp [Stops, hequals, Kind.strength]
    have hchain := chain_yields (chain_reaches htarget fuel (hnext.mono (by decide))) hnext
    rw [List.append_assoc, List.cons_append, expression]
    refine hchain.bind (yields_accept hequals ?_)
    refine (expression_yields hvalue fuel hstop).bind_nil ?_
    rw [he]
    exact yields_pure
  | @Expression.noTarget ts us n m equals target value htarget hequals hvalue he, fuel + 1,
      rest, hstop => by
    have hnext : Stops 2 (equals :: (us ++ rest)) := by simp [Stops, hequals, Kind.strength]
    have hchain := chain_yields (chain_reaches htarget fuel (hnext.mono (by decide))) hnext
    rw [List.append_assoc, List.cons_append, expression]
    refine hchain.bind (yields_accept hequals ?_)
    refine (expression_yields hvalue fuel hstop).bind ?_
    rw [he]
    exact yields_noteAt yields_pure

theorem chain_reaches {level ts e n} : Chain level ts e n → ∀ (fuel : Nat) {rest : List Token},
    Stops (level.rank + 1) rest →
    ∃ fuel', Reaches (chain fuel level) (ts ++ rest) n (chainRest fuel' level e rest)
  | _, 0, _, _ => ⟨0, .inl rfl⟩
  | .first h, fuel + 1, _, hstop => ⟨fuel, (operand_yields h fuel hstop).reaches_bind⟩
  | @Chain.join _ ts us n m op left right hleft hop hright, fuel + 1, rest, hstop => by
    have hnext : Stops (level.rank + 1) (op :: (us ++ rest)) := by
      simp [Stops, Level.strength_of_mem hop]
    obtain ⟨fuel', hreach⟩ := chain_reaches hleft (fuel + 1) hnext
    rw [List.append_assoc, List.cons_append]
    cases fuel' with
    | zero => exact ⟨0, hreach.trans (.inl rfl)⟩
    | succ fuel' =>
      refine ⟨fuel', hreach.trans ?_⟩
      have hrest : Reaches
          (operand fuel' level >>= fun right => chainRest fuel' level (level.join left op right))
          (us ++ rest) m (chainRest fuel' level (level.join left op right) rest) :=
        (operand_yields hright fuel' hstop).reaches_bind
      unfold Reaches at hrest ⊢
      rwa [chainRest, bind_run, acceptIf_cons (List.contains_iff_mem.2 hop), andThen_ok,
        Outcome.after_nil]

theorem operand_yields {level ts e n} : Operand level ts e n → ∀ (fuel : Nat) {rest : List Token},
    Stops (level.rank + 1) rest → Yields (operand fuel level) (ts ++ rest) e n rest
  | _, 0, _, _ => yields_exhausted
  | @Operand.chain _ next _ _ _ hnext h, fuel + 1, rest, hstop => by
    have hrank := Level.rank_next hnext
    rw [operand, hnext]
    exact chain_yields (chain_reaches h fuel (hstop.mono (by omega))) (hstop.mono (by omega))
  | .unary hnext h, fuel + 1, rest, hstop => by
    have hrank := Level.rank_last hnext
    rw [operand, hnext]
    exact unary_yields h fuel (hstop.mono (by omega))

theorem unary_yields {ts e n} : Unary ts e n → ∀ (fuel : Nat) {rest : List Token},
    Stops 8 rest → Yields (unary fuel) (ts ++ rest) e n rest
  | _, 0, _, _ => yields_exhausted
  | .operator hop h, fuel + 1, rest, hstop => by
    rw [unary]
    refine yields_acceptIf (by simpa using hop) ?_
    exact (unary_yields h fuel hstop).bind_nil yields_pure
  | .call h, fuel + 1, rest, hstop => by
    obtain ⟨fuel', hreach⟩ := call_reaches h fuel rest
    rw [unary]
    refine yields_acceptIf_none (next_append h.starts (fun kind hk => ?_) rest) ?_
    · cases kind <;> first | rfl | contradiction
    · simpa using hreach.yields (callRest_yields fuel' e hstop)

theorem call_reaches {ts e n} : Call ts e n → ∀ (fuel : Nat) (rest : List Token),
    ∃ fuel', Reaches (primary fuel >>= callRest fuel) (ts ++ rest) n (callRest fuel' e rest)
  | .primary h, fuel, _ => ⟨fuel, (primary_yields h fuel).reaches_bind⟩
  | @Call.call ts us n m callee args start paren hcallee hstart hargs hparen, fuel, rest => by
    obtain ⟨fuel', hreach⟩ := call_reaches hcallee fuel (start :: (us ++ paren :: rest))
    simp only [List.append_assoc, List.cons_append, List.nil_append]
    cases fuel' with
    | zero => exact ⟨0, hreach.trans (.inl rfl)⟩
    | succ fuel' =>
      refine ⟨fuel', hreach.trans ?_⟩
      have hrest : Reaches
          (arguments fuel' >>= fun args => require .argumentsEnd >>= fun paren =>
            callRest fuel' (.call callee paren args))
          (us ++ paren :: rest) m ((require .argumentsEnd >>= fun paren =>
            callRest fuel' (.call callee paren args)) (paren :: rest)) :=
        (arguments_yields hargs fuel' rest hparen).reaches_bind
      have hdot : start.kind ≠ .dot := by simp [hstart]
      unfold Reaches at hrest ⊢
      rw [bind_run (require .argumentsEnd), require_cons hparen, andThen_ok,
        Outcome.after_nil] at hrest
      rw [callRest, bind_run, acceptIf_cons (by simp [hstart]), andThen_ok, Outcome.after_nil]
      dsimp only
      rwa [if_neg hdot]
  | @Call.get ts n object dot property hobject hdot hproperty, fuel, rest => by
    obtain ⟨fuel', hreach⟩ := call_reaches hobject fuel (dot :: property :: rest)
    simp only [List.append_assoc, List.cons_append, List.nil_append]
    cases fuel' with
    | zero => exact ⟨0, by simpa using hreach.trans (m := []) (.inl rfl)⟩
    | succ fuel' =>
      have hget : callRest (fuel' + 1) object (dot :: property :: rest) =
          (callRest fuel' (.get object property) rest).after [] := by
        rw [callRest, bind_run, acceptIf_cons (by simp [hdot]), andThen_ok, Outcome.after_nil]
        dsimp only
        rw [if_pos hdot, bind_run, require_cons hproperty, andThen_ok]
      exact ⟨fuel', by simpa using hreach.trans (.inr hget)⟩

theorem arguments_yields {ts args n} : Arguments ts args n →
    ∀ (fuel : Nat) {paren : Token} (rest : List Token), paren.kind = .rightParen →
    Yields (arguments fuel) (ts ++ paren :: rest) args n (paren :: rest)
  | _, 0, _, _, _ => yields_exhausted
  | .none, fuel + 1, paren, rest, hparen => by
    rw [arguments]
    refine yields_peek? ?_
    rw [if_pos (by simp [hparen])]
    exact yields_pure
  | .some h, fuel + 1, paren, rest, hparen => by
    obtain ⟨t, us, hts, ht⟩ := h.starts
    rw [arguments]
    refine yields_peek? ?_
    rw [if_neg (by simpa [hts] using startsExpression_ne_rightParen ht)]
    exact argumentList_yields h fuel rest hparen

theorem argumentList_yields {count ts args n} : ArgumentList count ts args n →
    ∀ (fuel : Nat) {paren : Token} (rest : List Token), paren.kind = .rightParen →
    Yields (argumentList fuel count) (ts ++ paren :: rest) args n (paren :: rest)
  | _, 0, _, _, _ => yields_exhausted
  | .last h, fuel + 1, paren, rest, hparen => by
    have hstop : Stops 1 (paren :: rest) := by simp [Stops, hparen, Kind.strength]
    rw [argumentList_succ, ← h.starts.head?_append (paren :: rest)]
    refine yields_noteExcess ((expression_yields h fuel hstop).bind_nil ?_)
    exact yields_accept_none (by simp [hparen]) yields_pure
  | @ArgumentList.more _ ts us e es n m comma h hcomma hrest, fuel + 1, paren, rest, hparen => by
    have hstop : Stops 1 (comma :: (us ++ paren :: rest)) := by
      simp [Stops, hcomma, Kind.strength]
    rw [List.append_assoc, List.cons_append, argumentList_succ,
      ← h.starts.head?_append (comma :: (us ++ paren :: rest))]
    refine yields_noteExcess ((expression_yields h fuel hstop).bind ?_)
    exact yields_accept hcomma ((argumentList_yields hrest fuel rest hparen).bind_nil yields_pure)

theorem primary_yields {ts e n} : Primary ts e n → ∀ (fuel : Nat) {rest : List Token},
    Yields (primary fuel) (ts ++ rest) e n rest
  | _, 0, _ => yields_exhausted
  | @Primary.literal t h, fuel + 1, rest => by
    rw [primary]
    refine yields_peek? ?_
    simp only [literalKinds, List.mem_cons, List.not_mem_nil, or_false] at h
    rcases h with h | h | h | h | h <;>
    · dsimp only [List.cons_append, List.head?_cons]
      rw [h]
      exact yields_skip yields_pure
  | .var h, fuel + 1, rest => by
    rw [primary]
    refine yields_peek? ?_
    dsimp only [List.cons_append, List.head?_cons]
    rw [h]
    exact yields_skip yields_pure
  | .this h, fuel + 1, rest => by
    rw [primary]
    refine yields_peek? ?_
    dsimp only [List.cons_append, List.head?_cons]
    rw [h]
    exact yields_skip yields_pure
  | .super h hdot hmethod, fuel + 1, rest => by
    rw [primary]
    refine yields_peek? ?_
    dsimp only [List.cons_append, List.head?_cons]
    rw [h]
    exact yields_skip (yields_require hdot (yields_require hmethod yields_pure))
  | @Primary.group start finish ts e n hstart h hfinish, fuel + 1, rest => by
    have hstop : Stops 1 (finish :: rest) := by simp [Stops, hfinish, Kind.strength]
    rw [primary]
    refine yields_peek? ?_
    dsimp only [List.cons_append, List.head?_cons]
    rw [hstart, List.append_assoc, List.cons_append, List.nil_append]
    refine yields_skip ((expression_yields h fuel hstop).bind_nil ?_)
    exact yields_require hfinish yields_pure

end

/-- What ends an optional expression: it neither extends one nor starts one. -/
theorem optionalExpression_yields {ts e n} (h : OptionalExpression ts e n) (fuel : Nat)
    (finish : Token) (rest : List Token) (hstrength : finish.kind.strength = 0)
    (hstarts : startsExpression finish.kind = false) :
    Yields (optionalExpression fuel finish.kind) (ts ++ finish :: rest) e n (finish :: rest) := by
  unfold optionalExpression
  apply yields_peek?
  cases h with
  | none =>
    rw [if_pos (by simp)]
    exact yields_pure
  | some h =>
    obtain ⟨t, us, hts, ht⟩ := h.starts
    have hne : t.kind ≠ finish.kind := by
      intro hkind
      rw [hkind, hstarts] at ht
      contradiction
    have hstop : Stops 1 (finish :: rest) := by simp [Stops, hstrength]
    rw [if_neg (by simpa [hts] using hne)]
    exact (expression_yields h fuel hstop).bind_nil yields_pure

theorem parameterList_yields {count ts params n} (h : ParameterList count ts params n) (fuel : Nat)
    {paren : Token} (rest : List Token) (hparen : paren.kind = .rightParen) :
    Yields (parameterList fuel count) (ts ++ paren :: rest) params n (paren :: rest) := by
  induction h generalizing fuel with
  | @last count t h =>
    cases fuel with
    | zero => exact yields_exhausted
    | succ fuel =>
      have hlast : Yields (parameterList (fuel + 1) count) (t :: paren :: rest) [t]
          (excess count t .tooManyParameters ++ []) (paren :: rest) := by
        rw [parameterList_succ]
        apply yields_noteExcess
        apply yields_require h
        exact yields_accept_none (by simp [hparen]) yields_pure
      simpa using hlast
  | @more count t comma ts params n h hcomma hrest ih =>
    cases fuel with
    | zero => exact yields_exhausted
    | succ fuel =>
      rw [parameterList_succ]
      apply yields_noteExcess
      apply yields_require h
      apply yields_accept hcomma
      exact (ih fuel).bind_nil yields_pure

theorem parameters_yields {ts params n} (h : Parameters ts params n) (fuel : Nat) {paren : Token}
    (rest : List Token) (hparen : paren.kind = .rightParen) :
    Yields (parameters fuel) (ts ++ paren :: rest) params n (paren :: rest) := by
  unfold parameters
  apply yields_peek?
  cases h with
  | none =>
    rw [if_pos (by simp [hparen])]
    exact yields_pure
  | some h =>
    have hnext : ¬ (ts ++ paren :: rest).head?.any (·.kind = .rightParen) = true := by
      cases h with
      | last h => simp [h]
      | more h _ _ => simp [h]
    rw [if_neg hnext]
    exact parameterList_yields h fuel rest hparen

theorem varDecl_yields {ts s n} (h : VarDecl ts s n) (fuel : Nat) (rest : List Token) :
    Yields (varDecl fuel) (ts ++ rest) s n rest := by
  unfold varDecl
  cases h with
  | bare hname hfinish =>
    apply yields_require hname
    apply yields_accept_none (by simp [hfinish])
    exact yields_require hfinish yields_pure
  | @initialized name equals finish ts e n hname hequals h hfinish =>
    have hstop : Stops 1 (finish :: rest) := by simp [Stops, hfinish, Kind.strength]
    simp only [List.cons_append, List.append_assoc, List.nil_append]
    apply yields_require hname
    apply yields_accept hequals
    apply (expression_yields h fuel hstop).bind_nil
    exact yields_require hfinish yields_pure

theorem expressionStatement_yields {ts s n} (h : ExpressionStatement ts s n) (fuel : Nat)
    (rest : List Token) : Yields (expressionStatement fuel) (ts ++ rest) s n rest := by
  unfold expressionStatement
  obtain ⟨h, hfinish⟩ := h
  rename_i ts e finish
  have hstop : Stops 1 (finish :: rest) := by simp [Stops, hfinish, Kind.strength]
  simp only [List.append_assoc, List.cons_append, List.nil_append]
  apply (expression_yields h fuel hstop).bind_nil
  exact yields_require hfinish yields_pure

theorem forInitializer_yields {ts s n} (h : ForInitializer ts s n) (fuel : Nat) (rest : List Token) :
    Yields (forInitializer fuel) (ts ++ rest) s n rest := by
  unfold forInitializer
  cases h with
  | none hfinish =>
    apply yields_acceptIf (by simp [hfinish])
    dsimp only
    rw [if_neg (by simp [hfinish])]
    exact yields_pure
  | var hkeyword h =>
    apply yields_acceptIf (by simp [hkeyword])
    dsimp only
    rw [if_pos hkeyword]
    exact (varDecl_yields h fuel rest).bind_nil yields_pure
  | expr h =>
    apply yields_acceptIf_none
    · refine next_append h.starts (fun kind hkind => ?_) rest
      cases kind <;> first | rfl | contradiction
    · exact (expressionStatement_yields h fuel rest).bind_nil yields_pure

theorem superclassClause_yields {ts parent} (h : Superclass ts parent) {start : Token}
    (rest : List Token) (hstart : start.kind = .leftBrace) :
    Yields superclassClause (ts ++ start :: rest) parent [] (start :: rest) := by
  unfold superclassClause
  cases h with
  | none => exact yields_accept_none (by simp [hstart]) yields_pure
  | some hless hparent => exact yields_accept hless (yields_require hparent yields_pure)

theorem next_ne_else {ts body n} (h : Declarations ts body n) {rest : List Token}
    (hrest : Next (· ≠ .kwElse) rest) : Next (· ≠ .kwElse) (ts ++ rest) := by
  cases h with
  | nil => exact hrest
  | cons h hrest =>
    rw [List.append_assoc]
    refine next_append h.starts (fun kind hkind => ?_) _
    rintro rfl
    contradiction

mutual

theorem statement_yields {isOpen ts s n} : Statement isOpen ts s n → ∀ (fuel : Nat)
    {rest : List Token}, (isOpen = true → Next (· ≠ .kwElse) rest) →
    Yields (statement fuel) (ts ++ rest) s n rest
  | _, 0, _, _ => yields_exhausted
  | @Statement.ifThen keyword start finish ts us c yes n m isOpen hkeyword hstart hc hfinish hyes,
      fuel + 1, rest, hend => by
    have hstop : Stops 1 (finish :: (us ++ rest)) := by simp [Stops, hfinish, Kind.strength]
    simp only [List.cons_append, List.append_assoc]
    rw [statement]
    apply yields_peek?
    dsimp only [List.head?_cons]
    rw [hkeyword]
    apply yields_skip
    apply yields_require hstart
    apply (expression_yields hc fuel hstop).bind
    apply yields_require hfinish
    apply (statement_yields hyes fuel fun _ => hend rfl).bind_nil
    exact yields_accept_none (hend rfl) yields_pure
  | @Statement.ifElse keyword start finish els ts us vs c yes no n m k isOpen hkeyword hstart hc
      hfinish hyes hels hno, fuel + 1, rest, hend => by
    have hstop : Stops 1 (finish :: (us ++ els :: (vs ++ rest))) := by
      simp [Stops, hfinish, Kind.strength]
    simp only [List.cons_append, List.append_assoc]
    rw [statement]
    apply yields_peek?
    dsimp only [List.head?_cons]
    rw [hkeyword]
    apply yields_skip
    apply yields_require hstart
    apply (expression_yields hc fuel hstop).bind
    apply yields_require hfinish
    apply (statement_yields hyes fuel nofun).bind
    apply yields_accept hels
    exact (statement_yields hno fuel hend).bind_nil yields_pure
  | @Statement.print keyword finish ts e n hkeyword h hfinish, fuel + 1, rest, _ => by
    have hstop : Stops 1 (finish :: rest) := by simp [Stops, hfinish, Kind.strength]
    simp only [List.cons_append, List.append_assoc, List.nil_append]
    rw [statement]
    apply yields_peek?
    dsimp only [List.head?_cons]
    rw [hkeyword]
    apply yields_skip
    apply (expression_yields h fuel hstop).bind_nil
    exact yields_require hfinish yields_pure
  | @Statement.ret keyword finish ts e n hkeyword h hfinish, fuel + 1, rest, _ => by
    have hvalue := optionalExpression_yields h fuel finish rest
      (by simp [hfinish, Kind.strength]) (by simp [hfinish, startsExpression, startsPrimary])
    rw [hfinish] at hvalue
    simp only [List.cons_append, List.append_assoc, List.nil_append]
    rw [statement]
    apply yields_peek?
    dsimp only [List.head?_cons]
    rw [hkeyword]
    apply yields_skip
    apply hvalue.bind_nil
    exact yields_require hfinish yields_pure
  | @Statement.whileLoop keyword start finish ts us c body n m isOpen hkeyword hstart hc hfinish
      hbody, fuel + 1, rest, hend => by
    have hstop : Stops 1 (finish :: (us ++ rest)) := by simp [Stops, hfinish, Kind.strength]
    simp only [List.cons_append, List.append_assoc]
    rw [statement]
    apply yields_peek?
    dsimp only [List.head?_cons]
    rw [hkeyword]
    apply yields_skip
    apply yields_require hstart
    apply (expression_yields hc fuel hstop).bind
    apply yields_require hfinish
    exact (statement_yields hbody fuel hend).bind_nil yields_pure
  | @Statement.forLoop keyword start middle finish ts us vs ws init c inc body n m k l isOpen
      hkeyword hstart hinit hc hmiddle hinc hfinish hbody, fuel + 1, rest, hend => by
    have hcondition := optionalExpression_yields hc fuel middle (vs ++ finish :: (ws ++ rest))
      (by simp [hmiddle, Kind.strength])
      (by simp [hmiddle, startsExpression, startsPrimary])
    have hincrement := optionalExpression_yields hinc fuel finish (ws ++ rest)
      (by simp [hfinish, Kind.strength]) (by simp [hfinish, startsExpression, startsPrimary])
    rw [hmiddle] at hcondition
    rw [hfinish] at hincrement
    simp only [List.cons_append, List.append_assoc]
    rw [statement]
    apply yields_peek?
    dsimp only [List.head?_cons]
    rw [hkeyword]
    apply yields_skip
    apply yields_require hstart
    apply (forInitializer_yields hinit fuel _).bind
    apply hcondition.bind
    apply yields_require hmiddle
    apply hincrement.bind
    apply yields_require hfinish
    exact (statement_yields hbody fuel hend).bind_nil yields_pure
  | .block h, fuel + 1, rest, _ => by
    obtain ⟨start, us, rfl, hstart, hblock⟩ := block_yields h fuel rest
    rw [List.cons_append, statement]
    apply yields_peek?
    dsimp only [List.head?_cons]
    rw [hstart]
    apply yields_skip
    exact hblock.bind_nil yields_pure
  | .expr h, fuel + 1, rest, _ => by
    have hexpr := expressionStatement_yields h fuel rest
    obtain ⟨t, us, rfl, ht⟩ := h.starts
    rw [statement]
    apply yields_peek?
    dsimp only [List.cons_append, List.head?_cons] at hexpr ⊢
    split
    case h_7 => exact hexpr
    all_goals
      rename_i hkind
      rw [hkind] at ht
      contradiction

theorem block_yields {ts body n} : Block ts body n → ∀ (fuel : Nat) (rest : List Token),
    ∃ start us, ts = start :: us ∧ start.kind = .leftBrace ∧
      Yields (block fuel) (us ++ rest) body n rest
  | .mk hstart _ _, 0, _ => ⟨_, _, rfl, hstart, yields_exhausted⟩
  | @Block.mk start finish ts body n hstart h hfinish, fuel + 1, rest => by
    refine ⟨start, ts ++ [finish], rfl, hstart, ?_⟩
    simp only [List.append_assoc, List.cons_append, List.nil_append]
    rw [block]
    apply (declarations_yields h fuel (finish :: rest) (by simp [hfinish])).bind_nil
    exact yields_require hfinish yields_pure

theorem declarations_yields {ts body n} : Declarations ts body n → ∀ (fuel : Nat)
    (rest : List Token), Next (· = .rightBrace) rest →
    Yields (declarations fuel) (ts ++ rest) body n rest
  | _, 0, _, _ => yields_exhausted
  | .nil, fuel + 1, rest, hend => by
    rw [declarations]
    apply yields_peek?
    rw [if_pos (by cases rest <;> simp_all)]
    exact yields_pure
  | @Declarations.cons ts us s body n m h hbody, fuel + 1, rest, hend => by
    have hseam : Next (· ≠ .kwElse) rest := hend.imp fun kind hkind => by simp [hkind]
    have hfirst := declaration_yields h fuel _ (next_ne_else hbody hseam)
    obtain ⟨t, ts', rfl, ht⟩ := h.starts
    have hbrace : t.kind ≠ .rightBrace := by
      intro hkind
      rw [hkind] at ht
      contradiction
    rw [List.append_assoc, declarations]
    apply yields_peek?
    rw [if_neg (by simpa using hbrace)]
    apply hfirst.bind
    exact (declarations_yields hbody fuel rest hend).bind_nil yields_pure

theorem declaration_yields {ts s n} : Declaration ts s n → ∀ (fuel : Nat) (rest : List Token),
    Next (· ≠ .kwElse) rest → Yields (declaration fuel) (ts ++ rest) (some s) n rest
  | _, 0, _, _ => yields_exhausted
  | @Declaration.cls keyword name start finish parents ts superclass members n hkeyword hname
      hparents hstart h hfinish, fuel + 1, rest, _ => by
    have hclass : Yields (classDecl fuel)
        (name :: (parents ++ start :: (ts ++ finish :: rest))) (.classDecl name superclass members)
        n rest := by
      cases fuel with
      | zero => exact yields_exhausted
      | succ fuel =>
        rw [classDecl]
        apply yields_require hname
        apply (superclassClause_yields hparents _ hstart).bind
        apply yields_require hstart
        apply (methods_yields h fuel rest hfinish).bind_nil
        exact yields_require hfinish yields_pure
    simp only [List.cons_append, List.append_assoc, List.nil_append]
    rw [declaration]
    apply Yields.recover
    apply yields_acceptIf (by simp [hkeyword])
    dsimp only
    rw [hkeyword]
    exact hclass
  | .function hkeyword h, fuel + 1, rest, _ => by
    rw [List.cons_append, declaration]
    apply Yields.recover
    apply yields_acceptIf (by simp [hkeyword])
    dsimp only
    rw [hkeyword]
    exact (function_yields h fuel .function rest).bind_nil yields_pure
  | .var hkeyword h, fuel + 1, rest, _ => by
    rw [List.cons_append, declaration]
    apply Yields.recover
    apply yields_acceptIf (by simp [hkeyword])
    dsimp only
    rw [hkeyword]
    exact varDecl_yields h fuel rest
  | .statement h, fuel + 1, rest, hend => by
    rw [declaration]
    apply Yields.recover
    apply yields_acceptIf_none
    · refine next_append h.starts (fun kind hkind => ?_) rest
      cases kind <;> first | rfl | contradiction
    · exact statement_yields h fuel fun _ => hend

theorem methods_yields {ts members n} : Methods ts members n → ∀ (fuel : Nat) {finish : Token}
    (rest : List Token), finish.kind = .rightBrace →
    Yields (methods fuel) (ts ++ finish :: rest) members n (finish :: rest)
  | _, 0, _, _, _ => yields_exhausted
  | .nil, fuel + 1, finish, rest, hfinish => by
    rw [methods]
    apply yields_peek?
    rw [if_pos (by simp [hfinish])]
    exact yields_pure
  | @Methods.cons ts us f members n m h hmembers, fuel + 1, finish, rest, hfinish => by
    have hfirst := function_yields h fuel .method (us ++ finish :: rest)
    obtain ⟨t, ts', rfl, ht⟩ := h.starts
    have hname : t.kind = .identifier := of_decide_eq_true ht
    rw [List.append_assoc, methods]
    apply yields_peek?
    rw [if_neg (by simp [hname])]
    apply hfirst.bind
    exact (methods_yields hmembers fuel rest hfinish).bind_nil yields_pure

theorem function_yields {ts f n} : Function ts f n → ∀ (fuel : Nat) (role : Role)
    (rest : List Token), Yields (function fuel role) (ts ++ rest) f n rest
  | _, 0, _, _ => yields_exhausted
  | @Function.mk name start finish ts us params body n m hname hstart hparams hfinish hbody,
      fuel + 1, role, rest => by
    obtain ⟨brace, us', rfl, hbrace, hblock⟩ := block_yields hbody fuel rest
    simp only [List.cons_append, List.append_assoc]
    rw [function]
    apply yields_require hname
    apply yields_require hstart
    apply (parameters_yields hparams fuel _ hfinish).bind
    apply yields_require hfinish
    apply yields_require hbrace
    exact hblock.bind_nil yields_pure

end

theorem program_yields {ts statements n} : Program ts statements n → ∀ (fuel : Nat),
    Yields (program fuel) ts statements n []
  | _, 0 => yields_exhausted
  | .nil, fuel + 1 => by
    rw [program]
    apply yields_peek?
    exact yields_pure
  | @Declarations.cons ts us s statements n m h hrest, fuel + 1 => by
    have hfirst := declaration_yields h fuel us
      (by simpa using next_ne_else hrest (next_nil _))
    obtain ⟨t, ts', rfl, ht⟩ := h.starts
    rw [program]
    apply yields_peek?
    rw [if_neg (by simp)]
    apply hfirst.bind
    exact (program_yields hrest fuel).bind_nil yields_pure

end Parse

end Lox
