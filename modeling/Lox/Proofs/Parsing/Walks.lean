import Lox.Proofs.Parsing.Cursor
import Lox.Proofs.Parsing.Recovery

/-!
Rules for cursors. A cursor on the tokens of a source and their end does what a procedure does with the
tokens behind its position, and goes forward over them: so do the primitives of the two, and so do sequences
and recoveries of what does.
-/
namespace Lox

namespace Parse

variable {α β : Type}

/-- A course that leads forward inside the tokens without a gap and gets on with every declaration. -/
structure Course.Forward (tokens : List Token) (start finish : Nat) (c : Course) : Prop where
  le : start ≤ finish
  inside : finish ≤ tokens.length
  sorted : c.positions.Pairwise (· ≤ ·)
  within : ∀ k ∈ c.positions, start ≤ k ∧ k ≤ finish
  gapless : ∀ k, start < k → k ≤ finish → k ∈ c.positions
  progress : ∀ d ∈ c.declarations, d.start < tokens.length → d.start < d.finish

/-- A cursor comes to what a procedure comes to, having moved by at least `count` if it does not fail. -/
inductive Agrees (tokens : List Token) (start count : Nat) : Walk α → Outcome α → Prop
  | ok {value noted finish course} (hcount : start + count ≤ finish)
      (h : course.Forward tokens start finish) :
      Agrees tokens start count ⟨.ok value noted, finish, course⟩
        (.ok value noted (tokens.drop finish))
  | fail {error noted finish course} (h : course.Forward tokens start finish) :
      Agrees tokens start count ⟨.fail error noted, finish, course⟩
        (.fail error noted (tokens.drop finish))
  | exhausted {walk} : Agrees tokens start count walk .exhausted

/-- From a position in the tokens, a cursor does what a procedure does with the tokens behind it. -/
def Walks (tokens : List Token) (start count : Nat) (q : Cursor α) (p : Procedure α) : Prop :=
  start ≤ tokens.length → Agrees tokens start count (q (stream tokens) start) (p (tokens.drop start))

namespace Course

theorem Forward.append {tokens : List Token} {start mid finish : Nat} {c d : Course}
    (hc : c.Forward tokens start mid) (hd : d.Forward tokens mid finish) :
    (c ++ d).Forward tokens start finish := by
  refine ⟨Nat.le_trans hc.le hd.le, hd.inside, ?_, ?_, ?_, ?_⟩
  · refine List.pairwise_append.2 ⟨hc.sorted, hd.sorted, fun k hk m hm => ?_⟩
    exact Nat.le_trans (hc.within k hk).2 (hd.within m hm).1
  · intro k hk
    rcases List.mem_append.1 hk with hk | hk
    · exact ⟨(hc.within k hk).1, Nat.le_trans (hc.within k hk).2 hd.le⟩
    · exact ⟨Nat.le_trans hc.le (hd.within k hk).1, (hd.within k hk).2⟩
  · intro k hk hk'
    apply List.mem_append.2
    by_cases hmid : k ≤ mid
    · exact .inl (hc.gapless k hk hmid)
    · exact .inr (hd.gapless k (Nat.lt_of_not_le hmid) hk')
  · intro d hd'
    rcases List.mem_append.1 hd' with h | h
    · exact hc.progress d h
    · exact hd.progress d h

theorem forward_stay {tokens : List Token} {start : Nat} {positions : List Nat}
    (h : start ≤ tokens.length) (hsorted : positions.Pairwise (· ≤ ·))
    (hsame : ∀ k ∈ positions, k = start) : Forward tokens start start ⟨positions, []⟩ where
  le := Nat.le_refl start
  inside := h
  sorted := hsorted
  within k hk := by rw [hsame k hk]; exact ⟨Nat.le_refl start, Nat.le_refl start⟩
  gapless k hk hk' := absurd hk' (Nat.not_le_of_lt hk)
  progress _ hd := absurd hd List.not_mem_nil

theorem forward_step {tokens : List Token} {start : Nat} {positions : List Nat}
    (h : start < tokens.length) (hsorted : positions.Pairwise (· ≤ ·))
    (hwithin : ∀ k ∈ positions, k = start ∨ k = start + 1) (hmoved : start + 1 ∈ positions) :
    Forward tokens start (start + 1) ⟨positions, []⟩ where
  le := Nat.le_succ start
  inside := h
  sorted := hsorted
  within k hk := by
    have hk' := hwithin k hk
    omega
  gapless k hk hk' := by
    have hk'' : k = start + 1 := by omega
    rwa [hk'']
  progress _ hd := absurd hd List.not_mem_nil

end Course

section Rules

variable {tokens : List Token} {start first count : Nat}

theorem Agrees.behind {mid : Nat} {noted : List SyntaxError} {course : Course} {walk : Walk α}
    {o : Outcome α} (hfirst : start + first ≤ mid) (hcourse : course.Forward tokens start mid)
    (h : Agrees tokens mid (count - first) walk o) :
    Agrees tokens start count (walk.behind noted course) (o.after noted) := by
  cases h with
  | @ok _ _ finish _ hcount h =>
    have hboth : start + count ≤ finish := by omega
    exact .ok hboth (hcourse.append h)
  | fail h => exact .fail (hcourse.append h)
  | exhausted => exact .exhausted

theorem Walks.bind {q : Cursor α} {p : Procedure α} {next : α → Cursor β} {next' : α → Procedure β}
    (h : Walks tokens start first q p)
    (hnext : ∀ value mid, start + first ≤ mid →
      Walks tokens mid (count - first) (next value) (next' value)) :
    Walks tokens start count (q >>= next) (p >>= next') := by
  intro hstart
  have hp := h hstart
  change Agrees tokens start count (Cursor.bind q next (stream tokens) start)
    ((p (tokens.drop start)).andThen next')
  unfold Cursor.bind
  generalize q (stream tokens) start = walk, p (tokens.drop start) = o at hp
  cases hp with
  | ok hcount hcourse => exact (hnext _ _ hcount hcourse.inside).behind hcount hcourse
  | fail hcourse => exact .fail hcourse
  | exhausted => exact .exhausted

theorem Walks.mono {q : Cursor α} {p : Procedure α} {less : Nat} (h : Walks tokens start count q p)
    (hless : less ≤ count) : Walks tokens start less q p := by
  intro hstart
  have hp := h hstart
  generalize q (stream tokens) start = walk, p (tokens.drop start) = o at hp ⊢
  cases hp with
  | ok hcount hcourse => exact .ok (by omega) hcourse
  | fail hcourse => exact .fail hcourse
  | exhausted => exact .exhausted

theorem walks_exhausted {q : Cursor α} : Walks tokens start count q exhausted := fun _ => .exhausted

theorem walks_pure (value : α) : Walks tokens start 0 (pure value) (pure value) := fun hstart =>
  .ok (Nat.le_refl _) (Course.forward_stay hstart .nil (by simp))

theorem Walks.ite {q q' : Cursor α} {p p' : Procedure α} {c : Prop} [Decidable c]
    (h : Walks tokens start count q p) (h' : Walks tokens start count q' p') :
    Walks tokens start count (if c then q else q') (if c then p else p') := by
  split
  · exact h
  · exact h'

theorem stream_getElem? {k : Nat} (h : k ≤ tokens.length) : (stream tokens)[k]? = some tokens[k]? := by
  unfold stream
  rcases Nat.lt_or_eq_of_le h with h | rfl
  · rw [List.getElem?_append_left (by simpa using h), List.getElem?_map, List.getElem?_eq_getElem h]
    rfl
  · simp

theorem peek?_walk (h : start ≤ tokens.length) :
    Cursor.peek? (stream tokens) start = ⟨.ok tokens[start]? [], start, ⟨[start], []⟩⟩ := by
  unfold Cursor.peek? Cursor.read
  rw [Nat.sub_zero, stream_getElem? h]

theorem previous?_walk (h : start ≤ tokens.length) :
    Cursor.previous? (stream tokens) start = ⟨.ok tokens[start - 1]? [], start, ⟨[start], []⟩⟩ := by
  unfold Cursor.previous? Cursor.read
  rw [stream_getElem? (by omega)]

theorem bind_walk {q : Cursor α} {next : α → Cursor β} {stream : List (Option Token)} {mid : Nat}
    {value : α} {noted : List SyntaxError} {course : Course}
    (h : q stream start = ⟨.ok value noted, mid, course⟩) :
    (q >>= next) stream start = (next value stream mid).behind noted course := by
  change Cursor.bind q next stream start = _
  unfold Cursor.bind
  rw [h]

theorem walks_of_walk {q : Cursor α} {p : Procedure α} {next : α → Cursor β} {next' : α → Procedure β}
    {value : α} {noted : List SyntaxError} {mid : Nat} {course : Course} (hfirst : start + first = mid)
    (hcourse : course.Forward tokens start mid)
    (hq : q (stream tokens) start = ⟨.ok value noted, mid, course⟩)
    (hp : p (tokens.drop start) = .ok value noted (tokens.drop mid))
    (hnext : Walks tokens mid (count - first) (next value) (next' value)) :
    Walks tokens start count (q >>= next) (p >>= next') := by
  intro _
  rw [bind_walk hq, bind_run, hp, andThen_ok]
  exact (hnext hcourse.inside).behind (Nat.le_of_eq hfirst) hcourse

theorem forward_still (h : start ≤ tokens.length) : Course.Forward tokens start start ⟨[start], []⟩ :=
  Course.forward_stay h (by simp) (by simp)

theorem walks_peek? {next : Option Token → Cursor β} {next' : Option Token → Procedure β}
    (h : Walks tokens start count (next tokens[start]?) (next' tokens[start]?)) :
    Walks tokens start count (Cursor.peek? >>= next) (peek? >>= next') := by
  intro hstart
  refine walks_of_walk (Nat.add_zero start) (forward_still hstart) (peek?_walk hstart) ?_ h hstart
  rw [peek?_run, List.head?_drop]

theorem advance_walk {t : Token} (h : tokens[start]? = some t) :
    Cursor.advance (stream tokens) start =
      ⟨.ok (some t) [], start + 1, ⟨[start, start + 1, start + 1], []⟩⟩ := by
  have hlt : start + 1 ≤ tokens.length := (List.getElem?_eq_some_iff.1 h).1
  have hprevious : Cursor.previous? (stream tokens) (start + 1) =
      ⟨.ok (some t) [], start + 1, ⟨[start + 1], []⟩⟩ := by
    rw [previous?_walk hlt, Nat.add_sub_cancel, h]
  unfold Cursor.advance
  rw [bind_walk (peek?_walk (Nat.le_of_lt hlt)), h]
  dsimp only [Option.isSome_some]
  rw [if_pos rfl, bind_walk (q := Cursor.move) rfl, hprevious]
  rfl

theorem advance_walk_end (h : tokens[start]? = none) (hstart : start ≤ tokens.length) :
    Cursor.advance (stream tokens) start =
      ⟨.ok tokens[start - 1]? [], start, ⟨[start, start], []⟩⟩ := by
  unfold Cursor.advance
  rw [bind_walk (peek?_walk hstart), h]
  dsimp only [Option.isSome_none]
  rw [if_neg Bool.false_ne_true, previous?_walk hstart]
  rfl

theorem skip_walk {t : Token} (h : tokens[start]? = some t) :
    Cursor.skip (stream tokens) start = ⟨.ok () [], start + 1, ⟨[start, start + 1, start + 1], []⟩⟩ := by
  unfold Cursor.skip
  rw [bind_walk (advance_walk h)]
  rfl

theorem check_walk (p : Kind → Bool) (h : start ≤ tokens.length) :
    Cursor.check p (stream tokens) start =
      ⟨.ok (tokens[start]?.any (p ·.kind)) [], start, ⟨[start], []⟩⟩ := by
  unfold Cursor.check
  rw [bind_walk (peek?_walk h)]
  rfl

theorem acceptIf_walk {p : Kind → Bool} {t : Token} (h : tokens[start]? = some t)
    (hp : p t.kind = true) :
    Cursor.acceptIf p (stream tokens) start =
      ⟨.ok (some t) [], start + 1, ⟨[start, start, start + 1, start + 1], []⟩⟩ := by
  have hstart : start ≤ tokens.length := Nat.le_of_lt (List.getElem?_eq_some_iff.1 h).1
  unfold Cursor.acceptIf
  rw [bind_walk (check_walk p hstart), h]
  dsimp only [Option.any_some]
  rw [if_pos hp, advance_walk h]
  rfl

theorem acceptIf_walk_none {p : Kind → Bool} (h : tokens[start]?.any (p ·.kind) = false)
    (hstart : start ≤ tokens.length) :
    Cursor.acceptIf p (stream tokens) start = ⟨.ok none [], start, ⟨[start], []⟩⟩ := by
  unfold Cursor.acceptIf
  rw [bind_walk (check_walk p hstart), h, if_neg Bool.false_ne_true]
  rfl

theorem drop_eq_cons {t : Token} (h : tokens[start]? = some t) :
    tokens.drop start = t :: tokens.drop (start + 1) := by
  obtain ⟨hlt, rfl⟩ := List.getElem?_eq_some_iff.1 h
  exact List.drop_eq_getElem_cons hlt

theorem walks_skip {t : Token} {next : Unit → Cursor β} {next' : Unit → Procedure β}
    (ht : tokens[start]? = some t)
    (h : Walks tokens (start + 1) (count - 1) (next ()) (next' ())) :
    Walks tokens start count (Cursor.skip >>= next) (skip >>= next') := by
  have hlt : start < tokens.length := (List.getElem?_eq_some_iff.1 ht).1
  refine walks_of_walk rfl (Course.forward_step hlt (by simp) (by simp) (by simp)) (skip_walk ht) ?_ h
  rw [skip_run, drop_eq_cons ht, List.tail_cons]

theorem walks_acceptIf {p : Kind → Bool} {next : Option Token → Cursor β}
    {next' : Option Token → Procedure β}
    (hsome : ∀ t, tokens[start]? = some t → p t.kind = true →
      Walks tokens (start + 1) (count - 1) (next (some t)) (next' (some t)))
    (hnone : Walks tokens start count (next none) (next' none)) :
    Walks tokens start count (Cursor.acceptIf p >>= next) (acceptIf p >>= next') := by
  intro hstart
  cases h : tokens[start]?.any (p ·.kind) with
  | true =>
    obtain ⟨t, ht, hp⟩ := (Option.any_eq_true _ _).1 h
    have hlt : start < tokens.length := (List.getElem?_eq_some_iff.1 ht).1
    refine walks_of_walk rfl (Course.forward_step hlt (by simp) (by simp) (by simp)) (acceptIf_walk ht hp) ?_
      (hsome t ht hp) hstart
    rw [drop_eq_cons ht, acceptIf_cons hp]
  | false =>
    refine walks_of_walk (Nat.add_zero start) (forward_still hstart) (acceptIf_walk_none h hstart) ?_
      hnone hstart
    apply acceptIf_of_next
    unfold Next
    rw [List.head?_drop]
    intro t ht
    simpa [Option.mem_def.1 ht] using h

theorem walks_accept {kind : Kind} {next : Option Token → Cursor β}
    {next' : Option Token → Procedure β}
    (hsome : ∀ t, Walks tokens (start + 1) (count - 1) (next (some t)) (next' (some t)))
    (hnone : Walks tokens start count (next none) (next' none)) :
    Walks tokens start count (Cursor.accept kind >>= next) (accept kind >>= next') :=
  walks_acceptIf (fun t _ _ => hsome t) hnone

theorem fail_walk (fault : SyntaxFault) (h : start ≤ tokens.length) :
    (Cursor.fail fault : Cursor α) (stream tokens) start =
      ⟨.fail ⟨tokens[start]?, fault⟩ [], start, ⟨[start], []⟩⟩ := by
  unfold Cursor.fail
  rw [bind_walk (peek?_walk h)]
  rfl

theorem walks_fail (fault : SyntaxFault) :
    Walks tokens start count (Cursor.fail fault : Cursor α) (fail fault) := by
  intro hstart
  rw [fail_walk fault hstart, fail_run, List.head?_drop]
  exact .fail (forward_still hstart)

theorem require_walk {what : Expectation} {t : Token} (h : tokens[start]? = some t)
    (hkind : t.kind = what.kind) :
    Cursor.require what (stream tokens) start =
      ⟨.ok t [], start + 1, ⟨[start, start, start + 1, start + 1], []⟩⟩ := by
  unfold Cursor.require
  rw [bind_walk (acceptIf_walk h (decide_eq_true hkind))]
  rfl

theorem require_walk_fail {what : Expectation} (h : tokens[start]?.any (·.kind = what.kind) = false)
    (hstart : start ≤ tokens.length) :
    Cursor.require what (stream tokens) start =
      ⟨.fail ⟨tokens[start]?, .expected what⟩ [], start, ⟨[start, start], []⟩⟩ := by
  unfold Cursor.require
  rw [bind_walk (acceptIf_walk_none h hstart)]
  dsimp only
  rw [fail_walk _ hstart]
  rfl

theorem require_walks (what : Expectation) :
    Walks tokens start 1 (Cursor.require what) (require what) := by
  intro hstart
  cases h : tokens[start]?.any (·.kind = what.kind) with
  | true =>
    obtain ⟨t, ht, hkind⟩ := (Option.any_eq_true _ _).1 h
    have hlt : start < tokens.length := (List.getElem?_eq_some_iff.1 ht).1
    rw [require_walk ht (of_decide_eq_true hkind), drop_eq_cons ht,
      require_cons (of_decide_eq_true hkind)]
    exact .ok (Nat.le_refl _) (Course.forward_step hlt (by simp) (by simp) (by simp))
  | false =>
    have hrun : require what (tokens.drop start) =
        .fail ⟨tokens[start]?, .expected what⟩ [] (tokens.drop start) := by
      rcases require_cases what (tokens.drop start) with ⟨t, rest, hts, hkind, -⟩ | hrun
      · rw [← List.head?_drop, hts] at h
        simp [hkind] at h
      · rw [hrun, List.head?_drop]
    rw [require_walk_fail h hstart, hrun]
    exact .fail (Course.forward_stay hstart (by simp) (by simp))

theorem walks_require {what : Expectation} {next : Token → Cursor β} {next' : Token → Procedure β}
    (h : ∀ t mid, Walks tokens mid (count - 1) (next t) (next' t)) :
    Walks tokens start count (Cursor.require what >>= next) (require what >>= next') :=
  (require_walks what).bind fun t mid _ => h t mid

theorem walks_noteAt {t : Token} {fault : SyntaxFault} {next : Unit → Cursor β}
    {next' : Unit → Procedure β} (h : Walks tokens start count (next ()) (next' ())) :
    Walks tokens start count (Cursor.noteAt t fault >>= next) (noteAt t fault >>= next') := by
  intro hstart
  exact walks_of_walk (Nat.add_zero start)
    (Course.forward_stay hstart .nil (by simp)) rfl rfl h hstart

theorem note_walk (fault : SyntaxFault) (h : start ≤ tokens.length) :
    Cursor.note fault (stream tokens) start =
      ⟨.ok () [⟨tokens[start]?, fault⟩], start, ⟨[start], []⟩⟩ := by
  unfold Cursor.note
  rw [bind_walk (peek?_walk h)]
  rfl

theorem walks_note {fault : SyntaxFault} {next : Unit → Cursor β} {next' : Unit → Procedure β}
    (h : Walks tokens start count (next ()) (next' ())) :
    Walks tokens start count (Cursor.note fault >>= next) (note fault >>= next') := by
  intro hstart
  refine walks_of_walk (Nat.add_zero start) (forward_still hstart) (note_walk fault hstart) ?_ h hstart
  rw [← List.head?_drop]
  rfl

theorem walks_excess {arity : Nat} {fault : SyntaxFault} {q : Cursor α} {p : Procedure α}
    (h : Walks tokens start count q p) :
    Walks tokens start count (if maxArity ≤ arity then Cursor.note fault >>= fun _ => q else q)
      (if maxArity ≤ arity then note fault >>= fun _ => p else p) :=
  Walks.ite (walks_note h) h

theorem seek_walk {fuel : Nat} {t : Token} (ht : tokens[start]? = some t)
    (hfuel : tokens.length ≤ start + fuel) :
    ∃ finish course, Cursor.seek fuel (stream tokens) (start + 1) = ⟨.ok () [], finish, course⟩ ∧
      course.Forward tokens (start + 1) finish ∧
      tokens.drop finish = synchronize (tokens.drop start) := by
  induction fuel generalizing start t with
  | zero =>
    have hlt := (List.getElem?_eq_some_iff.1 ht).1
    omega
  | succ fuel ih =>
    -- The cursor stands behind `t`, which the parser is about to drop.
    have hlt : start + 1 ≤ tokens.length := (List.getElem?_eq_some_iff.1 ht).1
    have hprevious := previous?_walk hlt
    rw [Nat.add_sub_cancel, ht] at hprevious
    have hstill := forward_still hlt
    rw [Cursor.seek, bind_walk (peek?_walk hlt), drop_eq_cons ht, synchronize]
    cases hu : tokens[start + 1]? with
    | none =>
      have hdrop : tokens.drop (start + 1) = [] :=
        List.drop_eq_nil_iff.2 (List.getElem?_eq_none_iff.1 hu)
      refine ⟨start + 1, _, rfl, hstill, ?_⟩
      rw [hdrop]
      split <;> rfl
    | some u =>
      dsimp only [Option.isNone_some]
      rw [if_neg Bool.false_ne_true, bind_walk hprevious]
      by_cases hsemicolon : t.kind = .semicolon
      · dsimp only [Option.any_some]
        rw [if_pos (decide_eq_true hsemicolon), if_pos hsemicolon]
        exact ⟨start + 1, _, rfl, hstill.append hstill, rfl⟩
      · dsimp only [Option.any_some]
        rw [if_neg (by simpa using hsemicolon), if_neg hsemicolon,
          bind_walk (check_walk startsStatement hlt), List.head?_drop, hu]
        dsimp only [Option.any_some]
        by_cases hstarts : startsStatement u.kind = true
        · rw [if_pos hstarts, if_pos hstarts]
          exact ⟨start + 1, _, rfl, hstill.append (hstill.append hstill), rfl⟩
        · obtain ⟨finish, course, hseek, hforward, hdrop⟩ := ih hu (by omega)
          have hlt' : start + 1 < tokens.length := (List.getElem?_eq_some_iff.1 hu).1
          have hskip : Course.Forward tokens (start + 1) (start + 1 + 1)
              ⟨[start + 1, start + 1 + 1, start + 1 + 1], []⟩ :=
            Course.forward_step hlt' (by simp) (by simp) (by simp)
          rw [if_neg hstarts, if_neg hstarts, bind_walk (skip_walk hu), hseek]
          exact ⟨finish, _, rfl, hstill.append (hstill.append (hstill.append (hskip.append hforward))),
            hdrop⟩

theorem synchronize_walk (hstart : start ≤ tokens.length) :
    ∃ finish course, Cursor.synchronize (stream tokens) start = ⟨.ok () [], finish, course⟩ ∧
      course.Forward tokens start finish ∧ tokens.drop finish = synchronize (tokens.drop start) ∧
      (start < tokens.length → start < finish) := by
  have hlength : (stream tokens).length = tokens.length + 1 := by simp [stream]
  unfold Cursor.synchronize
  cases ht : tokens[start]? with
  | none =>
    have hend : tokens.length ≤ start := List.getElem?_eq_none_iff.1 ht
    have hskip : Cursor.skip (stream tokens) start = ⟨.ok () [], start, ⟨[start, start], []⟩⟩ := by
      unfold Cursor.skip
      rw [bind_walk (advance_walk_end ht hstart)]
      rfl
    have htwice : Course.Forward tokens start start ⟨[start, start], []⟩ :=
      Course.forward_stay hstart (by simp) (by simp)
    rw [bind_walk hskip, hlength, Cursor.seek, bind_walk (peek?_walk hstart), ht]
    refine ⟨start, _, rfl, htwice.append (forward_still hstart), ?_, fun h => absurd h (by omega)⟩
    rw [List.drop_eq_nil_iff.2 hend]
    rfl
  | some t =>
    have hlt : start < tokens.length := (List.getElem?_eq_some_iff.1 ht).1
    have hfuel : tokens.length ≤ start + (tokens.length + 1) := by omega
    have hskip : Course.Forward tokens start (start + 1) ⟨[start, start + 1, start + 1], []⟩ :=
      Course.forward_step hlt (by simp) (by simp) (by simp)
    obtain ⟨finish, course, hseek, hforward, hdrop⟩ := seek_walk ht hfuel
    rw [bind_walk (skip_walk ht), hlength, hseek]
    exact ⟨finish, _, rfl, hskip.append hforward, hdrop, fun _ => hforward.le⟩

theorem pure_behind (value : α) (stream : List (Option Token)) (position : Nat)
    (noted : List SyntaxError) (course : Course) :
    Walk.behind ((pure value : Cursor α) stream position) noted course =
      ⟨.ok value noted, position, course⟩ := by
  have hcourse : course ++ ({} : Course) = course := by
    change Course.mk (course.positions ++ []) (course.declarations ++ []) = course
    rw [List.append_nil, List.append_nil]
  change Walk.mk (.ok value (noted ++ [])) position (course ++ ({} : Course)) = _
  rw [List.append_nil, hcourse]

/-- A recovery from what moves if it does not fail always comes to something and moves. -/
theorem recover_walk {q : Cursor α} {p : Procedure α} (h : Walks tokens start 1 q p)
    (hlt : start < tokens.length) :
    recover p (tokens.drop start) = .exhausted ∨
      ∃ value noted finish course,
        Cursor.recover q (stream tokens) start = ⟨.ok value noted, finish, course⟩ ∧
        recover p (tokens.drop start) = .ok value noted (tokens.drop finish) ∧
        start < finish ∧ course.Forward tokens start finish := by
  have hp := h (Nat.le_of_lt hlt)
  obtain ⟨walk, hwalk⟩ : ∃ walk, q (stream tokens) start = walk := ⟨_, rfl⟩
  obtain ⟨o, ho⟩ : ∃ o, p (tokens.drop start) = o := ⟨_, rfl⟩
  unfold Cursor.recover Parse.recover
  rw [ho]
  rw [hwalk, ho] at hp
  cases hp with
  | @ok value noted finish course hcount hforward =>
    have hattempt : Cursor.attempt q (stream tokens) start =
        ⟨.ok (.ok value) noted, finish, course⟩ := by
      unfold Cursor.attempt
      rw [hwalk]
    rw [bind_walk hattempt]
    exact .inr ⟨some value, noted, finish, course, pure_behind _ _ _ _ _, rfl, hcount, hforward⟩
  | @fail error noted mid course hforward =>
    have hattempt : Cursor.attempt q (stream tokens) start =
        ⟨.ok (.error error) noted, mid, course⟩ := by
      unfold Cursor.attempt
      rw [hwalk]
    obtain ⟨finish, later, hsynchronize, hlater, hdrop, hprogress⟩ := synchronize_walk hforward.inside
    have hmoved : start < finish := by
      have hmid := hforward.le
      have hfinish := hlater.le
      omega
    rw [bind_walk hattempt]
    dsimp only
    rw [bind_walk (q := Cursor.report error) rfl, bind_walk hsynchronize, pure_behind, ← hdrop]
    exact .inr ⟨none, _, finish, _, rfl, rfl, hmoved, hforward.append hlater⟩
  | exhausted => exact .inl rfl

theorem walks_declaration {q : Cursor α} {p : Procedure α} (h : Walks tokens start 1 q p)
    (hlt : start < tokens.length) :
    Walks tokens start 1 (Cursor.spanning (Cursor.recover q)) (recover p) := by
  intro hstart
  unfold Cursor.spanning
  rcases recover_walk h hlt with hrun | ⟨value, noted, finish, course, hwalk, hrun, hmoved, hforward⟩
  · rw [hrun]
    exact .exhausted
  · have hspan : Course.Forward tokens finish finish ⟨[], [⟨start, finish⟩]⟩ :=
      { Course.forward_stay hforward.inside .nil (by simp) with
        progress := by simpa using fun _ => hmoved }
    rw [hwalk, hrun]
    exact .ok hmoved (hforward.append hspan)

end Rules

end Parse

end Lox
