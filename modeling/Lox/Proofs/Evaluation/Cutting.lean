import Lox.Proofs.Evaluation.Printing
import Lox.Proofs.Session.Console

/-!
An output that ends early. An evaluation before a sink that takes a number of lines goes like the one
before a sink that never refuses, up to the first line that is too many: there it ends, in the world that
was about to write that line. The two are compared step by step, with the list of lines that the second
one writes.
-/
namespace Lox

def lineEnds (text : String) : Nat := text.toList.count '\n'

theorem lineEnds_append (first second : String) :
    lineEnds (first ++ second) = lineEnds first + lineEnds second := by
  simp [lineEnds, List.count_append]

namespace Printing

def IsSingleLine (p : Printing) : Prop := '\n' ∉ p.text.toList

theorem IsSingleLine.lineEnds {p : Printing} (h : p.IsSingleLine) : lineEnds p.line = 1 := by
  simp [Lox.lineEnds, line, List.count_append, List.count_eq_zero.2 h]

def written (prints : List Printing) : String := String.join (prints.map line)

@[simp] theorem written_nil : written [] = "" := by simp [written]

@[simp] theorem written_cons (p : Printing) (rest : List Printing) :
    written (p :: rest) = p.line ++ written rest := by simp [written, String.join_cons]

theorem written_append (front rest : List Printing) :
    written (front ++ rest) = written front ++ written rest := by
  simp [written, String.join_append]

theorem lineEnds_written {prints : List Printing} (h : ∀ p ∈ prints, p.IsSingleLine) :
    Lox.lineEnds (written prints) = prints.length := by
  induction prints with
  | nil => simp [Lox.lineEnds]
  | cons p rest ih =>
    obtain ⟨hp, hrest⟩ := List.forall_mem_cons.1 h
    rw [written_cons, lineEnds_append, hp.lineEnds, ih hrest, List.length_cons, Nat.add_comm]

/-- Every print writes behind what the ones before it have written. -/
def InOrder (before : String) (prints : List Printing) : Prop :=
  ∀ i p, prints[i]? = some p → p.world.console.output = before ++ written (prints.take i)

theorem InOrder.append {before : String} {front rest : List Printing} (hfront : InOrder before front)
    (hrest : InOrder (before ++ written front) rest) : InOrder before (front ++ rest) := by
  intro i p hp
  rcases Nat.lt_or_ge i front.length with hi | hi
  · rw [List.getElem?_append_left hi] at hp
    rw [List.take_append_of_le_length (Nat.le_of_lt hi)]
    exact hfront i p hp
  · rw [List.getElem?_append_right hi] at hp
    rw [List.take_append, List.take_of_length_le hi, written_append, ← String.append_assoc]
    exact hrest _ p hp

end Printing

open Printing

def Console.refusing (refusal? : String → String → Option String) : Console → Console
  | separate out err => separate { out with refusal? } err
  | shared sink => shared { sink with refusal? }

def World.refusing (refusal? : String → String → Option String) (w : World) : World :=
  { w with console := w.console.refusing refusal? }

def Result.refusing {α : Type} (refusal? : String → String → Option String) : Result α → Result α
  | .ok value w => .ok value (w.refusing refusal?)
  | .error e w => .error e (w.refusing refusal?)
  | .exhausted => .exhausted

def Console.IsOpen (c : Console) : Prop := ∃ out err, c = .separate out err ∧ out.NeverRefuses

/-- A rule by which a sink takes lines up to a number of them and refuses all else. -/
structure ClosesAt (refusal? : String → String → Option String) (limit : Nat) : Prop where
  takes : ∀ taken offered, lineEnds taken < limit → refusal? taken offered = none
  refuses : ∀ taken offered, limit ≤ lineEnds taken → (refusal? taken offered).isSome

/-- What becomes of a result before a sink that refuses. Without a refused line it stays the same;
otherwise the refusal is the error, in the world that was about to write the line. -/
def Result.CutAt {α : Type} (refusal? : String → String → Option String) :
    Option Printing → Result α → Result α → Prop
  | none, result, result' => result' = result.refusing refusal?
  | some p, _, result' => ∃ reason, refusal? p.world.console.output p.line = some reason ∧
      result' = .error ⟨p.keyword, .refused reason⟩ (p.world.refusing refusal?)

section Comparison

variable {α β : Type} {refusal? : String → String → Option String} {limit : Nat}

theorem Result.world?_andThen_stop {result : Result α} {next : α → Evaluation β}
    (hstop : ∀ value w, result ≠ .ok value w) : (result.andThen next).world? = result.world? := by
  cases result with
  | ok value w => exact absurd rfl (hstop value w)
  | error e w | exhausted => rfl

theorem Result.CutAt.andThen_stop {result result' : Result α} {next : α → Evaluation β}
    {p? : Option Printing} (h : result.CutAt refusal? p? result')
    (hstop : ∀ value w, result ≠ .ok value w) :
    (result.andThen next).CutAt refusal? p? (result'.andThen next) := by
  cases p? with
  | none =>
    cases h
    cases result with
    | ok value w => exact absurd rfl (hstop value w)
    | error e w | exhausted => rfl
  | some p =>
    obtain ⟨reason, hreason, rfl⟩ := h
    exact ⟨reason, hreason, rfl⟩

/-- A step that writes lines, compared with itself before a sink that takes lines up to a limit. -/
structure Evaluation.Logs (refusal? : String → String → Option String) (limit : Nat)
    (m : Evaluation α) (w : World) (prints : List Printing) : Prop where
  order : InOrder w.console.output prints
  opens : ∀ p ∈ prints, p.world.console.IsOpen
  ending : ∀ w', (m w).world? = some w' →
    w'.console.IsOpen ∧ w'.console.output = w.console.output ++ written prints
  cut : (∀ p ∈ prints, p.IsSingleLine) → ∀ n, lineEnds w.console.output + n = limit →
    Result.CutAt refusal? prints[n]? (m w) (m (w.refusing refusal?))

/-- A step that writes the given lines and no others. -/
def Evaluation.Follows (refusal? : String → String → Option String) (limit : Nat) (m : Evaluation α)
    (w : World) (writes : Printing → Prop) : Prop :=
  ∃ prints, (∀ p, writes p ↔ p ∈ prints) ∧ m.Logs refusal? limit w prints

namespace Evaluation

variable {m : Evaluation α} {next : α → Evaluation β} {w : World} {prints : List Printing}
  {writes : Printing → Prop}

theorem Logs.bind_ok {value : α} {w' : World} {more : List Printing}
    (hm : m.Logs refusal? limit w prints) (hvalue : m w = .ok value w')
    (hnext : (next value).Logs refusal? limit w' more) :
    (m >>= next).Logs refusal? limit w (prints ++ more) := by
  obtain ⟨hopen, houtput⟩ := hm.ending w' (by rw [hvalue]; rfl)
  have hrun : (m >>= next) w = next value w' := by rw [bind_run, hvalue]; rfl
  constructor
  case order => exact hm.order.append (houtput ▸ hnext.order)
  case opens => exact List.forall_mem_append.2 ⟨hm.opens, hnext.opens⟩
  case ending =>
    intro w'' hw''
    rw [hrun] at hw''
    obtain ⟨hopen', houtput'⟩ := hnext.ending w'' hw''
    rw [houtput', houtput, written_append, String.append_assoc]
    exact ⟨hopen', rfl⟩
  case cut =>
    intro hsingle n hn
    have hfront : ∀ p ∈ prints, p.IsSingleLine := fun p hp => hsingle p (List.mem_append_left _ hp)
    have hcut := hm.cut hfront n hn
    rw [bind_run, hvalue, bind_run]
    rcases Nat.lt_or_ge n prints.length with hlt | hge
    · rw [List.getElem?_append_left hlt]
      rw [List.getElem?_eq_getElem hlt] at hcut ⊢
      obtain ⟨reason, hreason, hresult⟩ := hcut
      exact ⟨reason, hreason, by rw [hresult]; rfl⟩
    · rw [List.getElem?_append_right hge]
      rw [List.getElem?_eq_none hge, Result.CutAt, hvalue] at hcut
      rw [hcut]
      apply hnext.cut (fun p hp => hsingle p (List.mem_append_right _ hp))
      rw [houtput, lineEnds_append, lineEnds_written hfront]
      omega

theorem Logs.bind_stop (hm : m.Logs refusal? limit w prints)
    (hstop : ∀ value w', m w ≠ .ok value w') : (m >>= next).Logs refusal? limit w prints := by
  constructor
  case order => exact hm.order
  case opens => exact hm.opens
  case ending =>
    intro w' hw'
    rw [bind_run, Result.world?_andThen_stop hstop] at hw'
    exact hm.ending w' hw'
  case cut => exact fun hsingle n hn => (hm.cut hsingle n hn).andThen_stop hstop

theorem Follows.bind {more : α → World → Printing → Prop} (hm : m.Follows refusal? limit w writes)
    (hnext : ∀ value w', m w = .ok value w' → w'.console.IsOpen →
      (next value).Follows refusal? limit w' (more value w')) :
    (m >>= next).Follows refusal? limit w
      fun p => writes p ∨ ∃ value w', m w = .ok value w' ∧ more value w' p := by
  obtain ⟨prints, hwrites, hlogs⟩ := hm
  by_cases hvalue : ∃ value w', m w = .ok value w'
  · obtain ⟨value, w', hvalue⟩ := hvalue
    obtain ⟨rest, hmore, hlogs'⟩ := hnext value w' hvalue (hlogs.ending w' (by rw [hvalue]; rfl)).1
    refine ⟨prints ++ rest, fun p => ?_, hlogs.bind_ok hvalue hlogs'⟩
    rw [List.mem_append, ← hwrites, ← hmore, hvalue]
    exact or_congr_right ⟨by rintro ⟨_, _, ⟨⟩, h⟩; exact h, fun h => ⟨_, _, rfl, h⟩⟩
  · refine ⟨prints, fun p => ?_, hlogs.bind_stop fun value w' h => hvalue ⟨value, w', h⟩⟩
    refine (or_iff_left ?_).trans (hwrites p)
    rintro ⟨value, w', h, -⟩
    exact hvalue ⟨value, w', h⟩

theorem Follows.weaken {writes' : Printing → Prop} (h : m.Follows refusal? limit w writes)
    (hwrites : ∀ p, writes' p ↔ writes p) : m.Follows refusal? limit w writes' := by
  obtain ⟨prints, hmem, hlogs⟩ := h
  exact ⟨prints, fun p => (hwrites p).trans (hmem p), hlogs⟩

theorem Mute.follows (h : m.Mute) (hopen : w.console.IsOpen) :
    m.Follows refusal? limit w fun _ => False := by
  refine ⟨[], by simp, ?_, List.forall_mem_nil _, fun w' hw' => ?_, fun _ n _ => ?_⟩
  · rintro i p ⟨⟩
  · rw [h.console hw', written_nil, String.append_empty]
    exact ⟨hopen, rfl⟩
  · have hself : m w = (m w).withConsole w.console := h w w.console
    have hother : m (w.refusing refusal?) = (m w).withConsole (w.console.refusing refusal?) := h w _
    change m (w.refusing refusal?) = (m w).refusing refusal?
    rw [hother]
    conv => rhs; rw [hself]
    cases m w <;> rfl

theorem Silent.follows (h : m.Silent) (hopen : w.console.IsOpen) :
    m.Follows refusal? limit w fun _ => False :=
  h.mute.follows hopen

theorem Follows.bind_silent (hm : m.Follows refusal? limit w writes) (hnext : ∀ value, (next value).Silent) :
    (m >>= next).Follows refusal? limit w writes := by
  apply (hm.bind fun value w' _ hopen => (hnext value).follows hopen).weaken
  simp

theorem Silent.bind_follows {more : α → World → Printing → Prop} (hm : m.Silent) (hopen : w.console.IsOpen)
    (hnext : ∀ value w', m w = .ok value w' → w'.console.IsOpen →
      (next value).Follows refusal? limit w' (more value w')) :
    (m >>= next).Follows refusal? limit w fun p => ∃ value w', m w = .ok value w' ∧ more value w' p := by
  apply ((hm.follows hopen).bind hnext).weaken
  simp

theorem follows_exhausted : (exhausted : Evaluation α).Follows refusal? limit w fun _ => False := by
  refine ⟨[], by simp, ?_, List.forall_mem_nil _, fun w' hw' => ?_, fun _ n _ => rfl⟩
  · rintro i p ⟨⟩
  · cases hw'

end Evaluation

end Comparison

theorem printLine_follows {refusal? : String → String → Option String} {limit : Nat}
    (hcloses : ClosesAt refusal? limit) {w : World} (hopen : w.console.IsOpen) (keyword : Token)
    (text : String) :
    (printLine keyword text).Follows refusal? limit w fun p => p = ⟨keyword, text, w⟩ := by
  have hself := hopen
  obtain ⟨out, err, hconsole, hnever⟩ := hopen
  have hout : w.console.output = out.taken := by rw [hconsole]; rfl
  have hprint : w.console.print (text ++ "\n") = (none, .separate (out.extend (text ++ "\n")) err) := by
    rw [hconsole, Console.print, Sink.offer_of_neverRefuses hnever]
  refine ⟨[⟨keyword, text, w⟩], by simp, ?_, List.forall_mem_singleton.2 hself, fun w' hw' => ?_,
    fun _ n hn => ?_⟩
  · intro i p hp
    obtain ⟨hi, rfl⟩ := List.getElem?_eq_some_iff.1 hp
    obtain rfl : i = 0 := by simpa using hi
    simp
  · rw [printLine, hprint] at hw'
    cases hw'
    refine ⟨⟨_, _, rfl, hnever⟩, ?_⟩
    rw [hout]
    simp [Console.output, Sink.extend, written, Printing.line]
  · have hrefusing : (w.refusing refusal?).console = .separate { out with refusal? } err := by
      rw [World.refusing, hconsole]
      rfl
    have hrefused : ∀ reason, refusal? out.taken (text ++ "\n") = some reason →
        (w.refusing refusal?).console.print (text ++ "\n") =
          (some reason, (w.refusing refusal?).console) := by
      intro reason hreason
      rw [hrefusing, Console.print, Sink.offer]
      simp only [hreason]
    have htaken : refusal? out.taken (text ++ "\n") = none →
        (w.refusing refusal?).console.print (text ++ "\n") =
          (none, .separate ⟨out.taken ++ (text ++ "\n"), refusal?⟩ err) := by
      intro hnone
      rw [hrefusing, Console.print, Sink.offer]
      simp only [hnone]
    rw [hout] at hn
    cases n with
    | zero =>
      obtain ⟨reason, hreason⟩ := Option.isSome_iff_exists.1
        (hcloses.refuses out.taken (text ++ "\n") (by omega))
      refine ⟨reason, by rw [← hreason, hout]; rfl, ?_⟩
      rw [printLine, hrefused reason hreason]
    | succ n =>
      change printLine keyword text (w.refusing refusal?) = _
      rw [printLine, htaken (hcloses.takes _ _ (by omega)), printLine, hprint]
      rfl

section Evaluator

open Evaluation

section Starts

variable {α : Type} {refusal? : String → String → Option String} {limit : Nat} {m : Evaluation α}
  {fuel : Nat} {job : Job} {w : World}

theorem Evaluation.Follows.of_starts {writes : Printing → Prop} (h : m.Follows refusal? limit w writes)
    (hjob : ∀ p, ¬ Prints fuel job w p)
    (hstarts : ∀ p, (∃ job' w', Starts fuel job w job' w' ∧ job'.Writes fuel w' p) ↔ writes p) :
    m.Follows refusal? limit w (job.Writes (fuel + 1) w) :=
  h.weaken fun p => (Job.writes_iff_starts hjob).trans (hstarts p)

theorem Evaluation.Follows.of_one {job' : Job} {w' : World}
    (h : m.Follows refusal? limit w (job'.Writes fuel w')) (hjob : ∀ p, ¬ Prints fuel job w p)
    (hstart : Starts fuel job w job' w')
    (honly : ∀ next w'', Starts fuel job w next w'' → next = job' ∧ w'' = w') :
    m.Follows refusal? limit w (job.Writes (fuel + 1) w) := by
  refine h.of_starts hjob fun p => ⟨?_, fun hwrites => ⟨job', w', hstart, hwrites⟩⟩
  rintro ⟨next, w'', hnext, hwrites⟩
  obtain ⟨rfl, rfl⟩ := honly next w'' hnext
  exact hwrites

theorem Evaluation.Mute.follows_job (hm : m.Mute) (hopen : w.console.IsOpen)
    (hjob : ∀ p, ¬ Prints fuel job w p) (hstarts : ∀ next w', ¬ Starts fuel job w next w') :
    m.Follows refusal? limit w (job.Writes (fuel + 1) w) :=
  (hm.follows hopen).of_starts hjob fun _ =>
    iff_of_false (fun ⟨next, w', hstart, _⟩ => hstarts next w' hstart) id

theorem Evaluation.Silent.follows_job (hm : m.Silent) (hopen : w.console.IsOpen)
    (hjob : ∀ p, ¬ Prints fuel job w p) (hstarts : ∀ next w', ¬ Starts fuel job w next w') :
    m.Follows refusal? limit w (job.Writes (fuel + 1) w) :=
  hm.mute.follows_job hopen hjob hstarts

theorem follows_zero :
    (exhausted : Evaluation α).Follows refusal? limit w (job.Writes 0 w) :=
  follows_exhausted.weaken fun _ => iff_false_intro Job.not_writes_zero

end Starts

/-- Every job of a depth writes what it comes across. -/
structure DepthFollows (refusal? : String → String → Option String) (limit fuel : Nat) : Prop where
  evaluate : ∀ (ctx : Context) {w : World}, w.console.IsOpen → ∀ e : Expr,
    (evaluate fuel ctx e).Follows refusal? limit w ((Job.evaluate ctx e).Writes fuel w)
  evaluateAll : ∀ (ctx : Context) {w : World}, w.console.IsOpen → ∀ es : List Expr,
    (evaluateAll fuel ctx es).Follows refusal? limit w ((Job.evaluateAll ctx es).Writes fuel w)
  call : ∀ (ctx : Context) {w : World}, w.console.IsOpen → ∀ (f : Callable) (args : List Value),
    (call fuel ctx f args).Follows refusal? limit w ((Job.call ctx f args).Writes fuel w)
  runBody : ∀ (ctx : Context) {w : World}, w.console.IsOpen → ∀ (closure : Closure) (args : List Value),
    (runBody fuel ctx closure args).Follows refusal? limit w ((Job.runBody ctx closure args).Writes fuel w)
  execute : ∀ (ctx : Context) {w : World}, w.console.IsOpen → ∀ s : Stmt,
    (execute fuel ctx s).Follows refusal? limit w ((Job.execute ctx s).Writes fuel w)
  executeAll : ∀ (ctx : Context) {w : World}, w.console.IsOpen → ∀ ss : List Stmt,
    (executeAll fuel ctx ss).Follows refusal? limit w ((Job.executeAll ctx ss).Writes fuel w)

section Step

variable {refusal? : String → String → Option String} {limit fuel : Nat}
  (ih : DepthFollows refusal? limit fuel) (ctx : Context) {w : World} (hopen : w.console.IsOpen)

include ih hopen

theorem logical_follows (left : Expr) (op : Token) (right : Expr) :
    (evaluate (fuel + 1) ctx (.logical left op right)).Follows refusal? limit w
      ((Job.evaluate ctx (.logical left op right)).Writes (fuel + 1) w) := by
  have hrun : (evaluate (fuel + 1) ctx (.logical left op right)).Follows refusal? limit w
      fun p => (Job.evaluate ctx left).Writes fuel w p ∨ ∃ value w₁,
        evaluate fuel ctx left w = .ok value w₁ ∧
          (settles op.kind value = false ∧ (Job.evaluate ctx right).Writes fuel w₁ p) := by
    apply (ih.evaluate ctx hopen left).bind
    intro value w₁ hleft hopen₁
    cases hsettled : settles op.kind value with
    | true => exact ((silent_pure value).follows hopen₁).weaken (by simp)
    | false => exact (ih.evaluate ctx hopen₁ right).weaken (by simp)
  refine hrun.of_starts (by rintro p ⟨⟩) fun p => ⟨?_, ?_⟩
  · rintro ⟨_, _, hstart, h⟩
    cases hstart with
    | first hpart =>
      cases hpart
      exact .inl h
    | rightCondition hleft hopen => exact .inr ⟨_, _, hleft, hopen, h⟩
  · rintro (h | ⟨_, _, hleft, hsettled, h⟩)
    · exact ⟨_, _, .first rfl, h⟩
    · exact ⟨_, _, .rightCondition hleft hsettled, h⟩

theorem set_follows (object : Expr) (property : Token) (value : Expr) :
    (evaluate (fuel + 1) ctx (.set object property value)).Follows refusal? limit w
      ((Job.evaluate ctx (.set object property value)).Writes (fuel + 1) w) := by
  have hrun : (evaluate (fuel + 1) ctx (.set object property value)).Follows refusal? limit w
      fun p => (Job.evaluate ctx object).Writes fuel w p ∨ ∃ target w₁,
        evaluate fuel ctx object w = .ok target w₁ ∧
          ((∃ id c, target = .object id c) ∧ (Job.evaluate ctx value).Writes fuel w₁ p) := by
    apply (ih.evaluate ctx hopen object).bind
    intro target w₁ hobject hopen₁
    cases target with
    | object id c =>
      have hvalue := (ih.evaluate ctx hopen₁ value).bind_silent fun value =>
        (setField_silent id property.lexeme value).bind fun _ => silent_pure value
      exact hvalue.weaken (by simp)
    | nil | bool _ | num _ | str _ | callable _ =>
      exact ((silent_raise _ _).follows hopen₁).weaken (by simp)
  refine hrun.of_starts (by rintro p ⟨⟩) fun p => ⟨?_, ?_⟩
  · rintro ⟨_, _, hstart, h⟩
    cases hstart with
    | first hpart =>
      cases hpart
      exact .inl h
    | fieldValue hobject => exact .inr ⟨_, _, hobject, ⟨_, _, rfl⟩, h⟩
  · rintro (h | ⟨_, _, hobject, ⟨id, c, rfl⟩, h⟩)
    · exact ⟨_, _, .first rfl, h⟩
    · exact ⟨_, _, .fieldValue hobject, h⟩

theorem callExpr_follows (callee : Expr) (paren : Token) (args : List Expr) :
    (evaluate (fuel + 1) ctx (.call callee paren args)).Follows refusal? limit w
      ((Job.evaluate ctx (.call callee paren args)).Writes (fuel + 1) w) := by
  have hrun : (evaluate (fuel + 1) ctx (.call callee paren args)).Follows refusal? limit w
      fun p => (Job.evaluate ctx callee).Writes fuel w p ∨ ∃ called w₁,
        evaluate fuel ctx callee w = .ok called w₁ ∧
          ((Job.evaluateAll ctx args).Writes fuel w₁ p ∨ ∃ values w₂,
            evaluateAll fuel ctx args w₁ = .ok values w₂ ∧ ∃ f,
              (called = .callable f ∧ f.arity = values.length ∧ ctx.depth < maxCallDepth) ∧
                (Job.call { ctx with depth := ctx.depth + 1 } f values).Writes fuel w₂ p) := by
    apply (ih.evaluate ctx hopen callee).bind
    intro called w₁ _ hopen₁
    apply (ih.evaluateAll ctx hopen₁ args).bind
    intro values w₂ _ hopen₂
    cases called with
    | callable f =>
      dsimp only
      split
      · rename_i harity
        refine ((silent_raise _ _).follows hopen₂).weaken fun p => iff_of_false ?_ id
        rintro ⟨_, ⟨⟨⟩, hf, -⟩, -⟩
        exact harity hf
      · rename_i harity
        split
        · rename_i hdepth
          refine ((silent_raise _ _).follows hopen₂).weaken fun p => iff_of_false ?_ id
          rintro ⟨_, ⟨⟨⟩, -, hf⟩, -⟩
          exact Nat.not_le_of_lt hf hdepth
        · rename_i hdepth
          refine (ih.call _ hopen₂ f values).weaken fun p => ⟨?_, fun h => ?_⟩
          · rintro ⟨_, ⟨⟨⟩, -⟩, h⟩
            exact h
          · exact ⟨f, ⟨rfl, Decidable.of_not_not harity, Nat.lt_of_not_le hdepth⟩, h⟩
    | nil | bool _ | num _ | str _ | object _ _ =>
      exact ((silent_raise _ _).follows hopen₂).weaken (by simp)
  refine hrun.of_starts (by rintro p ⟨⟩) fun p => ⟨?_, ?_⟩
  · rintro ⟨_, _, hstart, h⟩
    cases hstart with
    | first hpart =>
      cases hpart
      exact .inl h
    | arguments hcallee => exact .inr ⟨_, _, hcallee, .inl h⟩
    | call hcallee hargs harity hdepth =>
      exact .inr ⟨_, _, hcallee, .inr ⟨_, _, hargs, _, ⟨rfl, harity, hdepth⟩, h⟩⟩
  · rintro (h | ⟨_, _, hcallee, h | ⟨_, _, hargs, f, ⟨rfl, harity, hdepth⟩, h⟩⟩)
    · exact ⟨_, _, .first rfl, h⟩
    · exact ⟨_, _, .arguments hcallee, h⟩
    · exact ⟨_, _, .call hcallee hargs harity hdepth, h⟩

theorem evaluate_follows (e : Expr) :
    (evaluate (fuel + 1) ctx e).Follows refusal? limit w ((Job.evaluate ctx e).Writes (fuel + 1) w) := by
  have hprints : ∀ p, ¬ Prints fuel (.evaluate ctx e) w p := by rintro p ⟨⟩
  cases e with
  | literal value => exact (silent_pure _).follows_job hopen hprints (by rintro _ _ ⟨⟨⟩⟩)
  | var name | this name =>
    exact (readVariable_silent ctx name).follows_job hopen hprints (by rintro _ _ ⟨⟨⟩⟩)
  | super keyword method =>
    exact (readSuper_silent ctx keyword method).follows_job hopen hprints (by rintro _ _ ⟨⟨⟩⟩)
  | group inner =>
    exact (ih.evaluate ctx hopen inner).of_one hprints (.first rfl)
      (by rintro _ _ ⟨⟨⟩⟩; exact ⟨rfl, rfl⟩)
  | assign name value =>
    have hrun := (ih.evaluate ctx hopen value).bind_silent fun value =>
      (assignVariable_silent ctx name value).bind fun _ => silent_pure value
    exact hrun.of_one hprints (.first rfl) (by rintro _ _ ⟨⟨⟩⟩; exact ⟨rfl, rfl⟩)
  | unary op operand =>
    have hrun := (ih.evaluate ctx hopen operand).bind_silent fun operand =>
      silent_lift op (unaryOperation op.kind operand)
    exact hrun.of_one hprints (.first rfl) (by rintro _ _ ⟨⟨⟩⟩; exact ⟨rfl, rfl⟩)
  | get object property =>
    have hrun := (ih.evaluate ctx hopen object).bind_silent fun object =>
      readProperty_silent object property
    exact hrun.of_one hprints (.first rfl) (by rintro _ _ ⟨⟨⟩⟩; exact ⟨rfl, rfl⟩)
  | binary left op right =>
    have hrun := (ih.evaluate ctx hopen left).bind fun left w₁ _ hopen₁ =>
      (ih.evaluate ctx hopen₁ right).bind_silent fun right =>
        silent_lift op (binaryOperation op.kind left right)
    refine hrun.of_starts hprints fun p => ⟨?_, ?_⟩
    · rintro ⟨_, _, hstart, h⟩
      cases hstart with
      | first hpart =>
        cases hpart
        exact .inl h
      | rightOperand hleft => exact .inr ⟨_, _, hleft, h⟩
    · rintro (h | ⟨_, _, hleft, h⟩)
      · exact ⟨_, _, .first rfl, h⟩
      · exact ⟨_, _, .rightOperand hleft, h⟩
  | logical left op right => exact logical_follows ih ctx hopen left op right
  | set object property value => exact set_follows ih ctx hopen object property value
  | call callee paren args => exact callExpr_follows ih ctx hopen callee paren args

theorem evaluateAll_follows
    (es : List Expr) :
    (evaluateAll (fuel + 1) ctx es).Follows refusal? limit w
      ((Job.evaluateAll ctx es).Writes (fuel + 1) w) := by
  have hprints : ∀ p, ¬ Prints fuel (.evaluateAll ctx es) w p := by rintro p ⟨⟩
  cases es with
  | nil => exact (silent_pure ([] : List Value)).follows_job hopen hprints (by rintro _ _ ⟨⟩)
  | cons e rest =>
    have hrun := (ih.evaluate ctx hopen e).bind fun value w₁ _ hopen₁ =>
      (ih.evaluateAll ctx hopen₁ rest).bind_silent fun values =>
        silent_pure (value :: values)
    refine hrun.of_starts hprints fun p => ⟨?_, ?_⟩
    · rintro ⟨_, _, hstart, h⟩
      cases hstart with
      | argument => exact .inl h
      | restArguments hfirst => exact .inr ⟨_, _, hfirst, h⟩
    · rintro (h | ⟨_, _, hfirst, h⟩)
      · exact ⟨_, _, .argument, h⟩
      · exact ⟨_, _, .restArguments hfirst, h⟩

theorem call_follows (f : Callable)
    (args : List Value) :
    (call (fuel + 1) ctx f args).Follows refusal? limit w ((Job.call ctx f args).Writes (fuel + 1) w) := by
  have hprints : ∀ p, ¬ Prints fuel (.call ctx f args) w p := by rintro p ⟨⟩
  cases f with
  | native f =>
    cases f with
    | clock => exact readClock_mute.follows_job hopen hprints (by rintro _ _ ⟨⟩)
  | function id closure =>
    exact (ih.runBody ctx hopen closure args).of_one hprints .function
      (by rintro _ _ ⟨⟩; exact ⟨rfl, rfl⟩)
  | cls c =>
    have hrun : (call (fuel + 1) ctx (.cls c) args).Follows refusal? limit w
        fun p => ∃ object w₁, makeObject c w = .ok object w₁ ∧ ∃ init w₂,
          (∃ method, c.findMethod? initializerName = some method ∧
            bindMethod method object w₁ = .ok init w₂) ∧ (Job.runBody ctx init args).Writes fuel w₂ p := by
      apply (makeObject_silent c).bind_follows hopen
      intro object w₁ _ hopen₁
      cases c.findMethod? initializerName with
      | none => exact ((silent_pure object).follows hopen₁).weaken (by simp)
      | some method =>
        have hbody := (bindMethod_silent method object).bind_follows hopen₁ fun init w₂ _ hopen₂ =>
          (ih.runBody ctx hopen₂ init args).bind_silent fun _ => silent_pure object
        exact hbody.weaken (by simp)
    refine hrun.of_starts hprints fun p => ⟨?_, ?_⟩
    · rintro ⟨_, _, hstart, h⟩
      cases hstart with
      | initializer hobject hmethod hinit => exact ⟨_, _, hobject, _, _, ⟨_, hmethod, hinit⟩, h⟩
    · rintro ⟨_, _, hobject, _, _, ⟨_, hmethod, hinit⟩, h⟩
      exact ⟨_, _, .initializer hobject hmethod hinit, h⟩

theorem runBody_follows
    (closure : Closure) (args : List Value) :
    (runBody (fuel + 1) ctx closure args).Follows refusal? limit w
      ((Job.runBody ctx closure args).Writes (fuel + 1) w) := by
  have hprints : ∀ p, ¬ Prints fuel (.runBody ctx closure args) w p := by rintro p ⟨⟩
  have hrun : (runBody (fuel + 1) ctx closure args).Follows refusal? limit w
      fun p => ∃ env w₁, makeFrame (.ofList ((closure.decl.params.map Token.lexeme).zip args))
        closure.env w = .ok env w₁ ∧
          (Job.executeAll { ctx with env } closure.decl.body).Writes fuel w₁ p := by
    apply (makeFrame_silent _ _).bind_follows hopen
    intro env w₁ _ hopen₁
    apply (ih.executeAll { ctx with env } hopen₁ closure.decl.body).bind_silent
    intro flow
    split
    · exact receiver_silent closure
    · cases flow <;> exact silent_pure _
  refine hrun.of_starts hprints fun p => ⟨?_, ?_⟩
  · rintro ⟨_, _, hstart, h⟩
    cases hstart with
    | body henv => exact ⟨_, _, henv, h⟩
  · rintro ⟨_, _, henv, h⟩
    exact ⟨_, _, .body henv, h⟩

theorem ifThen_follows (condition : Expr) (yes : Stmt) :
    (execute (fuel + 1) ctx (.ifThen condition yes)).Follows refusal? limit w
      ((Job.execute ctx (.ifThen condition yes)).Writes (fuel + 1) w) := by
  have hrun : (execute (fuel + 1) ctx (.ifThen condition yes)).Follows refusal? limit w
      fun p => (Job.evaluate ctx condition).Writes fuel w p ∨ ∃ value w₁,
        evaluate fuel ctx condition w = .ok value w₁ ∧
          (value.isTruthy = true ∧ (Job.execute ctx yes).Writes fuel w₁ p) := by
    apply (ih.evaluate ctx hopen condition).bind
    intro value w₁ _ hopen₁
    cases hholds : value.isTruthy with
    | true => exact (ih.execute ctx hopen₁ yes).weaken (by simp)
    | false => exact ((silent_pure Flow.normal).follows hopen₁).weaken (by simp)
  refine hrun.of_starts (by rintro p ⟨⟩) fun p => ⟨?_, ?_⟩
  · rintro ⟨_, _, hstart, h⟩
    cases hstart with
    | expression hpart =>
      cases hpart
      exact .inl h
    | onlyBranch hcondition hv => exact .inr ⟨_, _, hcondition, hv, h⟩
  · rintro (h | ⟨_, _, hcondition, hv, h⟩)
    · exact ⟨_, _, .expression rfl, h⟩
    · exact ⟨_, _, .onlyBranch hcondition hv, h⟩

theorem ifElse_follows (condition : Expr) (yes no : Stmt) :
    (execute (fuel + 1) ctx (.ifElse condition yes no)).Follows refusal? limit w
      ((Job.execute ctx (.ifElse condition yes no)).Writes (fuel + 1) w) := by
  have hrun : (execute (fuel + 1) ctx (.ifElse condition yes no)).Follows refusal? limit w
      fun p => (Job.evaluate ctx condition).Writes fuel w p ∨ ∃ value w₁,
        evaluate fuel ctx condition w = .ok value w₁ ∧
          (value.isTruthy = true ∧ (Job.execute ctx yes).Writes fuel w₁ p ∨
            value.isTruthy = false ∧ (Job.execute ctx no).Writes fuel w₁ p) := by
    apply (ih.evaluate ctx hopen condition).bind
    intro value w₁ _ hopen₁
    cases hholds : value.isTruthy with
    | true => exact (ih.execute ctx hopen₁ yes).weaken (by simp)
    | false => exact (ih.execute ctx hopen₁ no).weaken (by simp)
  refine hrun.of_starts (by rintro p ⟨⟩) fun p => ⟨?_, ?_⟩
  · rintro ⟨_, _, hstart, h⟩
    cases hstart with
    | expression hpart =>
      cases hpart
      exact .inl h
    | thenBranch hcondition hv => exact .inr ⟨_, _, hcondition, .inl ⟨hv, h⟩⟩
    | elseBranch hcondition hv => exact .inr ⟨_, _, hcondition, .inr ⟨hv, h⟩⟩
  · rintro (h | ⟨_, _, hcondition, ⟨hv, h⟩ | ⟨hv, h⟩⟩)
    · exact ⟨_, _, .expression rfl, h⟩
    · exact ⟨_, _, .thenBranch hcondition hv, h⟩
    · exact ⟨_, _, .elseBranch hcondition hv, h⟩

theorem whileLoop_follows (condition : Expr) (body : Stmt) :
    (execute (fuel + 1) ctx (.whileLoop condition body)).Follows refusal? limit w
      ((Job.execute ctx (.whileLoop condition body)).Writes (fuel + 1) w) := by
  have hrun : (execute (fuel + 1) ctx (.whileLoop condition body)).Follows refusal? limit w
      fun p => (Job.evaluate ctx condition).Writes fuel w p ∨ ∃ value w₁,
        evaluate fuel ctx condition w = .ok value w₁ ∧ (value.isTruthy = true ∧
          ((Job.execute ctx body).Writes fuel w₁ p ∨ ∃ flow w₂,
            execute fuel ctx body w₁ = .ok flow w₂ ∧
              (flow = .normal ∧ (Job.execute ctx (.whileLoop condition body)).Writes fuel w₂ p))) := by
    have hturn : ∀ {next : Flow → Evaluation Flow} {w₁ : World}, w₁.console.IsOpen →
        next .normal = execute fuel ctx (.whileLoop condition body) →
        (∀ value, next (.returned value) = Pure.pure (.returned value)) →
        (execute fuel ctx body >>= next).Follows refusal? limit w₁ fun p =>
          (Job.execute ctx body).Writes fuel w₁ p ∨ ∃ flow w₂,
            execute fuel ctx body w₁ = .ok flow w₂ ∧
              (flow = .normal ∧ (Job.execute ctx (.whileLoop condition body)).Writes fuel w₂ p) := by
      intro next w₁ hopen₁ hnormal hreturned
      apply (ih.execute ctx hopen₁ body).bind
      intro flow w₂ _ hopen₂
      cases flow with
      | normal =>
        rw [hnormal]
        exact (ih.execute ctx hopen₂ (.whileLoop condition body)).weaken (by simp)
      | returned value =>
        rw [hreturned]
        exact ((silent_pure (Flow.returned value)).follows hopen₂).weaken (by simp)
    apply (ih.evaluate ctx hopen condition).bind
    intro value w₁ _ hopen₁
    cases hholds : value.isTruthy with
    | true =>
      rw [if_pos rfl]
      refine Evaluation.Follows.weaken (hturn hopen₁ ?_ ?_) ?_
      · rfl
      · exact fun _ => rfl
      · simp
    | false => exact ((silent_pure Flow.normal).follows hopen₁).weaken (by simp)
  refine hrun.of_starts (by rintro p ⟨⟩) fun p => ⟨?_, ?_⟩
  · rintro ⟨_, _, hstart, h⟩
    cases hstart with
    | expression hpart =>
      cases hpart
      exact .inl h
    | turn hcondition hv => exact .inr ⟨_, _, hcondition, hv, .inl h⟩
    | nextTurn hcondition hv hbody => exact .inr ⟨_, _, hcondition, hv, .inr ⟨_, _, hbody, rfl, h⟩⟩
  · rintro (h | ⟨_, _, hcondition, hv, h | ⟨_, _, hbody, rfl, h⟩⟩)
    · exact ⟨_, _, .expression rfl, h⟩
    · exact ⟨_, _, .turn hcondition hv, h⟩
    · exact ⟨_, _, .nextTurn hcondition hv hbody, h⟩

theorem execute_follows (hcloses : ClosesAt refusal? limit) (s : Stmt) :
    (execute (fuel + 1) ctx s).Follows refusal? limit w ((Job.execute ctx s).Writes (fuel + 1) w) := by
  cases s with
  | expr e =>
    have hrun := (ih.evaluate ctx hopen e).bind_silent fun _ => silent_pure Flow.normal
    refine hrun.of_one (by rintro p ⟨⟩) (.expression rfl) fun next w' hstart => ?_
    cases hstart with
    | expression hpart =>
      cases hpart
      exact ⟨rfl, rfl⟩
  | print keyword value =>
    have hrun := (ih.evaluate ctx hopen value).bind fun value w₁ _ hopen₁ =>
      (printLine_follows hcloses hopen₁ keyword value.text).bind_silent fun _ => silent_pure Flow.normal
    refine hrun.weaken fun p => Job.writes_succ.trans ⟨?_, ?_⟩
    · rintro (hprints | ⟨_, _, hstart, h⟩)
      · cases hprints with
        | print hvalue => exact .inr ⟨_, _, hvalue, rfl⟩
      · cases hstart with
        | expression hpart =>
          cases hpart
          exact .inl h
    · rintro (h | ⟨_, _, hvalue, rfl⟩)
      · exact .inr ⟨_, _, .expression rfl, h⟩
      · exact .inl (.print hvalue)
  | varDecl name init =>
    cases init with
    | none =>
      have hsilent := (defineVariable_silent ctx.env name.lexeme .nil).bind fun _ => silent_pure Flow.normal
      refine hsilent.follows_job hopen (by rintro p ⟨⟩) fun next w' hstart => ?_
      cases hstart with
      | expression hpart => cases hpart
    | some init =>
      have hrun := (ih.evaluate ctx hopen init).bind_silent fun value =>
        (defineVariable_silent ctx.env name.lexeme value).bind fun _ => silent_pure Flow.normal
      refine hrun.of_one (by rintro p ⟨⟩) (.expression rfl) fun next w' hstart => ?_
      cases hstart with
      | expression hpart =>
        cases hpart
        exact ⟨rfl, rfl⟩
  | block body =>
    have hrun := (makeFrame_silent .empty ctx.env).bind_follows hopen fun env w₁ _ hopen₁ =>
      ih.executeAll { ctx with env } hopen₁ body
    refine hrun.of_starts (by rintro p ⟨⟩) fun p => ⟨?_, ?_⟩
    · rintro ⟨_, _, hstart, h⟩
      cases hstart with
      | expression hpart => cases hpart
      | block henv => exact ⟨_, _, henv, h⟩
    · rintro ⟨_, _, henv, h⟩
      exact ⟨_, _, .block henv, h⟩
  | ifThen condition yes => exact ifThen_follows ih ctx hopen condition yes
  | ifElse condition yes no => exact ifElse_follows ih ctx hopen condition yes no
  | whileLoop condition body => exact whileLoop_follows ih ctx hopen condition body
  | ret keyword value =>
    cases value with
    | none =>
      refine (silent_pure (Flow.returned .nil)).follows_job hopen (by rintro p ⟨⟩) fun next w' hstart => ?_
      cases hstart with
      | expression hpart => cases hpart
    | some value =>
      have hrun := (ih.evaluate ctx hopen value).bind_silent fun value =>
        silent_pure (Flow.returned value)
      refine hrun.of_one (by rintro p ⟨⟩) (.expression rfl) fun next w' hstart => ?_
      cases hstart with
      | expression hpart =>
        cases hpart
        exact ⟨rfl, rfl⟩
  | funDecl function =>
    have hsilent := (makeFunction_silent ⟨function, ctx.env, false⟩).bind fun value =>
      (defineVariable_silent ctx.env function.name.lexeme value).bind fun _ => silent_pure Flow.normal
    exact hsilent.follows_job hopen (by rintro p ⟨⟩) fun next w' hstart => by
          cases hstart with
          | expression hpart => cases hpart
  | classDecl name superclass methods =>
    have hsilent : (execute (fuel + 1) ctx (.classDecl name superclass methods)).Silent := by
      cases superclass with
      | none => exact declareClass_silent ctx name none methods
      | some parent =>
        refine (readVariable_silent ctx parent).bind fun value => ?_
        split
        · exact declareClass_silent ctx name _ methods
        · exact silent_raise _ _
    exact hsilent.follows_job hopen (by rintro p ⟨⟩) fun next w' hstart => by
          cases hstart with
          | expression hpart => cases hpart

theorem executeAll_follows
    (ss : List Stmt) :
    (executeAll (fuel + 1) ctx ss).Follows refusal? limit w
      ((Job.executeAll ctx ss).Writes (fuel + 1) w) := by
  cases ss with
  | nil => exact (silent_pure Flow.normal).follows_job hopen (by rintro p ⟨⟩) (by rintro _ _ ⟨⟩)
  | cons s rest =>
    have hrun : (executeAll (fuel + 1) ctx (s :: rest)).Follows refusal? limit w
        fun p => (Job.execute ctx s).Writes fuel w p ∨ ∃ flow w₁, execute fuel ctx s w = .ok flow w₁ ∧
          (flow = .normal ∧ (Job.executeAll ctx rest).Writes fuel w₁ p) := by
      apply (ih.execute ctx hopen s).bind
      intro flow w₁ _ hopen₁
      cases flow with
      | normal => exact (ih.executeAll ctx hopen₁ rest).weaken (by simp)
      | returned value => exact ((silent_pure (Flow.returned value)).follows hopen₁).weaken (by simp)
    refine hrun.of_starts (by rintro p ⟨⟩) fun p => ⟨?_, ?_⟩
    · rintro ⟨_, _, hstart, h⟩
      cases hstart with
      | statement => exact .inl h
      | restStatements hfirst => exact .inr ⟨_, _, hfirst, rfl, h⟩
    · rintro (h | ⟨_, _, hfirst, rfl, h⟩)
      · exact ⟨_, _, .statement, h⟩
      · exact ⟨_, _, .restStatements hfirst, h⟩

end Step

/-- Every job writes what it comes across, and is cut where a line is too many. -/
theorem depthFollows {refusal? : String → String → Option String} {limit : Nat}
    (hcloses : ClosesAt refusal? limit) (fuel : Nat) : DepthFollows refusal? limit fuel := by
  induction fuel with
  | zero =>
    constructor <;> intros <;> exact follows_zero
  | succ fuel ih =>
    exact ⟨fun ctx _ hopen => evaluate_follows ih ctx hopen,
      fun ctx _ hopen => evaluateAll_follows ih ctx hopen, fun ctx _ hopen => call_follows ih ctx hopen,
      fun ctx _ hopen => runBody_follows ih ctx hopen,
      fun ctx _ hopen => execute_follows ih ctx hopen hcloses,
      fun ctx _ hopen => executeAll_follows ih ctx hopen⟩

end Evaluator

end Lox
