import Lox.Proofs.Scoping.Ledger

/-!
Books that are kept. Whatever an evaluation does, the ledger can be continued to one that accounts for the
world that it ends in; and the jobs that were met on the way were met in worlds that earlier states of the
same ledger account for. The actions that run no other code are shown to keep the books here.
-/
namespace Lox

/-- Code stands in an environment whose frames are made for the slots around it. -/
structure Ledger.Stands (hops : HopTable) (L : Ledger) (ctx : Context) (around : List Enclosure)
    (os : List Occurrence) : Prop where
  addressing : ctx.addressing = .distances hops
  chain : L.Chain os ctx.env (slots around)
  seated : ∀ o ∈ os, o.Seated hops

/-- Statements stand in blocks and functions, not right inside a class. -/
structure Ledger.Carries (hops : HopTable) (L : Ledger) (ctx : Context) (around : List Enclosure)
    (os : List Occurrence) : Prop extends L.Stands hops ctx around os where
  opened : ∀ word, (slots around).head? ≠ some (.keyword word)

namespace Ledger

variable {hops : HopTable} {L L' : Ledger} {ctx : Context} {around : List Enclosure} {o : Occurrence}
  {os ps : List Occurrence}

namespace Stands

theorem mono (h : L.Stands hops ctx around os) (hle : L ≤ L') : L'.Stands hops ctx around os :=
  { h with chain := h.chain.mono hle }

theorem subset (h : L.Stands hops ctx around os) (hsubset : ps ⊆ os) : L.Stands hops ctx around ps :=
  ⟨h.addressing, h.chain.subset hsubset, fun o ho => h.seated o (hsubset ho)⟩

theorem left (h : L.Stands hops ctx around (os ++ ps)) : L.Stands hops ctx around os :=
  h.subset (List.subset_append_left os ps)

theorem right (h : L.Stands hops ctx around (os ++ ps)) : L.Stands hops ctx around ps :=
  h.subset (List.subset_append_right os ps)

theorem tail (h : L.Stands hops ctx around (o :: os)) : L.Stands hops ctx around os :=
  h.subset (List.subset_cons_self o os)

theorem named (h : L.Stands hops ctx around (o :: os)) {name : Token}
    (hconstruct : o.construct = .declaration name ∨ o.construct = .assignment name) :
    ¬ isScopeKeyword name.lexeme :=
  (h.seated o (List.mem_cons_self ..)).named name hconstruct

end Stands

namespace Carries

theorem mono (h : L.Carries hops ctx around os) (hle : L ≤ L') : L'.Carries hops ctx around os :=
  ⟨h.toStands.mono hle, h.opened⟩

theorem subset (h : L.Carries hops ctx around os) (hsubset : ps ⊆ os) :
    L.Carries hops ctx around ps := ⟨h.toStands.subset hsubset, h.opened⟩

theorem left (h : L.Carries hops ctx around (os ++ ps)) : L.Carries hops ctx around os :=
  h.subset (List.subset_append_left os ps)

theorem right (h : L.Carries hops ctx around (os ++ ps)) : L.Carries hops ctx around ps :=
  h.subset (List.subset_append_right os ps)

theorem tail (h : L.Carries hops ctx around (o :: os)) : L.Carries hops ctx around os :=
  h.subset (List.subset_cons_self o os)

end Carries

end Ledger

def Job.Entered (hops : HopTable) (L : Ledger) : Job → Prop
  | .evaluate ctx e => ∃ around, L.Stands hops ctx around (e.occurrences around)
  | .evaluateAll ctx es => ∃ around, L.Stands hops ctx around (Expr.occurrencesAll around es)
  | .call ctx f args => ctx.addressing = .distances hops ∧ Value.Entered hops L (.callable f) ∧
      ∀ value ∈ args, value.Entered hops L
  | .runBody ctx closure args => ctx.addressing = .distances hops ∧ closure.Entered hops L ∧
      ∀ value ∈ args, value.Entered hops L
  | .execute ctx s => ∃ around, L.Carries hops ctx around (s.occurrences around) ∧ s.Orderly
  | .executeAll ctx ss =>
      ∃ around, L.Carries hops ctx around (Stmt.occurrencesAll around ss) ∧ Stmt.OrderlyAll ss

section Covers

variable (hops : HopTable) (S : Nat → Job → World → Prop)

/-- The world at the end is accounted for, and a value is as it should be. -/
def Ledger.Ends {α : Type} (L : Ledger) : Result α → (α → Prop) → Prop
  | .ok value w, Q => L.Accounts hops S w ∧ Q value
  | .error _ w, _ => L.Accounts hops S w
  | .exhausted, _ => True

def Job.Ends (L : Ledger) (fuel : Nat) (w : World) : Job → Prop
  | .evaluate ctx e => L.Ends hops S (Lox.evaluate fuel ctx e w) (Value.Entered hops L)
  | .evaluateAll ctx es =>
    L.Ends hops S (Lox.evaluateAll fuel ctx es w) fun values => ∀ value ∈ values, value.Entered hops L
  | .call ctx f args => L.Ends hops S (Lox.call fuel ctx f args w) (Value.Entered hops L)
  | .runBody ctx closure args =>
    L.Ends hops S (Lox.runBody fuel ctx closure args w) (Value.Entered hops L)
  | .execute ctx s => L.Ends hops S (Lox.execute fuel ctx s w) (Flow.Entered hops L)
  | .executeAll ctx ss => L.Ends hops S (Lox.executeAll fuel ctx ss w) (Flow.Entered hops L)

/-- A job starts and ends in worlds that earlier states of the ledger account for. -/
structure Ledger.Notes (L : Ledger) (fuel : Nat) (job : Job) (w : World) : Prop where
  started : ∃ L₀ ≤ L, L₀.Accounts hops S w ∧ job.Entered hops L₀
  ended : ∃ L₁ ≤ L, job.Ends hops S L₁ fuel w

/-- The ledger can be continued to the end of an evaluation that meets some jobs. -/
def Covers {α : Type} (L : Ledger) (result : Result α) (meets : Nat → Job → World → Prop)
    (Q : Ledger → α → Prop) : Prop :=
  ∃ L', L ≤ L' ∧ (∀ fuel job w, meets fuel job w → L'.Notes hops S fuel job w) ∧
    L'.Ends hops S result (Q L')

end Covers

def nowhere : Nat → Job → World → Prop := fun _ _ _ => False

/-- What the jobs meet that a job starts. -/
def Started (fuel : Nat) (job : Job) (w : World) : Nat → Job → World → Prop :=
  fun fuel' job' w' => ∃ next w₁, Starts fuel job w next w₁ ∧ Reaches fuel next w₁ fuel' job' w'

/-- There are no statements inside a statement, except in the functions that it declares. -/
def Stmt.isFlat : Stmt → Bool
  | .block _ | .ifThen _ _ | .ifElse _ _ _ | .whileLoop _ _ => false
  | .expr _ | .print _ _ | .varDecl _ _ | .ret _ _ | .funDecl _ | .classDecl _ _ _ => true

section Rules

variable {α β : Type} {hops : HopTable} {S : Nat → Job → World → Prop} {L L' : Ledger} {w : World}
  {Q : Ledger → α → Prop} {M M' : Nat → Job → World → Prop}

theorem Ledger.Notes.mono {fuel : Nat} {job : Job} (h : L.Notes hops S fuel job w) (hle : L ≤ L') :
    L'.Notes hops S fuel job w := by
  obtain ⟨⟨L₀, hbefore, hstarted⟩, L₁, hbefore', hended⟩ := h
  exact ⟨⟨L₀, hbefore.trans hle, hstarted⟩, L₁, hbefore'.trans hle, hended⟩

theorem covers_of_later {result : Result α} (hle : L ≤ L') (h : L'.Ends hops S result (Q L')) :
    Covers hops S L result nowhere Q := ⟨L', hle, fun _ _ _ hnowhere => False.elim hnowhere, h⟩

theorem covers_of_ends {result : Result α} (h : L.Ends hops S result (Q L)) :
    Covers hops S L result nowhere Q := covers_of_later (le_refl L) h

theorem covers_pure {value : α} (hw : L.Accounts hops S w) (h : Q L value) :
    Covers hops S L ((pure value : Evaluation α) w) nowhere Q := covers_of_ends ⟨hw, h⟩

theorem covers_raise (token : Token) (fault : RuntimeFault) (hw : L.Accounts hops S w) :
    Covers hops S L ((Evaluation.raise token fault : Evaluation α) w) nowhere Q := covers_of_ends hw

theorem Covers.weaken {result : Result α} (h : Covers hops S L result M Q)
    (hmeets : ∀ fuel job w, M' fuel job w → M fuel job w) : Covers hops S L result M' Q := by
  obtain ⟨L', hle, hnotes, hends⟩ := h
  exact ⟨L', hle, fun fuel job w hjob => hnotes fuel job w (hmeets fuel job w hjob), hends⟩

theorem Covers.when {p : Prop} {result : Result α} (h : Covers hops S L result M Q) :
    Covers hops S L result (fun fuel job w => p ∧ M fuel job w) Q := h.weaken fun _ _ _ => And.right

theorem Covers.never {p : Prop} {result : Result α} (h : Covers hops S L result nowhere Q) (hp : ¬ p) :
    Covers hops S L result (fun fuel job w => p ∧ M fuel job w) Q :=
  h.weaken fun _ _ _ hjob => absurd hjob.1 hp

theorem Covers.bind {m : Evaluation α} {next : α → Evaluation β} {R : Ledger → β → Prop}
    {N : α → World → Nat → Job → World → Prop} (hm : Covers hops S L (m w) M Q)
    (hnext : ∀ L₁ value w₁, L ≤ L₁ → m w = .ok value w₁ → L₁.Accounts hops S w₁ → Q L₁ value →
      Covers hops S L₁ (next value w₁) (N value w₁) R) :
    Covers hops S L ((m >>= next) w)
      (fun fuel job w' => M fuel job w' ∨ ∃ value w₁, m w = .ok value w₁ ∧ N value w₁ fuel job w')
      R := by
  obtain ⟨L₁, hle, hnotes, hends⟩ := hm
  rw [Evaluation.bind_run]
  cases hrun : m w with
  | ok value w₁ =>
    rw [hrun] at hends
    obtain ⟨L₂, hle', hnotes', hends'⟩ := hnext L₁ value w₁ hle hrun hends.1 hends.2
    refine ⟨L₂, hle.trans hle', fun fuel job w' hjob => ?_, hends'⟩
    rcases hjob with hjob | ⟨_, _, hsame, hjob⟩
    · exact (hnotes fuel job w' hjob).mono hle'
    · cases hsame
      exact hnotes' fuel job w' hjob
  | error e w₁ =>
    rw [hrun] at hends
    refine ⟨L₁, hle, fun fuel job w' hjob => ?_, hends⟩
    rcases hjob with hjob | ⟨_, _, hsame, -⟩
    · exact hnotes fuel job w' hjob
    · contradiction
  | exhausted =>
    refine ⟨L₁, hle, fun fuel job w' hjob => ?_, trivial⟩
    rcases hjob with hjob | ⟨_, _, hsame, -⟩
    · exact hnotes fuel job w' hjob
    · contradiction

theorem Covers.step {m : Evaluation α} {next : α → Evaluation β} {R : Ledger → β → Prop}
    (hm : Covers hops S L (m w) M Q)
    (hnext : ∀ L₁ value w₁, L ≤ L₁ → m w = .ok value w₁ → L₁.Accounts hops S w₁ → Q L₁ value →
      Covers hops S L₁ (next value w₁) nowhere R) :
    Covers hops S L ((m >>= next) w) M R :=
  (hm.bind (N := fun _ _ => nowhere) hnext).weaken fun _ _ _ => .inl

theorem Covers.imp {result : Result α} {R : Ledger → α → Prop} (h : Covers hops S L result M Q)
    (himp : ∀ L' value, L ≤ L' → Q L' value → R L' value) : Covers hops S L result M R := by
  obtain ⟨L', hle, hnotes, hends⟩ := h
  refine ⟨L', hle, hnotes, ?_⟩
  cases result with
  | ok value w => exact ⟨hends.1, himp L' value hle hends.2⟩
  | error e w => exact hends
  | exhausted => trivial

theorem Covers.ite {c : Prop} [Decidable c] {m n : Evaluation α}
    (hm : c → Covers hops S L (m w) M Q) (hn : ¬ c → Covers hops S L (n w) M Q) :
    Covers hops S L ((if c then m else n) w) M Q := by
  split
  · exact hm ‹_›
  · exact hn ‹_›

/-- A job is met by itself, and what the jobs meet that it starts. -/
theorem covers_reaches {fuel : Nat} {job : Job} {result : Result α} (hw : L.Accounts hops S w)
    (hjob : job.Entered hops L)
    (hends : ∀ L', L'.Ends hops S result (Q L') → job.Ends hops S L' (fuel + 1) w)
    (h : Covers hops S L result (Started fuel job w) Q) :
    Covers hops S L result (Reaches (fuel + 1) job w) Q := by
  obtain ⟨L', hle, hnotes, hended⟩ := h
  refine ⟨L', hle, fun fuel' job' w' hreaches => ?_, hended⟩
  cases hreaches with
  | refl => exact ⟨⟨L, hle, hw, hjob⟩, L', le_refl L', hends L' hended⟩
  | next hstarts hrest => exact hnotes fuel' job' w' ⟨_, _, hstarts, hrest⟩

theorem covers_exhausted {job : Job} (hw : L.Accounts hops S w) (hjob : job.Entered hops L)
    (hends : job.Ends hops S L 0 w) :
    Covers hops S L (Result.exhausted : Result α) (Reaches 0 job w) Q := by
  refine ⟨L, le_refl L, fun fuel' job' w' hreaches => ?_, trivial⟩
  cases hreaches with
  | refl => exact ⟨⟨L, le_refl L, hw, hjob⟩, L, le_refl L, hends⟩

theorem started_of_flat {fuel fuel' : Nat} {ctx : Context} {s : Stmt} {job : Job} {w' : World}
    (hflat : s.isFlat = true) (h : Started fuel (.execute ctx s) w fuel' job w') :
    ∃ e, s.first? = some e ∧ Reaches fuel (.evaluate ctx e) w fuel' job w' := by
  obtain ⟨_, _, hstart, hrest⟩ := h
  cases hstart with
  | expression hfirst => exact ⟨_, hfirst, hrest⟩
  | block | onlyBranch | thenBranch | elseBranch | turn | nextTurn => contradiction

theorem covers_flat {fuel : Nat} {ctx : Context} {s : Stmt} {e : Expr} {result : Result α}
    (hflat : s.isFlat = true) (hfirst : s.first? = some e)
    (h : Covers hops S L result (Reaches fuel (.evaluate ctx e) w) Q) :
    Covers hops S L result (Started fuel (.execute ctx s) w) Q := by
  apply h.weaken
  intro fuel' job w' hstarted
  obtain ⟨e', hfirst', hrest⟩ := started_of_flat hflat hstarted
  rw [hfirst] at hfirst'
  cases hfirst'
  exact hrest

theorem covers_flat_none {fuel : Nat} {ctx : Context} {s : Stmt} {result : Result α}
    (hflat : s.isFlat = true) (hfirst : s.first? = none) (h : Covers hops S L result nowhere Q) :
    Covers hops S L result (Started fuel (.execute ctx s) w) Q := by
  apply h.weaken
  intro fuel' job w' hstarted
  obtain ⟨e, hfirst', -⟩ := started_of_flat hflat hstarted
  rw [hfirst] at hfirst'
  contradiction

end Rules

section Actions

variable {hops : HopTable} {S : Nat → Job → World → Prop} {L : Ledger} {w : World}
  (hw : L.Accounts hops S w)

include hw

theorem covers_operated {operation : Except RuntimeFault Value} (h : Operated operation) (op : Token) :
    Covers hops S L (Evaluation.lift op operation w) nowhere fun L' value => value.Entered hops L' := by
  cases operation with
  | error fault => exact covers_raise op fault hw
  | ok value =>
    apply covers_pure hw
    cases value with
    | callable _ | object _ _ => exact h.elim
    | nil | bool _ | num _ | str _ => trivial

theorem readVariable_covers (ctx : Context) (name : Token) :
    Covers hops S L (readVariable ctx name w) nowhere fun L' value => value.Entered hops L' := by
  apply covers_of_ends
  unfold readVariable
  split
  · rename_i value hfound
    obtain ⟨frame, -, hframe⟩ := Context.exists_of_find? hfound
    exact ⟨hw, hw.values frame _ value hframe⟩
  · exact hw

theorem defineVariable_covers (env : Environment) {name : String} {value : Value}
    (hname : ¬ isScopeKeyword name) (hvalue : value.Entered hops L) :
    Covers hops S L (defineVariable env name value w) nowhere fun _ _ => True := by
  apply covers_of_ends
  cases env with
  | nil => exact ⟨hw, trivial⟩
  | cons frame outer => exact ⟨hw.defineIn hname hvalue, trivial⟩

theorem assignVariable_covers (ctx : Context) {name : Token} {value : Value}
    (hname : ¬ isScopeKeyword name.lexeme) (hvalue : value.Entered hops L) :
    Covers hops S L (assignVariable ctx name value w) nowhere fun _ _ => True := by
  apply covers_of_ends
  unfold assignVariable
  split
  · rename_i frames hassigned
    obtain ⟨frame, rfl⟩ := Context.exists_of_assign? hassigned
    exact ⟨hw.defineIn hname hvalue, trivial⟩
  · exact hw

theorem assignDeclared_covers (env : Environment) {name : Token} {value : Value}
    (hname : ¬ isScopeKeyword name.lexeme) (hvalue : value.Entered hops L) :
    Covers hops S L (assignDeclared env name value w) nowhere fun _ _ => True := by
  apply covers_of_ends
  unfold assignDeclared
  split
  · rename_i frames hassigned
    obtain ⟨frame, rfl⟩ := Frames.exists_of_assign hassigned
    exact ⟨hw.defineIn hname hvalue, trivial⟩
  · exact hw

theorem makeFunction_covers {closure : Closure} (hclosure : closure.Entered hops L) :
    Covers hops S L (makeFunction closure w) nowhere fun L' value => value.Entered hops L' :=
  covers_of_ends ⟨hw.changeWorld rfl (Nat.le_succ _) rfl hw.fields, hclosure⟩

theorem makeObject_covers {c : Class} (hc : L.classes c.id = some c) :
    Covers hops S L (makeObject c w) nowhere fun L' value =>
      value.Entered hops L' ∧ ∃ id owner, value = .object id owner := by
  have hle := Ledger.le_addObject hw.object_fresh c
  have hentered : Value.Entered hops (L.addObject w.objects.size c) (.object w.objects.size c) :=
    ⟨L.addObject_self w.objects.size c, hle.classes _ _ hc⟩
  exact covers_of_later hle ⟨hw.addObject c, hentered, _, _, rfl⟩

theorem receiver_covers (method : Closure) :
    Covers hops S L (receiver method w) nowhere fun L' value => value.Entered hops L' := by
  refine covers_of_ends ⟨hw, ?_⟩
  cases hfound : w.frames.getAt method.env 0 "this" with
  | none =>
    rw [Option.getD_none]
    trivial
  | some value =>
    obtain ⟨frame, -, hframe⟩ := Frames.exists_of_getAt hfound
    exact hw.values frame _ value hframe

theorem readField?_covers (id : Nat) (name : String) :
    Covers hops S L (readField? id name w) nowhere
      fun L' value? => ∀ value, value? = some value → value.Entered hops L' := by
  refine covers_of_ends ⟨hw, fun value hvalue => ?_⟩
  obtain ⟨fields, hid, hfield⟩ := Option.bind_eq_some_iff.1 hvalue
  exact hw.fields id fields name value hid hfield

theorem setField_covers (id : Nat) (name : String) {value : Value} (hvalue : value.Entered hops L) :
    Covers hops S L (setField id name value w) nowhere fun _ _ => True := by
  have hsize : (w.objects.modify id (·.insert name value)).size = w.objects.size := Array.size_modify
  refine covers_of_ends ⟨hw.changeWorld rfl (Nat.le_refl _) hsize ?_, trivial⟩
  intro id' fields name' value' hid hfields
  rw [Array.getElem?_modify] at hid
  split at hid
  · obtain ⟨old, hold, rfl⟩ := Option.map_eq_some_iff.1 hid
    rw [Bindings.get?_insert] at hfields
    split at hfields
    · cases hfields
      exact hvalue
    · exact hw.fields id' old name' value' hold hfields
  · exact hw.fields id' fields name' value' hid hfields

theorem readClock_covers :
    Covers hops S L (readClock w) nowhere fun L' value => value.Entered hops L' :=
  covers_of_ends ⟨hw.changeWorld rfl (Nat.le_refl _) rfl hw.fields, trivial⟩

theorem printLine_covers (keyword : Token) (text : String) :
    Covers hops S L (printLine keyword text w) nowhere fun _ _ => True := by
  apply covers_of_ends
  unfold printLine
  dsimp only
  split
  · exact ⟨hw.changeWorld rfl (Nat.le_refl _) rfl hw.fields, trivial⟩
  · exact hw.changeWorld rfl (Nat.le_refl _) rfl hw.fields

theorem Ledger.Chain.lt {os : List Occurrence} {env : Environment} {chain : List Slot}
    (h : L.Chain os env chain) : ∀ frame ∈ env, frame < w.frames.frames.size := by
  induction h with
  | global =>
    rw [globalEnv, List.forall_mem_singleton, ← hw.frames 0, hw.global]
    rfl
  | inner hentry _ _ ih =>
    refine List.forall_mem_cons.2 ⟨?_, ih⟩
    rw [← hw.frames, hentry]
    rfl

theorem makeFrame_covers {bindings : Bindings Value} {entry : FrameEntry}
    (hkeywords : ∀ word, isScopeKeyword word → bindings.get? word = entry.origin.keyword? word)
    (hvalues : ∀ name value, bindings.get? name = some value → value.Entered hops L)
    (hright : entry.Right hops S L w.frames.frames.size) :
    Covers hops S L (makeFrame bindings entry.enclosing w) nowhere fun L' env =>
      env = w.frames.frames.size :: entry.enclosing ∧
        L'.frames w.frames.frames.size = some entry :=
  covers_of_later (Ledger.le_addFrame hw.frame_fresh entry)
    ⟨hw.create hkeywords hvalues hright, rfl, L.addFrame_self w.frames.frames.size entry⟩

theorem makeScope_covers {bindings : Bindings Value} {env : Environment} {os : List Occurrence}
    {chain : List Slot} (hchain : L.Chain os env chain) (names : List String)
    (hkeywords : ∀ word, isScopeKeyword word → bindings.get? word = none)
    (hvalues : ∀ name value, bindings.get? name = some value → value.Entered hops L) :
    Covers hops S L (makeFrame bindings env w) nowhere fun L' env' =>
      L'.Chain os env' (.scope names :: chain) := by
  have hright : FrameEntry.Right hops S L w.frames.frames.size ⟨.scope, env⟩ :=
    ⟨⟨chain, hchain.subset (List.nil_subset os)⟩, Ledger.Chain.lt hw hchain, nofun, nofun, nofun⟩
  refine (makeFrame_covers hw hkeywords hvalues hright).imp ?_
  rintro L' env' hle ⟨rfl, hentry⟩
  exact .inner hentry trivial (hchain.mono hle)

theorem bindMethod_covers {method : Closure} {object : Value}
    (hmethod : method.EnteredUnbound hops L) (hobject : object.Entered hops L)
    (hinstance : ∃ id c, object = .object id c) :
    Covers hops S L (bindMethod method object w) nowhere fun L' bound => bound.Entered hops L' := by
  obtain ⟨around, chain, hslots, hstands, hinitializer⟩ := hmethod
  have hkeywords : ∀ word, isScopeKeyword word →
      (Bindings.ofList [("this", object)]).get? word = (Origin.receiver object).keyword? word :=
    fun word _ => Bindings.get?_singleton "this" word _
  have hvalues : ∀ name value, (Bindings.ofList [("this", object)]).get? name = some value →
      value.Entered hops L := by
    intro name value hvalue
    rw [Bindings.get?_singleton] at hvalue
    split at hvalue
    · cases hvalue
      exact hobject
    · contradiction
  have hright : FrameEntry.Right hops S L w.frames.frames.size ⟨.receiver object, method.env⟩ := by
    refine ⟨⟨chain, hstands.chain.subset (List.nil_subset _)⟩, Ledger.Chain.lt hw hstands.chain, ?_,
      nofun, nofun⟩
    rintro _ ⟨⟩
    obtain ⟨id, c, rfl⟩ := hinstance
    exact ⟨id, c, rfl, hobject⟩
  apply (makeFrame_covers hw hkeywords hvalues hright).step
  rintro L₁ env w₁ hle - hw₁ ⟨rfl, hentry⟩
  apply covers_pure hw₁
  refine ⟨true, around, ⟨?_, hstands.seated, hstands.orderly⟩, ?_⟩
  · rw [hslots]
    exact .inner hentry rfl (hstands.chain.mono hle)
  · rw [hslots]
    simp only [hinitializer, List.head?_cons, and_true]

theorem methodOf_covers {c : Class} (hc : L.classes c.id = some c) (property : Token) {id : Nat}
    {owner : Class} (hobject : Value.Entered hops L (.object id owner)) :
    Covers hops S L (methodOf c property (.object id owner) w) nowhere
      fun L' value => value.Entered hops L' := by
  unfold methodOf
  cases hmethod : c.findMethod? property.lexeme with
  | none => exact covers_raise _ _ hw
  | some method =>
    apply (bindMethod_covers hw (hw.findMethod? hc hmethod) hobject ⟨id, owner, rfl⟩).step
    intro L₁ bound w₁ _ _ hw₁ hentered
    exact makeFunction_covers hw₁ hentered

theorem readProperty_covers {v : Value} (hv : v.Entered hops L) (property : Token) :
    Covers hops S L (readProperty v property w) nowhere fun L' value => value.Entered hops L' := by
  cases v with
  | object id c =>
    apply (readField?_covers hw id property.lexeme).step
    intro L₁ field w₁ hle _ hw₁ hfield
    cases field with
    | none => exact methodOf_covers hw₁ (hle.classes _ _ hv.2) property (hv.mono hle)
    | some value => exact covers_pure hw₁ (hfield value rfl)
  | nil | bool _ | num _ | str _ | callable _ => exact covers_raise _ _ hw

theorem readSuper_covers (ctx : Context) (keyword method : Token) :
    Covers hops S L (readSuper ctx keyword method w) nowhere
      fun L' value => value.Entered hops L' := by
  unfold readSuper
  split
  · rename_i parent id c hfound
    obtain ⟨⟨outer, -, hparent⟩, inner, -, hreceiver⟩ := Context.exists_of_findSuper? hfound
    exact methodOf_covers hw (hw.values outer _ _ hparent) method (hw.values inner _ _ hreceiver)
  · exact covers_of_ends hw

/-- A class gets its entry when it gets its identity. -/
theorem nameClass_covers (env : Environment) {name : Token} (hname : ¬ isScopeKeyword name.lexeme)
    {superclass : Option Class} {methods : Bindings Closure}
    (hright : Class.Right hops S L ⟨w.nextId, name.lexeme, superclass, methods⟩) :
    Covers hops S L ((do
      let id ← freshId
      assignDeclared env name (.callable (.cls ⟨id, name.lexeme, superclass, methods⟩))
      return Flow.normal) w) nowhere fun L' flow => flow.Entered hops L' := by
  have hle : L ≤ L.addClass ⟨w.nextId, name.lexeme, superclass, methods⟩ :=
    Ledger.le_addClass hw.class_fresh
  have hid : Covers hops S L (freshId w) nowhere fun L' id => id = w.nextId ∧
      L'.classes w.nextId = some ⟨w.nextId, name.lexeme, superclass, methods⟩ :=
    covers_of_later hle ⟨hw.addClass rfl hright, rfl, L.addClass_self _⟩
  apply hid.step
  rintro L₁ _ w₁ - - hw₁ ⟨rfl, hentry⟩
  have hentered : Value.Entered hops L₁
      (.callable (.cls ⟨w.nextId, name.lexeme, superclass, methods⟩)) := hentry
  have hassigned := assignDeclared_covers hw₁ env hname hentered
  apply hassigned.step
  intro L₂ _ w₂ _ _ hw₂ _
  exact covers_pure hw₂ trivial

omit hw in
theorem enteredUnbound_of_methodTable {around : List Enclosure} {chain : List Slot} {env : Environment}
    {methods : List FunDecl} (hslots : slots around = .keyword "this" :: chain)
    (hchain : L.Chain (FunDecl.occurrencesAll around methods) env chain)
    (hseated : ∀ o ∈ FunDecl.occurrencesAll around methods, o.Seated hops)
    (horderly : FunDecl.OrderlyAll methods) {name : String} {method : Closure}
    (hmethod : (methodTable env methods).get? name = some method) : method.EnteredUnbound hops L := by
  obtain ⟨f, hf, rfl⟩ := exists_of_methodTable hmethod
  have hsubset := FunDecl.occurrences_subset hf around
  exact ⟨around, chain, hslots, ⟨hchain.subset hsubset, fun o ho => hseated o (hsubset ho),
    FunDecl.orderly_of_mem horderly hf⟩, rfl⟩

theorem declareClass_covers {fuel : Nat} {ctx : Context} {around : List Enclosure} {name : Token}
    {methods : List FunDecl} (hS : S fuel (.execute ctx (.classDecl name none methods)) w)
    (h : L.Stands hops ctx around (⟨.declaration name, around⟩ ::
      FunDecl.occurrencesAll (.classBody name none :: around) methods))
    (horderly : FunDecl.OrderlyAll methods) :
    Covers hops S L (declareClass ctx name none methods w) nowhere
      fun L' flow => flow.Entered hops L' := by
  have hname := h.named (.inl rfl)
  have hnil : Value.nil.Entered hops L := trivial
  have hdefined := defineVariable_covers hw ctx.env hname hnil
  rw [declareClass_eq]
  apply hdefined.step
  rintro L₁ _ _ hle ⟨⟩ hw₁ -
  have hslots : slots (.classBody name none :: around) = .keyword "this" :: slots around := rfl
  have hmethods : ∀ property method, (methodTable ctx.env methods).get? property = some method →
      method.EnteredUnbound hops L₁ := fun _ _ hmethod =>
    enteredUnbound_of_methodTable hslots (h.tail.chain.mono hle) h.tail.seated horderly hmethod
  exact nameClass_covers hw₁ ctx.env hname ⟨nofun, hmethods, fuel, ctx, name, none, methods, w, hS, .base⟩

theorem declareSubclass_covers {fuel : Nat} {ctx : Context} {around : List Enclosure}
    {name parent : Token} {methods : List FunDecl} {base : Class}
    (hS : S fuel (.execute ctx (.classDecl name (some parent) methods)) w)
    (hbase : readVariable ctx parent w = .ok (.callable (.cls base)) w)
    (hentered : L.classes base.id = some base)
    (h : L.Stands hops ctx around (⟨.declaration name, around⟩ ::
      FunDecl.occurrencesAll (.classBody name (some parent) :: around) methods))
    (horderly : FunDecl.OrderlyAll methods) :
    Covers hops S L (declareClass ctx name (some base) methods w) nowhere
      fun L' flow => flow.Entered hops L' := by
  have hname := h.named (.inl rfl)
  have hnil : Value.nil.Entered hops L := trivial
  have hdefined := defineVariable_covers hw ctx.env hname hnil
  rw [declareClass_eq]
  apply hdefined.step
  rintro L₁ _ w₁ hle hrun hw₁ -
  have hsize : w₁.frames.frames.size = w.frames.frames.size := by
    cases hrun
    cases ctx.env with
    | nil => rfl
    | cons frame outer => exact Array.size_modify
  have hnext : w₁.nextId = w.nextId := by
    cases hrun
    rfl
  have hchain := h.tail.chain.mono hle
  -- The frame for `super` lies in the environment of the class statement.
  let entry : FrameEntry :=
    ⟨.superclass base (FunDecl.occurrencesAll (.classBody name (some parent) :: around) methods), ctx.env⟩
  have hkeywords : ∀ word, isScopeKeyword word →
      (Bindings.ofList [("super", Value.callable (.cls base))]).get? word =
        entry.origin.keyword? word := fun word _ => Bindings.get?_singleton "super" word _
  have hvalues : ∀ name value,
      (Bindings.ofList [("super", Value.callable (.cls base))]).get? name = some value →
        value.Entered hops L₁ := by
    intro name value hvalue
    rw [Bindings.get?_singleton] at hvalue
    split at hvalue
    · cases hvalue
      exact hle.classes _ _ hentered
    · contradiction
  have hright : entry.Right hops S L₁ w₁.frames.frames.size := by
    refine ⟨⟨_, hchain.subset (List.nil_subset _)⟩, Ledger.Chain.lt hw₁ hchain, nofun, ?_, ?_⟩
    · rintro _ _ ⟨⟩
      exact ⟨fuel, ctx, name, parent, methods, around, w, hS, ⟨base, hbase, hsize, rfl⟩,
        hchain.subset (List.nil_subset _)⟩
    · rintro _ _ ⟨⟩
      exact h.tail.seated
  have hframe := makeFrame_covers hw₁ hkeywords hvalues hright
  apply hframe.step
  rintro L₂ env w₂ hle' hrun' hw₂ ⟨rfl, hentry⟩
  have hinside : L₂.Chain (FunDecl.occurrencesAll (.classBody name (some parent) :: around) methods)
      (w₁.frames.frames.size :: ctx.env) (.keyword "super" :: slots around) :=
    .inner hentry ⟨rfl, List.Subset.refl _⟩ (hchain.mono hle')
  have hslots : slots (.classBody name (some parent) :: around) =
      .keyword "this" :: .keyword "super" :: slots around := rfl
  have hmethods : ∀ property method,
      (methodTable (w₁.frames.frames.size :: ctx.env) methods).get? property = some method →
        method.EnteredUnbound hops L₂ := fun _ _ hmethod =>
    enteredUnbound_of_methodTable hslots hinside h.tail.seated horderly hmethod
  have hnext' : w₂.nextId = w.nextId := by
    rw [← hnext]
    cases hrun'
    rfl
  refine nameClass_covers hw₂ ctx.env hname ⟨?_, hmethods, fuel, ctx, name, some parent, methods, w, hS, ?_⟩
  · rintro _ ⟨⟩
    have hkept := (hle.trans hle').classes _ _ hentered
    refine ⟨hkept, ?_⟩
    exact (hw₂.classes _ _ hkept).2.1
  · rw [hnext', hsize]
    exact .derived hbase

theorem inheritClass_covers {fuel : Nat} {ctx : Context} {around : List Enclosure}
    {name parent : Token} {methods : List FunDecl}
    (hS : S fuel (.execute ctx (.classDecl name (some parent) methods)) w)
    (h : L.Stands hops ctx around (Stmt.occurrences around (.classDecl name (some parent) methods)))
    (horderly : FunDecl.OrderlyAll methods) :
    Covers hops S L ((do
      match ← readVariable ctx parent with
      | .callable (.cls c) => declareClass ctx name (some c) methods
      | _ => Evaluation.raise parent .superclassMustBeClass) w) nowhere
      fun L' flow => flow.Entered hops L' := by
  have hinside : FunDecl.occurrencesAll (.classBody name (some parent) :: around) methods ⊆
      ⟨.subclass name parent, around⟩ :: ⟨.variable parent, around⟩ ::
        FunDecl.occurrencesAll (.classBody name (some parent) :: around) methods :=
    List.Subset.trans (List.subset_cons_self _ _) (List.subset_cons_self _ _)
  rw [Stmt.occurrences] at h
  apply (readVariable_covers hw ctx parent).step
  intro L₁ value w₁ hle hread hw₁ hvalue
  cases readVariable_world hread
  cases value with
  | callable f =>
    cases f with
    | cls base =>
      have hclass := (h.subset (List.cons_subset_cons _ hinside)).mono hle
      exact declareSubclass_covers hw₁ hS hread hvalue hclass horderly
    | native _ | function _ _ => exact covers_raise _ _ hw₁
  | nil | bool _ | num _ | str _ | object _ _ => exact covers_raise _ _ hw₁

theorem declareFunction_covers {ctx : Context} {around : List Enclosure} {f : FunDecl}
    (h : L.Carries hops ctx around (Stmt.occurrences around (.funDecl f))) (horderly : f.Orderly) :
    Covers hops S L ((do
      let value ← makeFunction ⟨f, ctx.env, false⟩
      defineVariable ctx.env f.name.lexeme value
      return Flow.normal) w) nowhere fun L' flow => flow.Entered hops L' := by
  have hclosure : Closure.Entered hops L ⟨f, ctx.env, false⟩ := by
    refine ⟨false, around, ⟨h.tail.chain, h.tail.seated, horderly⟩, nofun, ?_⟩
    exact fun hinitializer => absurd hinitializer.2 (h.opened "this")
  apply (makeFunction_covers hw hclosure).step
  intro L₁ value w₁ _ _ hw₁ hvalue
  apply (defineVariable_covers hw₁ ctx.env (h.named (.inl rfl)) hvalue).step
  intro L₂ _ w₂ _ _ hw₂ _
  exact covers_pure hw₂ trivial

end Actions

end Lox
