import Lox.Proofs.Desugaring.Thinning
import Lox.Proofs.Session.HopTable

/-!
The walk for distances over a surface tree and over its desugared tree. Both find the same errors, and they
record distances for the same uses, in the same order. In the tables of a fresh session every use has an
entry for both trees or for none.
-/
namespace Lox

open Surface (Thinning Use usesIn usesInAll usesInOption)

namespace Surface

/-- The distances that two walks record for uses, in the same order. -/
inductive Tied : List Use → List Hop → List Hop → Prop
  | nil : Tied [] [] []
  | global {us hops hops'} (u : Use) (h : Tied us hops hops') : Tied (u :: us) hops hops'
  | bound {us hops hops'} {u : Use} {d d'} (hu : u.Spans d d') (h : Tied us hops hops') :
      Tied (u :: us) (⟨u.token, d⟩ :: hops) (⟨u.token, d'⟩ :: hops')

theorem Tied.append {us vs : List Use} {hops hops' more more' : List Hop} (h : Tied us hops hops')
    (hmore : Tied vs more more') : Tied (us ++ vs) (hops ++ more) (hops' ++ more') := by
  induction h with
  | nil => exact hmore
  | global u _ ih => exact .global u ih
  | bound hu _ ih => exact .bound hu ih

theorem Tied.exists_use {us : List Use} {hops hops' : List Hop} (h : Tied us hops hops') :
    ∀ hop, hop ∈ hops ∨ hop ∈ hops' → ∃ u ∈ us, hop.token = u.token := by
  induction h with
  | nil => simp
  | global u _ ih =>
    intro hop hhop
    obtain ⟨v, hv, htoken⟩ := ih hop hhop
    exact ⟨v, List.mem_cons_of_mem _ hv, htoken⟩
  | @bound us hops hops' u _ _ _ _ ih =>
    intro hop hhop
    simp only [List.mem_cons] at hhop
    by_cases htoken : hop.token = u.token
    · exact ⟨u, List.mem_cons_self .., htoken⟩
    · have hrest : hop ∈ hops ∨ hop ∈ hops' := by
        rcases hhop with (rfl | hhop) | rfl | hhop
        · exact absurd rfl htoken
        · exact .inl hhop
        · exact absurd rfl htoken
        · exact .inr hhop
      obtain ⟨v, hv, htoken⟩ := ih hop hrest
      exact ⟨v, List.mem_cons_of_mem _ hv, htoken⟩

/-- The tables of distances know a use in both trees or in none. -/
def Use.Linked (hops hops' : HopTable) (u : Use) : Prop :=
  (hops[u.token.index]? = none ∧ hops'[u.token.index]? = none) ∨
    ∃ d d', hops[u.token.index]? = some d ∧ hops'[u.token.index]? = some d' ∧ u.Spans d d'

theorem Tied.adopt_of_ne {us : List Use} {hops hops' : List Hop} (h : Tied us hops hops')
    (s s' : Session) {i : Nat} (hi : ∀ u ∈ us, u.token.index ≠ i) :
    (s.adopt hops).hops[i]? = s.hops[i]? ∧ (s'.adopt hops').hops[i]? = s'.hops[i]? := by
  have hne : ∀ hop, hop ∈ hops ∨ hop ∈ hops' → hop.token.index ≠ i := by
    intro hop hhop
    obtain ⟨u, hu, htoken⟩ := h.exists_use hop hhop
    rw [htoken]
    exact hi u hu
  exact ⟨s.adopt_getElem?_of_ne hops i fun hop hhop => hne hop (.inl hhop),
    s'.adopt_getElem?_of_ne hops' i fun hop hhop => hne hop (.inr hhop)⟩

theorem Tied.linked {us : List Use} {hops hops' : List Hop} (h : Tied us hops hops')
    (hdistinct : (us.map fun u => u.token.index).Nodup) {s s' : Session}
    (hfresh : ∀ u ∈ us, s.hops[u.token.index]? = none ∧ s'.hops[u.token.index]? = none) :
    ∀ u ∈ us, u.Linked (s.adopt hops).hops (s'.adopt hops').hops := by
  induction h generalizing s s' with
  | nil => nofun
  | @global us _ _ u h ih =>
    rw [List.map_cons, List.nodup_cons] at hdistinct
    have hne : ∀ v ∈ us, v.token.index ≠ u.token.index := fun v hv hindex =>
      hdistinct.1 (List.mem_map.2 ⟨v, hv, hindex⟩)
    have hothers := h.adopt_of_ne s s' hne
    intro v hv
    rcases List.mem_cons.1 hv with rfl | hv
    · obtain ⟨hnone, hnone'⟩ := hfresh v (List.mem_cons_self ..)
      exact .inl ⟨hothers.1.trans hnone, hothers.2.trans hnone'⟩
    · exact ih hdistinct.2 (fun w hw => hfresh w (List.mem_cons_of_mem _ hw)) v hv
  | @bound us hops hops' u d d' hu h ih =>
    rw [List.map_cons, List.nodup_cons] at hdistinct
    have hsplit := s.adopt_append [⟨u.token, d⟩] hops
    have hsplit' := s'.adopt_append [⟨u.token, d'⟩] hops'
    rw [List.singleton_append] at hsplit hsplit'
    rw [hsplit, hsplit']
    have hne : ∀ v ∈ us, v.token.index ≠ u.token.index := fun v hv hindex =>
      hdistinct.1 (List.mem_map.2 ⟨v, hv, hindex⟩)
    have hothers := h.adopt_of_ne (s.adopt [⟨u.token, d⟩]) (s'.adopt [⟨u.token, d'⟩]) hne
    intro v hv
    rcases List.mem_cons.1 hv with rfl | hv
    · refine .inr ⟨d, d', hothers.1.trans ?_, hothers.2.trans ?_, hu⟩
      · simp [Session.adopt]
      · simp [Session.adopt]
    · refine ih hdistinct.2 (fun w hw => ?_) v hv
      have hw' := (hne w hw).symm
      obtain ⟨hnone, hnone'⟩ := hfresh w (List.mem_cons_of_mem _ hw)
      have hfirst := s.adopt_getElem?_of_ne [⟨u.token, d⟩] w.token.index (by simpa using hw')
      have hfirst' := s'.adopt_getElem?_of_ne [⟨u.token, d'⟩] w.token.index (by simpa using hw')
      exact ⟨hfirst.trans hnone, hfirst'.trans hnone'⟩

/-- Two walks find the same errors, and distances for the same uses. The uses are among the mentions of
the desugared tree. -/
structure Paired (us : List Use) (f f' : Findings) (ms : List Mention) : Prop where
  errors : f'.errors = f.errors
  hops : Tied us f.hops f'.hops
  counts : ∀ token, (us.map Use.token).count token ≤ (ms.map Mention.token).count token

section Rules

variable {us vs : List Use} {f f' g g' : Findings} {ms ns : List Mention}

theorem paired_none (ms : List Mention) : Paired [] .none .none ms :=
  ⟨rfl, .nil, fun _ => Nat.zero_le _⟩

theorem paired_error (token : Token) (fault : ScopeFault) (u : Use) (m : Mention)
    (hm : m.token = u.token) : Paired [u] (.error token fault) (.error token fault) [m] := by
  refine ⟨rfl, .global u .nil, ?_⟩
  intro token
  rw [List.map_singleton, List.map_singleton, hm]

theorem paired_errorIf (condition : Bool) (token : Token) (fault : ScopeFault) :
    Paired [] (.errorIf condition token fault) (.errorIf condition token fault) [] := by
  cases condition
  · exact paired_none []
  · exact ⟨rfl, .nil, fun _ => Nat.zero_le _⟩

theorem Paired.append (hf : Paired us f f' ms) (hg : Paired vs g g' ns) :
    Paired (us ++ vs) (f ++ g) (f' ++ g') (ms ++ ns) := by
  refine ⟨?_, hf.hops.append hg.hops, ?_⟩
  · rw [Findings.errors_append, Findings.errors_append, hf.errors, hg.errors]
  · intro token
    have hus := hf.counts token
    have hvs := hg.counts token
    simp only [List.map_append, List.count_append]
    omega

/-- The walk for distances comes across some mentions in another order. -/
theorem Paired.perm (hf : Paired us f f' ms) (h : ms.Perm ns) : Paired us f f' ns := by
  refine { hf with counts := ?_ }
  intro token
  rw [← (h.map Mention.token).count_eq token]
  exact hf.counts token

/-- Declarations are mentions and no uses. -/
theorem Paired.behind (hf : Paired us f f' ms) (ns : List Mention) : Paired us f f' (ns ++ ms) := by
  refine { hf with counts := ?_ }
  intro token
  rw [List.map_append, List.count_append]
  exact Nat.le_trans (hf.counts token) (Nat.le_add_left ..)

/-- Findings at a declaration come before those in what it declares. -/
theorem Paired.of_nil_append (hf : Paired [] f f' []) (hg : Paired vs g g' ns) :
    Paired vs (f ++ g) (f' ++ g') ns := hf.append hg

end Rules

section Names

variable {t : Thinning} {scopes scopes' : Scopes}

theorem paired_use (h : scopes.Aligned t scopes') (u : Use) (hu : u.thinning = t)
    (hsuper : u.access = .super → u.token.lexeme = "super") (m : Mention) (hm : m.token = u.token) :
    Paired [u] (scopes.use u.token) (scopes'.use u.token) [m] := by
  have hcounts : ∀ token, ([u].map Use.token).count token ≤ ([m].map Mention.token).count token := by
    intro token
    rw [List.map_singleton, List.map_singleton, hm]
  unfold Scopes.use
  obtain ⟨hnone, hnone'⟩ | ⟨d, d', hd, hd', himage⟩ := h.woven.distance? u.token.lexeme
  · rw [hnone, hnone']
    exact ⟨rfl, .global u .nil, hcounts⟩
  · have hspans : u.Spans d d' := by
      refine ⟨hu ▸ himage, fun haccess => ?_⟩
      rw [hsuper haccess] at hd hd'
      rw [hu]
      exact h.fitsSuper d d' hd hd'
    rw [hd, hd']
    exact ⟨rfl, .bound hspans .nil, hcounts⟩

theorem paired_read (h : scopes.Aligned t scopes') (name : Token) (stack : ScopeStack) :
    Paired [⟨.variable, name, t⟩] (scopes.read name) (scopes'.read name)
      [⟨.variable, name, stack⟩] := by
  have huse := paired_use h ⟨.variable, name, t⟩ rfl nofun ⟨.variable, name, stack⟩ rfl
  unfold Scopes.read
  rcases h.woven.head with hsame | ⟨hcalm, hadded⟩
  · rw [hsame]
    exact (paired_errorIf _ _ _).of_nil_append huse
  · have hready : decide (scopes.head?.bind (·.get? name.lexeme) = some false) = false := by
      simpa using hcalm name.lexeme
    have hready' : decide (scopes'.head?.bind (·.get? name.lexeme) = some false) = false := by
      rw [hadded]
      rfl
    rw [hready, hready']
    exact (paired_errorIf _ _ _).of_nil_append huse

theorem paired_redeclared (h : scopes.Aligned t scopes') (ht : t.Declares) (name : Token) :
    Paired [] (scopes.redeclared name) (scopes'.redeclared name) [] := by
  unfold Scopes.redeclared
  rw [h.woven.head_of_declares ht]
  exact paired_errorIf _ _ _

theorem paired_allRedeclared (h : scopes.Aligned t scopes') (ht : t.Declares) {names : List Token}
    (hnames : ∀ name ∈ names, ¬ isScopeKeyword name.lexeme) :
    Paired [] (scopes.allRedeclared names) (scopes'.allRedeclared names) [] := by
  induction names generalizing scopes scopes' with
  | nil => exact paired_none []
  | cons name names ih =>
    have hrest := ih (h.bind ht (hnames name (List.mem_cons_self ..)) true)
      fun name' hname' => hnames name' (List.mem_cons_of_mem _ hname')
    exact (paired_redeclared h ht name).of_nil_append hrest

end Names

end Surface

open Surface (Paired paired_none paired_error paired_use paired_read)

section Expressions

variable {t : Thinning} {scopes scopes' : Scopes}

mutual

theorem Expr.paired (h : scopes.Aligned t scopes') (around : Surroundings) (stack : ScopeStack) :
    ∀ e : Expr, (∀ m ∈ e.mentions stack, m.Spelled) →
    Paired (usesIn t e) (e.resolve around scopes) (e.resolve around scopes') (e.mentions stack)
  | .literal _, _ => paired_none []
  | .var name, _ => paired_read h name stack
  | .assign name value, hspelled => by
    have hvalue := value.paired h around stack fun m hm => hspelled m (List.mem_cons_of_mem _ hm)
    have hname := paired_use h ⟨.assignment, name, t⟩ rfl nofun ⟨.assignment, name, stack⟩ rfl
    exact (hvalue.append hname).perm List.perm_append_comm
  | .unary _ e, hspelled | .group e, hspelled | .get e _, hspelled => e.paired h around stack hspelled
  | .binary left _ right, hspelled | .logical left _ right, hspelled =>
    (left.paired h around stack fun m hm => hspelled m (List.mem_append_left _ hm)).append
      (right.paired h around stack fun m hm => hspelled m (List.mem_append_right _ hm))
  | .call callee _ args, hspelled =>
    (callee.paired h around stack fun m hm => hspelled m (List.mem_append_left _ hm)).append
      (Expr.pairedAll h around stack args fun m hm => hspelled m (List.mem_append_right _ hm))
  | .set object _ value, hspelled => by
    have hvalue := value.paired h around stack fun m hm => hspelled m (List.mem_append_right _ hm)
    have hobject := object.paired h around stack fun m hm => hspelled m (List.mem_append_left _ hm)
    exact (hvalue.append hobject).perm List.perm_append_comm
  | .this keyword, _ => by
    have huse := paired_use h ⟨.this, keyword, t⟩ rfl nofun ⟨.this, keyword, stack⟩ rfl
    rw [Expr.resolve, Expr.resolve]
    cases around.cls with
    | outside => exact paired_error keyword _ ⟨.this, keyword, t⟩ ⟨.this, keyword, stack⟩ rfl
    | base | derived => exact huse
  | .super keyword _, hspelled => by
    have hkeyword : keyword.lexeme = "super" := hspelled _ (List.mem_singleton_self _)
    have huse := paired_use h ⟨.super, keyword, t⟩ rfl (fun _ => hkeyword)
      ⟨.super, keyword, stack⟩ rfl
    rw [Expr.resolve, Expr.resolve]
    cases around.cls with
    | outside | base => exact paired_error keyword _ ⟨.super, keyword, t⟩ ⟨.super, keyword, stack⟩ rfl
    | derived => exact huse

theorem Expr.pairedAll (h : scopes.Aligned t scopes') (around : Surroundings) (stack : ScopeStack) :
    ∀ es : List Expr, (∀ m ∈ Expr.mentionsAll stack es, m.Spelled) →
    Paired (usesInAll t es) (Expr.resolveAll around scopes es) (Expr.resolveAll around scopes' es)
      (Expr.mentionsAll stack es)
  | [], _ => paired_none []
  | e :: rest, hspelled =>
    (e.paired h around stack fun m hm => hspelled m (List.mem_append_left _ hm)).append
      (Expr.pairedAll h around stack rest fun m hm => hspelled m (List.mem_append_right _ hm))

end

theorem Expr.pairedOption (h : scopes.Aligned t scopes') (around : Surroundings)
    (stack : ScopeStack) (e : Option Expr)
    (hspelled : ∀ m ∈ Expr.mentionsOption stack e, m.Spelled) :
    Paired (usesInOption t e) (Expr.resolveOption around scopes e)
      (Expr.resolveOption around scopes' e) (Expr.mentionsOption stack e) := by
  cases e with
  | none => exact paired_none []
  | some e => exact e.paired h around stack hspelled

end Expressions

namespace Surface

theorem Decl.bind_desugar (d : Decl) (scopes : Scopes) : d.desugar.bind scopes = d.bind scopes := by
  cases d with
  | var _ _ | cls _ _ _ => rfl
  | function f =>
    rw [desugar, Lox.Stmt.bind, FunDecl.desugar_name]
    rfl
  | stmt s =>
    cases s with
    | forLoop initializer _ increment _ =>
      cases initializer <;> cases increment <;> rfl
    | _ => rfl

section Loops

variable {t : Thinning} {scopes scopes' : Scopes} {stack : ScopeStack} {around : Surroundings}
  {condition increment : Option Expr} {body : Stmt}

/-- What the walk over the body of a `for` shows wherever the body is put. -/
def Stmt.PairsIn (body : Stmt) (around : Surroundings) (scopes : Scopes) : Prop :=
  ∀ t scopes' stack, scopes.Aligned t scopes' → (∀ m ∈ body.desugar.mentions stack, m.Spelled) →
    Paired (body.uses t) (body.resolve around scopes) (body.desugar.resolve around scopes')
      (body.desugar.mentions stack)

theorem paired_loopBody (h : scopes.Aligned t scopes') (hcalm : scopes.Calm)
    (hbody : body.PairsIn around scopes)
    (hspelled : ∀ m ∈ (loopBody increment body.desugar).mentions stack, m.Spelled) :
    Paired (body.uses (bodyThinning t increment) ++ usesInOption (.added :: t) increment)
      (body.resolve around scopes ++ Expr.resolveOption around scopes increment)
      ((loopBody increment body.desugar).resolve around scopes')
      ((loopBody increment body.desugar).mentions stack) := by
  cases increment with
  | none =>
    have hpaired := hbody t scopes' stack h hspelled
    rw [Expr.resolveOption, Option.elim_none, Findings.append_none]
    rwa [usesInOption, Option.elim_none, List.append_nil]
  | some e =>
    have hbind : body.desugar.bind (.empty :: scopes') = .empty :: scopes' :=
      Decl.bind_desugar (.stmt body) _
    rw [loopBody, Option.elim_some, Lox.Stmt.mentions, Lox.Stmt.mentionsAll, Lox.Stmt.mentionsAll,
      Lox.Stmt.mentionsAll, List.append_nil] at hspelled ⊢
    rw [Lox.Stmt.resolve, Lox.Stmt.resolveAll, Lox.Stmt.resolveAll, Lox.Stmt.resolveAll,
      Findings.append_none, hbind]
    have hadded := h.add hcalm
    have hfirst := hbody _ _ _ hadded fun m hm => hspelled m (List.mem_append_left _ hm)
    have hincrement := e.paired hadded around _ fun m hm => hspelled m (List.mem_append_right _ hm)
    exact hfirst.append hincrement

theorem paired_loop (h : scopes.Aligned t scopes') (hcalm : scopes.Calm)
    (hbody : body.PairsIn around scopes)
    (hspelled : ∀ m ∈ (loop condition increment body.desugar).mentions stack, m.Spelled) :
    Paired (usesInOption t condition ++ body.uses (bodyThinning t increment) ++
        usesInOption (.added :: t) increment)
      (Expr.resolveOption around scopes condition ++ body.resolve around scopes ++
        Expr.resolveOption around scopes increment)
      ((loop condition increment body.desugar).resolve around scopes')
      ((loop condition increment body.desugar).mentions stack) := by
  rw [loop, Lox.Stmt.mentions] at hspelled ⊢
  rw [Lox.Stmt.resolve, List.append_assoc, Findings.append_assoc]
  have hturn := paired_loopBody h hcalm hbody fun m hm => hspelled m (List.mem_append_right _ hm)
  cases condition with
  | none => exact (paired_none []).of_nil_append hturn
  | some e =>
    have hcondition := e.paired h around stack fun m hm => hspelled m (List.mem_append_left _ hm)
    exact hcondition.append hturn

end Loops

theorem paired_variable {t : Thinning} {scopes scopes' : Scopes} (h : scopes.Aligned t scopes')
    (ht : t.Declares) (around : Surroundings) (stack : ScopeStack) {name : Token}
    {value : Option Expr}
    (hspelled : ∀ m ∈ (Lox.Stmt.varDecl name value).mentions stack, m.Spelled) :
    Paired (usesInOption t value) (resolveVariable around scopes name value)
      ((Lox.Stmt.varDecl name value).resolve around scopes')
      ((Lox.Stmt.varDecl name value).mentions stack) := by
  rw [Lox.Stmt.mentions] at hspelled ⊢
  rw [Lox.Stmt.resolve, resolveVariable]
  have hname : ¬ isScopeKeyword name.lexeme := hspelled _ (List.mem_cons_self ..)
  have hvalue := Expr.pairedOption (h.bind ht hname false) around _ value
    fun m hm => hspelled m (List.mem_cons_of_mem _ hm)
  exact ((paired_redeclared h ht name).of_nil_append hvalue).behind [_]

theorem Initializer.paired {t : Thinning} {scopes scopes' : Scopes} (h : scopes.Aligned t scopes')
    (ht : t.Declares) (around : Surroundings) (stack : ScopeStack) (i : Initializer)
    (hspelled : ∀ m ∈ i.desugar.mentions stack, m.Spelled) :
    Paired (i.uses t) (i.resolve around scopes) (i.desugar.resolve around scopes')
      (i.desugar.mentions stack) := by
  cases i with
  | var name value => exact paired_variable h ht around stack hspelled
  | expr e => exact e.paired h around stack hspelled

/-- Behind the initializer of a `for` both walks stand in scopes that belong together. -/
theorem Initializer.aligned_bind {t : Thinning} {scopes scopes' : Scopes}
    (h : scopes.Aligned t scopes') (ht : t.Declares) (stack : ScopeStack) (i : Initializer)
    (hspelled : ∀ m ∈ i.desugar.mentions stack, m.Spelled) :
    (i.bind scopes).Aligned t (i.desugar.bind scopes') := by
  cases i with
  | var name value =>
    rw [desugar, Lox.Stmt.mentions] at hspelled
    exact h.bind ht (hspelled _ (List.mem_cons_self ..)) true
  | expr e => exact h

theorem Initializer.calm_bind {scopes : Scopes} (h : scopes.Calm) (i : Initializer) :
    (i.bind scopes).Calm := by
  cases i with
  | var name value => exact h.bind name.lexeme
  | expr e => exact h

theorem Decl.calm_bind {scopes : Scopes} (h : scopes.Calm) (d : Decl) : (d.bind scopes).Calm := by
  cases d with
  | var name _ | cls name _ _ => exact h.bind name.lexeme
  | function f => exact h.bind f.name.lexeme
  | stmt _ => exact h

theorem Decl.aligned_bind {t : Thinning} {scopes scopes' : Scopes} (h : scopes.Aligned t scopes')
    (ht : t.Declares) (stack : ScopeStack) (d : Decl)
    (hspelled : ∀ m ∈ d.desugar.mentions stack, m.Spelled) :
    (d.bind scopes).Aligned t (d.desugar.bind scopes') := by
  rw [bind_desugar]
  cases d with
  | var name _ =>
    rw [desugar, Lox.Stmt.mentions] at hspelled
    exact h.bind ht (hspelled _ (List.mem_cons_self ..)) true
  | cls name superclass _ =>
    unfold desugar Lox.Stmt.mentions at hspelled
    exact h.bind ht (hspelled _ (List.mem_cons_self ..)) true
  | function f =>
    rw [desugar, Lox.Stmt.mentions, FunDecl.desugar_name] at hspelled
    exact h.bind ht (hspelled _ (List.mem_cons_self ..)) true
  | stmt _ => exact h

theorem paired_forLoop {t : Thinning} {scopes scopes' : Scopes} {around : Surroundings}
    {stack : ScopeStack} {initializer : Option Initializer} {condition increment : Option Expr}
    {body : Stmt} (h : scopes.Aligned t scopes') (hcalm : scopes.Calm)
    (hbody : body.PairsIn around (Initializer.bindOption scopes initializer))
    (hspelled : ∀ m ∈ (Stmt.forLoop initializer condition increment body).desugar.mentions stack,
      m.Spelled) :
    Paired ((Stmt.forLoop initializer condition increment body).uses t)
      ((Stmt.forLoop initializer condition increment body).resolve around scopes)
      ((Stmt.forLoop initializer condition increment body).desugar.resolve around scopes')
      ((Stmt.forLoop initializer condition increment body).desugar.mentions stack) := by
  rw [Stmt.desugar] at hspelled ⊢
  rw [Stmt.uses, Stmt.resolve]
  cases initializer with
  | none =>
    rw [Option.map_none, forLoop_none] at hspelled ⊢
    exact paired_loop h hcalm hbody hspelled
  | some i =>
    rw [Option.map_some, forLoop_some, Lox.Stmt.mentions, Lox.Stmt.mentionsAll,
      Lox.Stmt.mentionsAll, Lox.Stmt.mentionsAll, List.append_nil] at hspelled ⊢
    rw [Lox.Stmt.resolve, Lox.Stmt.resolveAll, Lox.Stmt.resolveAll, Lox.Stmt.resolveAll,
      Findings.append_none]
    have hinside := h.push (Bindings.get?_empty "super")
    have hdeclares := t.declares_shared
    have hi := fun m hm => hspelled m (List.mem_append_left _ hm)
    have hfirst := i.paired hinside hdeclares around _ hi
    have hloop := paired_loop (i.aligned_bind hinside hdeclares _ hi)
      (i.calm_bind (Scopes.calm_empty scopes)) hbody
      fun m hm => hspelled m (List.mem_append_right _ hm)
    have hpaired := hfirst.append hloop
    rwa [← List.append_assoc, ← List.append_assoc, ← Findings.append_assoc,
      ← Findings.append_assoc] at hpaired

mutual

theorem Stmt.paired {t : Thinning} {scopes scopes' : Scopes} (h : scopes.Aligned t scopes')
    (hcalm : scopes.Calm) (around : Surroundings) (stack : ScopeStack) : ∀ s : Stmt,
    (∀ m ∈ s.desugar.mentions stack, m.Spelled) →
    Paired (s.uses t) (s.resolve around scopes) (s.desugar.resolve around scopes')
      (s.desugar.mentions stack)
  | .expr e, hspelled | .print _ e, hspelled => e.paired h around stack hspelled
  | .block body, hspelled => by
    rw [Stmt.desugar, Lox.Stmt.mentions] at hspelled ⊢
    exact Decl.pairedAll (h.push (Bindings.get?_empty _)) (Scopes.calm_empty scopes)
      t.declares_shared around _ body hspelled
  | .ifThen condition yes, hspelled => by
    rw [Stmt.desugar, Lox.Stmt.mentions] at hspelled ⊢
    have hcondition := condition.paired h around stack
      fun m hm => hspelled m (List.mem_append_left _ hm)
    have hyes := yes.paired h hcalm around stack fun m hm => hspelled m (List.mem_append_right _ hm)
    exact hcondition.append hyes
  | .ifElse condition yes no, hspelled => by
    rw [Stmt.desugar, Lox.Stmt.mentions] at hspelled ⊢
    have hcondition := condition.paired h around stack
      fun m hm => hspelled m (List.mem_append_left _ (List.mem_append_left _ hm))
    have hyes := yes.paired h hcalm around stack
      fun m hm => hspelled m (List.mem_append_left _ (List.mem_append_right _ hm))
    have hno := no.paired h hcalm around stack fun m hm => hspelled m (List.mem_append_right _ hm)
    exact (hcondition.append hyes).append hno
  | .whileLoop condition body, hspelled => by
    rw [Stmt.desugar, Lox.Stmt.mentions] at hspelled ⊢
    have hcondition := condition.paired h around stack
      fun m hm => hspelled m (List.mem_append_left _ hm)
    have hbody := body.paired h hcalm around stack
      fun m hm => hspelled m (List.mem_append_right _ hm)
    exact hcondition.append hbody
  | .forLoop initializer condition increment body, hspelled => by
    have hinside : (Initializer.bindOption scopes initializer).Calm := by
      cases initializer with
      | none => exact hcalm
      | some i => exact i.calm_bind (Scopes.calm_empty scopes)
    exact paired_forLoop h hcalm
      (fun _ _ stack h hspelled => body.paired h hinside around stack hspelled) hspelled
  | .ret keyword value, hspelled => by
    have hvalue := Expr.pairedOption h around stack value hspelled
    have herrors := (paired_errorIf (around.function = .topLevel) keyword
      .returnOutsideFunction).append (paired_errorIf
        (value.isSome && around.function = .initializer) keyword .valueFromInitializer)
    exact herrors.of_nil_append hvalue

theorem Decl.paired {t : Thinning} {scopes scopes' : Scopes} (h : scopes.Aligned t scopes')
    (hcalm : scopes.Calm) (ht : t.Declares) (around : Surroundings) (stack : ScopeStack) :
    ∀ d : Decl, (∀ m ∈ d.desugar.mentions stack, m.Spelled) →
    Paired (d.uses t) (d.resolve around scopes) (d.desugar.resolve around scopes')
      (d.desugar.mentions stack)
  | .var name value, hspelled => paired_variable h ht around stack hspelled
  | .function f, hspelled => by
    rw [Decl.desugar, Lox.Stmt.mentions] at hspelled ⊢
    rw [Lox.Stmt.resolve, Decl.resolve]
    rw [FunDecl.desugar_name] at hspelled ⊢
    have hname : ¬ isScopeKeyword f.name.lexeme := hspelled _ (List.mem_cons_self ..)
    have hf := f.paired (h.bind ht hname true) { around with function := .function } _
      fun m hm => hspelled m (List.mem_cons_of_mem _ hm)
    exact ((paired_redeclared h ht f.name).of_nil_append hf).behind [_]
  | .cls name none methods, hspelled => by
    rw [Decl.desugar, Lox.Stmt.mentions] at hspelled ⊢
    rw [Lox.Stmt.resolve, Decl.resolve]
    have hname : ¬ isScopeKeyword name.lexeme := hspelled _ (List.mem_cons_self ..)
    have hthis : (keywordScope "this").get? "super" = none := by
      simp [keywordScope]
    have hmethods := FunDecl.pairedAll ((h.bind ht hname true).push hthis)
      { around with cls := .base } _ methods
      fun m hm => hspelled m (List.mem_cons_of_mem _ hm)
    exact ((paired_redeclared h ht name).of_nil_append hmethods).behind [_]
  | .cls name (some parent) methods, hspelled => by
    rw [Decl.desugar, Lox.Stmt.mentions] at hspelled ⊢
    rw [Lox.Stmt.resolve, Decl.resolve]
    have hname : ¬ isScopeKeyword name.lexeme := hspelled _ (List.mem_cons_self ..)
    have hinside := h.bind ht hname true
    have hself := paired_errorIf (parent.lexeme == name.lexeme) parent .inheritsFromItself
    have hparent := paired_read hinside parent (stack.bind name.lexeme false)
    have hmethods := FunDecl.pairedAll hinside.derived { around with cls := .derived } _ methods
      fun m hm => hspelled m (List.mem_cons_of_mem _ (List.mem_cons_of_mem _ hm))
    have hbody := (hself.of_nil_append hparent).append hmethods
    exact ((paired_redeclared h ht name).of_nil_append hbody).behind [_]
  | .stmt s, hspelled => s.paired h hcalm around stack hspelled

theorem Decl.pairedAll {t : Thinning} {scopes scopes' : Scopes} (h : scopes.Aligned t scopes')
    (hcalm : scopes.Calm) (ht : t.Declares) (around : Surroundings) (stack : ScopeStack) :
    ∀ ds : List Decl, (∀ m ∈ Lox.Stmt.mentionsAll stack (Decl.desugarAll ds), m.Spelled) →
    Paired (Decl.usesAll t ds) (Decl.resolveAll around scopes ds)
      (Lox.Stmt.resolveAll around scopes' (Decl.desugarAll ds))
      (Lox.Stmt.mentionsAll stack (Decl.desugarAll ds))
  | [], _ => paired_none []
  | d :: rest, hspelled => by
    rw [Decl.desugarAll, Lox.Stmt.mentionsAll] at hspelled ⊢
    have hd := fun m hm => hspelled m (List.mem_append_left _ hm)
    have hfirst := d.paired h hcalm ht around stack hd
    have hrest := Decl.pairedAll (d.aligned_bind h ht stack hd) (d.calm_bind hcalm) ht around _ rest
      fun m hm => hspelled m (List.mem_append_right _ hm)
    exact hfirst.append hrest

theorem FunDecl.paired {t : Thinning} {scopes scopes' : Scopes} (h : scopes.Aligned t scopes')
    (around : Surroundings) (stack : ScopeStack) : ∀ f : FunDecl,
    (∀ m ∈ f.desugar.mentions stack, m.Spelled) →
    Paired (f.uses t) (f.resolve around scopes) (f.desugar.resolve around scopes')
      (f.desugar.mentions stack)
  | ⟨name, params, body⟩, hspelled => by
    rw [FunDecl.desugar, Lox.FunDecl.mentions] at hspelled ⊢
    have hparams : ∀ param ∈ params, ¬ isScopeKeyword param.lexeme := fun param hparam =>
      hspelled ⟨.declaration, param, .function name :: stack⟩
        (List.mem_append_left _ (List.mem_map_of_mem hparam))
    have hinside := h.push (Bindings.get?_empty "super")
    have hbody := Decl.pairedAll (hinside.bindAll t.declares_shared hparams)
      ((Scopes.calm_empty scopes).bindAll params) t.declares_shared around _ body
      fun m hm => hspelled m (List.mem_append_right _ hm)
    exact ((paired_allRedeclared hinside t.declares_shared hparams).of_nil_append hbody).behind _

theorem FunDecl.pairedAll {t : Thinning} {scopes scopes' : Scopes} (h : scopes.Aligned t scopes')
    (around : Surroundings) (stack : ScopeStack) : ∀ fs : List FunDecl,
    (∀ m ∈ Lox.FunDecl.mentionsAll stack (FunDecl.desugarAll fs), m.Spelled) →
    Paired (FunDecl.usesAll t fs) (FunDecl.resolveMethods around scopes fs)
      (Lox.FunDecl.resolveMethods around scopes' (FunDecl.desugarAll fs))
      (Lox.FunDecl.mentionsAll stack (FunDecl.desugarAll fs))
  | [], _ => paired_none []
  | f :: rest, hspelled => by
    rw [FunDecl.desugarAll, Lox.FunDecl.mentionsAll] at hspelled ⊢
    rw [Lox.FunDecl.resolveMethods, FunDecl.desugar_isInitializer]
    have hfirst := f.paired h
      { around with function := if f.isInitializer then .initializer else .method } stack
      fun m hm => hspelled m (List.mem_append_left _ hm)
    have hrest := FunDecl.pairedAll h around stack rest
      fun m hm => hspelled m (List.mem_append_right _ hm)
    exact hfirst.append hrest

end

theorem paired_resolve {tree : List Decl}
    (hspelled : ∀ m ∈ Lox.Stmt.mentionsAll [] (Decl.desugarAll tree), m.Spelled) :
    Paired (Decl.usesAll [] tree) (resolve tree) (Lox.resolve (Decl.desugarAll tree))
      (Lox.Stmt.mentionsAll [] (Decl.desugarAll tree)) :=
  Decl.pairedAll .nil (fun _ => nofun) Thinning.declares_nil {} [] tree hspelled

/-- In a fresh session the distances of a source are found for the uses of its surface tree. -/
theorem linked_of_parse {source : String} {tree : List Decl} {clock : Clock} {console : Console}
    (h : Lox.parse ((Session.initial clock console).scan source).1.tokens.toList =
      .ok (Decl.desugarAll tree)) :
    ∀ u ∈ Decl.usesAll [] tree,
      u.Linked ((Session.initial clock console).adopt (resolve tree).hops).hops
        ((Session.initial clock console).adopt (Lox.resolve (Decl.desugarAll tree)).hops).hops := by
  have hpaired := paired_resolve (spelled_of_parse h)
  apply hpaired.hops.linked
  · have hmentions := Session.nodup_mention_tokens h
    have htokens : ((Decl.usesAll [] tree).map Use.token).Nodup := by
      rw [List.nodup_iff_count_le_one] at hmentions ⊢
      intro token
      exact Nat.le_trans (hpaired.counts token) (hmentions token)
    have hmem : ∀ token ∈ (Decl.usesAll [] tree).map Use.token,
        token ∈ (Lox.Stmt.mentionsAll [] (Decl.desugarAll tree)).map Mention.token := by
      intro token htoken
      rw [← List.count_pos_iff] at htoken ⊢
      exact Nat.lt_of_lt_of_le htoken (hpaired.counts token)
    have hindices := htokens.map_on fun token htoken token' htoken' =>
      Session.token_eq_of_index h token (hmem token htoken) token' (hmem token' htoken')
    rwa [List.map_map] at hindices
  · intro u _
    exact ⟨rfl, rfl⟩

end Surface

end Lox
