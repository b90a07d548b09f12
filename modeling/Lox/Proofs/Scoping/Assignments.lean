import Lox.Proofs.Scoping.Jobs
import Lox.Proofs.Scoping.Session

/-!
Assignments at run time. An assignment with a distance finds the frame of the scope that its name was
found in, and that frame binds the name: the assignment succeeds. There is one exception. In the
initializer of a local variable the scope has the name already and the frame has not. Resolution refuses
to read the variable there, but lets it be assigned, and then it is undefined.
-/
namespace Lox

namespace ScopeStack

variable {stack : ScopeStack}

/-- A variable that is being initialized is one of the innermost scope. -/
def Settled (stack : ScopeStack) : Prop :=
  ∀ scope ∈ stack.tail, ∀ name, scope.names.get? name ≠ some false

theorem Ready.settled (h : stack.Ready) : stack.Settled := h.ripe.outer

theorem Settled.bind (h : stack.Settled) (name : String) (ready : Bool) :
    (stack.bind name ready).Settled := by
  cases stack <;> exact h

end ScopeStack

section Stacks

variable {stack : ScopeStack}

mutual

theorem Expr.stack_eq : ∀ e : Expr, ∀ m ∈ e.mentions stack, m.stack = stack
  | .literal _ => List.forall_mem_nil _
  | .var _ | .this _ | .super _ _ => List.forall_mem_singleton.2 rfl
  | .assign _ value => List.forall_mem_cons.2 ⟨rfl, value.stack_eq⟩
  | .unary _ e | .group e | .get e _ => e.stack_eq
  | .binary left _ right | .logical left _ right | .set left _ right =>
    List.forall_mem_append.2 ⟨left.stack_eq, right.stack_eq⟩
  | .call callee _ args => List.forall_mem_append.2 ⟨callee.stack_eq, Expr.stack_eqAll args⟩

theorem Expr.stack_eqAll : ∀ es : List Expr, ∀ m ∈ Expr.mentionsAll stack es, m.stack = stack
  | [] => List.forall_mem_nil _
  | e :: rest => List.forall_mem_append.2 ⟨e.stack_eq, Expr.stack_eqAll rest⟩

end

theorem Expr.settled (h : stack.Settled) (e : Expr) : ∀ m ∈ e.mentions stack, m.stack.Settled := by
  intro m hm
  rw [e.stack_eq m hm]
  exact h

theorem Expr.settledOption (h : stack.Settled) (e : Option Expr) :
    ∀ m ∈ Expr.mentionsOption stack e, m.stack.Settled := by
  cases e with
  | none => exact List.forall_mem_nil _
  | some e => exact e.settled h

mutual

theorem Stmt.settled {stack : ScopeStack} (h : stack.Ready) :
    ∀ s : Stmt, ∀ m ∈ s.mentions stack, m.stack.Settled
  | .expr e | .print _ e => e.settled h.settled
  | .varDecl name init =>
    List.forall_mem_cons.2 ⟨h.settled, Expr.settledOption (h.settled.bind name.lexeme false) init⟩
  | .block body => Stmt.settledAll (h.push (by simp [OpenScope.block])) body
  | .ifThen condition yes | .whileLoop condition yes =>
    List.forall_mem_append.2 ⟨condition.settled h.settled, yes.settled h⟩
  | .ifElse condition yes no =>
    List.forall_mem_append.2
      ⟨List.forall_mem_append.2 ⟨condition.settled h.settled, yes.settled h⟩, no.settled h⟩
  | .ret _ value => Expr.settledOption h.settled value
  | .funDecl function =>
    List.forall_mem_cons.2 ⟨h.settled, function.settled (h.bind function.name.lexeme)⟩
  | .classDecl name none methods =>
    have hinside := (h.bind name.lexeme).push (ScopeStack.keywordScope_ready "this")
    List.forall_mem_cons.2 ⟨h.settled, FunDecl.settledAll hinside methods⟩
  | .classDecl name (some _) methods =>
    have houtside := (h.bind name.lexeme).push (ScopeStack.keywordScope_ready "super")
    have hinside := houtside.push (ScopeStack.keywordScope_ready "this")
    List.forall_mem_cons.2 ⟨h.settled, List.forall_mem_cons.2
      ⟨h.settled.bind name.lexeme false, FunDecl.settledAll hinside methods⟩⟩

theorem Stmt.settledAll {stack : ScopeStack} (h : stack.Ready) :
    ∀ ss : List Stmt, ∀ m ∈ Stmt.mentionsAll stack ss, m.stack.Settled
  | [] => List.forall_mem_nil _
  | s :: rest => List.forall_mem_append.2 ⟨s.settled h, Stmt.settledAll (h.bindIn s) rest⟩

theorem FunDecl.settled {stack : ScopeStack} (h : stack.Ready) :
    ∀ f : FunDecl, ∀ m ∈ f.mentions stack, m.stack.Settled
  | ⟨_, params, body⟩ =>
    have hinside := h.push (by simp [OpenScope.function])
    List.forall_mem_append.2
      ⟨List.forall_mem_map.2 fun _ _ => hinside.settled, Stmt.settledAll (hinside.bindAll params) body⟩

theorem FunDecl.settledAll {stack : ScopeStack} (h : stack.Ready) :
    ∀ methods : List FunDecl, ∀ m ∈ FunDecl.mentionsAll stack methods, m.stack.Settled
  | [] => List.forall_mem_nil _
  | f :: rest => List.forall_mem_append.2 ⟨f.settled h, FunDecl.settledAll h rest⟩

end

theorem settled_program (program : List Stmt) :
    ∀ m ∈ Stmt.mentionsAll [] program, m.stack.Settled :=
  Stmt.settledAll (List.forall_mem_nil _) program

end Stacks

/-- The innermost scope has the name and does not call it ready: what a read of it is refused for. -/
def Mention.InOwnInitializer (m : Mention) : Prop :=
  m.stack.scopes.head?.bind (·.get? m.token.lexeme) = some false

/-- Once its value is there, an assignment with a distance is carried out in the frame at that distance,
which binds the name, unless it stands in the initializer of the variable itself. -/
def Mention.Assigns (m : Mention) (ctx : Context) (value : Value) (w : World) : Prop :=
  ∀ distance, m.distance? = some distance →
    (m.InOwnInitializer ∧ distance = 0) ∨
    ∃ frame, ctx.env[distance]? = some frame ∧
      (w.frames.getIn frame m.token.lexeme).isSome = true ∧
      assignVariable ctx m.token value w =
        .ok () { w with frames := w.frames.defineIn frame m.token.lexeme value }

section Targets

variable {hops : HopTable} {scene : Scene} {ctx : Context} {m : Mention}

theorem Scene.Follows.target (h : scene.Follows ctx.env m.stack) (hsettled : m.stack.Settled)
    {distance : Nat} (hdistance : m.distance? = some distance) :
    (m.InOwnInitializer ∧ distance = 0) ∨ ∃ frame, ctx.env[distance]? = some frame ∧
      (scene.world.frames.getIn frame m.token.lexeme).isSome = true := by
  obtain ⟨scope, ready, hscope, hnames⟩ := ScopeStack.exists_of_distance? hdistance
  cases ready with
  | true =>
    obtain ⟨frame, hframe, hopen⟩ := h.getElem? hscope
    exact .inr ⟨frame, hframe, hopen.bound _ hnames⟩
  | false =>
    left
    unfold Mention.InOwnInitializer
    cases hstack : m.stack with
    | nil =>
      rw [hstack] at hscope
      contradiction
    | cons first outer =>
      rw [hstack] at hscope
      cases distance with
      | zero =>
        cases hscope
        exact ⟨hnames, rfl⟩
      | succ distance =>
        have houter : scope ∈ m.stack.tail := by
          rw [hstack]
          exact List.mem_of_getElem? hscope
        exact absurd hnames (hsettled scope houter _)

theorem assignVariable_of_bound (hctx : ctx.addressing = .distances hops) {name : Token}
    {distance frame : Nat} (hhop : hops[name.index]? = some distance)
    (hframe : ctx.env[distance]? = some frame) {w : World}
    (hbound : (w.frames.getIn frame name.lexeme).isSome = true) (value : Value) :
    assignVariable ctx name value w =
      .ok () { w with frames := w.frames.defineIn frame name.lexeme value } := by
  unfold assignVariable Context.assign?
  rw [hctx]
  dsimp only
  rw [hhop]
  dsimp only
  rw [Frames.assignAt, hframe, Option.bind_some, Frames.assignIn, if_pos hbound]

theorem Scene.Sound.no_hop_of_find? (h : scene.Sound hops) (hctx : ctx.addressing = .distances hops)
    (hm : m ∈ scene.history.mentions) (hfollows : scene.Follows ctx.env m.stack)
    (hreads : m.access = .variable ∨ m.access = .this)
    (hnone : ctx.find? scene.world.frames m.token = none) : hops[m.token.index]? = none := by
  obtain ⟨hscoped, hrecorded⟩ := h.known m hm
  have hhop : hops[m.token.index]? = m.distance? := by
    apply hrecorded
    rcases hreads with hreads | hreads <;> rw [hreads] <;> decide
  cases hdistance : m.distance? with
  | none => rw [hhop, hdistance]
  | some distance =>
    exfalso
    have hreads' : m.access = .variable ∨ m.access = .this ∨ m.access = .super := by
      rcases hreads with hreads | hreads
      · exact .inl hreads
      · exact .inr (.inl hreads)
    obtain ⟨frame, _, value, hframe, -, -, -, hvalue⟩ :=
      h.value_at_distance hfollows hscoped hreads' hdistance
    rw [ctx.find?_of_hop hctx (hhop.trans hdistance), Frames.getAt, hframe, Option.bind_some,
      hvalue] at hnone
    contradiction

theorem Scene.Sound.innermost (h : scene.Sound hops) {stack : ScopeStack} {env : Environment}
    (hfollows : scene.Follows env stack) :
    ∃ frame outer, env = frame :: outer ∧ frame < scene.world.frames.frames.size := by
  have hlt : ∀ (frame : Nat) (opener : Opener), scene.history.openers[frame]? = some opener →
      frame < scene.world.frames.frames.size := by
    intro frame opener hopener
    obtain ⟨hlt, -⟩ := Array.getElem?_eq_some_iff.1 hopener
    rwa [h.size] at hlt
  cases hfollows with
  | global => exact ⟨0, [], rfl, hlt 0 _ h.global⟩
  | inner hopen _ => exact ⟨_, _, rfl, hlt _ _ hopen.opener⟩

end Targets

theorem bound_of_methodsEnvironment {ctx : Context} {superclass : Option Class} {w w' : World}
    {env : Environment} (h : methodsEnvironment ctx superclass w = .ok env w') {frame : FrameId}
    {name : String} (hbound : (w.frames.getIn frame name).isSome = true) :
    (w'.frames.getIn frame name).isSome = true := by
  cases superclass with
  | none =>
    cases h
    exact hbound
  | some parent =>
    cases h
    change ((w.frames.create _ ctx.env).1.getIn frame name).isSome = true
    rw [Frames.getIn_create]
    split
    · rename_i hframe
      rw [Frames.getIn, hframe, Array.getElem?_eq_none (Nat.le_refl _)] at hbound
      contradiction
    · exact hbound

section Classes

variable {ctx : Context} {frame : FrameId} {outer : Environment} (henv : ctx.env = frame :: outer)
  {w : World}

include henv

theorem assignDeclared_defined {name : Token}
    (hbound : (w.frames.getIn frame name.lexeme).isSome = true) (value : Value) :
    (assignDeclared ctx.env name value w).undefined? = none := by
  have hassigned : w.frames.assign ctx.env name.lexeme value =
      some (w.frames.defineIn frame name.lexeme value) := by
    simp [Frames.assign, henv, hbound]
  unfold assignDeclared
  rw [hassigned]
  rfl

theorem declareClass_defined (hframe : frame < w.frames.frames.size) (name : Token)
    (superclass : Option Class) (methods : List FunDecl) :
    (declareClass ctx name superclass methods w).undefined? = none := by
  cases hmissed : (declareClass ctx name superclass methods w).undefined? with
  | none => rfl
  | some t =>
    exfalso
    rw [declareClass_eq, Evaluation.bind_run] at hmissed
    rcases Result.undefined?_andThen hmissed with h | ⟨_, w₁, hdefined, h⟩
    · contradiction
    have hbound : (w₁.frames.getIn frame name.lexeme).isSome = true := by
      cases hdefined
      dsimp only
      rw [henv, Frames.define, Frames.getIn_defineIn, if_pos ⟨rfl, rfl⟩,
        Array.getElem?_eq_getElem hframe]
      rfl
    rw [Evaluation.bind_run] at h
    rcases Result.undefined?_andThen h with h | ⟨env, w₂, hmethods, h⟩
    · cases superclass <;> contradiction
    have hbound' := bound_of_methodsEnvironment hmethods hbound
    rw [Evaluation.bind_run] at h
    rcases Result.undefined?_andThen h with h | ⟨id, w₃, hid, h⟩
    · contradiction
    have hbound'' : (w₃.frames.getIn frame name.lexeme).isSome = true := by
      cases hid
      exact hbound'
    rw [Evaluation.bind_run] at h
    rcases Result.undefined?_andThen h with h | ⟨_, _, _, h⟩
    · rw [assignDeclared_defined henv hbound''] at h
      contradiction
    · contradiction

end Classes

section Undefined

variable {hops : HopTable} {fuel : Nat} {w : World} {t : Token} {history : History}

theorem assigns_of_ready {ctx : Context} {name : Token} {value : Expr} {v : Value} {w' : World}
    (hready : (Job.evaluate ctx (.assign name value)).Ready hops ⟨history, w⟩)
    (hvalue : evaluate fuel ctx value w = .ok v w')
    (hsettled : ∀ m ∈ history.mentions, m.stack.Settled) :
    ∃ m ∈ history.mentions, m.access = .assignment ∧ m.token = name ∧
      hops[name.index]? = m.distance? ∧ m.Assigns ctx v w' := by
  obtain ⟨stack, hstands⟩ := hready
  have hm := hstands.head
  obtain ⟨-, hrecorded⟩ := hstands.sound.known _ hm
  have hhop := hrecorded nofun
  obtain ⟨history', hbecomes, -⟩ := hstands.tail.evaluated hvalue
  refine ⟨_, hm, rfl, rfl, hhop, ?_⟩
  intro distance hdistance
  have htarget := (hstands.follows.mono hbecomes.ext).target (hsettled _ hm) hdistance
  refine htarget.imp_right ?_
  rintro ⟨frame, hframe, hbound⟩
  exact ⟨frame, hframe, hbound,
    assignVariable_of_bound hstands.addressing (hhop.trans hdistance) hframe hbound v⟩

/-- What is undefined has no distance, or is assigned in its own initializer. -/
theorem Misses.unbound {job : Job} (h : Misses fuel job w t) (hready : job.Ready hops ⟨history, w⟩)
    (hsettled : ∀ m ∈ history.mentions, m.stack.Settled) :
    hops[t.index]? = none ∨
      ∃ m ∈ history.mentions, m.access = .assignment ∧ m.token = t ∧ m.InOwnInitializer := by
  cases h with
  | var hnone =>
    obtain ⟨stack, hstands⟩ := hready
    exact .inl (hstands.sound.no_hop_of_find? hstands.addressing hstands.head hstands.follows
      (.inl rfl) hnone)
  | this hnone =>
    obtain ⟨stack, hstands⟩ := hready
    exact .inl (hstands.sound.no_hop_of_find? hstands.addressing hstands.head hstands.follows
      (.inr rfl) hnone)
  | @super ctx keyword method _ _ hundefined =>
    obtain ⟨stack, hstands⟩ := hready
    obtain ⟨_, parent, id, c, -, -, -, hreads⟩ := (hstands.sound.visit hstands.addressing
      hstands.head hstands.follows (.inr (.inr rfl))).super rfl
    rw [hreads method, methodOf_defined] at hundefined
    contradiction
  | @assign ctx name value _ v w' hvalue hnone =>
    obtain ⟨m, hm, haccess, rfl, hhop, hassigns⟩ := assigns_of_ready hready hvalue hsettled
    cases hdistance : m.distance? with
    | none => exact .inl (hhop.trans hdistance)
    | some distance =>
      rcases hassigns distance hdistance with ⟨hown, -⟩ | ⟨frame, -, -, hassigned⟩
      · exact .inr ⟨m, hm, haccess, rfl, hown⟩
      · unfold assignVariable at hassigned
        rw [hnone] at hassigned
        contradiction
  | @superclass _ name _ _ _ hnone =>
    obtain ⟨stack, hstands⟩ := hready
    exact .inl (hstands.sound.no_hop_of_find? hstands.addressing hstands.tail.head
      (hstands.follows.bind_false name.lexeme) (.inl rfl) hnone)
  | baseClass hundefined | derivedClass _ hundefined =>
    obtain ⟨stack, hstands⟩ := hready
    obtain ⟨frame, outer, henv, hframe⟩ := hstands.sound.innermost hstands.follows
    rw [declareClass_defined henv hframe] at hundefined
    contradiction

end Undefined

namespace Session

def loaded (s : Session) (source : String) (program : List Stmt) : Session :=
  ((s.skipSource source).mapConsole (s.prepare source).1).adopt (resolve program).hops

theorem run?_loaded {s : Session} {source : String} {program : List Stmt}
    (h : (s.prepare source).2 = some program) (fuel : Nat) :
    s.run? fuel source = ((s.loaded source program).execute? fuel program).map conclude := by
  rw [run?_eq, h]
  rfl

def topLevel (s : Session) : Context := ⟨.distances s.hops, globalEnv, 0⟩

/-- A session comes across a job when it executes a program: one of its statements does, behind those
that have been carried out. -/
def ComesAcross (s : Session) (program : List Stmt) (fuel : Nat) (job : Job) (w : World) : Prop :=
  ∃ fuel₀ front stmt rest w₀, program = front ++ stmt :: rest ∧
    executeTop fuel₀ s.topLevel front s.world = .ok () w₀ ∧
    Reaches fuel₀ (.execute s.topLevel stmt) w₀ fuel job w

theorem executeTop_undefined {fuel : Nat} {ctx : Context} {program : List Stmt} {w : World}
    {t : Token} (h : (executeTop fuel ctx program w).undefined? = some t) :
    ∃ front stmt rest w₀, program = front ++ stmt :: rest ∧
      executeTop fuel ctx front w = .ok () w₀ ∧ (execute fuel ctx stmt w₀).undefined? = some t := by
  induction program generalizing w with
  | nil => contradiction
  | cons first others ih =>
    rw [executeTop, Evaluation.bind_run] at h
    rcases Result.undefined?_andThen h with h | ⟨flow, w₁, hfirst, h⟩
    · exact ⟨[], first, others, w, rfl, rfl, h⟩
    · obtain ⟨front, stmt, rest, w₀, rfl, hfront, hundefined⟩ := ih h
      refine ⟨first :: front, stmt, rest, w₀, rfl, ?_, hundefined⟩
      rw [executeTop, Evaluation.bind_run, hfirst]
      exact hfront

theorem comesAcross_undefined {s s' : Session} {fuel : Nat} {program : List Stmt} {e : RuntimeError}
    (h : s.execute? fuel program = some (some e, s')) {t : Token} (ht : e.undefined? = some t) :
    ∃ fuel' job w, s.ComesAcross program (fuel' + 1) job w ∧ Misses fuel' job w t := by
  have hundefined : (executeTop fuel s.topLevel program s.world).undefined? = some t := by
    unfold execute? at h
    dsimp only at h
    split at h
    · cases h
    · rename_i hrun
      cases h
      unfold topLevel
      rw [hrun]
      exact ht
    · contradiction
  obtain ⟨front, stmt, rest, w₀, hprogram, hfront, hstmt⟩ := executeTop_undefined hundefined
  have hjob : (Job.execute s.topLevel stmt).undefined? fuel w₀ = some t := hstmt
  obtain ⟨fuel', job, w, hreaches, hmisses⟩ := undefined_iff_reaches.1 hjob
  exact ⟨fuel', job, w, ⟨fuel, front, stmt, rest, w₀, hprogram, hfront, hreaches⟩, hmisses⟩

theorem mem_mentionsAll_append {front rest : List Stmt} {m : Mention} :
    m ∈ Stmt.mentionsAll [] (front ++ rest) ↔
      m ∈ Stmt.mentionsAll [] front ∨ m ∈ Stmt.mentionsAll [] rest := by
  induction front with
  | nil => simp [Stmt.mentionsAll]
  | cons s front ih =>
    simp only [List.cons_append, Stmt.mentionsAll, Stmt.bindIn_nil, List.mem_append, ih, or_assoc]

variable {s : Session} {history : History}

theorem Scoped.ready (h : s.Scoped history) {program : List Stmt}
    (hprogram : ∀ m ∈ Stmt.mentionsAll [] program, m ∈ history.mentions) {fuel : Nat} {job : Job}
    {w : World} (hjob : s.ComesAcross program fuel job w) :
    ∃ history', history'.mentions = history.mentions ∧ job.Ready s.hops ⟨history', w⟩ := by
  obtain ⟨fuel₀, front, stmt, rest, w₀, rfl, hfront, hreaches⟩ := hjob
  have hbefore : Scene.Stands s.hops ⟨history, s.world⟩ s.topLevel [] (Stmt.mentionsAll [] front) :=
    ⟨h.sound, rfl, .global, fun m hm => hprogram m (mem_mentionsAll_append.2 (.inl hm))⟩
  obtain ⟨history₀, hbecomes, -⟩ := (Traced.executeTop_keeps fuel₀ front hbefore).run
    (Traced.executeTop_erases fuel₀ s.topLevel front) hfront
  have hstmt : (Job.execute s.topLevel stmt).Ready s.hops ⟨history₀, w₀⟩ := by
    refine ⟨[], hbecomes.sound, rfl, .global, ?_⟩
    intro m hm
    exact hbecomes.ext.mentions m
      (hprogram m (mem_mentionsAll_append.2 (.inr (List.mem_append_left _ hm))))
  obtain ⟨history', hmentions, hready⟩ := hreaches.ready hstmt
  exact ⟨history', hmentions.trans hbecomes.mentions, hready⟩

/-- Wherever a program of the session mentions a name, only the innermost scope can have a variable that
is being initialized. -/
theorem Observed.settled (h : Observed s history) : ∀ m ∈ history.mentions, m.stack.Settled := by
  induction h with
  | initial clock console => exact List.forall_mem_nil _
  | @run fuel s source status s' history history' hobserved hrun ih =>
    unfold runTraced? at hrun
    dsimp only at hrun
    cases hprepared : (s.prepare source).2 with
    | none =>
      rw [hprepared] at hrun
      cases hrun
      exact ih
    | some program =>
      rw [hprepared] at hrun
      obtain ⟨-, rfl⟩ := Prod.mk.inj hrun
      have hready := hobserved.scoped.addProgram hobserved.reachable.numbered hprepared
        (s.prepare source).1
      have hexecuted := hready.executeTraced (fun m hm => List.mem_append_right _ hm) fuel
      dsimp only at hexecuted
      rw [hexecuted.1]
      exact List.forall_mem_append.2 ⟨ih, settled_program program⟩
  | debugParse debugParse _ ih => exact ih

theorem Observed.loaded (h : Observed s history) {source : String} {program : List Stmt}
    (hprepared : (s.prepare source).2 = some program) :
    (s.loaded source program).Scoped
      { history with mentions := history.mentions ++ Stmt.mentionsAll [] program } :=
  h.scoped.addProgram h.reachable.numbered hprepared (s.prepare source).1

theorem Observed.ready (h : Observed s history) {source : String} {program : List Stmt}
    (hprepared : (s.prepare source).2 = some program) {fuel : Nat} {job : Job} {w : World}
    (hjob : (s.loaded source program).ComesAcross program fuel job w) :
    ∃ history', history'.mentions = history.mentions ++ Stmt.mentionsAll [] program ∧
      (∀ m ∈ history'.mentions, m.stack.Settled) ∧
      job.Ready (s.loaded source program).hops ⟨history', w⟩ := by
  obtain ⟨history', hmentions, hready⟩ :=
    (h.loaded hprepared).ready (fun m hm => List.mem_append_right _ hm) hjob
  refine ⟨history', hmentions, ?_, hready⟩
  rw [hmentions]
  exact List.forall_mem_append.2 ⟨h.settled, settled_program program⟩

/-- Assignments find their targets. Whatever was run before and whatever a program comes across, an
assignment whose value has been evaluated, in whatever function of whatever run, has one mention; its
distance in the table is that of the mention, and the frame at that distance binds the name, so the
assignment succeeds. The one exception is an assignment in the initializer of the variable itself, and no
other use of a name with a distance ends a run with an undefined variable. -/
theorem assignments_find_targets (h : Observed s history) {source : String} {program : List Stmt}
    (hprepared : (s.prepare source).2 = some program) :
    let mentions := history.mentions ++ Stmt.mentionsAll [] program
    let loaded := s.loaded source program
    (∀ fuel, s.run? fuel source = (loaded.execute? fuel program).map conclude) ∧
      DistinctMentions mentions ∧
      (∀ fuel ctx name value w v w',
        loaded.ComesAcross program (fuel + 1) (.evaluate ctx (.assign name value)) w →
        evaluate fuel ctx value w = .ok v w' →
        ∃ m ∈ mentions, m.access = .assignment ∧ m.token = name ∧
          loaded.hops[name.index]? = m.distance? ∧ m.Assigns ctx v w') ∧
      ∀ fuel e s' t, loaded.execute? fuel program = some (some e, s') → e.undefined? = some t →
        loaded.hops[t.index]? = none ∨
          ∃ m ∈ mentions, m.access = .assignment ∧ m.token = t ∧ m.InOwnInitializer := by
  refine ⟨run?_loaded hprepared, (h.loaded hprepared).distinct, ?_, ?_⟩
  · intro fuel ctx name value w v w' hjob hvalue
    obtain ⟨history', hmentions, hsettled, hready⟩ := h.ready hprepared hjob
    rw [← hmentions]
    exact assigns_of_ready hready hvalue hsettled
  · intro fuel e s' t hexecute ht
    obtain ⟨fuel', job, w, hjob, hmisses⟩ := comesAcross_undefined hexecute ht
    obtain ⟨history', hmentions, hsettled, hready⟩ := h.ready hprepared hjob
    rw [← hmentions]
    exact hmisses.unbound hready hsettled

/-- A function that assigns a local variable around it. -/
def assigningSource : String := "{ var a; fun f() { a = nil; } f(); }"

def assigningProgram : List Stmt :=
  [.block [.varDecl ⟨.identifier, "a", 1, 2, .nil⟩ none,
    .funDecl ⟨⟨.identifier, "f", 1, 5, .nil⟩, [],
      [.expr (.assign ⟨.identifier, "a", 1, 9, .nil⟩ (.literal .nil))]⟩,
    .expr (.call (.var ⟨.identifier, "f", 1, 14, .nil⟩) ⟨.rightParen, ")", 1, 16, .nil⟩ [])]]

theorem prepare_assigningSource {s : Session} (hfirst : s.nextIndex = 0) :
    (s.prepare assigningSource).2 = some assigningProgram := by
  have htokens : (Lox.scan 0 assigningSource).tokens.toList =
      [⟨.leftBrace, "\x7b", 1, 0, .nil⟩, ⟨.kwVar, "var", 1, 1, .nil⟩, ⟨.identifier, "a", 1, 2, .nil⟩,
        ⟨.semicolon, ";", 1, 3, .nil⟩, ⟨.kwFun, "fun", 1, 4, .nil⟩, ⟨.identifier, "f", 1, 5, .nil⟩,
        ⟨.leftParen, "(", 1, 6, .nil⟩, ⟨.rightParen, ")", 1, 7, .nil⟩,
        ⟨.leftBrace, "\x7b", 1, 8, .nil⟩, ⟨.identifier, "a", 1, 9, .nil⟩, ⟨.equal, "=", 1, 10, .nil⟩,
        ⟨.kwNil, "nil", 1, 11, .nil⟩, ⟨.semicolon, ";", 1, 12, .nil⟩,
        ⟨.rightBrace, "\x7d", 1, 13, .nil⟩, ⟨.identifier, "f", 1, 14, .nil⟩,
        ⟨.leftParen, "(", 1, 15, .nil⟩, ⟨.rightParen, ")", 1, 16, .nil⟩,
        ⟨.semicolon, ";", 1, 17, .nil⟩, ⟨.rightBrace, "\x7d", 1, 18, .nil⟩] := by
    decide +kernel
  have hparse : parse (Lox.scan 0 assigningSource).tokens.toList = .ok assigningProgram := by
    rw [htokens]
    rfl
  have herrors : (Lox.scan 0 assigningSource).errors.isEmpty = true := by decide +kernel
  unfold prepare
  rw [hfirst]
  dsimp only
  rw [hparse]
  dsimp only
  rw [if_pos herrors]
  rfl

theorem assignments_find_targets_closure :
    ∃ s ctx w, s = (initial ⟨0, 0⟩ (.separate .unlimited .unlimited)).loaded assigningSource
        assigningProgram ∧
      s.ComesAcross assigningProgram 2
        (.evaluate ctx (.assign ⟨.identifier, "a", 1, 9, .nil⟩ (.literal .nil))) w ∧
      s.hops[9]? = some 1 ∧
      ∃ frame, ctx.env[1]? = some frame ∧ (w.frames.getIn frame "a").isSome = true ∧
        assignVariable ctx ⟨.identifier, "a", 1, 9, .nil⟩ .nil w =
          .ok () { w with frames := w.frames.defineIn frame "a" .nil } := by
  obtain ⟨s, hs⟩ : ∃ s, s = (initial ⟨0, 0⟩ (.separate .unlimited .unlimited)).loaded
    assigningSource assigningProgram := ⟨_, rfl⟩
  have hjob : ∃ ctx w, s.ComesAcross assigningProgram 2
      (.evaluate ctx (.assign ⟨.identifier, "a", 1, 9, .nil⟩ (.literal .nil))) w := by
    rw [hs]
    exact ⟨_, _, 12, [], _, [], _, rfl, rfl, .next (.block rfl) (.next (.restStatements rfl)
      (.next (.restStatements rfl) (.next .statement (.next (.expression rfl) (.next
        (.call rfl rfl rfl (by decide)) (.next .function (.next (.body rfl) (.next .statement
          (.next (.expression rfl) .refl)))))))))⟩
  obtain ⟨ctx, w, hjob⟩ := hjob
  have htargets := assignments_find_targets (.initial ⟨0, 0⟩ (.separate .unlimited .unlimited))
    (prepare_assigningSource rfl)
  rw [← hs] at htargets
  obtain ⟨m, hm, haccess, htoken, hhop, hassigns⟩ := htargets.2.2.1 _ _ _ _ _ _ _ hjob rfl
  -- The program mentions `a` and `f` in declarations, `a` in an assignment and `f` in a call.
  have houtside : m.distance? = some 1 := by
    rcases List.mem_cons.1 hm with rfl | hm
    · contradiction
    rcases List.mem_cons.1 hm with rfl | hm
    · contradiction
    rcases List.mem_cons.1 hm with rfl | hm
    · rfl
    · rw [List.mem_singleton.1 hm] at haccess
      contradiction
  rcases hassigns 1 houtside with ⟨-, hown⟩ | hframe
  · contradiction
  · rw [htoken] at hframe
    exact ⟨s, ctx, w, hs, hjob, hhop.trans houtside, hframe⟩

/-- In its own initializer a local variable may not be read, but it may be assigned. -/
example : (["{ var a = a; }", "{ var a = a = nil; }"].map fun source =>
    ((initial ⟨0, 0⟩ (.separate .unlimited .unlimited)).run? 50 source).map Prod.fst) =
      [some .staticError, some .runtimeError] := by
  decide +kernel

end Session

end Lox
