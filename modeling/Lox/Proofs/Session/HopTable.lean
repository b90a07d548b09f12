import Lox.Proofs.Lexical.Lossless
import Lox.Proofs.Scoping.Words
import Lox.Proofs.Session.Numbering

/-!
The table of distances over a session. Every token of a session has an index of its own, a program uses
no token twice, and so a walk records a distance only where the table has none: what is once stored stays
as it is for the rest of the session.
-/
namespace Lox

/-- The distances of a walk are recorded for tokens of the mentions, each at most as often as it is
mentioned. -/
def Findings.Records (f : Findings) (ms : List Mention) : Prop :=
  ∀ t, (f.hops.map Hop.token).count t ≤ (ms.map Mention.token).count t

namespace Findings

variable {f g : Findings} {ms ns : List Mention}

theorem records_of_hops (h : f.hops = []) (ms : List Mention) : f.Records ms := by
  intro t
  rw [h]
  exact Nat.zero_le _

theorem records_none (ms : List Mention) : Findings.none.Records ms := records_of_hops rfl ms

theorem records_errorIf (condition : Bool) (t : Token) (fault : ScopeFault) (ms : List Mention) :
    (Findings.errorIf condition t fault).Records ms := by
  cases condition <;> exact records_of_hops rfl ms

theorem Records.append (hf : f.Records ms) (hg : g.Records ns) : (f ++ g).Records (ms ++ ns) := by
  intro t
  have hms := hf t
  have hns := hg t
  simp only [hops_append, List.map_append, List.count_append]
  omega

theorem Records.append_comm (hf : f.Records ms) (hg : g.Records ns) :
    (f ++ g).Records (ns ++ ms) := by
  intro t
  have h := hf.append hg t
  rw [List.map_append, List.count_append] at h ⊢
  omega

theorem Records.of_nil_append (hf : f.Records []) (hg : g.Records ns) : (f ++ g).Records ns :=
  hf.append hg

theorem Records.cons (hf : f.Records ms) (m : Mention) : f.Records (m :: ms) := by
  intro t
  exact Nat.le_trans (hf t) List.count_le_count_cons

theorem Records.declareAll (hf : f.Records ms) (ns : List Mention) : f.Records (ns ++ ms) :=
  Records.append (f := .none) (records_none ns) hf

end Findings

theorem Scopes.use_records (scopes : Scopes) (m : Mention) : (scopes.use m.token).Records [m] := by
  intro t
  unfold Scopes.use
  cases scopes.distance? m.token.lexeme with
  | none => exact Nat.zero_le _
  | some distance => exact Nat.le_refl _

theorem Scopes.read_records (scopes : Scopes) (m : Mention) : (scopes.read m.token).Records [m] :=
  (Findings.records_errorIf _ _ _ []).of_nil_append (scopes.use_records m)

theorem Scopes.redeclared_records (scopes : Scopes) (name : Token) :
    (scopes.redeclared name).Records [] :=
  Findings.records_errorIf _ _ _ _

theorem Scopes.allRedeclared_records (scopes : Scopes) (names : List Token) :
    (scopes.allRedeclared names).Records [] := by
  induction names generalizing scopes with
  | nil => exact Findings.records_none _
  | cons name names ih => exact (scopes.redeclared_records name).append (ih _)

section Walks

variable (around : Surroundings) (scopes : Scopes) (stack : ScopeStack)

mutual

theorem Expr.resolve_records : ∀ e : Expr, (e.resolve around scopes).Records (e.mentions stack)
  | .literal _ => Findings.records_none _
  | .var name => scopes.read_records ⟨.variable, name, stack⟩
  | .assign name value =>
    value.resolve_records.append_comm (scopes.use_records ⟨.assignment, name, stack⟩)
  | .unary _ e | .group e | .get e _ => e.resolve_records
  | .binary left _ right | .logical left _ right =>
    left.resolve_records.append right.resolve_records
  | .set object _ value => value.resolve_records.append_comm object.resolve_records
  | .call callee _ args => callee.resolve_records.append (Expr.resolveAll_records args)
  | .this keyword => by
    rw [Expr.resolve]
    cases around.cls with
    | outside => exact Findings.records_of_hops rfl _
    | base | derived => exact scopes.use_records ⟨.this, keyword, stack⟩
  | .super keyword _ => by
    rw [Expr.resolve]
    cases around.cls with
    | outside | base => exact Findings.records_of_hops rfl _
    | derived => exact scopes.use_records ⟨.super, keyword, stack⟩

theorem Expr.resolveAll_records :
    ∀ es : List Expr, (Expr.resolveAll around scopes es).Records (Expr.mentionsAll stack es)
  | [] => Findings.records_none _
  | e :: rest => e.resolve_records.append (Expr.resolveAll_records rest)

end

theorem Expr.resolveOption_records (e : Option Expr) :
    (Expr.resolveOption around scopes e).Records (Expr.mentionsOption stack e) := by
  cases e with
  | none => exact Findings.records_none _
  | some e => exact e.resolve_records around scopes stack

end Walks

mutual

/-- Tokens do not depend on the scopes, so those of the two walks need not be the same. -/
theorem Stmt.resolve_records (around : Surroundings) (scopes : Scopes) (stack : ScopeStack) :
    ∀ s : Stmt, (s.resolve around scopes).Records (s.mentions stack)
  | .expr e | .print _ e => e.resolve_records around scopes stack
  | .varDecl name init =>
    ((scopes.redeclared_records name).of_nil_append
      (Expr.resolveOption_records around _ _ init)).cons _
  | .block body => Stmt.resolveAll_records around _ _ body
  | .ifThen condition yes =>
    (condition.resolve_records around scopes stack).append (yes.resolve_records around scopes stack)
  | .ifElse condition yes no =>
    ((condition.resolve_records around scopes stack).append
      (yes.resolve_records around scopes stack)).append (no.resolve_records around scopes stack)
  | .whileLoop condition body =>
    (condition.resolve_records around scopes stack).append (body.resolve_records around scopes stack)
  | .ret _ value =>
    ((Findings.records_errorIf _ _ _ []).append (Findings.records_errorIf _ _ _ [])).of_nil_append
      (Expr.resolveOption_records around scopes stack value)
  | .funDecl function =>
    ((scopes.redeclared_records function.name).of_nil_append
      (function.resolve_records _ _ _)).cons _
  | .classDecl name none methods =>
    ((scopes.redeclared_records name).of_nil_append
      (FunDecl.resolveMethods_records _ _ _ methods)).cons _
  | .classDecl name (some parent) methods =>
    have hparent := Scopes.read_records (scopes.bind name.lexeme true)
      ⟨.variable, parent, stack.bind name.lexeme false⟩
    ((scopes.redeclared_records name).of_nil_append
      (((Findings.records_errorIf _ _ _ []).of_nil_append hparent).append
        (FunDecl.resolveMethods_records _ _ _ methods))).cons _

theorem Stmt.resolveAll_records (around : Surroundings) (scopes : Scopes) (stack : ScopeStack) :
    ∀ ss : List Stmt, (Stmt.resolveAll around scopes ss).Records (Stmt.mentionsAll stack ss)
  | [] => Findings.records_none _
  | s :: rest =>
    (s.resolve_records around scopes stack).append (Stmt.resolveAll_records around _ _ rest)

theorem FunDecl.resolve_records (around : Surroundings) (scopes : Scopes) (stack : ScopeStack) :
    ∀ f : FunDecl, (f.resolve around scopes).Records (f.mentions stack)
  | ⟨_, params, body⟩ =>
    (Scopes.allRedeclared_records _ params).of_nil_append
      ((Stmt.resolveAll_records around _ _ body).declareAll _)

theorem FunDecl.resolveMethods_records (around : Surroundings) (scopes : Scopes)
    (stack : ScopeStack) : ∀ methods : List FunDecl,
    (FunDecl.resolveMethods around scopes methods).Records (FunDecl.mentionsAll stack methods)
  | [] => Findings.records_none _
  | f :: rest =>
    (f.resolve_records _ scopes stack).append
      (FunDecl.resolveMethods_records around scopes stack rest)

end

theorem resolve_records (program : List Stmt) :
    (resolve program).Records (Stmt.mentionsAll [] program) :=
  Stmt.resolveAll_records {} [] [] program

/-- The nodes of a program that a distance may be recorded for. -/
def uses (program : List Stmt) : List Mention :=
  (Stmt.mentionsAll [] program).filter (·.access ≠ .declaration)

namespace Session

section Parsed

variable {s : Session} {source : String} {program : List Stmt}
  (h : parse (s.scan source).1.tokens.toList = .ok program)

include h

theorem token_eq_of_index : ∀ t ∈ (Stmt.mentionsAll [] program).map Mention.token,
    ∀ t' ∈ (Stmt.mentionsAll [] program).map Mention.token, t.index = t'.index → t = t' := by
  intro t ht t' ht' hindex
  obtain ⟨m, hm, rfl⟩ := List.mem_map.1 ht
  obtain ⟨m', hm', rfl⟩ := List.mem_map.1 ht'
  rw [distinct_of_parse h m hm m' hm' hindex]

theorem nodup_mention_tokens : ((Stmt.mentionsAll [] program).map Mention.token).Nodup := by
  have hindices := (scan_numbered s.nextIndex source).indices
  have hnodup : ((s.scan source).1.tokens.toList.map Token.index).Nodup := by
    rw [show (s.scan source).1 = Lox.scan s.nextIndex source from rfl, hindices]
    exact List.nodup_range'
  exact (drawn_of_parse h).nodup (List.Nodup.of_map _ hnodup)

theorem nodup_uses : ((uses program).map fun m => m.token.index).Nodup := by
  have hindices := (nodup_mention_tokens h).map_on (token_eq_of_index h)
  rw [List.map_map] at hindices
  exact hindices.sublist (List.filter_sublist.map _)

theorem nodup_hops : ((resolve program).hops.map fun hop => hop.token.index).Nodup := by
  have hcount := resolve_records program
  have hmentions := nodup_mention_tokens h
  have htokens : ((resolve program).hops.map Hop.token).Nodup := by
    rw [List.nodup_iff_count_le_one] at hmentions ⊢
    intro t
    exact Nat.le_trans (hcount t) (hmentions t)
  have hmem : ∀ t ∈ (resolve program).hops.map Hop.token,
      t ∈ (Stmt.mentionsAll [] program).map Mention.token := by
    intro t ht
    rw [← List.count_pos_iff] at ht ⊢
    exact Nat.lt_of_lt_of_le ht (hcount t)
  have hindices := htokens.map_on fun t ht t' ht' =>
    token_eq_of_index h t (hmem t ht) t' (hmem t' ht')
  rwa [List.map_map] at hindices

theorem hop_index {hop : Hop} (hhop : hop ∈ (resolve program).hops) :
    s.nextIndex ≤ hop.token.index ∧ hop.token.index < (s.skipSource source).nextIndex := by
  have hindex := (scan_numbered s.nextIndex source).mem (hop_token_mem h hhop)
  exact ⟨hindex.1, Nat.lt_succ_of_lt hindex.2⟩

theorem adopt_fresh (hnumbered : s.Numbered) {before after : List Hop} {hop : Hop}
    (hhops : (resolve program).hops = before ++ hop :: after) :
    (s.adopt before).hops[hop.token.index]? = none := by
  have hnodup := nodup_hops h
  rw [hhops, List.map_append, List.map_cons, List.nodup_append] at hnodup
  have hfirst : s.nextIndex ≤ hop.token.index := by
    apply (hop_index h _).1
    rw [hhops]
    exact List.mem_append_right _ (List.mem_cons_self ..)
  rw [adopt_getElem?_of_ne]
  · exact hnumbered.hops _ hfirst
  · intro hop' hhop'
    exact hnodup.2.2 _ (List.mem_map_of_mem hhop') _ (List.mem_cons_self ..)

theorem adopt_keeps (hnumbered : s.Numbered) {i distance : Nat} (hi : s.hops[i]? = some distance) :
    (s.adopt (resolve program).hops).hops[i]? = some distance := by
  rw [adopt_getElem?_of_ne]
  · exact hi
  · intro hop hhop hindex
    have hfresh := hnumbered.hops i (hindex ▸ (hop_index h hhop).1)
    rw [hi] at hfresh
    contradiction

end Parsed

variable {s s' : Session} {fuel : Nat} {source : String} {status : Status}

theorem run?_changes (hrun : s.run? fuel source = some (status, s')) :
    s'.nextIndex = (s.skipSource source).nextIndex ∧
      (s'.hops = s.hops ∨ ∃ program, (s.prepare source).2 = some program ∧
        s'.hops = (s.adopt (resolve program).hops).hops) := by
  rw [run?_eq] at hrun
  cases hprepared : (s.prepare source).2 with
  | none =>
    rw [hprepared] at hrun
    cases hrun
    exact ⟨rfl, .inl rfl⟩
  | some program =>
    rw [hprepared] at hrun
    obtain ⟨⟨e?, s''⟩, hexecute, hconclude⟩ := Option.map_eq_some_iff.1 hrun
    obtain ⟨w, rfl, -⟩ := execute?_eq_some hexecute
    cases e? <;> cases hconclude <;> exact ⟨rfl, .inr ⟨program, rfl, rfl⟩⟩

theorem Numbered.run_keeps (h : s.Numbered) (hrun : s.run? fuel source = some (status, s'))
    {i distance : Nat} (hi : s.hops[i]? = some distance) : s'.hops[i]? = some distance := by
  obtain ⟨-, hsame | ⟨program, hprepared, hadopted⟩⟩ := run?_changes hrun
  · rw [hsame]
    exact hi
  · obtain ⟨-, hparse, -⟩ := prepare_eq_some hprepared
    rw [hadopted]
    exact adopt_keeps hparse h hi

/-- Sessions with the tokens that they have scanned so far, the ends of their sources among them. -/
inductive Scanned : Session → List Site → Prop
  | initial (clock : Clock) (console : Console) : Scanned (initial clock console) []
  | run {fuel s source status s' sites} (h : Scanned s sites)
      (hrun : s.run? fuel source = some (status, s')) :
      Scanned s' (sites ++ (s.scan source).1.stream)
  | debugParse {s sites} (debugParse : Bool) (h : Scanned s sites) :
      Scanned { s with debugParse } sites

inductive Precedes (s : Session) : Session → Prop
  | refl : Precedes s s
  | run {fuel t source status t'} (h : Precedes s t) (hrun : t.run? fuel source = some (status, t')) :
      Precedes s t'
  | debugParse {t} (debugParse : Bool) (h : Precedes s t) : Precedes s { t with debugParse }

theorem Scanned.reachable {sites : List Site} (h : Scanned s sites) : s.Reachable := by
  induction h with
  | initial clock console => exact .initial clock console
  | run _ hrun ih => exact ih.run hrun
  | debugParse debugParse _ ih => exact ih.debugParse debugParse

theorem Precedes.reachable (h : s.Precedes s') (hs : s.Reachable) : s'.Reachable := by
  induction h with
  | refl => exact hs
  | run _ hrun ih => exact ih.run hrun
  | debugParse debugParse _ ih => exact ih.debugParse debugParse

theorem stream_indices (s : Session) (source : String) :
    (s.scan source).1.stream.map Site.index =
      List.range' s.nextIndex ((s.skipSource source).nextIndex - s.nextIndex) := by
  have hnumbered := scan_numbered s.nextIndex source
  have hnext : (s.skipSource source).nextIndex = (Lox.scan s.nextIndex source).index + 1 := rfl
  rw [show (s.scan source).1 = Lox.scan s.nextIndex source from rfl, hnumbered.stream, hnext,
    hnumbered.index]
  congr 1
  omega

theorem range_append_stream (s : Session) (source : String) :
    List.range s.nextIndex ++ (s.scan source).1.stream.map Site.index =
      List.range (s.skipSource source).nextIndex := by
  have hle : s.nextIndex ≤ (s.skipSource source).nextIndex :=
    Nat.le_succ_of_le (scan_index_le s.nextIndex source)
  have happend := List.range'_append_1 (s := 0) (m := s.nextIndex)
    (n := (s.skipSource source).nextIndex - s.nextIndex)
  rw [Nat.zero_add, Nat.add_sub_cancel' hle] at happend
  rw [stream_indices, List.range_eq_range', List.range_eq_range']
  exact happend

theorem Scanned.indices {sites : List Site} (h : Scanned s sites) :
    sites.map Site.index = List.range s.nextIndex := by
  induction h with
  | initial clock console => rfl
  | run _ hrun ih => rw [List.map_append, ih, range_append_stream, (run?_changes hrun).1]
  | debugParse _ _ ih => exact ih

theorem Precedes.keeps (h : s.Precedes s') (hs : s.Reachable) {i distance : Nat}
    (hi : s.hops[i]? = some distance) : s'.hops[i]? = some distance := by
  induction h with
  | refl => exact hi
  | run hprecedes hrun ih => exact (hprecedes.reachable hs).numbered.run_keeps hrun ih
  | debugParse _ _ ih => exact ih

/-- Distances are never overwritten. Whatever sources a session was given, however their runs ended, the
tokens of all of them and of any further source have distinct indices. In a source that parses no index
occurs in two nodes, so the walk records it at most once, and it is stored where the table has nothing.
A distance that is stored stays what it is in all sessions that further runs lead to. -/
theorem hops_never_overwritten {sites : List Site} (h : Scanned s sites) :
    (∀ source, ((sites ++ (s.scan source).1.stream).map Site.index).Nodup) ∧
      (∀ source program, parse (s.scan source).1.tokens.toList = .ok program →
        ((uses program).map fun m => m.token.index).Nodup ∧
        ((resolve program).hops.map fun hop => hop.token.index).Nodup ∧
        ∀ before hop after, (resolve program).hops = before ++ hop :: after →
          (s.adopt before).hops[hop.token.index]? = none) ∧
      ∀ later, s.Precedes later → ∀ i distance : Nat, s.hops[i]? = some distance →
        later.hops[i]? = some distance := by
  refine ⟨?_, ?_, ?_⟩
  · intro source
    rw [List.map_append, h.indices, range_append_stream]
    exact List.nodup_range
  · intro source program hparse
    exact ⟨nodup_uses hparse, nodup_hops hparse, fun before hop after hhops =>
      adopt_fresh hparse h.reachable.numbered hhops⟩
  · intro later hlater i distance hi
    exact hlater.keeps h.reachable hi

/-- A function from one run is called in a later one. -/
theorem hops_never_overwritten_laterRun :
    ∃ s sites later, Scanned s sites ∧ sites.length = 16 ∧ s.hops[9]? = some 1 ∧
      ((sites ++ (s.scan "{ var b; print b; }").1.stream).map Site.index).Nodup ∧
      s.run? 50 "{ var b; print b; }" = some (.success, later) ∧ later.hops[21]? = some 0 ∧
      later.hops[9]? = some 1 := by
  obtain ⟨first, hfirst⟩ : ∃ s, s = initial ⟨0, 0⟩ (.separate .unlimited .unlimited) := ⟨_, rfl⟩
  have hruns : ((first.run? 50 "{ var a; fun f() { a = nil; } }").bind fun said =>
      (said.2.run? 50 "{ var b; print b; }").map fun later =>
        (said.1, said.2.hops[9]?, later.1, later.2.hops[21]?)) =
      some (.success, some 1, .success, some 0) := by
    rw [hfirst]
    decide +kernel
  obtain ⟨⟨status, s⟩, hrun, hlater⟩ := Option.bind_eq_some_iff.1 hruns
  obtain ⟨⟨status', later⟩, hrun', hanswers⟩ := Option.map_eq_some_iff.1 hlater
  injection hanswers with hstatus hanswers
  injection hanswers with hhop hanswers
  injection hanswers with hstatus' hhop'
  subst hstatus hstatus'
  have hscanned : Scanned s ([] ++ (first.scan "{ var a; fun f() { a = nil; } }").1.stream) := by
    rw [hfirst] at hrun ⊢
    exact (Scanned.initial _ _).run hrun
  have hlength : ([] ++ (first.scan "{ var a; fun f() { a = nil; } }").1.stream).length = 16 := by
    rw [hfirst]
    decide +kernel
  have hkept := hops_never_overwritten hscanned
  exact ⟨s, _, later, hscanned, hlength, hhop, hkept.1 _, hrun', hhop',
    hkept.2.2 later (.run .refl hrun') 9 1 hhop⟩

end Session

end Lox
