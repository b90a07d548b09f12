import Lox.Proofs.Lexical.Grammar
import Lox.Proofs.Parsing.Acceptance
import Lox.Proofs.Scanning
import Lox.Proofs.Scoping.Mention
import Mathlib.Data.List.Nodup

/-!
The mentions of a parsed program are tokens of its source. Each token is mentioned at most once, and
keywords and identifiers are what their kinds say.
-/
namespace Lox

/-- The spelling of identifiers and of the keywords that stand for variables. -/
structure Token.Proper (t : Token) : Prop where
  identifier : t.kind = .identifier → ¬ isScopeKeyword t.lexeme
  this : t.kind = .kwThis → t.lexeme = "this"
  super : t.kind = .kwSuper → t.lexeme = "super"

/-- The mentions are drawn from the tokens, each at most as often as it stands there. -/
structure Drawn (ts : List Token) (ms : List Mention) : Prop where
  count : ∀ t, (ms.map Mention.token).count t ≤ ts.count t
  spelled : (∀ t ∈ ts, t.Proper) → ∀ m ∈ ms, m.Spelled

namespace Drawn

variable {ts us : List Token} {ms ns : List Mention} {t : Token}

theorem nil : Drawn ts [] := by
  constructor
  · intro t
    exact Nat.zero_le _
  · intro _ m hm
    contradiction

theorem append (hms : Drawn ts ms) (hns : Drawn us ns) : Drawn (ts ++ us) (ms ++ ns) := by
  constructor
  · intro t
    have hcount := hms.count t
    have hcount' := hns.count t
    rw [List.map_append, List.count_append, List.count_append]
    omega
  · intro hproper m hm
    rcases List.mem_append.1 hm with hm | hm
    · exact hms.spelled (fun t ht => hproper t (List.mem_append_left _ ht)) m hm
    · exact hns.spelled (fun t ht => hproper t (List.mem_append_right _ ht)) m hm

theorem sublist (hms : Drawn ts ms) (h : ts.Sublist us) : Drawn us ms := by
  constructor
  · intro t
    exact Nat.le_trans (hms.count t) (h.count_le t)
  · intro hproper
    exact hms.spelled fun t ht => hproper t (h.subset ht)

theorem skip (hms : Drawn ts ms) (t : Token) : Drawn (t :: ts) ms :=
  hms.sublist (List.sublist_cons_self t ts)

theorem close (hms : Drawn ts ms) (us : List Token) : Drawn (ts ++ us) ms :=
  hms.sublist (List.sublist_append_left ts us)

theorem perm (hms : Drawn ts ms) (h : ms.Perm ns) : Drawn ts ns := by
  constructor
  · intro t
    rw [← (h.map Mention.token).count_eq t]
    exact hms.count t
  · intro hproper m hm
    exact hms.spelled hproper m (h.mem_iff.2 hm)

theorem mention {access : Access} {stack : ScopeStack} (hms : Drawn ts ms)
    (h : t.Proper → Mention.Spelled ⟨access, t, stack⟩) :
    Drawn (t :: ts) (⟨access, t, stack⟩ :: ms) := by
  constructor
  · intro u
    have hcount := hms.count u
    change (t :: ms.map Mention.token).count u ≤ _
    rw [List.count_cons, List.count_cons]
    omega
  · intro hproper m hm
    rcases List.mem_cons.1 hm with rfl | hm
    · exact h (hproper t (List.mem_cons_self ..))
    · exact hms.spelled (fun u hu => hproper u (List.mem_cons_of_mem _ hu)) m hm

theorem declare {stack : ScopeStack} (hms : Drawn ts ms) (h : t.kind = .identifier) :
    Drawn (t :: ts) (⟨.declaration, t, stack⟩ :: ms) :=
  hms.mention fun ht => ht.identifier h

theorem read {stack : ScopeStack} (hms : Drawn ts ms) (h : t.kind = .identifier) :
    Drawn (t :: ts) (⟨.variable, t, stack⟩ :: ms) :=
  hms.mention fun ht => ht.identifier h

theorem tail {m : Mention} (hms : Drawn ts (m :: ms)) : Drawn ts ms := by
  constructor
  · intro t
    apply Nat.le_trans _ (hms.count t)
    exact List.count_le_count_cons
  · intro hproper m' hm'
    exact hms.spelled hproper m' (List.mem_cons_of_mem _ hm')

theorem assign {name : Token} {stack : ScopeStack} (hms : Drawn ts [⟨.variable, name, stack⟩]) :
    Drawn ts [⟨.assignment, name, stack⟩] := by
  constructor
  · exact hms.count
  · intro hproper m hm
    rw [List.mem_singleton.1 hm]
    exact hms.spelled hproper ⟨.variable, name, stack⟩ (List.mem_singleton_self _)

end Drawn

theorem Level.mentions_join (level : Level) (left right : Expr) (op : Token) (stack : ScopeStack) :
    (level.join left op right).mentions stack = left.mentions stack ++ right.mentions stack := by
  cases level <;> rfl

namespace Grammar

variable (stack : ScopeStack)

theorem drawn_assigned {ts us : List Token} {target value e : Expr}
    (htarget : Drawn ts (target.mentions stack)) (hvalue : Drawn us (value.mentions stack))
    (h : target.assigned? value = some e) : Drawn (ts ++ us) (e.mentions stack) := by
  cases target <;> try contradiction
  case var name =>
    cases h
    exact htarget.assign.append hvalue
  case get object property =>
    cases h
    exact htarget.append hvalue

mutual

theorem Expression.drawn {ts e n} : Expression ts e n → Drawn ts (e.mentions stack)
  | .value h => h.drawn
  | .assignment htarget _ hvalue he => drawn_assigned stack htarget.drawn (hvalue.drawn.skip _) he
  | .noTarget htarget _ _ _ => htarget.drawn.close _

theorem Chain.drawn {level ts e n} : Chain level ts e n → Drawn ts (e.mentions stack)
  | .first h => h.drawn
  | .join hleft _ hright => by
    rw [Level.mentions_join]
    exact hleft.drawn.append (hright.drawn.skip _)

theorem Operand.drawn {level ts e n} : Operand level ts e n → Drawn ts (e.mentions stack)
  | .chain _ h => h.drawn
  | .unary _ h => h.drawn

theorem Unary.drawn {ts e n} : Unary ts e n → Drawn ts (e.mentions stack)
  | .operator _ h => h.drawn.skip _
  | .call h => h.drawn

theorem Call.drawn {ts e n} : Call ts e n → Drawn ts (e.mentions stack)
  | .primary h => h.drawn
  | .call hcallee _ hargs _ => hcallee.drawn.append ((hargs.drawn.close _).skip _)
  | .get hobject _ _ => hobject.drawn.close _

theorem Arguments.drawn {ts args n} : Arguments ts args n → Drawn ts (Expr.mentionsAll stack args)
  | .none => .nil
  | .some h => h.drawn

theorem ArgumentList.drawn {count ts args n} :
    ArgumentList count ts args n → Drawn ts (Expr.mentionsAll stack args)
  | .last h => by
    rw [Expr.mentionsAll, Expr.mentionsAll, List.append_nil]
    exact h.drawn
  | .more h _ hrest => h.drawn.append (hrest.drawn.skip _)

theorem Primary.drawn {ts e n} : Primary ts e n → Drawn ts (e.mentions stack)
  | .literal _ => .nil
  | .var h => Drawn.nil.read h
  | .this h => Drawn.nil.mention fun ht => ht.this h
  | .super h _ _ => Drawn.nil.mention fun ht => ht.super h
  | .group _ h _ => (h.drawn.close _).skip _

end

theorem OptionalExpression.drawn {ts e n} :
    OptionalExpression ts e n → Drawn ts (Expr.mentionsOption stack e)
  | .none => .nil
  | .some h => h.drawn stack

theorem ParameterList.drawn {count ts params n} :
    ParameterList count ts params n → Drawn ts (params.map (⟨.declaration, ·, stack⟩))
  | .last h => Drawn.nil.declare h
  | .more h _ hrest => (hrest.drawn.skip _).declare h

theorem Parameters.drawn {ts params n} :
    Parameters ts params n → Drawn ts (params.map (⟨.declaration, ·, stack⟩))
  | .none => .nil
  | .some h => h.drawn stack

theorem VarDecl.drawn {ts s n} : VarDecl ts s n → Drawn ts (s.mentions stack)
  | .bare hname _ => Drawn.nil.declare hname
  | .initialized hname _ h _ => (((h.drawn _).close _).skip _).declare hname

theorem ExpressionStatement.drawn {ts s n} : ExpressionStatement ts s n → Drawn ts (s.mentions stack)
  | .mk h _ => (h.drawn stack).close _

theorem ForInitializer.drawn {ts s n} (h : ForInitializer ts (some s) n) :
    Drawn ts (s.mentions stack) := by
  cases h with
  | var _ h => exact (h.drawn stack).skip _
  | expr h => exact h.drawn stack

/-- The increment of a `for` stands in front of the body and runs behind it. -/
theorem drawn_loop {us vs ws : List Token} {c inc : Option Expr} {body : Stmt} (middle finish : Token)
    (hc : ∀ stack, Drawn us (Expr.mentionsOption stack c))
    (hinc : ∀ stack, Drawn vs (Expr.mentionsOption stack inc))
    (hbody : ∀ stack, Drawn ws (body.mentions stack)) :
    Drawn (us ++ middle :: (vs ++ finish :: ws)) ((Stmt.forLoop none c inc body).mentions stack) := by
  have hcondition : Drawn us ((c.getD (.literal (.bool true))).mentions stack) := by
    cases c with
    | none => exact .nil
    | some c => exact hc stack
  cases inc with
  | none =>
    have hlast : Drawn (vs ++ finish :: ws) (body.mentions stack) :=
      ((hbody stack).skip finish).sublist (List.sublist_append_right vs _)
    exact hcondition.append (hlast.skip middle)
  | some inc =>
    have hlast : ∀ stack stack',
        Drawn (vs ++ finish :: ws) (body.mentions stack ++ inc.mentions stack') := by
      intro stack stack'
      exact ((hinc stack').append ((hbody stack).skip finish)).perm List.perm_append_comm
    have hblock : Drawn (vs ++ finish :: ws) ((Stmt.block [body, .expr inc]).mentions stack) := by
      rw [Stmt.mentions, Stmt.mentionsAll, Stmt.mentionsAll, Stmt.mentionsAll, List.append_nil]
      exact hlast _ _
    exact hcondition.append (hblock.skip middle)

theorem drawn_forLoop {ts us vs ws : List Token} {init : Option Stmt} {c inc : Option Expr}
    {body : Stmt} {noted : List SyntaxError} (middle finish : Token)
    (hinit : ForInitializer ts init noted) (hc : ∀ stack, Drawn us (Expr.mentionsOption stack c))
    (hinc : ∀ stack, Drawn vs (Expr.mentionsOption stack inc))
    (hbody : ∀ stack, Drawn ws (body.mentions stack)) :
    Drawn (ts ++ (us ++ middle :: (vs ++ finish :: ws)))
      ((Stmt.forLoop init c inc body).mentions stack) := by
  have hloop := fun stack => drawn_loop stack middle finish hc hinc hbody
  cases init with
  | none => exact (hloop stack).sublist (List.sublist_append_right ts _)
  | some init =>
    change Drawn _ ((Stmt.block [init, Stmt.forLoop none c inc body]).mentions stack)
    rw [Stmt.mentions, Stmt.mentionsAll, Stmt.mentionsAll, Stmt.mentionsAll, List.append_nil]
    exact (hinit.drawn _).append (hloop _)

theorem drawn_class {parents ts : List Token} {name : Token} {superclass : Option Token}
    {methods : List FunDecl} (keyword start finish : Token) (hname : name.kind = .identifier)
    (hparents : Superclass parents superclass)
    (h : ∀ stack, Drawn ts (FunDecl.mentionsAll stack methods)) :
    Drawn (keyword :: name :: (parents ++ start :: (ts ++ [finish])))
      ((Stmt.classDecl name superclass methods).mentions stack) := by
  cases hparents with
  | none =>
    rw [Stmt.mentions]
    exact ((((h _).close _).skip _).declare hname).skip _
  | some _ hparent =>
    rw [Stmt.mentions]
    exact ((((((h _).close _).skip _).read hparent).skip _).declare hname).skip _

mutual

theorem Declarations.drawn {ts body n} (h : Declarations ts body n) (stack : ScopeStack) :
    Drawn ts (Stmt.mentionsAll stack body) :=
  match h with
  | .nil => .nil
  | .cons h hrest => (h.drawn stack).append (hrest.drawn _)

theorem Declaration.drawn {ts s n} (h : Declaration ts s n) (stack : ScopeStack) :
    Drawn ts (s.mentions stack) :=
  match h with
  | .cls _ hname hparents _ h _ => drawn_class stack _ _ _ hname hparents fun stack => h.drawn stack
  | .function _ h => by
    rw [Stmt.mentions]
    exact (h.drawn _ stack).skip _
  | .var _ h => (h.drawn stack).skip _
  | .statement h => h.drawn stack

theorem Methods.drawn {ts members n} (h : Methods ts members n) (stack : ScopeStack) :
    Drawn ts (FunDecl.mentionsAll stack members) :=
  match h with
  | .nil => .nil
  | .cons h hrest => (h.drawn stack stack).tail.append (hrest.drawn stack)

theorem Function.drawn {ts f n} (h : Function ts f n) (stack outer : ScopeStack) :
    Drawn ts (⟨.declaration, f.name, outer⟩ :: f.mentions stack) :=
  match h with
  | .mk hname _ hparams _ hbody =>
    (((hparams.drawn _).append ((hbody.drawn _).skip _)).skip _).declare hname

theorem Block.drawn {ts body n} (h : Block ts body n) (stack : ScopeStack) :
    Drawn ts (Stmt.mentionsAll stack body) :=
  match h with
  | .mk _ h _ => ((h.drawn stack).close _).skip _

theorem Statement.drawn {isOpen ts s n} (h : Statement isOpen ts s n) (stack : ScopeStack) :
    Drawn ts (s.mentions stack) :=
  match h with
  | .ifThen _ _ hc _ hyes => (((hc.drawn stack).append ((hyes.drawn stack).skip _)).skip _).skip _
  | .ifElse _ _ hc _ hyes _ hno => by
    rw [Stmt.mentions, List.append_assoc]
    exact (((hc.drawn stack).append
      (((hyes.drawn stack).append ((hno.drawn stack).skip _)).skip _)).skip _).skip _
  | .print _ h _ => ((h.drawn stack).close _).skip _
  | .ret _ h _ => ((h.drawn stack).close _).skip _
  | .whileLoop _ _ hc _ hbody =>
    (((hc.drawn stack).append ((hbody.drawn stack).skip _)).skip _).skip _
  | .forLoop _ _ hinit hc _ hinc _ hbody =>
    ((drawn_forLoop stack _ _ hinit (fun stack => hc.drawn stack) (fun stack => hinc.drawn stack)
      fun stack => hbody.drawn stack).skip _).skip _
  | .block h => h.drawn _
  | .expr h => h.drawn stack

end

end Grammar

theorem Token.proper_of_kind {t : Token} (hidentifier : t.kind ≠ .identifier) (hthis : t.kind ≠ .kwThis)
    (hsuper : t.kind ≠ .kwSuper) : t.Proper := by
  constructor
  · intro h
    contradiction
  · intro h
    contradiction
  · intro h
    contradiction

theorem Token.proper_of_word {t : Token} (h : t.kind = Kind.ofWord t.lexeme) : t.Proper := by
  constructor
  · intro hkind hkeyword
    rw [h] at hkind
    rcases hkeyword with hkeyword | hkeyword <;> rw [hkeyword] at hkind <;> revert hkind <;> decide
  · intro hkind
    have hmem := Kind.mem_keywords_of_ofWord (h.symm.trans hkind) nofun
    simpa [keywords] using hmem
  · intro hkind
    have hmem := Kind.mem_keywords_of_ofWord (h.symm.trans hkind) nofun
    simpa [keywords] using hmem

def Kind.isPlain (kind : Kind) : Prop := kind ≠ .identifier ∧ kind ≠ .kwThis ∧ kind ≠ .kwSuper

namespace Source

theorem isPlain_of_single? {c : Char} {kind : Kind} (h : single? c = some kind) : kind.isPlain := by
  unfold single? at h
  split at h <;> cases h <;> simp [Kind.isPlain]

theorem isPlain_of_withEqual? {c : Char} {kind : Kind} (h : withEqual? c = some kind) :
    kind.isPlain := by
  unfold withEqual? at h
  split at h <;> cases h <;> simp [Kind.isPlain]

theorem classify_lexeme {c : Char} {rest : List Char} {kind : Kind}
    (h : (classify c rest).1 = .lexeme kind) :
    kind.isPlain ∨ kind = Kind.ofWord (String.ofList (c :: rest.take (classify c rest).2)) := by
  unfold classify at h ⊢
  split at h
  · contradiction
  · split at h
    · contradiction
    · split at h
      · dsimp only at h
        split at h
        · contradiction
        · cases h
          exact .inl ⟨nofun, nofun, nofun⟩
      · split at h
        · cases h
          exact .inl ⟨nofun, nofun, nofun⟩
        · split at h
          · cases h
            rename_i hblank hcomment hstring hdigit hword
            right
            simp only [hblank, hcomment, hstring, hdigit, hword, if_true, if_false]
            rfl
          · split at h
            · cases h
              exact .inl (isPlain_of_withEqual? ‹withEqual? c = some kind›)
            · cases hsingle : single? c with
              | none =>
                rw [hsingle] at h
                contradiction
              | some found =>
                rw [hsingle] at h
                cases h
                exact .inl (isPlain_of_single? hsingle)

end Source

theorem Token.proper_of_split {c : Char} {rest : List Char} {t : Token}
    (hcategory : (Source.split c rest).1.category = .lexeme t.kind)
    (hlexeme : t.lexeme = String.ofList (Source.split c rest).1.text) : t.Proper := by
  rcases Source.classify_lexeme hcategory with ⟨hidentifier, hthis, hsuper⟩ | hword
  · exact proper_of_kind hidentifier hthis hsuper
  · apply proper_of_word
    rw [hlexeme]
    exact hword

theorem Scan.add_split_proper {s : Scan} (h : ∀ t ∈ s.tokens.toList, t.Proper) (c : Char)
    (rest : List Char) : ∀ t ∈ (s.add (Source.split c rest).1).tokens.toList, t.Proper := by
  intro t ht
  unfold Scan.add at ht
  dsimp only at ht
  split at ht
  · exact h t ht
  · exact h t ht
  · exact h t ht
  · rename_i kind hcategory
    simp only [Scan.emit, Array.toList_push, List.mem_append, List.mem_singleton] at ht
    rcases ht with ht | rfl
    · exact h t ht
    · exact Token.proper_of_split hcategory rfl
  · simp only [Scan.emit, Scan.report, Array.toList_push, List.mem_append, List.mem_singleton] at ht
    rcases ht with ht | rfl
    · exact h t ht
    · exact Token.proper_of_kind (by simp) (by simp) (by simp)

theorem Scan.addAll_proper {s : Scan} (h : ∀ t ∈ s.tokens.toList, t.Proper) (cs : List Char) :
    ∀ t ∈ (s.addAll cs).tokens.toList, t.Proper := by
  induction cs using Source.pieces.induct generalizing s with
  | case1 =>
    rw [addAll]
    exact h
  | case2 c rest hle ih =>
    rw [addAll]
    exact ih (add_split_proper h c rest)

theorem scan_proper (index : Nat) (source : String) :
    ∀ t ∈ (scan index source).tokens.toList, t.Proper := by
  apply Scan.addAll_proper
  intro t ht
  contradiction

theorem Drawn.mem {ts : List Token} {ms : List Mention} (h : Drawn ts ms) {m : Mention} (hm : m ∈ ms) :
    m.token ∈ ts := by
  have hcount := h.count m.token
  have hpos : 0 < (ms.map Mention.token).count m.token :=
    List.count_pos_iff.2 (List.mem_map_of_mem hm)
  exact List.count_pos_iff.1 (Nat.lt_of_lt_of_le hpos hcount)

theorem Drawn.nodup {ts : List Token} {ms : List Mention} (h : Drawn ts ms) (hts : ts.Nodup) :
    (ms.map Mention.token).Nodup := by
  rw [List.nodup_iff_count_le_one]
  intro t
  exact Nat.le_trans (h.count t) (List.nodup_iff_count_le_one.1 hts t)

/-- An index tells which mention it belongs to. -/
def DistinctMentions (ms : List Mention) : Prop :=
  ∀ m ∈ ms, ∀ m' ∈ ms, m.token.index = m'.token.index → m = m'

theorem Drawn.distinct {ts : List Token} {ms : List Mention} (h : Drawn ts ms)
    (hts : (ts.map Token.index).Nodup) : DistinctMentions ms := by
  have htokens := h.nodup (List.Nodup.of_map _ hts)
  intro m hm m' hm' hindex
  have htoken : m.token = m'.token :=
    List.inj_on_of_nodup_map hts (h.mem hm) (h.mem hm') hindex
  exact List.inj_on_of_nodup_map htokens hm hm' htoken

section Parsed

variable {index : Nat} {source : String} {program : List Stmt}
  (h : parse (scan index source).tokens.toList = .ok program)

include h

theorem drawn_of_parse : Drawn (scan index source).tokens.toList (Stmt.mentionsAll [] program) :=
  (program_of_parse h).drawn []

theorem spelled_of_parse : ∀ m ∈ Stmt.mentionsAll [] program, m.Spelled :=
  (drawn_of_parse h).spelled (scan_proper index source)

theorem distinct_of_parse : DistinctMentions (Stmt.mentionsAll [] program) := by
  apply (drawn_of_parse h).distinct
  rw [(scan_numbered index source).indices]
  exact List.nodup_range'

end Parsed

end Lox
