import Lox.Proofs.Lexical.Genuine
import Lox.Proofs.Number.Decimal
import Lox.Proofs.Parsing.Operators
import Lox.Proofs.Printing.Trees

/-!
Legible trees. A tree is legible if each of its tokens is the one of its lexeme and its constants can be
written down; its form is neat then. The trees of parsed sources are legible unless a number in them is
infinite.
-/
namespace Lox

namespace Form

instance (text : String) : Decidable (IsWord text) :=
  decidable_of_iff ((!text.toList.isEmpty && text.toList.all fun c => !isMark c) = true) <| by
    simp only [Bool.and_eq_true, Bool.not_eq_true', List.isEmpty_eq_false_iff, List.all_eq_true]
    exact ⟨fun h => ⟨h.1, h.2⟩, fun h => ⟨h.ne_nil, h.plain⟩⟩

instance (text : String) : Decidable (word text).Neat := inferInstanceAs (Decidable (IsWord text))

theorem isMark_eq_false_of_isWordPart {c : Char} (h : Source.isWordPart c = true) :
    isMark c = false := by
  rw [Bool.eq_false_iff]
  intro hmark
  simp only [isMark, Bool.or_eq_true, decide_eq_true_eq] at hmark
  rcases hmark with ((rfl | rfl) | rfl) | rfl <;> contradiction

theorem isMark_eq_false_of_isDigit {c : Char} (h : c.isDigit = true) : isMark c = false :=
  isMark_eq_false_of_isWordPart (by rw [Source.isWordPart, h, Bool.or_true])

theorem isWord_of_lexeme {kind : Kind} {text : List Char} (h : Lexical.Lexeme kind text)
    (hkind : kind ∉ [Kind.string, .leftParen, .rightParen]) : IsWord (String.ofList text) := by
  refine ⟨by rw [String.toList_ofList]; exact h.ne_nil, ?_⟩
  rw [String.toList_ofList]
  intro c hc
  cases h with
  | operator h =>
    have hall : Lexical.operators.all (fun entry =>
        decide (entry.2 ∈ [Kind.string, .leftParen, .rightParen]) ||
          entry.1.all fun c => !isMark c) = true := by decide
    have hplain := List.all_eq_true.1 hall _ h
    rw [decide_eq_false hkind, Bool.false_or, List.all_eq_true] at hplain
    exact Bool.not_eq_true' _ ▸ hplain c hc
  | whole h => exact isMark_eq_false_of_isDigit (h.2 c hc)
  | decimal h hfraction =>
    rcases List.mem_append.1 hc with hc | hc
    · exact isMark_eq_false_of_isDigit (h.2 c hc)
    · rcases List.mem_cons.1 hc with rfl | hc
      · rfl
      · exact isMark_eq_false_of_isDigit (hfraction.2 c hc)
  | string => simp at hkind
  | keyword h => exact isMark_eq_false_of_isWordPart ((Lexical.keyword_parts _ h).2 c hc)
  | identifier hstart hparts _ =>
    rcases List.mem_cons.1 hc with rfl | hc
    · exact isMark_eq_false_of_isWordPart (by rw [Source.isWordPart, hstart, Bool.true_or])
    · exact isMark_eq_false_of_isWordPart (hparts c hc)

end Form

/-- What a numeral is read as if no finite double is near. -/
def Literal.infinity : Literal := .num (Float.ofBits Double.infinityBits.toUInt64)

def Literal.Legible : Literal → Prop
  | .nil | .bool _ => True
  | .num x => ∃ bits < Double.infinityBits, x = Float.ofBits bits.toUInt64
  | .str s => '"' ∉ s.toList

namespace Token

/-- A word that, but for its place, is the token of its lexeme. -/
structure Legible (t : Token) : Prop where
  word : Form.IsWord t.lexeme
  erase_eq : Relabelling.erase t = ofText t.lexeme

structure Names (t : Token) : Prop extends t.Legible where
  kind_eq : t.kind = .identifier

/-- A genuine token with a constant that can be written down. -/
structure Clear (t : Token) : Prop where
  genuine : t.Genuine
  value : t.value.Legible

theorem Genuine.clear {t : Token} (h : t.Genuine) (hvalue : t.value ≠ .infinity) : t.Clear := by
  refine ⟨h, ?_⟩
  cases h with
  | openString _ h hvalue =>
    rw [hvalue, Literal.Legible, String.toList_ofList]
    exact h
  | @lexeme text h _ hread =>
    rw [hread] at hvalue ⊢
    generalize t.kind = kind at h hvalue
    cases kind
    case number =>
      exact (Decimal.read_finite_or_infinite text).resolve_right fun hread =>
        hvalue (by rw [Source.valueOf, hread, Literal.infinity])
    case string =>
      cases h with
      | string h => simpa [Source.valueOf, Literal.Legible] using h
      | operator h =>
        have hall : ∀ entry ∈ Lexical.operators, entry.2 ≠ .string := by decide
        exact absurd rfl (hall _ h)
      | keyword h =>
        have hall : ∀ entry ∈ keywords, entry.2 ≠ .string := by decide
        exact absurd rfl (hall _ h)
    all_goals trivial

theorem Clear.literal {t : Token} (h : t.Clear) : t.literal.Legible := by
  unfold Token.literal
  split
  case h_1 | h_2 | h_3 => trivial
  case h_4 => exact h.value

variable {t : Token}

theorem Genuine.legible (h : t.Genuine) (hkind : t.kind ∉ [Kind.string, .leftParen, .rightParen]) :
    t.Legible := by
  have hstring : t.kind ≠ .string := fun hstring => hkind (by simp [hstring])
  obtain ⟨text, hlexeme, htext, -⟩ := h.exists_lexeme hstring
  exact ⟨htext ▸ Form.isWord_of_lexeme hlexeme hkind, h.erase_eq hstring⟩

theorem Clear.names (h : t.Clear) (hkind : t.kind = .identifier) : t.Names :=
  ⟨h.genuine.legible (by rw [hkind]; decide), hkind⟩

theorem Clear.spells (h : t.Clear) {kind : Kind} {word : String} (hkind : t.kind = kind)
    (hword : Lexical.Lexeme kind word.toList)
    (hother : kind ∉ [Kind.identifier, .number, .string]) : Relabelling.erase t = ofText word := by
  subst hkind
  simp only [List.mem_cons, List.not_mem_nil, or_false, not_or] at hother
  rw [h.genuine.erase_eq hother.2.2, h.genuine.lexeme_eq hword hother.1 hother.2.1 hother.2.2,
    String.ofList_toList]

end Token

mutual

/-- All tokens of an expression are such as their lexemes tell, and its constants can be written down. -/
def Expr.Legible : Expr → Prop
  | .literal value => value.Legible
  | .var name => name.Names
  | .assign name e => name.Names ∧ e.Legible
  | .unary op e => (op.Legible ∧ op.kind.isUnaryOperator = true) ∧ e.Legible
  | .binary left op right =>
    (op.Legible ∧ op.kind.isBinaryOperator = true) ∧ left.Legible ∧ right.Legible
  | .logical left op right =>
    (op.Legible ∧ op.kind ∈ [.kwOr, .kwAnd]) ∧ left.Legible ∧ right.Legible
  | .group e => e.Legible
  | .call callee paren args =>
    Relabelling.erase paren = .ofText ")" ∧ callee.Legible ∧ Expr.LegibleAll args
  | .get object property => property.Names ∧ object.Legible
  | .set object property value => property.Names ∧ object.Legible ∧ value.Legible
  | .this keyword => Relabelling.erase keyword = .ofText "this"
  | .super keyword method => Relabelling.erase keyword = .ofText "super" ∧ method.Names

def Expr.LegibleAll : List Expr → Prop
  | [] => True
  | e :: rest => e.Legible ∧ Expr.LegibleAll rest

end

mutual

def Stmt.Legible : Stmt → Prop
  | .expr e => e.Legible
  | .print keyword e => Relabelling.erase keyword = .ofText "print" ∧ e.Legible
  | .varDecl name e? => name.Names ∧ ∀ e ∈ e?, e.Legible
  | .block body => Stmt.LegibleAll body
  | .ifThen condition yes => condition.Legible ∧ yes.Legible
  | .ifElse condition yes no => condition.Legible ∧ yes.Legible ∧ no.Legible
  | .whileLoop condition body => condition.Legible ∧ body.Legible
  | .ret keyword e? => Relabelling.erase keyword = .ofText "return" ∧ ∀ e ∈ e?, e.Legible
  | .funDecl f => f.Legible
  | .classDecl name superclass methods =>
    name.Names ∧ (∀ parent ∈ superclass, parent.Names) ∧ FunDecl.LegibleAll methods

def Stmt.LegibleAll : List Stmt → Prop
  | [] => True
  | s :: rest => s.Legible ∧ Stmt.LegibleAll rest

def FunDecl.Legible : FunDecl → Prop
  | ⟨name, params, body⟩ =>
    name.Names ∧ (∀ param ∈ params, param.Names) ∧ Stmt.LegibleAll body

def FunDecl.LegibleAll : List FunDecl → Prop
  | [] => True
  | f :: rest => f.Legible ∧ FunDecl.LegibleAll rest

end

theorem Expr.legible_join {level : Level} {left right : Expr} {op : Token}
    (hop : op.kind ∈ level.operators) (htoken : op.Clear) (hleft : left.Legible)
    (hright : right.Legible) : (level.join left op right).Legible := by
  have hkinds : ∀ level : Level, ∀ kind ∈ level.operators,
      kind ∉ [Kind.string, .leftParen, .rightParen] := by
    rintro (_ | _ | _ | _ | _ | _) <;> decide
  have hlegible := htoken.genuine.legible (hkinds level _ hop)
  cases level with
  | or | and =>
    refine ⟨⟨hlegible, ?_⟩, hleft, hright⟩
    rw [List.mem_singleton.1 hop]
    decide
  | equality | comparison | term | factor =>
    exact ⟨⟨hlegible, Level.isBinaryOperator_of_mem hop nofun nofun⟩, hleft, hright⟩

theorem Expr.legible_assigned {target value e : Expr} (h : target.assigned? value = some e)
    (htarget : target.Legible) (hvalue : value.Legible) : e.Legible := by
  cases target with
  | var name =>
    cases h
    exact ⟨htarget, hvalue⟩
  | get object property =>
    cases h
    exact ⟨htarget.1, htarget.2, hvalue⟩
  | literal _ | assign _ _ | unary _ _ | binary _ _ _ | logical _ _ _ | group _ | call _ _ _ | set _ _ _
  | this _ | super _ _ => contradiction

theorem Stmt.legible_forLoop {init : Option Stmt} {condition increment : Option Expr} {body : Stmt}
    (hinit : ∀ s ∈ init, s.Legible) (hcondition : ∀ e ∈ condition, e.Legible)
    (hincrement : ∀ e ∈ increment, e.Legible) (hbody : body.Legible) :
    (Stmt.forLoop init condition increment body).Legible := by
  have hholds : (condition.getD (.literal (.bool true))).Legible := by
    cases condition with
    | none => trivial
    | some e => exact hcondition e rfl
  cases increment with
  | none =>
    cases init with
    | none => exact ⟨hholds, hbody⟩
    | some first => exact ⟨hinit first rfl, ⟨hholds, hbody⟩, trivial⟩
  | some e =>
    have hturn : (Stmt.block [body, .expr e]).Legible := ⟨hbody, hincrement e rfl, trivial⟩
    cases init with
    | none => exact ⟨hholds, hturn⟩
    | some first => exact ⟨hinit first rfl, ⟨hholds, hturn⟩, trivial⟩

namespace Grammar

/-- All tokens of a sequence are clear. -/
def Clear (ts : List Token) : Prop := ∀ t ∈ ts, t.Clear

section Clear

variable {t : Token} {ts us : List Token}

theorem Clear.head (h : Clear (t :: ts)) : t.Clear := h t List.mem_cons_self

theorem Clear.tail (h : Clear (t :: ts)) : Clear ts := fun u hu => h u (List.mem_cons_of_mem t hu)

theorem Clear.left (h : Clear (ts ++ us)) : Clear ts := fun t ht => h t (List.mem_append_left us ht)

theorem Clear.right (h : Clear (ts ++ us)) : Clear us := fun t ht => h t (List.mem_append_right ts ht)

end Clear

mutual

theorem Expression.legible {ts e n} (hts : Clear ts) : Expression ts e n → e.Legible
  | .value h => h.legible hts
  | .assignment htarget _ hvalue he =>
    Expr.legible_assigned he (htarget.legible hts.left) (hvalue.legible hts.right.tail)
  | .noTarget htarget _ _ _ => htarget.legible hts.left

theorem Chain.legible {level ts e n} (hts : Clear ts) : Chain level ts e n → e.Legible
  | .first h => h.legible hts
  | .join hleft hop hright =>
    Expr.legible_join hop hts.right.head (hleft.legible hts.left) (hright.legible hts.right.tail)

theorem Operand.legible {level ts e n} (hts : Clear ts) : Operand level ts e n → e.Legible
  | .chain _ h => h.legible hts
  | .unary _ h => h.legible hts

theorem Unary.legible {ts e n} (hts : Clear ts) : Unary ts e n → e.Legible
  | .operator hop h => by
    refine ⟨⟨hts.head.genuine.legible ?_, ?_⟩, h.legible hts.tail⟩
    · rcases hop with hop | hop <;> · rw [hop]; decide
    · rcases hop with hop | hop <;> · rw [hop]; rfl
  | .call h => h.legible hts

theorem Call.legible {ts e n} (hts : Clear ts) : Call ts e n → e.Legible
  | .primary h => h.legible hts
  | .call hcallee _ hargs hparen =>
    ⟨hts.right.tail.right.head.spells hparen (.operator (by decide)) (by decide),
      hcallee.legible hts.left, hargs.legible hts.right.tail.left⟩
  | .get hobject _ hproperty => ⟨hts.right.tail.head.names hproperty, hobject.legible hts.left⟩

theorem Arguments.legible {ts args n} (hts : Clear ts) : Arguments ts args n → Expr.LegibleAll args
  | .none => trivial
  | .some h => h.legible hts

theorem ArgumentList.legible {count ts args n} (hts : Clear ts) :
    ArgumentList count ts args n → Expr.LegibleAll args
  | .last h => ⟨h.legible hts, trivial⟩
  | .more h _ hrest => ⟨h.legible hts.left, hrest.legible hts.right.tail⟩

theorem Primary.legible {ts e n} (hts : Clear ts) : Primary ts e n → e.Legible
  | .literal _ => hts.head.literal
  | .var h => hts.head.names h
  | .this h => hts.head.spells h (.keyword (by decide)) (by decide)
  | .super h _ hmethod =>
    ⟨hts.head.spells h (.keyword (by decide)) (by decide), hts.tail.tail.head.names hmethod⟩
  | .group _ h _ => by
    have hinner := h.legible hts.tail.left
    exact hinner

end

theorem OptionalExpression.legible {ts e? n} (hts : Clear ts) :
    OptionalExpression ts e? n → ∀ e ∈ e?, e.Legible
  | .none => nofun
  | .some h => fun _ he => Option.some.inj he ▸ h.legible hts

theorem ParameterList.legible {count ts params n} (hts : Clear ts) :
    ParameterList count ts params n → ∀ param ∈ params, param.Names
  | .last h => by simpa using hts.head.names h
  | .more h _ hrest => by
    simpa using ⟨hts.head.names h, hrest.legible hts.tail.tail⟩

theorem Parameters.legible {ts params n} (hts : Clear ts) :
    Parameters ts params n → ∀ param ∈ params, param.Names
  | .none => nofun
  | .some h => h.legible hts

theorem VarDecl.legible {ts s n} (hts : Clear ts) : VarDecl ts s n → s.Legible
  | .bare hname _ => ⟨hts.head.names hname, nofun⟩
  | .initialized hname _ h _ =>
    ⟨hts.head.names hname, fun _ he => Option.some.inj he ▸ h.legible hts.tail.tail.left⟩

theorem ExpressionStatement.legible {ts s n} (hts : Clear ts) :
    ExpressionStatement ts s n → s.Legible
  | .mk h _ => h.legible hts.left

theorem ForInitializer.legible {ts init n} (hts : Clear ts) :
    ForInitializer ts init n → ∀ s ∈ init, s.Legible
  | .none _, _, hs => nomatch hs
  | .var _ h, _, rfl => h.legible hts.tail
  | .expr h, _, rfl => h.legible hts

theorem Superclass.legible {ts superclass} (hts : Clear ts) :
    Superclass ts superclass → ∀ parent ∈ superclass, parent.Names
  | .none => nofun
  | .some _ h => fun _ hparent => Option.some.inj hparent ▸ hts.tail.head.names h

mutual

theorem Declarations.legible {ts body n} (hts : Clear ts) :
    Declarations ts body n → Stmt.LegibleAll body
  | .nil => trivial
  | .cons h hrest => ⟨h.legible hts.left, hrest.legible hts.right⟩

theorem Declaration.legible {ts s n} (hts : Clear ts) : Declaration ts s n → s.Legible
  | .cls _ hname hparents _ h _ =>
    ⟨hts.tail.head.names hname, hparents.legible hts.tail.tail.left,
      h.legible hts.tail.tail.right.tail.left⟩
  | .function _ h => h.legible hts.tail
  | .var _ h => h.legible hts.tail
  | .statement h => h.legible hts

theorem Methods.legible {ts methods n} (hts : Clear ts) :
    Methods ts methods n → FunDecl.LegibleAll methods
  | .nil => trivial
  | .cons h hrest => ⟨h.legible hts.left, hrest.legible hts.right⟩

theorem Function.legible {ts f n} (hts : Clear ts) : Function ts f n → f.Legible
  | .mk hname _ hparams _ h =>
    ⟨hts.head.names hname, hparams.legible hts.tail.tail.left, h.legible hts.tail.tail.right.tail⟩

theorem Block.legible {ts body n} (hts : Clear ts) : Block ts body n → Stmt.LegibleAll body
  | .mk _ h _ => h.legible hts.tail.left

theorem Statement.legible {isOpen ts s n} (hts : Clear ts) : Statement isOpen ts s n → s.Legible
  | .ifThen _ _ hc _ hyes => ⟨hc.legible hts.tail.tail.left, hyes.legible hts.tail.tail.right.tail⟩
  | .ifElse _ _ hc _ hyes _ hno =>
    ⟨hc.legible hts.tail.tail.left, hyes.legible hts.tail.tail.right.tail.left,
      hno.legible hts.tail.tail.right.tail.right.tail⟩
  | .print hkeyword h _ =>
    ⟨hts.head.spells hkeyword (.keyword (by decide)) (by decide), h.legible hts.tail.left⟩
  | .ret hkeyword h _ =>
    ⟨hts.head.spells hkeyword (.keyword (by decide)) (by decide), h.legible hts.tail.left⟩
  | .whileLoop _ _ hc _ hbody =>
    ⟨hc.legible hts.tail.tail.left, hbody.legible hts.tail.tail.right.tail⟩
  | .forLoop _ _ hinit hc _ hinc _ hbody =>
    Stmt.legible_forLoop (hinit.legible hts.tail.tail.left) (hc.legible hts.tail.tail.right.left)
      (hinc.legible hts.tail.tail.right.right.tail.left)
      (hbody.legible hts.tail.tail.right.right.tail.right.tail)
  | .block h => h.legible hts
  | .expr h => h.legible hts

end

end Grammar

theorem legible_of_parse {index : Nat} {source : String} {program : List Stmt}
    (h : parse (scan index source).tokens.toList = .ok program)
    (hfinite : ∀ t ∈ (scan index source).tokens.toList, t.value ≠ .infinity) :
    Stmt.LegibleAll program :=
  (program_of_parse h).legible fun t ht => (genuine_scan index source t ht).clear (hfinite t ht)

theorem Literal.neat_form {value : Literal} (h : value.Legible) : value.form.Neat := by
  cases value with
  | nil => exact (by decide : Form.IsWord "nil")
  | bool b =>
    cases b with
    | false => exact (by decide : Form.IsWord "false")
    | true => exact (by decide : Form.IsWord "true")
  | num x =>
    obtain ⟨bits, hbits, rfl⟩ := h
    obtain ⟨c, cs, hstart, -⟩ := Decimal.numeral_starts (Decimal.shortest bits)
    rw [form, Decimal.text_ofBits hbits]
    constructor
    · rw [String.toList_ofList, hstart]
      exact List.cons_ne_nil c cs
    · intro c hc
      rw [String.toList_ofList] at hc
      rcases Decimal.of_mem_numeral hc with hc | rfl
      · exact Form.isMark_eq_false_of_isDigit hc
      · rfl
  | str s => exact h

mutual

theorem Expr.neat_form : ∀ {e : Expr}, e.Legible → e.form.Neat
  | .literal _, h => Literal.neat_form h
  | .var _, h => h.word
  | .assign _ _, ⟨hname, he⟩ => ⟨by decide, hname.word, Expr.neat_form he, trivial⟩
  | .unary _ _, ⟨hop, he⟩ => ⟨hop.1.word, Expr.neat_form he, trivial⟩
  | .binary _ _ _, ⟨hop, hleft, hright⟩ | .logical _ _ _, ⟨hop, hleft, hright⟩ =>
    ⟨hop.1.word, Expr.neat_form hleft, Expr.neat_form hright, trivial⟩
  | .group _, h => ⟨by decide, Expr.neat_form h, trivial⟩
  | .call _ _ _, ⟨_, hcallee, hargs⟩ =>
    ⟨by decide, Expr.neat_form hcallee, Expr.neatAll_formAll hargs⟩
  | .get _ _, ⟨hproperty, hobject⟩ =>
    ⟨by decide, Expr.neat_form hobject, hproperty.word, trivial⟩
  | .set _ _ _, ⟨hproperty, hobject, hvalue⟩ =>
    ⟨by decide, ⟨by decide, Expr.neat_form hobject, hproperty.word, trivial⟩, Expr.neat_form hvalue,
      trivial⟩
  | .this _, _ => (by decide : Form.IsWord "this")
  | .super _ _, ⟨_, hmethod⟩ => ⟨by decide, hmethod.word, trivial⟩

theorem Expr.neatAll_formAll : ∀ {es : List Expr}, Expr.LegibleAll es → Form.NeatAll (Expr.formAll es)
  | [], _ => trivial
  | _ :: _, ⟨he, hrest⟩ => ⟨Expr.neat_form he, Expr.neatAll_formAll hrest⟩

end

theorem Expr.neatAll_optionForm {e? : Option Expr} (h : ∀ e ∈ e?, e.Legible) :
    Form.NeatAll (Expr.optionForm e?) := by
  cases e? with
  | none => trivial
  | some e => exact ⟨Expr.neat_form (h e rfl), trivial⟩

theorem Form.neatAll_words {names : List Token} (h : ∀ name ∈ names, name.Names) :
    Form.NeatAll (names.map (.word ·.lexeme)) := by
  induction names with
  | nil => trivial
  | cons name rest ih =>
    rw [List.forall_mem_cons] at h
    exact ⟨h.1.word, ih h.2⟩

mutual

theorem Stmt.neat_form : ∀ {s : Stmt}, s.Legible → s.form.Neat
  | .expr _, h => ⟨by decide, Expr.neat_form h, trivial⟩
  | .print _ _, ⟨_, h⟩ => ⟨by decide, Expr.neat_form h, trivial⟩
  | .varDecl _ _, ⟨hname, h⟩ => ⟨by decide, hname.word, Expr.neatAll_optionForm h⟩
  | .block _, h => ⟨by decide, Stmt.neatAll_formAll h⟩
  | .ifThen _ _, ⟨hcondition, h⟩ | .whileLoop _ _, ⟨hcondition, h⟩ =>
    ⟨by decide, Expr.neat_form hcondition, Stmt.neat_form h, trivial⟩
  | .ifElse _ _ _, ⟨hcondition, hyes, hno⟩ =>
    ⟨by decide, Expr.neat_form hcondition, Stmt.neat_form hyes, Stmt.neat_form hno, trivial⟩
  | .ret _ _, ⟨_, h⟩ => ⟨by decide, Expr.neatAll_optionForm h⟩
  | .funDecl _, h => FunDecl.neat_form (by decide) h
  | .classDecl _ none _, ⟨hname, _, hmethods⟩ =>
    ⟨by decide, hname.word, FunDecl.neatAll_formAll hmethods⟩
  | .classDecl _ (some parent) _, ⟨hname, hparent, hmethods⟩ =>
    ⟨by decide, hname.word, by decide, (hparent parent rfl).word, FunDecl.neatAll_formAll hmethods⟩

theorem Stmt.neatAll_formAll : ∀ {ss : List Stmt}, Stmt.LegibleAll ss →
    Form.NeatAll (Stmt.formAll ss)
  | [], _ => trivial
  | _ :: _, ⟨hs, hrest⟩ => ⟨Stmt.neat_form hs, Stmt.neatAll_formAll hrest⟩

theorem FunDecl.neat_form {word : String} (hword : Form.IsWord word) :
    ∀ {f : FunDecl}, f.Legible → (f.form word).Neat
  | ⟨_, _, _⟩, ⟨hname, hparams, hbody⟩ =>
    ⟨hword, hname.word, Form.neatAll_words hparams, Stmt.neatAll_formAll hbody⟩

theorem FunDecl.neatAll_formAll : ∀ {fs : List FunDecl}, FunDecl.LegibleAll fs →
    Form.NeatAll (FunDecl.formAll fs)
  | [], _ => trivial
  | _ :: _, ⟨hf, hrest⟩ => ⟨FunDecl.neat_form (by decide) hf, FunDecl.neatAll_formAll hrest⟩

end

end Lox
