import Lox.Proofs.Lexical.Lossless
import Lox.Proofs.Relabelling.Syntax

/-!
Genuine tokens. The tokens of a scan are those of lexemes and of strings that are not closed, and apart
from its place a token that is no string is what its lexeme makes it.
-/
namespace Lox

namespace Lexical

open Source

def kindOf (text : List Char) : Kind :=
  if text.head?.any Char.isDigit then .number
  else (operators.lookup text).getD (Kind.ofWord (String.ofList text))

theorem lookup_operators_of_isWordStart {c : Char} (cs : List Char) (h : isWordStart c = true) :
    operators.lookup (c :: cs) = none := by
  rw [List.lookup_eq_none_iff]
  intro entry hentry
  rw [bne_iff_ne]
  intro htext
  have hstart := (operator_starts entry hentry c (by rw [← htext]; rfl)).2.1
  rw [h] at hstart
  contradiction

theorem kindOf_word {c : Char} (cs : List Char) (h : isWordStart c = true) :
    kindOf (c :: cs) = Kind.ofWord (String.ofList (c :: cs)) := by
  have hdigit : c.isDigit = false := by
    cases hdigit : c.isDigit with
    | false => rfl
    | true =>
      rw [isWordStart_of_digit hdigit] at h
      contradiction
  unfold kindOf
  simp [hdigit, lookup_operators_of_isWordStart cs h]

theorem kindOf_number {text : List Char} {c : Char} {cs : List Char} (htext : text = c :: cs)
    (h : c.isDigit = true) : kindOf text = .number := by
  simp [kindOf, htext, h]

theorem Lexeme.kindOf_eq {kind : Kind} {text : List Char} (h : Lexeme kind text)
    (hkind : kind ≠ .string) : kindOf text = kind := by
  cases h with
  | operator h =>
    have hall : ∀ entry ∈ operators, kindOf entry.1 = entry.2 := by decide
    exact hall _ h
  | whole h =>
    obtain ⟨c, cs, rfl⟩ := List.exists_cons_of_ne_nil h.1
    exact kindOf_number rfl (h.2 c List.mem_cons_self)
  | @decimal ds _ h _ =>
    obtain ⟨c, cs, rfl⟩ := List.exists_cons_of_ne_nil h.1
    exact kindOf_number rfl (h.2 c List.mem_cons_self)
  | string => contradiction
  | keyword h =>
    have hall : ∀ entry ∈ keywords, kindOf entry.1.toList = entry.2 := by decide
    exact hall _ h
  | identifier hstart _ h =>
    rw [kindOf_word _ hstart]
    exact Decidable.by_contra fun hne => h _ (Kind.mem_keywords_of_ofWord rfl hne)

/-- Operators and reserved words are spelled in one way. -/
theorem Lexeme.unique {kind : Kind} {text text' : List Char} (h : Lexeme kind text)
    (h' : Lexeme kind text') (hkind : kind ≠ .identifier) (hnumber : kind ≠ .number)
    (hstring : kind ≠ .string) : text = text' := by
  have hoperators : ∀ entry ∈ operators, ∀ entry' ∈ operators, entry.2 = entry'.2 →
      entry.1 = entry'.1 := by decide
  have hkeywords : ∀ entry ∈ keywords, ∀ entry' ∈ keywords, entry.2 = entry'.2 →
      entry.1 = entry'.1 := by decide
  have hapart : ∀ entry ∈ operators, ∀ entry' ∈ keywords, entry.2 ≠ entry'.2 := by decide
  cases h with
  | operator h =>
    cases h' with
    | operator h' => exact hoperators _ h _ h' rfl
    | keyword h' => exact absurd rfl (hapart _ h _ h')
    | whole | decimal | string | identifier => contradiction
  | keyword h =>
    cases h' with
    | operator h' => exact absurd rfl (hapart _ h' _ h)
    | keyword h' => exact congrArg String.toList (hkeywords _ h _ h' rfl)
    | whole | decimal | string | identifier => contradiction
  | whole | decimal | string | identifier => contradiction

end Lexical

open Lexical

/-- Only what the tokens say. -/
def Relabelling.erase : Relabelling := ⟨fun _ => 0, fun _ => 0⟩

namespace Token

/-- A token as a scan makes it, of a whole lexeme or of a string that is not closed. -/
inductive Genuine (t : Token) : Prop
  | lexeme {text} (h : Lexeme t.kind text) (htext : t.lexeme = String.ofList text)
      (hvalue : t.value = Source.valueOf t.kind text)
  | openString {body} (hkind : t.kind = .string) (h : '"' ∉ body)
      (hvalue : t.value = .str (String.ofList body))

def ofText (text : String) : Token :=
  ⟨kindOf text.toList, text, 0, 0, Source.valueOf (kindOf text.toList) text.toList⟩

variable {t : Token}

theorem Genuine.exists_lexeme (h : t.Genuine) (hkind : t.kind ≠ .string) :
    ∃ text, Lexeme t.kind text ∧ t.lexeme = String.ofList text ∧
      t.value = Source.valueOf t.kind text := by
  cases h with
  | lexeme h htext hvalue => exact ⟨_, h, htext, hvalue⟩
  | openString => contradiction

theorem Genuine.erase_eq (h : t.Genuine) (hkind : t.kind ≠ .string) :
    Relabelling.erase t = ofText t.lexeme := by
  obtain ⟨text, hlexeme, htext, hvalue⟩ := h.exists_lexeme hkind
  rw [ofText, htext, String.toList_ofList, hlexeme.kindOf_eq hkind, ← hvalue, ← htext]
  rfl

theorem Genuine.lexeme_eq (h : t.Genuine) {text : List Char} (htext : Lexeme t.kind text)
    (hkind : t.kind ≠ .identifier) (hnumber : t.kind ≠ .number) (hstring : t.kind ≠ .string) :
    t.lexeme = String.ofList text := by
  obtain ⟨text', hlexeme, htext', -⟩ := h.exists_lexeme hstring
  rw [htext', hlexeme.unique htext hkind hnumber hstring]

end Token

namespace Scan

theorem genuine_add {s : Scan} {p : Source.Piece} {after : List Char}
    (hs : ∀ t ∈ s.tokens.toList, t.Genuine) (hp : Fits p after) :
    ∀ t ∈ (s.add p).tokens.toList, t.Genuine := by
  obtain ⟨category, text⟩ := p
  cases category with
  | blank | comment | stray => exact hs
  | lexeme kind =>
    obtain ⟨hkind, -⟩ := hp
    intro t ht
    simp only [add, emit, Array.toList_push, List.mem_append, List.mem_singleton] at ht
    rcases ht with ht | rfl
    · exact hs t ht
    · exact .lexeme hkind rfl rfl
  | openString =>
    obtain ⟨body, rfl, hbody, -⟩ := hp
    intro t ht
    simp only [add, emit, report, Array.toList_push, List.mem_append, List.mem_singleton] at ht
    rcases ht with ht | rfl
    · exact hs t ht
    · exact .openString rfl hbody rfl

theorem genuine_addAll {s : Scan} (hs : ∀ t ∈ s.tokens.toList, t.Genuine) (cs : List Char) :
    ∀ t ∈ (s.addAll cs).tokens.toList, t.Genuine := by
  induction cs using Source.pieces.induct generalizing s with
  | case1 =>
    rw [addAll]
    exact hs
  | case2 c rest _ ih =>
    rw [addAll]
    exact ih (genuine_add hs (split_fits c rest))

end Scan

theorem genuine_scan (index : Nat) (source : String) :
    ∀ t ∈ (scan index source).tokens.toList, t.Genuine :=
  Scan.genuine_addAll (fun _ ht => absurd ht List.not_mem_nil) source.toList

end Lox
