import Lox.Source

/-!
The lexical grammar of Lox, apart from any way to scan. A lexeme is an operator, a number, a string or a
word. `Lexed` cuts a source into lexemes, each the longest at its place, and into what stands between
them: blanks, comments and characters that start nothing.
-/
namespace Lox.Lexical

open Source

def blanks : List Char := [' ', '\t', '\r', '\n']

def operators : List (List Char × Kind) :=
  [(['('], .leftParen), ([')'], .rightParen), (['\x7b'], .leftBrace), (['\x7d'], .rightBrace),
    ([','], .comma), (['.'], .dot), (['-'], .minus), (['+'], .plus), ([';'], .semicolon),
    (['/'], .slash), (['*'], .star), (['!'], .bang), (['!', '='], .bangEqual), (['='], .equal),
    (['=', '='], .equalEqual), (['>'], .greater), (['>', '='], .greaterEqual), (['<'], .less),
    (['<', '='], .lessEqual)]

def Digits (cs : List Char) : Prop := cs ≠ [] ∧ ∀ c ∈ cs, c.isDigit = true

inductive Lexeme : Kind → List Char → Prop
  | operator {text kind} (h : (text, kind) ∈ operators) : Lexeme kind text
  | whole {ds} (h : Digits ds) : Lexeme .number ds
  | decimal {ds fs} (h : Digits ds) (hfraction : Digits fs) : Lexeme .number (ds ++ '.' :: fs)
  | string {body} (h : '"' ∉ body) : Lexeme .string ('"' :: (body ++ ['"']))
  | keyword {word kind} (h : (word, kind) ∈ keywords) : Lexeme kind word.toList
  | identifier {c cs} (hstart : isWordStart c = true) (hparts : ∀ d ∈ cs, isWordPart d = true)
      (h : ∀ kind, (String.ofList (c :: cs), kind) ∉ keywords) : Lexeme .identifier (c :: cs)

def Comment (text : List Char) : Prop := ∃ body, text = '/' :: '/' :: body ∧ '\n' ∉ body

/-- Neither a lexeme nor a comment at the same place is longer. -/
def Longest (text after : List Char) : Prop :=
  ∀ other, other <+: text ++ after → (Comment other ∨ ∃ kind, Lexeme kind other) →
    other.length ≤ text.length

/-- A source with the tokens and the errors in it. Lines, indices and the values of constants other than
strings are left open. -/
inductive Lexed : List Char → List Token → List LexicalError → Prop
  | nil : Lexed [] [] []
  | blank {c rest ts es} (hc : c ∈ blanks) (h : Lexed rest ts es) : Lexed (c :: rest) ts es
  /-- A comment ends in front of a line end. -/
  | comment {text rest ts es} (htext : Comment text) (hrest : ∀ c ∈ rest.head?, c = '\n')
      (h : Lexed rest ts es) : Lexed (text ++ rest) ts es
  | stray {c rest ts es line} (hblank : c ∉ blanks) (hc : ∀ kind text, ¬ Lexeme kind (c :: text))
      (h : Lexed rest ts es) : Lexed (c :: rest) ts (.unexpectedCharacter c line :: es)
  | lexeme {t text rest ts es} (hkind : Lexeme t.kind text) (htext : t.lexeme = String.ofList text)
      (hvalue : ∀ body, text = '"' :: (body ++ ['"']) → t.value = .str (String.ofList body))
      (hlongest : Longest text rest) (h : Lexed rest ts es) : Lexed (text ++ rest) (t :: ts) es
  /-- A string that is not closed takes the rest of the source. -/
  | openString {t body line} (hbody : '"' ∉ body) (hkind : t.kind = .string)
      (htext : t.lexeme = String.ofList ('"' :: body)) (hvalue : t.value = .str (String.ofList body)) :
      Lexed ('"' :: body) [t] [.unterminatedString line]

theorem operator_starts : ∀ entry ∈ operators, ∀ c ∈ entry.1.head?,
    c.isDigit = false ∧ isWordStart c = false ∧ c ≠ '"' := by
  have hall : operators.all (fun entry => entry.1.head?.all
      fun c => !c.isDigit && (!isWordStart c && c != '"')) = true := by decide
  simpa [Option.all_eq_true] using hall

theorem keyword_parts : ∀ entry ∈ keywords,
    (∀ c ∈ entry.1.toList.head?, isWordStart c = true) ∧
      ∀ c ∈ entry.1.toList, isWordPart c = true := by
  have hall : keywords.all (fun entry => entry.1.toList.head?.all isWordStart &&
      entry.1.toList.all isWordPart) = true := by decide
  simpa [Option.all_eq_true] using hall

theorem isWordStart_of_digit {c : Char} (h : c.isDigit = true) : isWordStart c = false := by
  have hdigit : 48 ≤ c.val ∧ c.val ≤ 57 := by
    simpa using (show (decide (c.val ≥ 48) && decide (c.val ≤ 57)) = true from h)
  have hstart : isWordStart c = ((decide (c.val ≥ 65 ∧ c.val ≤ 90) ||
      decide (c.val ≥ 97) && decide (c.val ≤ 122)) || decide (c = '_')) := rfl
  have hne : c ≠ '_' := by
    rintro rfl
    contradiction
  rw [hstart, decide_eq_false hne]
  simp [UInt32.le_iff_toNat_le] at *
  omega

/-- The first character of a lexeme tells what the others may be. -/
inductive Shape (kind : Kind) (c : Char) (cs : List Char) : Prop
  | operator (h : (c :: cs, kind) ∈ operators)
  | whole (hc : c.isDigit = true) (h : ∀ d ∈ cs, d.isDigit = true)
  | decimal {ds fs} (hc : c.isDigit = true) (hcs : cs = ds ++ '.' :: fs)
      (h : ∀ d ∈ ds, d.isDigit = true) (hfraction : Digits fs)
  | string {body} (hkind : kind = .string) (hc : c = '"') (hcs : cs = body ++ ['"']) (h : '"' ∉ body)
  | word (hc : isWordStart c = true) (h : ∀ d ∈ cs, isWordPart d = true)

theorem Lexeme.shape {kind : Kind} {text : List Char} (h : Lexeme kind text) {c : Char}
    {cs : List Char} (htext : text = c :: cs) : Shape kind c cs := by
  cases h with
  | operator h => exact .operator (htext ▸ h)
  | whole h =>
    subst htext
    exact .whole (h.2 c (List.mem_cons_self ..)) fun d hd => h.2 d (List.mem_cons_of_mem c hd)
  | @decimal ds fs h hfraction =>
    cases ds with
    | nil => exact absurd rfl h.1
    | cons d ds =>
      cases htext
      exact .decimal (h.2 c (List.mem_cons_self ..)) rfl
        (fun d hd => h.2 d (List.mem_cons_of_mem c hd)) hfraction
  | string h =>
    cases htext
    exact .string rfl rfl rfl h
  | keyword h =>
    obtain ⟨hstart, hparts⟩ := keyword_parts _ h
    rw [htext] at hstart hparts
    exact .word (hstart c rfl) fun d hd => hparts d (List.mem_cons_of_mem c hd)
  | identifier hstart hparts _ =>
    cases htext
    exact .word hstart hparts

theorem Lexeme.ne_nil {kind : Kind} {text : List Char} (h : Lexeme kind text) : text ≠ [] := by
  have hoperators : ∀ entry ∈ operators, entry.1 ≠ [] := by decide
  have hkeywords : ∀ entry ∈ keywords, entry.1.toList ≠ [] := by decide
  cases h with
  | operator h => exact hoperators _ h
  | whole h => exact h.1
  | decimal | string | identifier => simp
  | keyword h => exact hkeywords _ h

end Lox.Lexical

namespace Lox

theorem Kind.mem_keywords_of_ofWord {word : String} {kind : Kind} (h : Kind.ofWord word = kind)
    (hkind : kind ≠ .identifier) : (word, kind) ∈ keywords := by
  unfold Kind.ofWord at h
  cases hlookup : keywords.lookup word with
  | none =>
    rw [hlookup] at h
    exact absurd h.symm hkind
  | some found =>
    rw [hlookup] at h
    cases h
    obtain ⟨front, back, happend, -⟩ := List.lookup_eq_some_iff.1 hlookup
    rw [happend]
    simp

theorem Kind.ofWord_eq_identifier {word : String} (h : Kind.ofWord word = .identifier) (kind : Kind) :
    (word, kind) ∉ keywords := by
  have hkinds : ∀ entry ∈ keywords, entry.2 ≠ .identifier := by decide
  intro hmem
  unfold Kind.ofWord at h
  cases hlookup : keywords.lookup word with
  | none => simpa using List.lookup_eq_none_iff.1 hlookup _ hmem
  | some found =>
    rw [hlookup] at h
    obtain ⟨front, back, happend, -⟩ := List.lookup_eq_some_iff.1 hlookup
    exact hkinds (word, found) (by rw [happend]; simp) h

end Lox
