import Lox.Proofs.Lexical.Genuine
import Mathlib.Data.List.Basic

/-!
Lexemes alone. A lexeme that stands alone is scanned as itself, and spaces keep lexemes apart. So the
lexemes of a source with spaces between them give the tokens of the source again, without its errors.
-/
namespace Lox

namespace Source.Piece

def isLexeme (p : Piece) : Bool :=
  match p.category with
  | .lexeme _ => true
  | _ => false

/-- The token of a piece, but for where it stands. -/
def token? (p : Piece) : Option Token :=
  match p.category with
  | .lexeme kind => some ⟨kind, String.ofList p.text, 0, 0, valueOf kind p.text⟩
  | .openString => some ⟨.string, String.ofList p.text, 0, 0, .str (String.ofList (p.text.drop 1))⟩
  | _ => none

variable {p : Piece}

theorem exists_category (h : p.isLexeme = true) : ∃ kind, p.category = .lexeme kind := by
  unfold isLexeme at h
  split at h
  · exact ⟨_, ‹_›⟩
  · contradiction

theorem exists_token (h : p.isLexeme = true) : ∃ t, p.token? = some t ∧ t.lexeme = String.ofList p.text := by
  obtain ⟨kind, hkind⟩ := p.exists_category h
  unfold token?
  rw [hkind]
  exact ⟨_, rfl, rfl⟩

theorem token?_eq_none (hopen : p.category ≠ .openString) (h : p.isLexeme = false) : p.token? = none := by
  unfold isLexeme at h
  unfold token?
  cases hcategory : p.category <;> simp_all

end Source.Piece

def Source.lexemes (cs : List Char) : List Source.Piece :=
  (Source.pieces cs).filter Source.Piece.isLexeme

namespace Lexical

open Source

theorem not_lexeme_blank {kind : Kind} {c : Char} {cs : List Char} (hc : c ∈ blanks) :
    ¬ Lexeme kind (c :: cs) := by
  simp only [blanks, List.mem_cons, List.not_mem_nil, or_false] at hc
  intro h
  rcases hc with rfl | rfl | rfl | rfl
  all_goals
    cases h.shape rfl with
    | operator h => simp [operators] at h
    | whole hc _ | decimal hc _ _ _ | string _ hc _ _ | word hc _ => contradiction

theorem not_lexeme_comment {kind : Kind} {body : List Char} : ¬ Lexeme kind ('/' :: '/' :: body) := by
  intro h
  cases h.shape rfl with
  | operator h => simp [operators] at h
  | whole hc _ | decimal hc _ _ _ | string _ hc _ _ | word hc _ => contradiction

theorem not_lexeme_openString {kind : Kind} {body : List Char} (hbody : '"' ∉ body) :
    ¬ Lexeme kind ('"' :: body) := by
  intro h
  cases h.shape rfl with
  | operator h => exact (operator_starts _ h '"' rfl).2.2 rfl
  | whole hc _ | decimal hc _ _ _ | word hc _ => contradiction
  | string _ _ hcs _ =>
    apply hbody
    rw [hcs]
    simp

theorem Lexeme.eq_string {kind : Kind} {body : List Char} (h : Lexeme kind ('"' :: body)) :
    kind = .string := by
  cases h.shape rfl with
  | operator h => exact absurd rfl (operator_starts _ h '"' rfl).2.2
  | whole hc _ | decimal hc _ _ _ | word hc _ => contradiction
  | string hkind _ _ _ => exact hkind

theorem Lexeme.exists_string {text : List Char} (h : Lexeme .string text) :
    ∃ body, text = '"' :: body := by
  have hoperators : ∀ entry ∈ operators, entry.2 ≠ .string := by decide
  have hkeywords : ∀ entry ∈ keywords, entry.2 ≠ .string := by decide
  cases h with
  | operator h => exact absurd rfl (hoperators _ h)
  | string _ => exact ⟨_, rfl⟩
  | keyword h => exact absurd rfl (hkeywords _ h)

theorem Lexeme.kind_unique {kind kind' : Kind} {text : List Char} (h : Lexeme kind text)
    (h' : Lexeme kind' text) : kind = kind' := by
  by_cases hkind : kind = .string
  · subst hkind
    obtain ⟨body, rfl⟩ := h.exists_string
    exact h'.eq_string.symm
  · by_cases hkind' : kind' = .string
    · subst hkind'
      obtain ⟨body, rfl⟩ := h'.exists_string
      exact h.eq_string
    · rw [← h.kindOf_eq hkind, h'.kindOf_eq hkind']

theorem pieces_lexeme {kind : Kind} {text : List Char} (h : Lexeme kind text) :
    pieces text = [⟨.lexeme kind, text⟩] := by
  obtain ⟨c, cs, rfl⟩ := List.exists_cons_of_ne_nil h.ne_nil
  have hfits := split_fits c cs
  have htext := split_fst_text c cs
  rw [pieces_cons]
  generalize split c cs = cut at hfits htext
  obtain ⟨⟨category, taken⟩, after⟩ := cut
  dsimp only at htext ⊢
  cases category with
  | blank =>
    obtain ⟨d, hd, rfl⟩ := hfits
    cases htext
    exact absurd h (not_lexeme_blank hd)
  | comment =>
    obtain ⟨⟨body, rfl, -⟩, -⟩ := hfits
    cases htext
    exact absurd h not_lexeme_comment
  | stray d =>
    obtain ⟨rfl, -, hstray⟩ := hfits
    cases htext
    exact absurd h (hstray kind after)
  | openString =>
    obtain ⟨body, rfl, hbody, rfl⟩ := hfits
    rw [List.append_nil] at htext
    cases htext
    exact absurd h (not_lexeme_openString hbody)
  | lexeme kind' =>
    -- No lexeme is longer at the place, and this one takes all there is.
    obtain ⟨hlexeme, hlongest⟩ := hfits
    have hle := hlongest (c :: cs) (htext ▸ List.prefix_rfl) (.inr ⟨kind, h⟩)
    dsimp only at hle
    rw [← htext, List.length_append] at hle
    have hafter : after = [] := List.length_eq_zero_iff.1 (by omega)
    subst hafter
    rw [List.append_nil] at htext
    subst htext
    rw [h.kind_unique hlexeme, pieces_nil]

theorem exists_fits {p : Piece} {cs : List Char} (h : p ∈ pieces cs) : ∃ after, Fits p after := by
  induction cs using pieces.induct with
  | case1 => simp at h
  | case2 c rest hle ih =>
    rw [pieces_cons] at h
    rcases List.mem_cons.1 h with rfl | h
    · exact ⟨_, split_fits c rest⟩
    · exact ih h

def gap : Piece := ⟨.blank, [' ']⟩

theorem pieces_intercalate {ps : List Piece}
    (h : ∀ p ∈ ps, ∃ kind, p.category = .lexeme kind ∧ Lexeme kind p.text) :
    pieces ([' '].intercalate (ps.map Piece.text)) = ps.intersperse gap := by
  induction ps with
  | nil => simp
  | cons p ps ih =>
    obtain ⟨hp, hps⟩ := List.forall_mem_cons.1 h
    obtain ⟨kind, hcategory, hlexeme⟩ := hp
    have hpiece : pieces p.text = [p] := by
      rw [pieces_lexeme hlexeme, ← hcategory]
    cases ps with
    | nil => simpa using hpiece
    | cons q ps =>
      rw [← List.append_nil [p]] at hpiece
      have hcut := pieces_behind (b := ' ') ([' '].intercalate ((q :: ps).map Piece.text)) hpiece
        (by simp [hcategory]) rfl (by simp [hcategory])
      rw [ih hps] at hcut
      simpa [gap] using hcut

theorem tokens_foldl (s : Scan) (ps : List Piece) :
    (ps.foldl Scan.add s).tokens.toList.map Relabelling.erase =
      s.tokens.toList.map Relabelling.erase ++ ps.filterMap Piece.token? := by
  induction ps generalizing s with
  | nil => simp
  | cons p ps ih =>
    have hadd : (s.add p).tokens.toList.map Relabelling.erase =
        s.tokens.toList.map Relabelling.erase ++ p.token?.toList := by
      unfold Scan.add Piece.token?
      cases p.category <;> simp [Scan.emit, Scan.report, Relabelling.apply, Relabelling.erase]
    rw [List.foldl_cons, ih, hadd, List.append_assoc]
    cases htoken : p.token? <;> simp [htoken]

theorem tokens_scan (index : Nat) (source : String) :
    (scan index source).tokens.toList.map Relabelling.erase =
      (pieces source.toList).filterMap Piece.token? := by
  rw [scan_eq_foldl, tokens_foldl]
  rfl

theorem errors_foldl {s : Scan} {ps : List Piece}
    (h : ∀ p ∈ ps, p.category = .blank ∨ ∃ kind, p.category = .lexeme kind) :
    (ps.foldl Scan.add s).errors = s.errors := by
  induction ps generalizing s with
  | nil => rfl
  | cons p ps ih =>
    obtain ⟨hp, hps⟩ := List.forall_mem_cons.1 h
    rw [List.foldl_cons, ih hps]
    unfold Scan.add
    rcases hp with hp | ⟨kind, hp⟩ <;> simp [hp, Scan.emit]

theorem filterMap_intersperse (ps : List Piece) :
    (ps.intersperse gap).filterMap Piece.token? = ps.filterMap Piece.token? := by
  induction ps with
  | nil => rfl
  | cons p ps ih =>
    cases ps with
    | nil => rfl
    | cons q ps =>
      have hgap : gap.token? = none := rfl
      rw [List.intersperse_cons_cons, List.filterMap_cons, List.filterMap_cons, List.filterMap_cons,
        hgap, ih]

theorem mem_intersperse {p : Piece} {ps : List Piece} (h : p ∈ ps.intersperse gap) :
    p = gap ∨ p ∈ ps := by
  induction ps with
  | nil => simp at h
  | cons q ps ih =>
    cases ps with
    | nil => exact .inr (by simpa using h)
    | cons r ps =>
      rw [List.intersperse_cons_cons] at h
      rcases List.mem_cons.1 h with rfl | h
      · exact .inr List.mem_cons_self
      rcases List.mem_cons.1 h with rfl | h
      · exact .inl rfl
      · exact (ih h).imp_right (List.mem_cons_of_mem q)

theorem lexemes_filterMap {ps : List Piece} (h : ∀ p ∈ ps, p.isLexeme = true) :
    (ps.filterMap Piece.token?).map Token.lexeme = ps.map (String.ofList ·.text) := by
  induction ps with
  | nil => rfl
  | cons p ps ih =>
    obtain ⟨hp, hps⟩ := List.forall_mem_cons.1 h
    obtain ⟨t, htoken, hlexeme⟩ := p.exists_token hp
    rw [List.filterMap_cons_some htoken, List.map_cons, List.map_cons, hlexeme, ih hps]

theorem isLexeme_of_mem {p : Piece} {cs : List Char} (h : p ∈ lexemes cs) : p.isLexeme = true :=
  (List.mem_filter.1 h).2

theorem exists_lexeme_of_mem {p : Piece} {cs : List Char} (h : p ∈ lexemes cs) :
    ∃ kind, p.category = .lexeme kind ∧ Lexeme kind p.text := by
  obtain ⟨kind, hkind⟩ := p.exists_category (isLexeme_of_mem h)
  obtain ⟨after, hfits⟩ := exists_fits (List.mem_filter.1 h).1
  unfold Fits at hfits
  rw [hkind] at hfits
  exact ⟨kind, hkind, hfits.1⟩

theorem tokens_lexemes (index : Nat) {source : String}
    (h : ∀ p ∈ pieces source.toList, p.category ≠ .openString) :
    (scan index source).tokens.toList.map Relabelling.erase =
      (lexemes source.toList).filterMap Piece.token? := by
  rw [tokens_scan, lexemes, List.filterMap_filter]
  apply List.filterMap_congr
  intro p hp
  cases hlexeme : p.isLexeme with
  | true => rfl
  | false => exact p.token?_eq_none (h p hp) hlexeme

end Lexical

open Source Lexical

def Site.erase : Site → Site
  | token t => token (Relabelling.erase t)
  | finish _ => finish ⟨0, 0⟩

theorem Scan.stream_erase {s t : Scan}
    (h : s.tokens.toList.map Relabelling.erase = t.tokens.toList.map Relabelling.erase) :
    s.stream.map Site.erase = t.stream.map Site.erase := by
  have hstream : ∀ r : Scan, r.stream.map Site.erase =
      (r.tokens.toList.map Relabelling.erase).map .token ++ [.finish ⟨0, 0⟩] := by
    intro r
    simp [stream, Site.erase]
  rw [hstream, hstream, h]

/-- The lexemes of a source, with spaces between them, are scanned without an error, and as the tokens that
they are of. -/
theorem scan_lexemes {index : Nat} {source : String}
    (h : ∀ line, .unterminatedString line ∉ (scan index source).errors.toList) (index' : Nat) :
    let texts := (scan index source).tokens.toList.map Token.lexeme
    let again := scan index' (" ".intercalate texts)
    again.errors = #[] ∧ again.stream.map Site.erase = (scan index source).stream.map Site.erase := by
  intro texts again
  have htokens := tokens_lexemes index (not_openString_of_scan h)
  have htexts : texts = (lexemes source.toList).map (String.ofList ·.text) := by
    rw [← lexemes_filterMap fun p hp => isLexeme_of_mem hp, ← htokens, List.map_map]
    rfl
  -- Nothing is between the lexemes but the spaces, and none of them runs into the next.
  have hpieces : pieces (" ".intercalate texts).toList = (lexemes source.toList).intersperse gap := by
    rw [← pieces_intercalate fun p hp => exists_lexeme_of_mem hp, htexts, String.toList_intercalate,
      List.map_map]
    simp [Function.comp_def]
  constructor
  · have herrors : again.errors = (Scan.start index').errors := by
      unfold again
      rw [scan_eq_foldl, hpieces]
      apply errors_foldl
      intro p hp
      rcases mem_intersperse hp with rfl | hp
      · exact .inl rfl
      · obtain ⟨kind, hkind, -⟩ := exists_lexeme_of_mem hp
        exact .inr ⟨kind, hkind⟩
    exact herrors
  · apply Scan.stream_erase
    rw [htokens, tokens_scan, hpieces, filterMap_intersperse]

/-- Two slashes stay apart, and so do two equals signs and a number with a point behind it. -/
theorem scan_lexemes_apart :
    let source := "1./ /=\n=@"
    let again := scan 5 "1 . / / = ="
    (∀ line, .unterminatedString line ∉ (scan 0 source).errors.toList) ∧
      " ".intercalate ((scan 0 source).tokens.toList.map Token.lexeme) = "1 . / / = =" ∧
      again.errors = #[] ∧ again.stream.map Site.erase = (scan 0 source).stream.map Site.erase := by
  intro source again
  have hclosed : ∀ line, LexicalError.unterminatedString line ∉ (scan 0 source).errors.toList := by
    have herrors : (scan 0 source).errors.toList = [.unexpectedCharacter '@' 2] := by decide +kernel
    simp [herrors]
  have htext : " ".intercalate ((scan 0 source).tokens.toList.map Token.lexeme) = "1 . / / = =" := by
    decide +kernel
  have hagain := scan_lexemes hclosed 5
  dsimp only at hagain
  rw [htext] at hagain
  exact ⟨hclosed, htext, hagain⟩

end Lox
