import Lox.Proofs.Lexical.Rescan
import Mathlib.Data.List.Forall2

/-!
Line numbers. Every piece of a source has a place in it, behind the text in front of the piece. A token has
the line on which its lexeme ends and a stray character the line on which it stands, and a line end counts
once, whatever piece it is in.
-/
namespace Lox

namespace Lexical

open Source

/-- A source cut into pieces, each of which fits where it stands. -/
inductive Cuts : List Char → List Piece → Prop
  | nil : Cuts [] []
  | cons {p rest ps} (hp : Fits p rest) (h : Cuts rest ps) : Cuts (p.text ++ rest) (p :: ps)

theorem cuts_pieces (cs : List Char) : Cuts cs (pieces cs) := by
  induction cs using pieces.induct with
  | case1 =>
    rw [pieces_nil]
    exact .nil
  | case2 c rest hle ih =>
    have hcons := Cuts.cons (split_fits c rest) ih
    rwa [split_fst_text, ← pieces_cons] at hcons

theorem Fits.ne_nil {p : Piece} {after : List Char} (h : Fits p after) : p.text ≠ [] := by
  obtain ⟨category, text⟩ := p
  cases category with
  | blank =>
    obtain ⟨c, -, rfl⟩ := h
    exact List.cons_ne_nil c []
  | comment =>
    obtain ⟨⟨body, rfl, -⟩, -⟩ := h
    exact List.cons_ne_nil _ _
  | stray c =>
    obtain ⟨rfl, -⟩ := h
    exact List.cons_ne_nil c []
  | lexeme kind => exact h.1.ne_nil
  | openString =>
    obtain ⟨body, rfl, -⟩ := h
    exact List.cons_ne_nil _ _

theorem Cuts.eq_nil {ps : List Piece} (h : Cuts [] ps) : ps = [] := by
  generalize hcs : ([] : List Char) = cs at h
  cases h with
  | nil => rfl
  | cons hp _ => exact absurd (List.nil_eq_append_iff.1 hcs).1 hp.ne_nil

structure Place where
  front : List Char
  piece : Piece

def places (front : List Char) : List Piece → List Place
  | [] => []
  | p :: ps => ⟨front, p⟩ :: places (front ++ p.text) ps

namespace Place

/-- Something is found at the place that counts as a token. -/
def hasToken (place : Place) : Bool := place.piece.token?.isSome

def hasError (place : Place) : Bool :=
  match place.piece.category with
  | .stray _ | .openString => true
  | .blank | .comment | .lexeme _ => false

/-- The token of the piece, on the line on which the piece ends. -/
def Bears (place : Place) (t : Token) : Prop :=
  place.piece.token? = some (Relabelling.erase t) ∧
    t.line = 1 + (place.front ++ place.piece.text).count '\n'

/-- The error of the piece: a stray character on its own line, or a string that is open at the end of the
source, on the last line. -/
def Shows (source : List Char) (place : Place) : LexicalError → Prop
  | .unexpectedCharacter c line =>
    place.piece = ⟨.stray c, [c]⟩ ∧ line = 1 + place.front.count '\n'
  | .unterminatedString line =>
    place.piece.category = .openString ∧ line = 1 + source.count '\n'

end Place

section Add

variable {front : List Char} {s : Scan} {p : Piece}

theorem line_add_of_line (h : s.line = 1 + front.count '\n') :
    (s.add p).line = 1 + (front ++ p.text).count '\n' := by
  rw [Scan.line_add, h, List.count_append, Nat.add_assoc]

theorem bears_add (h : s.line = 1 + front.count '\n') :
    ∃ ts, (s.add p).tokens.toList = s.tokens.toList ++ ts ∧
      List.Forall₂ Place.Bears ([⟨front, p⟩].filter Place.hasToken) ts := by
  have hline : s.line + p.text.count '\n' = 1 + (front ++ p.text).count '\n' := by
    rw [h, List.count_append, Nat.add_assoc]
  obtain ⟨category, text⟩ := p
  cases category with
  | blank | comment | stray _ => exact ⟨[], (List.append_nil _).symm, .nil⟩
  | lexeme kind =>
    refine ⟨[⟨kind, String.ofList text, _, s.index, valueOf kind text⟩], Array.toList_push, ?_⟩
    exact .cons ⟨rfl, hline⟩ .nil
  | openString =>
    refine ⟨[⟨.string, String.ofList text, _, s.index, .str (String.ofList (text.drop 1))⟩],
      Array.toList_push, ?_⟩
    exact .cons ⟨rfl, hline⟩ .nil

theorem shows_add {rest : List Char} (h : s.line = 1 + front.count '\n') (hp : Fits p rest) :
    ∃ es, (s.add p).errors.toList = s.errors.toList ++ es ∧
      List.Forall₂ (Place.Shows (front ++ (p.text ++ rest))) ([⟨front, p⟩].filter Place.hasError) es := by
  obtain ⟨category, text⟩ := p
  cases category with
  | blank | comment | lexeme _ => exact ⟨[], (List.append_nil _).symm, .nil⟩
  | stray c =>
    obtain ⟨rfl, hblank, -⟩ := hp
    -- A line end is a blank, so the character is none.
    have hcount : [c].count '\n' = 0 := by
      rw [List.count_eq_zero]
      intro hmem
      apply hblank
      rw [← List.mem_singleton.1 hmem]
      decide
    refine ⟨[.unexpectedCharacter c (s.line + [c].count '\n')], Array.toList_push, ?_⟩
    exact .cons ⟨rfl, by rw [hcount, h, Nat.add_zero]⟩ .nil
  | openString =>
    obtain ⟨body, rfl, -, rfl⟩ := hp
    refine ⟨[.unterminatedString (s.line + ('"' :: body).count '\n')], Array.toList_push, ?_⟩
    refine .cons ⟨rfl, ?_⟩ .nil
    rw [h, List.append_nil, List.count_append, Nat.add_assoc]

end Add

section Fold

variable {cs : List Char} {ps : List Piece}

theorem bears_foldl (ps : List Piece) {front : List Char} {s : Scan} (h : s.line = 1 + front.count '\n') :
    ∃ ts, (ps.foldl Scan.add s).tokens.toList = s.tokens.toList ++ ts ∧
      List.Forall₂ Place.Bears ((places front ps).filter Place.hasToken) ts := by
  induction ps generalizing front s with
  | nil => exact ⟨[], (List.append_nil _).symm, .nil⟩
  | cons p ps ih =>
    obtain ⟨first, hadd, hfirst⟩ := bears_add (p := p) h
    obtain ⟨later, hfold, hlater⟩ := ih (line_add_of_line (p := p) h)
    refine ⟨first ++ later, ?_, ?_⟩
    · rw [List.foldl_cons, hfold, hadd, List.append_assoc]
    · rw [places, ← List.singleton_append, List.filter_append]
      exact List.rel_append hfirst hlater

theorem Cuts.shows_foldl (hcuts : Cuts cs ps) {front : List Char} {s : Scan}
    (h : s.line = 1 + front.count '\n') :
    ∃ es, (ps.foldl Scan.add s).errors.toList = s.errors.toList ++ es ∧
      List.Forall₂ (Place.Shows (front ++ cs)) ((places front ps).filter Place.hasError) es := by
  induction hcuts generalizing front s with
  | nil => exact ⟨[], (List.append_nil _).symm, .nil⟩
  | @cons p rest ps hp _ ih =>
    obtain ⟨first, hadd, hfirst⟩ := shows_add h hp
    obtain ⟨later, hfold, hlater⟩ := ih (line_add_of_line (p := p) h)
    refine ⟨first ++ later, ?_, ?_⟩
    · rw [List.foldl_cons, hfold, hadd, List.append_assoc]
    · rw [places, ← List.singleton_append, List.filter_append]
      rw [List.append_assoc] at hlater
      exact List.rel_append hfirst hlater

theorem prefix_of_mem_places {front : List Char} {place : Place} (h : place ∈ places front ps) :
    front <+: place.front := by
  induction ps generalizing front with
  | nil => contradiction
  | cons p ps ih =>
    rcases List.mem_cons.1 h with rfl | h
    · exact List.prefix_rfl
    · exact (List.prefix_append front p.text).trans (ih h)

theorem Cuts.prefix_of_mem (hcuts : Cuts cs ps) {front : List Char} {place : Place}
    (h : place ∈ places front ps) : place.front <+: front ++ cs := by
  induction hcuts generalizing front with
  | nil => contradiction
  | @cons p rest ps _ _ ih =>
    rcases List.mem_cons.1 h with rfl | h
    · exact List.prefix_append ..
    · rw [← List.append_assoc]
      exact ih h

/-- Places stand in order, and only the last one may be that of an open string. -/
theorem Cuts.pairwise_places (hcuts : Cuts cs ps) (front : List Char) :
    (places front ps).Pairwise fun place place' => place.front <+: place'.front ∧
      place'.front <+: front ++ cs ∧ place.piece.category ≠ .openString := by
  induction hcuts generalizing front with
  | nil => exact .nil
  | @cons p rest ps hp hcuts ih =>
    have hlater := ih (front ++ p.text)
    rw [List.append_assoc] at hlater
    refine .cons (fun place hplace => ⟨?_, ?_, ?_⟩) hlater
    · exact (List.prefix_append front p.text).trans (prefix_of_mem_places hplace)
    · exact (hcuts.cons hp).prefix_of_mem (List.mem_cons_of_mem _ hplace)
    · intro hopen
      unfold Fits at hp
      rw [show p.category = .openString from hopen] at hp
      obtain ⟨_, -, -, rfl⟩ := hp
      rw [hcuts.eq_nil] at hplace
      contradiction

end Fold

/-- An error with another one behind it is a stray character, and the other is on no earlier line. -/
theorem Place.Shows.before {source : List Char} {place place' : Place} {e e' : LexicalError}
    (h : place.Shows source e) (h' : place'.Shows source e') (hfront : place.front <+: place'.front)
    (hsource : place'.front <+: source) (hclosed : place.piece.category ≠ .openString) :
    e.line ≤ e'.line ∧ ∃ c line, e = .unexpectedCharacter c line := by
  have hcount := hfront.sublist.count_le '\n'
  have hcount' := hsource.sublist.count_le '\n'
  cases e with
  | unterminatedString line => exact absurd h.1 hclosed
  | unexpectedCharacter c line =>
    refine ⟨?_, c, line, rfl⟩
    have hline := h.2
    cases e' with
    | unexpectedCharacter c' line' =>
      have hline' := h'.2
      change line ≤ line'
      omega
    | unterminatedString line' =>
      have hline' := h'.2
      change line ≤ line'
      omega

theorem pairwise_errors {source : List Char} {ps : List Piece} {es : List LexicalError}
    (hcuts : Cuts source ps)
    (h : List.Forall₂ (Place.Shows source) ((places [] ps).filter Place.hasError) es) :
    es.Pairwise fun e e' => e.line ≤ e'.line ∧ ∃ c line, e = .unexpectedCharacter c line := by
  have hplaces := (hcuts.pairwise_places []).filter Place.hasError
  rw [List.pairwise_iff_getElem] at hplaces ⊢
  intro i j hi hj hlt
  have hi' := h.length_eq ▸ hi
  have hj' := h.length_eq ▸ hj
  obtain ⟨hfront, hsource, hclosed⟩ := hplaces i j hi' hj' hlt
  exact (h.get hi' hi).before (h.get hj' hj) hfront hsource hclosed

end Lexical

open Lexical

/-- The line of a token is one more than the line ends up to the end of its lexeme, the line of the end one
more than all line ends, and the line of a stray character one more than the line ends in front of it. The
errors stand in the order of the source, on lines that do not decrease. Only the last one may be an open
string, which has the line of the end. -/
theorem scan_line_numbers (index : Nat) (source : String) :
    let scanned := scan index source
    ∃ ps, Cuts source.toList ps ∧
      List.Forall₂ Place.Bears ((places [] ps).filter Place.hasToken) scanned.tokens.toList ∧
      scanned.finish.line = 1 + source.toList.count '\n' ∧
      List.Forall₂ (Place.Shows source.toList) ((places [] ps).filter Place.hasError)
        scanned.errors.toList ∧
      scanned.errors.toList.Pairwise fun e e' =>
        e.line ≤ e'.line ∧ ∃ c line, e = .unexpectedCharacter c line := by
  intro scanned
  have hcuts := cuts_pieces source.toList
  have hstart : (Scan.start index).line = 1 + ([] : List Char).count '\n' := rfl
  obtain ⟨ts, htokens, hbears⟩ := bears_foldl (Source.pieces source.toList) hstart
  obtain ⟨es, herrors, hshows⟩ := hcuts.shows_foldl hstart
  rw [← scan_eq_foldl] at htokens herrors
  have htokens' : scanned.tokens.toList = ts := htokens
  have herrors' : scanned.errors.toList = es := herrors
  rw [htokens', herrors']
  exact ⟨_, hcuts, hbears, scan_line index source, hshows, pairwise_errors hcuts hshows⟩

example :
    let scanned := scan 0 "\"a\nb\" // \"\n@ c\n# \"\n"
    scanned.tokens.toList.map Token.line = [2, 3, 5] ∧ scanned.finish.line = 5 ∧
      scanned.errors.toList = [.unexpectedCharacter '@' 3, .unexpectedCharacter '#' 4,
        .unterminatedString 5] := by
  decide +kernel

end Lox
