import Lox.Proofs.Lexical.Lossless
import Mathlib.Data.List.Forall2

/-!
Text put in beside lexemes. A blank, or a space with a comment behind it, that is put in where a lexeme
begins or ends leaves all the pieces around it as they are. So a scan finds the same tokens and the same
errors, from there on as many lines below as the text has line ends.
-/
namespace Lox

namespace Lexical

open Source

/-- A blank, or a space and a comment up to and with its line end. -/
inductive Filler : List Char → Prop
  | blank {c} (hc : c ∈ blanks) : Filler [c]
  | comment {body} (h : '\n' ∉ body) : Filler (' ' :: '/' :: '/' :: (body ++ ['\n']))

/-- A source in two parts. The second begins with a lexeme, or the first ends with one. -/
inductive Parted (source : List Char) : List Char → List Char → Prop
  | before {ps kind text qs} (h : pieces source = ps ++ ⟨.lexeme kind, text⟩ :: qs) :
      Parted source (ps.flatMap Piece.text) (text ++ qs.flatMap Piece.text)
  | behind {ps kind text qs} (h : pieces source = ps ++ ⟨.lexeme kind, text⟩ :: qs) :
      Parted source (ps.flatMap Piece.text ++ text) (qs.flatMap Piece.text)

variable {cs front back text : List Char} {ps qs : List Piece}

theorem pieces_suffix (h : pieces cs = ps ++ qs) : pieces (qs.flatMap Piece.text) = qs := by
  induction ps generalizing cs with
  | nil =>
    rw [List.nil_append] at h
    rw [← h, flatMap_pieces]
  | cons p ps ih =>
    cases cs with
    | nil =>
      rw [pieces_nil] at h
      contradiction
    | cons c rest =>
      rw [pieces_cons, List.cons_append] at h
      exact ih (List.cons_eq_cons.1 h).2

theorem not_comment_of_lexeme {kind : Kind} (h : pieces cs = ps ++ ⟨.lexeme kind, text⟩ :: qs) :
    ∀ p ∈ ps.getLast?, p.category ≠ .comment := by
  induction ps generalizing cs with
  | nil => simp
  | cons p ps ih =>
    cases cs with
    | nil =>
      rw [pieces_nil] at h
      contradiction
    | cons c rest =>
      rw [pieces_cons, List.cons_append] at h
      obtain ⟨rfl, hrest⟩ := List.cons_eq_cons.1 h
      cases ps with
      | cons q ps => exact ih hrest
      | nil =>
        rintro p ⟨⟩ hcomment
        have hfits := split_fits c rest
        generalize split c rest = cut at hrest hcomment hfits
        obtain ⟨⟨category, taken⟩, after⟩ := cut
        dsimp only at hrest hcomment hfits
        subst hcomment
        cases after with
        | nil =>
          rw [pieces_nil] at hrest
          contradiction
        | cons d after =>
          have hd : d = '\n' := hfits.2 d rfl
          rw [hd, pieces_cons, List.nil_append] at hrest
          have hcategory := congrArg Piece.category (List.cons_eq_cons.1 hrest).1
          contradiction

theorem Parted.exists_pieces (h : Parted cs front back) : ∃ ps qs, pieces cs = ps ++ qs ∧
    front = ps.flatMap Piece.text ∧ back = qs.flatMap Piece.text ∧
    ∀ p ∈ ps.getLast?, p.category ≠ .comment := by
  cases h with
  | before h => exact ⟨_, _, h, rfl, by simp, not_comment_of_lexeme h⟩
  | @behind ps kind text qs h =>
    rw [List.append_cons] at h
    refine ⟨ps ++ [⟨.lexeme kind, text⟩], qs, h, by simp, rfl, ?_⟩
    simp

def Silent (ps : List Piece) : Prop := ∀ p ∈ ps, p.category = .blank ∨ p.category = .comment

theorem isBlank_of_mem {c : Char} (h : c ∈ blanks) : isBlank c = true := by
  simp only [blanks, List.mem_cons, List.not_mem_nil, or_false] at h
  rcases h with rfl | rfl | rfl | rfl <;> rfl

theorem pieces_comment {body : List Char} (h : '\n' ∉ body) (back : List Char) :
    pieces ('/' :: '/' :: (body ++ '\n' :: back)) =
      ⟨.comment, '/' :: '/' :: body⟩ :: ⟨.blank, ['\n']⟩ :: pieces back := by
  have hbody : ∀ c ∈ '/' :: body, (c != '\n') = true := by
    intro c hc
    rcases List.mem_cons.1 hc with rfl | hc
    · rfl
    · exact bne_iff_ne.2 fun hnewline => h (hnewline ▸ hc)
  have hrun : run (· != '\n') ('/' :: body ++ '\n' :: back) = ('/' :: body).length :=
    run_append_cons back hbody rfl
  have hsplit : split '/' ('/' :: body ++ '\n' :: back) =
      (⟨.comment, '/' :: '/' :: body⟩, '\n' :: back) := by
    unfold split classify
    rw [if_neg (by decide), if_pos ⟨rfl, rfl⟩, hrun]
    dsimp only
    rw [List.take_left, List.drop_left]
  rw [← List.cons_append, pieces_cons, hsplit, pieces_cons]
  rfl

theorem exists_pieces_insert (h : Parted cs front back) (htext : Filler text)
    (hclosed : ∀ p ∈ pieces cs, p.category ≠ .openString) :
    ∃ ps mids qs, pieces cs = ps ++ qs ∧ pieces (front ++ text ++ back) = ps ++ (mids ++ qs) ∧
      Silent mids ∧ mids.flatMap Piece.text = text := by
  obtain ⟨ps, qs, hpieces, rfl, rfl, hcomment⟩ := h.exists_pieces
  have hopen : ∀ p ∈ ps, p.category ≠ .openString := fun p hp =>
    hclosed p (hpieces ▸ List.mem_append_left qs hp)
  have hlast : ∀ b, ∀ p ∈ ps.getLast?, p.category = .comment → b = '\n' :=
    fun _ p hp h => absurd h (hcomment p hp)
  have hcut : ∀ {b}, isBlank b = true → ∀ more, pieces (ps.flatMap Piece.text ++ b :: more) =
      ps ++ ⟨.blank, [b]⟩ :: pieces more := fun hb more => pieces_behind more hpieces hopen hb (hlast _)
  cases htext with
  | @blank c hc =>
    refine ⟨ps, [⟨.blank, [c]⟩], qs, hpieces, ?_, by simp [Silent], rfl⟩
    rw [List.append_assoc, List.singleton_append, hcut (isBlank_of_mem hc), pieces_suffix hpieces]
    rfl
  | @comment body hbody =>
    refine ⟨ps, [⟨.blank, [' ']⟩, ⟨.comment, '/' :: '/' :: body⟩, ⟨.blank, ['\n']⟩], qs, hpieces, ?_,
      by simp [Silent], by simp⟩
    have hmore : ps.flatMap Piece.text ++ ' ' :: '/' :: '/' :: (body ++ ['\n']) ++
        qs.flatMap Piece.text = ps.flatMap Piece.text ++
          ' ' :: '/' :: '/' :: (body ++ '\n' :: qs.flatMap Piece.text) := by
      simp
    rw [hmore, hcut rfl, pieces_comment hbody, pieces_suffix hpieces]
    rfl

end Lexical

def Relabelling.lowering (start lines : Nat) : Relabelling where
  line t := if start ≤ t.index then t.line + lines else t.line
  index t := t.index

theorem LexicalError.message_shift (e : LexicalError) (lines : Nat) :
    (e.shift lines).message = e.message := by
  cases e <;> rfl

namespace Scan

open Source

structure Lowered (start lines : Nat) (s s' : Scan) : Prop where
  tokens : s'.tokens.toList = s.tokens.toList.map (Relabelling.lowering start lines)
  errors : List.Forall₂ (fun e e' : LexicalError => e'.message = e.message) s.errors.toList
    s'.errors.toList
  line : s'.line = s.line + lines
  index : s'.index = s.index

theorem foldl_silent {ps : List Piece} (h : Lexical.Silent ps) (s : Scan) :
    ps.foldl add s = { s with line := s.line + (ps.flatMap Piece.text).count '\n' } := by
  induction ps generalizing s with
  | nil => rfl
  | cons p ps ih =>
    obtain ⟨hp, hps⟩ := List.forall_mem_cons.1 h
    have hadd : s.add p = { s with line := s.line + p.text.count '\n' } := by
      rcases hp with hp | hp <;> simp [add, hp]
    rw [List.foldl_cons, hadd, ih hps, List.flatMap_cons, List.count_append, Nat.add_assoc]

theorem foldl_lowered {s : Scan} {first : Nat} (h : s.Numbered first) (lines : Nat) (ps : List Piece) :
    (ps.foldl add s).Lowered s.index lines (ps.foldl add { s with line := s.line + lines }) := by
  have hnumbered : (ps.foldl add s.resume).Numbered s.index := .foldl ⟨rfl, rfl⟩ ps
  have hbelow : ps.foldl add { s with line := s.line + lines } =
      s.followedBy ((ps.foldl add s.resume).shift lines 0) := by
    have hresume : ({ s with line := s.line + lines } : Scan).resume = s.resume.shift lines 0 := by
      simp [resume, shift]
    rw [foldl_resume, hresume, foldl_shift]
    rfl
  rw [hbelow, foldl_resume s ps]
  constructor
  · have hearlier : ∀ t ∈ s.tokens.toList, Relabelling.lowering s.index lines t = t := by
      intro t ht
      have hlt := (h.mem ht).2
      simp [Relabelling.apply, Relabelling.lowering, Nat.not_le.2 hlt]
    have hlater : ∀ t ∈ (ps.foldl add s.resume).tokens.toList,
        Relabelling.shift lines 0 t = Relabelling.lowering s.index lines t := by
      intro t ht
      simp [Relabelling.apply, Relabelling.lowering, Relabelling.shift, (hnumbered.mem ht).1]
    simp only [followedBy, shift, Array.toList_append, Array.toList_map, List.map_append]
    rw [List.map_congr_left hearlier, List.map_id', List.map_congr_left hlater]
  · simp only [followedBy, shift, Array.toList_append, Array.toList_map]
    apply List.rel_append
    · exact List.forall₂_same.2 fun _ _ => rfl
    · rw [List.forall₂_map_right_iff]
      exact List.forall₂_same.2 fun e _ => e.message_shift lines
  · rfl
  · rfl

end Scan

/-- With text put in beside a lexeme a source has the same tokens and errors, but for their lines. -/
theorem scan_insert {index : Nat} {source source' : String} {front text back : List Char}
    (hparted : Lexical.Parted source.toList front back) (htext : Lexical.Filler text)
    (hsource' : source'.toList = front ++ text ++ back)
    (hclosed : ∀ line, .unterminatedString line ∉ (scan index source).errors.toList) :
    ∃ start, index ≤ start ∧
      (scan index source).Lowered start (text.count '\n') (scan index source') := by
  obtain ⟨ps, mids, qs, hbefore, hafter, hsilent, hmids⟩ :=
    Lexical.exists_pieces_insert hparted htext (not_openString_of_scan hclosed)
  have hstart : (Scan.start index).Numbered index := ⟨rfl, rfl⟩
  have hnumbered := hstart.foldl ps
  refine ⟨(ps.foldl Scan.add (.start index)).index, ?_, ?_⟩
  · rw [hnumbered.index]
    exact Nat.le_add_right _ _
  · rw [scan_eq_foldl, scan_eq_foldl, hsource', hbefore, hafter, List.foldl_append,
      List.foldl_append, List.foldl_append, Scan.foldl_silent hsilent, hmids]
    exact Scan.foldl_lowered hnumbered _ qs

end Lox
