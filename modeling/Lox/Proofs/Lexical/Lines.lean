import Lox.Proofs.Lexical.Lossless

/-!
Sources in lines. A line end in front of which no string is open parts a source: in front of it a scan finds
what is there without the rest, and behind it what the rest is alone, on later lines. Only the indices go
on.
-/
namespace Lox

namespace Site

def shift (lines count : Nat) : Site → Site
  | token t => token (Relabelling.shift lines count t)
  | finish mark => finish ⟨mark.line + lines, mark.index + count⟩

def withIndex (index : Nat) : Site → Site
  | token t => token { t with index }
  | finish mark => finish { mark with index }

def numberFrom : Nat → List Site → List Site
  | _, [] => []
  | first, site :: rest => site.withIndex first :: numberFrom (first + 1) rest

theorem withIndex_index (site : Site) : site.withIndex site.index = site := by
  cases site <;> rfl

theorem withIndex_shift (index lines count : Nat) (site : Site) :
    (site.shift lines count).withIndex index = (site.shift lines 0).withIndex index := by
  cases site <;> rfl

theorem shift_shift (lines lines' count count' : Nat) (site : Site) :
    (site.shift lines count).shift lines' count' = site.shift (lines + lines') (count + count') := by
  cases site <;> simp [shift, Relabelling.apply, Relabelling.shift, Nat.add_assoc]

theorem numberFrom_append (first : Nat) (sites more : List Site) :
    numberFrom first (sites ++ more) =
      numberFrom first sites ++ numberFrom (first + sites.length) more := by
  induction sites generalizing first with
  | nil => rfl
  | cons site sites ih =>
    rw [List.cons_append, numberFrom, numberFrom, ih, List.cons_append, List.length_cons,
      Nat.add_assoc, Nat.add_comm 1]

theorem numberFrom_eq_self {first : Nat} {sites : List Site}
    (h : sites.map index = List.range' first sites.length) : numberFrom first sites = sites := by
  induction sites generalizing first with
  | nil => rfl
  | cons site sites ih =>
    rw [List.map_cons, List.length_cons, List.range'_succ] at h
    obtain ⟨hindex, hrest⟩ := List.cons_eq_cons.1 h
    rw [numberFrom, ih hrest, ← hindex, withIndex_index]

theorem numberFrom_shift (first lines count : Nat) (sites : List Site) :
    numberFrom first (sites.map (shift lines count)) = numberFrom first (sites.map (shift lines 0)) := by
  induction sites generalizing first with
  | nil => rfl
  | cons site sites ih =>
    rw [List.map_cons, List.map_cons, numberFrom, numberFrom, ih, withIndex_shift]

end Site

namespace Scan

theorem stream_shift (lines count : Nat) (s : Scan) :
    (s.shift lines count).stream = s.stream.map (Site.shift lines count) := by
  simp [stream, shift, finish, Site.shift]

theorem stream_followedBy (s t : Scan) :
    (s.followedBy t).stream = s.stream.dropLast ++ t.stream := by
  simp [stream, followedBy, finish]

theorem Numbered.numberFrom_stream {first : Nat} {s : Scan} (h : s.Numbered first) :
    Site.numberFrom first s.stream = s.stream := by
  apply Site.numberFrom_eq_self
  have hlength : s.stream.length = s.tokens.size + 1 := by simp [Scan.stream]
  rw [h.stream, hlength]

end Scan

theorem LexicalError.shift_zero (e : LexicalError) : e.shift 0 = e := by
  cases e <;> rfl

theorem numberFrom_scan (first lines index : Nat) (source : String) :
    Site.numberFrom first ((scan index source).stream.map (.shift lines 0)) =
      Site.numberFrom first ((scan 0 source).stream.map (.shift lines 0)) := by
  have hshift : (Site.shift lines 0 ∘ Site.shift 0 index) = Site.shift lines index := by
    funext site
    rw [Function.comp_apply, Site.shift_shift, Nat.zero_add, Nat.add_zero]
  rw [← Nat.zero_add index, scan_shift, Scan.stream_shift, List.map_map, hshift,
    Site.numberFrom_shift]

theorem errors_scan (index : Nat) (source : String) :
    (scan index source).errors = (scan 0 source).errors := by
  rw [← Nat.zero_add index, scan_shift, Scan.shift]
  simp [LexicalError.shift_zero]

/-- Of a source with a line end in front of which no string is open, a scan finds what it finds in front
of the line end and, on later lines, what it finds behind it, with consecutive indices. -/
theorem scan_lines {index : Nat} {front : String}
    (h : ∀ line, .unterminatedString line ∉ (scan index front).errors.toList)
    (index' : Nat) (back : String) :
    let lines := front.toList.count '\n' + 1
    let joined := scan index (front ++ "\n" ++ back)
    joined.stream = Site.numberFrom index ((scan index front).stream.dropLast ++
        (scan index' back).stream.map (.shift lines 0)) ∧
      joined.errors.toList = (scan index front).errors.toList ++
        (scan index' back).errors.toList.map (.shift lines) := by
  intro lines joined
  have hjoined : joined = (scan index front).followedBy
      ((scan 0 back).shift lines (scan index front).index) := by
    have hline : (scan index front).line = lines := by rw [scan_line, Nat.add_comm]
    rw [← hline]
    exact scan_append_newline back h
  have hstream : joined.stream = (scan index front).stream.dropLast ++
      (scan 0 back).stream.map (.shift lines (scan index front).index) := by
    rw [hjoined, Scan.stream_followedBy, Scan.stream_shift]
  constructor
  -- Both sides are numbered in sequence, so it is enough that they agree but for the indices.
  · have hnumbered : joined.Numbered index := scan_numbered _ _
    rw [← hnumbered.numberFrom_stream, hstream, Site.numberFrom_append, Site.numberFrom_append,
      Site.numberFrom_shift, numberFrom_scan _ _ index']
  · rw [hjoined, errors_scan index']
    simp [Scan.followedBy, Scan.shift]

/-- A comparison at the end of a line does not take the equals sign of the next one. -/
theorem scan_lines_comparison :
    let joined := scan 3 ("@ a<" ++ "\n" ++ "= #")
    (∀ line, .unterminatedString line ∉ (scan 3 "@ a<").errors.toList) ∧
      joined.stream.map (fun site => (site.lexeme, site.line, site.index)) =
        [("a", 1, 3), ("<", 1, 4), ("=", 2, 5), ("", 2, 6)] ∧
      joined.errors.toList = [.unexpectedCharacter '@' 1, .unexpectedCharacter '#' 2] := by
  have hclosed : ∀ line, LexicalError.unterminatedString line ∉ (scan 3 "@ a<").errors.toList := by
    have herrors : (scan 3 "@ a<").errors.toList = [.unexpectedCharacter '@' 1] := by decide +kernel
    simp [herrors]
  obtain ⟨hstream, herrors⟩ := scan_lines hclosed 0 "= #"
  refine ⟨hclosed, ?_, ?_⟩
  · rw [hstream]
    decide +kernel
  · rw [herrors]
    decide +kernel

end Lox
