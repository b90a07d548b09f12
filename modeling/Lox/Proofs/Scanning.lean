import Lox.Source
import Lox.Proofs.Relabelling.Syntax

/-!
Scans of sources in parts. A scan folds over the pieces of a source; where it starts only shifts lines and
indices, and a line end in front of which no string is open cuts a source into two that are scanned apart.
-/
namespace Lox

namespace Source

def pieces : List Char → List Piece
  | [] => []
  | c :: rest =>
    have := length_split_snd_le c rest
    (split c rest).1 :: pieces (split c rest).2
termination_by cs => cs.length
decreasing_by simp; omega

@[simp] theorem pieces_nil : pieces [] = [] := by
  rw [pieces]

theorem pieces_cons (c : Char) (rest : List Char) :
    pieces (c :: rest) = (split c rest).1 :: pieces (split c rest).2 := by
  rw [pieces]

theorem split_fst_text (c : Char) (rest : List Char) :
    (split c rest).1.text ++ (split c rest).2 = c :: rest := by
  simp [split]

theorem flatMap_pieces (cs : List Char) : (pieces cs).flatMap Piece.text = cs := by
  induction cs using pieces.induct with
  | case1 => simp
  | case2 c rest hle ih =>
    rw [pieces_cons, List.flatMap_cons, ih, split_fst_text]

theorem run_le (p : Char → Bool) (cs : List Char) : run p cs ≤ cs.length :=
  (List.takeWhile_sublist p).length_le

def fractionRun : List Char → Nat
  | '.' :: d :: more => if d.isDigit then 2 + run Char.isDigit more else 0
  | _ => 0

theorem numberRun_eq (rest : List Char) :
    numberRun rest = run Char.isDigit rest + fractionRun (rest.drop (run Char.isDigit rest)) := by
  unfold numberRun
  dsimp only
  generalize rest.drop _ = tail
  fun_cases fractionRun tail with
  | case1 d more hd => simp [hd, Nat.add_assoc]
  | case2 d more hd => simp [hd]
  | case3 tail hne =>
    split
    · exact absurd rfl (hne _ _)
    · rfl

theorem fractionRun_le (cs : List Char) : fractionRun cs ≤ cs.length := by
  unfold fractionRun
  split
  · rename_i d more
    have hmore := run_le Char.isDigit more
    simp only [List.length_cons]
    split <;> omega
  · exact Nat.zero_le _

theorem numberRun_le (rest : List Char) : numberRun rest ≤ rest.length := by
  have hwhole := run_le Char.isDigit rest
  have hfraction := fractionRun_le (rest.drop (run Char.isDigit rest))
  rw [List.length_drop] at hfraction
  rw [numberRun_eq]
  omega

theorem classify_snd_le (c : Char) (rest : List Char) : (classify c rest).2 ≤ rest.length := by
  unfold classify
  split
  · exact Nat.zero_le _
  · split
    · exact run_le _ _
    · split
      · dsimp only
        split
        · exact run_le _ _
        · rename_i hopen
          have hlt : run (· != '"') rest < rest.length := by
            apply Nat.lt_of_not_le
            intro hle
            simp [List.drop_eq_nil_of_le hle] at hopen
          exact hlt
      · split
        · exact numberRun_le rest
        · split
          · exact run_le _ _
          · split
            · rename_i hhead
              cases rest with
              | nil => contradiction
              | cons e rest => simp
            · exact Nat.zero_le _

section Behind

variable {p : Char → Bool} {cs back : List Char} {b : Char}

theorem run_behind (more : List Char) (hle : run p (cs ++ back) ≤ cs.length)
    (hb : p b = false ∨ run p (cs ++ back) < cs.length) :
    run p (cs ++ b :: more) = run p (cs ++ back) := by
  induction cs with
  | nil =>
    have hfails : p b = false := hb.resolve_right (Nat.not_lt_zero _)
    have hback : run p back = 0 := Nat.le_zero.1 hle
    rw [List.nil_append, List.nil_append, hback]
    simp [run, hfails]
  | cons c cs ih =>
    cases hc : p c with
    | false => simp [run, hc]
    | true =>
      have hrun : ∀ rest, run p (c :: rest) = run p rest + 1 := by simp [run, hc]
      simp only [List.cons_append, hrun, List.length_cons] at hle hb ⊢
      rw [ih (Nat.le_of_succ_le_succ hle) (hb.imp_right Nat.lt_of_succ_lt_succ)]

theorem fractionRun_behind (more : List Char) (hle : fractionRun (cs ++ back) ≤ cs.length)
    (hdigit : b.isDigit = false) (hpoint : b ≠ '.') :
    fractionRun (cs ++ b :: more) = fractionRun (cs ++ back) := by
  have hzero : ∀ d more, fractionRun ('.' :: d :: more) ≤ 1 → d.isDigit = false := by
    intro d more h
    cases hd : d.isDigit with
    | false => rfl
    | true => simp [fractionRun, hd] at h; omega
  match cs with
  | [] =>
    have hback : fractionRun back = 0 := Nat.le_zero.1 hle
    rw [List.nil_append, List.nil_append, hback]
    simp [fractionRun, hpoint]
  | [c] =>
    by_cases hc : c = '.'
    · subst hc
      cases back with
      | nil => simp [fractionRun, hdigit]
      | cons d back =>
        have hd := hzero d back hle
        simp [fractionRun, hdigit, hd]
    · simp [fractionRun, hc]
  | c :: d :: cs =>
    by_cases hc : c = '.'
    · subst hc
      cases hd : d.isDigit with
      | false => simp [fractionRun, hd]
      | true =>
        simp [fractionRun, hd] at hle ⊢
        exact run_behind more (by omega) (.inl hdigit)
    · simp [fractionRun, hc]

theorem numberRun_behind (more : List Char) (hle : numberRun (cs ++ back) ≤ cs.length)
    (hdigit : b.isDigit = false) (hpoint : b ≠ '.') :
    numberRun (cs ++ b :: more) = numberRun (cs ++ back) := by
  rw [numberRun_eq] at hle
  have hwhole : run Char.isDigit (cs ++ back) ≤ cs.length := by omega
  rw [numberRun_eq, numberRun_eq, run_behind more hwhole (.inl hdigit)]
  rw [List.drop_append_of_le_length hwhole] at hle ⊢
  rw [List.drop_append_of_le_length hwhole, fractionRun_behind more _ hdigit hpoint]
  rw [List.length_drop]
  omega

theorem head?_behind (more : List Char) (hpos : 0 < cs.length) :
    (cs ++ b :: more).head? = (cs ++ back).head? := by
  cases cs with
  | nil => contradiction
  | cons c cs => rfl

theorem head?_behind_ne {d : Char} (more : List Char) (hb : b ≠ d)
    (hne : (cs ++ back).head? ≠ some d) : (cs ++ b :: more).head? ≠ some d := by
  cases cs with
  | nil => simpa using hb
  | cons c cs => exact hne

theorem comment_behind (more : List Char) (hslash : (cs ++ back).head? = some '/')
    (hle : run (· != '\n') (cs ++ back) ≤ cs.length)
    (hends : b = '\n' ∨ run (· != '\n') (cs ++ back) < cs.length) :
    (cs ++ b :: more).head? = some '/' ∧
      run (· != '\n') (cs ++ b :: more) = run (· != '\n') (cs ++ back) := by
  have htaken : 0 < run (· != '\n') (cs ++ back) := by
    obtain ⟨tail, htail⟩ := List.head?_eq_some_iff.1 hslash
    simp [htail, run]
  have hstops : (b != '\n') = false ∨ run (· != '\n') (cs ++ back) < cs.length :=
    hends.imp_left fun h => by simp [h]
  exact ⟨(head?_behind more (Nat.lt_of_lt_of_le htaken hle)).trans hslash, run_behind more hle hstops⟩

/-- The lexeme at `c`, which starts no longer one, by the character behind it. -/
def operatorAt (c : Char) (next? : Option Char) : Category × Nat :=
  match withEqual? c, next? with
  | some kind, some '=' => (.lexeme kind, 1)
  | _, _ => ((single? c).elim (.stray c) .lexeme, 0)

theorem operatorAt_of_ne (c : Char) {next? : Option Char} (hne : next? ≠ some '=') :
    operatorAt c next? = ((single? c).elim (.stray c) .lexeme, 0) := by
  unfold operatorAt
  split
  · contradiction
  · rfl

theorem operatorAt_behind {c : Char} (more : List Char)
    (hle : (operatorAt c (cs ++ back).head?).2 ≤ cs.length) (hequal : b ≠ '=') :
    operatorAt c (cs ++ b :: more).head? = operatorAt c (cs ++ back).head? := by
  by_cases hnext : (cs ++ back).head? = some '='
  · cases hkind : withEqual? c with
    | none => simp only [operatorAt, hkind]
    | some kind =>
      rw [hnext] at hle
      simp only [operatorAt, hkind] at hle
      rw [head?_behind more hle]
  · rw [operatorAt_of_ne c (head?_behind_ne more hequal hnext), operatorAt_of_ne c hnext]

theorem isBlank_ends (hb : isBlank b = true) :
    b.isDigit = false ∧ isWordPart b = false ∧ b ≠ '.' ∧ b ≠ '/' ∧ b ≠ '=' := by
  have hblanks : b = ' ' ∨ b = '\t' ∨ b = '\r' ∨ b = '\n' := by
    simpa [isBlank, or_assoc] using hb
  rcases hblanks with rfl | rfl | rfl | rfl <;> decide

/-- A piece in front of a blank is what it was in front of something else that did not go on with it. A
comment goes on with every blank but a line end. -/
theorem classify_behind {c : Char} (more : List Char)
    (hopen : (classify c (cs ++ back)).1 ≠ .openString)
    (hle : (classify c (cs ++ back)).2 ≤ cs.length) (hb : isBlank b = true)
    (hcomment : (classify c (cs ++ back)).1 = .comment →
      b = '\n' ∨ (classify c (cs ++ back)).2 < cs.length) :
    classify c (cs ++ b :: more) = classify c (cs ++ back) := by
  obtain ⟨hdigit, hpart, hpoint, hslash, hequal⟩ := isBlank_ends hb
  unfold classify at hopen hle hcomment ⊢
  by_cases hblank : isBlank c = true
  · simp only [if_pos hblank]
  rw [if_neg hblank] at hopen hle hcomment ⊢
  rw [if_neg hblank]
  by_cases hstarts : c = '/' ∧ (cs ++ back).head? = some '/'
  · simp only [if_pos hstarts] at hle hcomment ⊢
    obtain ⟨hnext, hrun⟩ := comment_behind more hstarts.2 hle (hcomment trivial)
    rw [if_pos ⟨hstarts.1, hnext⟩, hrun]
  rw [if_neg hstarts] at hopen hle ⊢
  have hstarts' : ¬ (c = '/' ∧ (cs ++ b :: more).head? = some '/') := fun h =>
    head?_behind_ne more hslash (fun hfirst => hstarts ⟨h.1, hfirst⟩) h.2
  rw [if_neg hstarts']
  by_cases hquote : c = '"'
  · simp only [if_pos hquote] at hopen hle ⊢
    cases hclosed : ((cs ++ back).drop (run (· != '"') (cs ++ back))).isEmpty with
    | true => simp [hclosed] at hopen
    | false =>
      simp only [hclosed, Bool.false_eq_true, if_false] at hle ⊢
      have hbehind : ((cs ++ b :: more).drop (run (· != '"') (cs ++ back))).isEmpty = false := by
        simp
        omega
      rw [run_behind more (Nat.le_of_lt hle) (.inr hle), hbehind]
      rfl
  rw [if_neg hquote] at hopen hle ⊢
  rw [if_neg hquote]
  by_cases hnumber : c.isDigit = true
  · rw [if_pos hnumber] at hle ⊢
    rw [if_pos hnumber, numberRun_behind more hle hdigit hpoint]
  rw [if_neg hnumber] at hle ⊢
  rw [if_neg hnumber]
  by_cases hword : isWordStart c = true
  · rw [if_pos hword] at hle ⊢
    rw [if_pos hword, run_behind more hle (.inl hpart)]
    dsimp only at hle ⊢
    rw [List.take_append_of_le_length hle, List.take_append_of_le_length hle]
  rw [if_neg hword] at hle ⊢
  rw [if_neg hword]
  exact operatorAt_behind more hle hequal

theorem split_behind {c : Char} {rest front : List Char} (more : List Char)
    (hrest : (split c rest).2 = front ++ back) (hopen : (split c rest).1.category ≠ .openString)
    (hb : isBlank b = true)
    (hcomment : (split c rest).1.category = .comment → b = '\n' ∨ front ≠ []) :
    ∃ taken, (split c rest).1.text = c :: taken ∧
      split c (taken ++ front ++ b :: more) = ((split c rest).1, front ++ b :: more) := by
  have hle := classify_snd_le c rest
  obtain ⟨taken, htaken⟩ : ∃ taken, taken = rest.take (classify c rest).2 := ⟨_, rfl⟩
  have hlength : taken.length = (classify c rest).2 := by
    rw [htaken, List.length_take, Nat.min_eq_left hle]
  have hsource : taken ++ front ++ back = rest := by
    rw [List.append_assoc, ← hrest, htaken]
    exact List.take_append_drop _ _
  have hfits : (classify c rest).2 ≤ (taken ++ front).length := by
    rw [List.length_append, hlength]
    exact Nat.le_add_right _ _
  have hends : (classify c rest).1 = .comment →
      b = '\n' ∨ (classify c rest).2 < (taken ++ front).length := by
    intro h
    refine (hcomment h).imp_right fun hfront => ?_
    have hpos := List.length_pos_iff.2 hfront
    rw [List.length_append]
    omega
  have hclassify : classify c (taken ++ front ++ b :: more) = classify c rest := by
    rw [← hsource] at hopen hfits hends ⊢
    exact classify_behind more hopen hfits hb hends
  have htake : (taken ++ front ++ b :: more).take (classify c rest).2 = taken := by
    rw [List.append_assoc, ← hlength, List.take_left]
  have hdrop : (taken ++ front ++ b :: more).drop (classify c rest).2 = front ++ b :: more := by
    rw [List.append_assoc, ← hlength, List.drop_left]
  refine ⟨taken, by rw [htaken]; rfl, ?_⟩
  unfold split
  rw [hclassify]
  dsimp only
  rw [htake, hdrop, htaken]

theorem exists_cons_of_mem_pieces {p : Piece} (h : p ∈ pieces cs) : ∃ c taken, p.text = c :: taken := by
  induction cs using pieces.induct with
  | case1 =>
    rw [pieces_nil] at h
    contradiction
  | case2 c rest hle ih =>
    rw [pieces_cons] at h
    rcases List.mem_cons.1 h with rfl | h
    · exact ⟨c, _, rfl⟩
    · exact ih h

/-- A blank cuts a source off behind any piece but an open string, and but a comment if it is no line
end. -/
theorem pieces_behind {ps qs : List Piece} (more : List Char) (h : pieces cs = ps ++ qs)
    (hopen : ∀ p ∈ ps, p.category ≠ .openString) (hb : isBlank b = true)
    (hcomment : ∀ p ∈ ps.getLast?, p.category = .comment → b = '\n') :
    pieces (ps.flatMap Piece.text ++ b :: more) = ps ++ ⟨.blank, [b]⟩ :: pieces more := by
  induction ps generalizing cs with
  | nil =>
    have hsplit : split b more = (⟨.blank, [b]⟩, more) := by simp [split, classify, hb]
    rw [List.flatMap_nil, List.nil_append, List.nil_append, pieces_cons, hsplit]
  | cons p ps ih =>
    cases cs with
    | nil =>
      rw [pieces_nil] at h
      contradiction
    | cons c rest =>
      rw [pieces_cons, List.cons_append] at h
      obtain ⟨rfl, hrest⟩ := List.cons_eq_cons.1 h
      have hafter : (split c rest).2 = ps.flatMap Piece.text ++ qs.flatMap Piece.text := by
        rw [← List.flatMap_append, ← hrest, flatMap_pieces]
      have hends : (split c rest).1.category = .comment →
          b = '\n' ∨ ps.flatMap Piece.text ≠ [] := by
        intro hcategory
        cases ps with
        | nil => exact .inl (hcomment _ rfl hcategory)
        | cons q ps =>
          have hq : q ∈ pieces (split c rest).2 := by
            rw [hrest]
            exact List.mem_cons_self ..
          obtain ⟨d, taken, htext⟩ := exists_cons_of_mem_pieces hq
          simp [htext]
      obtain ⟨taken, htext, hsplit⟩ := split_behind more hafter
        (hopen _ (List.mem_cons_self ..)) hb hends
      rw [List.flatMap_cons, htext, List.cons_append, List.cons_append, pieces_cons, hsplit,
        List.cons_append]
      congr 1
      apply ih hrest
      · exact fun q hq => hopen q (List.mem_cons_of_mem _ hq)
      · intro q hq
        apply hcomment q
        rw [List.getLast?_cons]
        rw [Option.mem_def] at hq ⊢
        rw [hq]
        rfl

end Behind

theorem pieces_append_newline {front : List Char} (back : List Char)
    (h : ∀ p ∈ pieces front, p.category ≠ .openString) :
    pieces (front ++ '\n' :: back) = pieces front ++ ⟨.blank, ['\n']⟩ :: pieces back := by
  have hcut := pieces_behind (b := '\n') back (List.append_nil (pieces front)).symm h rfl
    fun _ _ _ => rfl
  rwa [flatMap_pieces] at hcut

end Source

open Source

def Relabelling.shift (lines count : Nat) : Relabelling :=
  ⟨fun t => t.line + lines, fun t => t.index + count⟩

def LexicalError.shift (lines : Nat) : LexicalError → LexicalError
  | .unexpectedCharacter c line => .unexpectedCharacter c (line + lines)
  | .unterminatedString line => .unterminatedString (line + lines)

namespace Scan

theorem addAll_eq_foldl (s : Scan) (cs : List Char) : s.addAll cs = (pieces cs).foldl add s := by
  induction cs using pieces.induct generalizing s with
  | case1 => rw [addAll, pieces_nil, List.foldl_nil]
  | case2 c rest hle ih => rw [addAll, pieces_cons, List.foldl_cons, ih]

def shift (lines count : Nat) (s : Scan) : Scan where
  tokens := s.tokens.map (Relabelling.shift lines count)
  errors := s.errors.map (·.shift lines)
  line := s.line + lines
  index := s.index + count

theorem emit_shift (lines count : Nat) (s : Scan) (kind : Kind) (text : List Char) (value : Literal) :
    (s.shift lines count).emit kind text value = (s.emit kind text value).shift lines count := by
  simp [emit, shift, Relabelling.apply, Relabelling.shift, Nat.add_right_comm]

theorem report_shift (lines count : Nat) (s : Scan) (e : LexicalError) :
    (s.shift lines count).report (e.shift lines) = (s.report e).shift lines count := by
  simp [report, shift]

theorem add_shift (lines count : Nat) (s : Scan) (p : Piece) :
    (s.shift lines count).add p = (s.add p).shift lines count := by
  have hadvance : ∀ n, { s.shift lines count with line := (s.shift lines count).line + n } =
      ({ s with line := s.line + n } : Scan).shift lines count := by
    intro n
    simp [shift, Nat.add_right_comm]
  unfold add
  rw [hadvance]
  cases p.category with
  | blank | comment => rfl
  | stray c => exact report_shift lines count _ (.unexpectedCharacter c _)
  | lexeme kind => exact emit_shift lines count _ kind p.text _
  | openString =>
    dsimp only
    rw [← emit_shift, ← report_shift]
    rfl

theorem foldl_shift (lines count : Nat) (s : Scan) (ps : List Piece) :
    ps.foldl add (s.shift lines count) = (ps.foldl add s).shift lines count := by
  induction ps generalizing s with
  | nil => rfl
  | cons p ps ih => rw [List.foldl_cons, List.foldl_cons, add_shift, ih]

def followedBy (s t : Scan) : Scan := ⟨s.tokens ++ t.tokens, s.errors ++ t.errors, t.line, t.index⟩

def resume (s : Scan) : Scan := ⟨#[], #[], s.line, s.index⟩

theorem add_followedBy (s t : Scan) (p : Piece) :
    (s.followedBy t).add p = s.followedBy (t.add p) := by
  unfold add
  cases p.category <;> simp [followedBy, emit, report]

theorem foldl_followedBy (s t : Scan) (ps : List Piece) :
    ps.foldl add (s.followedBy t) = s.followedBy (ps.foldl add t) := by
  induction ps generalizing t with
  | nil => rfl
  | cons p ps ih => rw [List.foldl_cons, List.foldl_cons, add_followedBy, ih]

theorem foldl_resume (s : Scan) (ps : List Piece) :
    ps.foldl add s = s.followedBy (ps.foldl add s.resume) := by
  rw [← foldl_followedBy]
  simp [followedBy, resume]

theorem exists_unterminated {ps : List Piece} {p : Piece} (hp : p ∈ ps) (hopen : p.category = .openString)
    (s : Scan) : ∃ line, .unterminatedString line ∈ (ps.foldl add s).errors.toList := by
  induction ps generalizing s with
  | nil => contradiction
  | cons q ps ih =>
    rw [List.foldl_cons]
    rcases List.mem_cons.1 hp with rfl | hp
    · refine ⟨s.line + p.text.count '\n', ?_⟩
      rw [foldl_resume, followedBy, Array.toList_append]
      apply List.mem_append_left
      simp [add, hopen, report, emit]
    · exact ih hp _

theorem line_add (s : Scan) (p : Piece) : (s.add p).line = s.line + p.text.count '\n' := by
  unfold add
  cases p.category <;> rfl

theorem line_foldl (s : Scan) (ps : List Piece) :
    (ps.foldl add s).line = s.line + (ps.flatMap Piece.text).count '\n' := by
  induction ps generalizing s with
  | nil => rfl
  | cons p ps ih =>
    rw [List.foldl_cons, ih, line_add, List.flatMap_cons, List.count_append]
    omega

/-- The tokens found so far are numbered in sequence, and the scan stands at the number behind them. -/
structure Numbered (first : Nat) (s : Scan) : Prop where
  indices : s.tokens.toList.map Token.index = List.range' first s.tokens.size
  index : s.index = first + s.tokens.size

theorem Numbered.emit {first : Nat} {s : Scan} (h : s.Numbered first) (kind : Kind)
    (text : List Char) (value : Literal) : (s.emit kind text value).Numbered first := by
  constructor
  · simp only [Scan.emit, Array.toList_push, List.map_append, h.indices, Array.size_push,
      List.range'_concat, h.index, List.map_cons, List.map_nil, Nat.one_mul]
  · simp only [Scan.emit, Array.size_push, h.index]
    omega

theorem Numbered.add {first : Nat} {s : Scan} (h : s.Numbered first) (p : Piece) :
    (s.add p).Numbered first := by
  have hadvance : ({ s with line := s.line + p.text.count '\n' } : Scan).Numbered first :=
    ⟨h.indices, h.index⟩
  unfold Scan.add
  cases p.category with
  | blank | comment => exact hadvance
  | stray c => exact ⟨h.indices, h.index⟩
  | lexeme kind => exact hadvance.emit kind p.text _
  | openString =>
    have hreport : ∀ e, (({ s with line := s.line + p.text.count '\n' } : Scan).report e).Numbered
        first := fun _ => ⟨h.indices, h.index⟩
    exact (hreport _).emit _ _ _

theorem Numbered.foldl {first : Nat} {s : Scan} (h : s.Numbered first) (ps : List Piece) :
    (ps.foldl Scan.add s).Numbered first := by
  induction ps generalizing s with
  | nil => exact h
  | cons p ps ih => exact ih (h.add p)

theorem Numbered.mem {first : Nat} {s : Scan} (h : s.Numbered first) {t : Token}
    (ht : t ∈ s.tokens.toList) : first ≤ t.index ∧ t.index < s.index := by
  have hindex : t.index ∈ List.range' first s.tokens.size := by
    rw [← h.indices]
    exact List.mem_map_of_mem ht
  rw [h.index]
  exact List.mem_range'_1.1 hindex

end Scan

theorem scan_eq_foldl (index : Nat) (source : String) :
    scan index source = (pieces source.toList).foldl Scan.add (Scan.start index) :=
  Scan.addAll_eq_foldl _ _

theorem scan_shift (index count : Nat) (source : String) :
    scan (index + count) source = (scan index source).shift 0 count := by
  have hstart : Scan.start (index + count) = (Scan.start index).shift 0 count := by
    simp [Scan.start, Scan.shift]
  rw [scan_eq_foldl, scan_eq_foldl, ← Scan.foldl_shift, hstart]

theorem scan_line (index : Nat) (source : String) :
    (scan index source).line = 1 + source.toList.count '\n' := by
  rw [scan_eq_foldl, Scan.line_foldl, flatMap_pieces]
  rfl

theorem scan_numbered (index : Nat) (source : String) : (scan index source).Numbered index := by
  rw [scan_eq_foldl]
  apply Scan.Numbered.foldl
  exact ⟨rfl, rfl⟩

theorem scan_index_le (index : Nat) (source : String) : index ≤ (scan index source).index := by
  rw [(scan_numbered index source).index]
  exact Nat.le_add_right _ _

theorem not_openString_of_scan {index : Nat} {source : String}
    (h : ∀ line, .unterminatedString line ∉ (scan index source).errors.toList) :
    ∀ p ∈ pieces source.toList, p.category ≠ .openString := by
  intro p hp hopen
  obtain ⟨line, hline⟩ := Scan.exists_unterminated hp hopen (.start index)
  rw [← scan_eq_foldl] at hline
  exact h line hline

theorem scan_append_newline {index : Nat} {front : String} (back : String)
    (h : ∀ line, .unterminatedString line ∉ (scan index front).errors.toList) :
    scan index (front ++ "\n" ++ back) =
      (scan index front).followedBy
        ((scan 0 back).shift (scan index front).line (scan index front).index) := by
  have hjoin : (front ++ "\n" ++ back).toList = front.toList ++ '\n' :: back.toList := by
    simp
  have hresume : ((scan index front).add ⟨.blank, ['\n']⟩).resume =
      (Scan.start 0).shift (scan index front).line (scan index front).index := by
    simp [Scan.add, Scan.resume, Scan.start, Scan.shift, Nat.add_comm]
  rw [scan_eq_foldl, hjoin, pieces_append_newline _ (not_openString_of_scan h), List.foldl_append,
    List.foldl_cons, ← scan_eq_foldl, Scan.foldl_resume, hresume, Scan.foldl_shift, ← scan_eq_foldl]
  rfl

end Lox
