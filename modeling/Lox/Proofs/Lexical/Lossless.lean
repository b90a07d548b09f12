import Lox.Proofs.Lexical.Grammar
import Lox.Proofs.Scanning
import Lox.Session
import Mathlib.Data.List.TakeWhile

/-!
Scans are lossless. Every piece that a scan splits off is one of the lexical grammar, and a lexeme is the
longest there is at its place, so the tokens and errors of a scan are those of its source.
-/
namespace Lox.Lexical

open Source

section Runs

variable {p : Char → Bool} {c : Char} {cs front : List Char}

theorem take_run (p : Char → Bool) (cs : List Char) : cs.take (run p cs) = cs.takeWhile p :=
  calc cs.take (run p cs) = (cs.takeWhile p ++ cs.dropWhile p).take (run p cs) := by
        rw [List.takeWhile_append_dropWhile]
    _ = cs.takeWhile p := List.take_left

theorem drop_run (p : Char → Bool) (cs : List Char) : cs.drop (run p cs) = cs.dropWhile p :=
  calc cs.drop (run p cs) = (cs.takeWhile p ++ cs.dropWhile p).drop (run p cs) := by
        rw [List.takeWhile_append_dropWhile]
    _ = cs.dropWhile p := List.drop_left

theorem of_mem_take_run (h : c ∈ cs.take (run p cs)) : p c = true := by
  rw [take_run] at h
  exact List.mem_takeWhile_imp h

theorem of_head?_drop_run (h : c ∈ (cs.drop (run p cs)).head?) : p c = false := by
  have hhead := List.head?_dropWhile_not p cs
  rw [drop_run] at h
  rwa [h] at hhead

theorem length_le_run (h : front <+: cs) (hfront : ∀ c ∈ front, p c = true) :
    front.length ≤ run p cs := by
  obtain ⟨back, rfl⟩ := h
  unfold run
  rw [List.takeWhile_append_of_pos hfront, List.length_append]
  exact Nat.le_add_right _ _

/-- A run ends in front of the first character that does not pass. -/
theorem run_append_cons (back : List Char) (hfront : ∀ c ∈ front, p c = true) (hc : p c = false) :
    run p (front ++ c :: back) = front.length := by
  unfold run
  rw [List.takeWhile_append_of_pos hfront]
  simp [hc]

end Runs

/-- What a piece of a source is, given the text behind it. -/
def Fits (p : Piece) (after : List Char) : Prop :=
  match p.category with
  | .blank => ∃ c ∈ blanks, p.text = [c]
  | .comment => Comment p.text ∧ ∀ c ∈ after.head?, c = '\n'
  | .stray c => p.text = [c] ∧ c ∉ blanks ∧ ∀ kind text, ¬ Lexeme kind (c :: text)
  | .lexeme kind => Lexeme kind p.text ∧ Longest p.text after
  | .openString => ∃ body, p.text = '"' :: body ∧ '"' ∉ body ∧ after = []

variable {c : Char} {kind : Kind} {rest : List Char}

theorem longest_take {n : Nat} (hn : n ≤ rest.length) (hcomment : c = '/' → rest.head? ≠ some '/')
    (h : ∀ cs kind, cs <+: rest → Lexeme kind (c :: cs) → cs.length ≤ n) :
    Longest (c :: rest.take n) (rest.drop n) := by
  intro other hother hlexeme
  rw [List.cons_append, List.take_append_drop] at hother
  cases other with
  | nil => exact Nat.zero_le _
  | cons d cs =>
    obtain ⟨rfl, hcs⟩ := List.cons_prefix_cons.1 hother
    rw [List.length_cons, List.length_cons, List.length_take, Nat.min_eq_left hn]
    apply Nat.succ_le_succ
    rcases hlexeme with ⟨body, hbody, -⟩ | ⟨kind, hlexeme⟩
    · cases hbody
      obtain ⟨back, rfl⟩ := hcs
      exact absurd rfl (hcomment rfl)
    · exact h cs kind hcs hlexeme

theorem fits_comment (hhead : rest.head? = some '/') :
    Fits ⟨.comment, '/' :: rest.take (run (· != '\n') rest)⟩ (rest.drop (run (· != '\n') rest)) := by
  obtain ⟨more, rfl⟩ : ∃ more, rest = '/' :: more := by
    cases rest with
    | nil => contradiction
    | cons d more =>
      cases hhead
      exact ⟨more, rfl⟩
  have hrun : run (· != '\n') ('/' :: more) = run (· != '\n') more + 1 := by simp [run]
  constructor
  · refine ⟨more.take (run (· != '\n') more), ?_, ?_⟩
    · rw [hrun, List.take_succ_cons]
    · intro hmem
      have hne := of_mem_take_run hmem
      contradiction
  · intro d hd
    simpa using of_head?_drop_run hd

theorem fits_string (h : (rest.drop (run (· != '"') rest)).isEmpty = false) :
    Fits ⟨.lexeme .string, '"' :: rest.take (run (· != '"') rest + 1)⟩
      (rest.drop (run (· != '"') rest + 1)) := by
  have hbody : '"' ∉ rest.take (run (· != '"') rest) := by
    intro hmem
    have hne := of_mem_take_run hmem
    contradiction
  obtain ⟨more, hdrop⟩ : ∃ more, rest.drop (run (· != '"') rest) = '"' :: more := by
    cases hdrop : rest.drop (run (· != '"') rest) with
    | nil => simp [hdrop] at h
    | cons d more =>
      have hhead : d ∈ (rest.drop (run (· != '"') rest)).head? := by
        rw [hdrop]
        rfl
      have hquote : d = '"' := by simpa using of_head?_drop_run hhead
      exact ⟨more, by rw [hquote]⟩
  have htake : rest.take (run (· != '"') rest + 1) = rest.take (run (· != '"') rest) ++ ['"'] := by
    rw [List.take_add, hdrop]
    rfl
  constructor
  · dsimp only
    rw [htake]
    exact .string hbody
  · apply longest_take
    · have hlength := congrArg List.length hdrop
      simp only [List.length_drop, List.length_cons] at hlength
      omega
    · intro hslash
      contradiction
    · intro cs kind hcs hlexeme
      cases hlexeme.shape rfl with
      | operator hmem => exact absurd rfl (operator_starts _ hmem _ rfl).2.2
      | whole hc _ | decimal hc _ _ _ | word hc _ => contradiction
      | @string body _ _ hcs' hbody' =>
        subst hcs'
        obtain ⟨back, rfl⟩ := hcs
        rw [List.append_assoc, List.singleton_append, run_append_cons back _ rfl]
        · simp
        · intro d hd
          have hne : d ≠ '"' := fun hquote => hbody' (hquote ▸ hd)
          simpa using hne

theorem fits_openString (h : (rest.drop (run (· != '"') rest)).isEmpty = true) :
    Fits ⟨.openString, '"' :: rest.take (run (· != '"') rest)⟩ (rest.drop (run (· != '"') rest)) := by
  refine ⟨_, rfl, ?_, List.isEmpty_iff.1 h⟩
  intro hmem
  have hne := of_mem_take_run hmem
  contradiction

theorem run_le_numberRun (rest : List Char) : run Char.isDigit rest ≤ numberRun rest := by
  rw [numberRun_eq]
  exact Nat.le_add_right _ _

theorem length_le_numberRun {ds fs : List Char} (h : ds ++ '.' :: fs <+: rest)
    (hds : ∀ d ∈ ds, d.isDigit = true) (hfs : Digits fs) :
    (ds ++ '.' :: fs).length ≤ numberRun rest := by
  obtain ⟨back, rfl⟩ := h
  obtain ⟨f, fs, rfl⟩ := List.exists_cons_of_ne_nil hfs.1
  have hf : f.isDigit = true := hfs.2 f (List.mem_cons_self ..)
  have hmore : fs.length ≤ run Char.isDigit (fs ++ back) :=
    length_le_run (List.prefix_append fs back) fun d hd => hfs.2 d (List.mem_cons_of_mem f hd)
  simp only [List.append_assoc, List.cons_append]
  unfold numberRun
  dsimp only
  rw [run_append_cons _ hds rfl, List.drop_left]
  change (ds ++ '.' :: f :: fs).length ≤
    if f.isDigit then ds.length + 2 + run Char.isDigit (fs ++ back) else ds.length
  rw [if_pos hf]
  simp only [List.length_append, List.length_cons]
  omega

theorem lexeme_number (hc : c.isDigit = true) :
    Lexeme .number (c :: rest.take (numberRun rest)) := by
  have hwhole : Digits (c :: rest.take (run Char.isDigit rest)) := by
    constructor
    · exact List.cons_ne_nil _ _
    · intro d hd
      rcases List.mem_cons.1 hd with rfl | hd
      · exact hc
      · exact of_mem_take_run hd
  unfold numberRun
  dsimp only
  split
  · rename_i d more hdrop
    split
    · rename_i hd
      have htake : rest.take (run Char.isDigit rest + 2 + run Char.isDigit more) =
          rest.take (run Char.isDigit rest) ++ '.' :: d :: more.take (run Char.isDigit more) := by
        rw [Nat.add_assoc, List.take_add, hdrop, Nat.add_comm 2]
        rfl
      rw [htake]
      apply Lexeme.decimal hwhole
      constructor
      · exact List.cons_ne_nil _ _
      · intro e he
        rcases List.mem_cons.1 he with rfl | he
        · exact hd
        · exact of_mem_take_run he
    · exact .whole hwhole
  · exact .whole hwhole

theorem fits_number (hc : c.isDigit = true) :
    Fits ⟨.lexeme .number, c :: rest.take (numberRun rest)⟩ (rest.drop (numberRun rest)) := by
  constructor
  · exact lexeme_number hc
  · apply longest_take (numberRun_le rest)
    · rintro rfl
      contradiction
    · intro cs kind hcs hlexeme
      cases hlexeme.shape rfl with
      | operator hmem =>
        have hdigit := (operator_starts _ hmem _ rfl).1
        rw [hc] at hdigit
        contradiction
      | whole _ h => exact Nat.le_trans (length_le_run hcs h) (run_le_numberRun rest)
      | decimal _ hcs' h hfraction =>
        subst hcs'
        exact length_le_numberRun hcs h hfraction
      | string _ hquote _ _ =>
        subst hquote
        contradiction
      | word hstart _ =>
        rw [isWordStart_of_digit hc] at hstart
        contradiction

theorem lexeme_word (hc : isWordStart c = true) (hrest : ∀ d ∈ rest, isWordPart d = true) :
    Lexeme (Kind.ofWord (String.ofList (c :: rest))) (c :: rest) := by
  by_cases hkind : Kind.ofWord (String.ofList (c :: rest)) = .identifier
  · rw [hkind]
    exact .identifier hc hrest (Kind.ofWord_eq_identifier hkind)
  · have hkeyword := Lexeme.keyword (Kind.mem_keywords_of_ofWord rfl hkind)
    rwa [String.toList_ofList] at hkeyword

theorem fits_word (hc : isWordStart c = true) :
    Fits ⟨.lexeme (Kind.ofWord (String.ofList (c :: rest.take (run isWordPart rest)))),
      c :: rest.take (run isWordPart rest)⟩ (rest.drop (run isWordPart rest)) := by
  have hdigit : c.isDigit = false := by
    cases hdigit : c.isDigit with
    | false => rfl
    | true =>
      rw [isWordStart_of_digit hdigit] at hc
      contradiction
  constructor
  · exact lexeme_word hc fun d hd => of_mem_take_run hd
  · apply longest_take (run_le _ _)
    · rintro rfl
      contradiction
    · intro cs kind hcs hlexeme
      cases hlexeme.shape rfl with
      | operator hmem =>
        have hstart := (operator_starts _ hmem _ rfl).2.1
        rw [hc] at hstart
        contradiction
      | whole hc' _ | decimal hc' _ _ _ =>
        rw [hdigit] at hc'
        contradiction
      | string _ hquote _ _ =>
        subst hquote
        contradiction
      | word _ h => exact length_le_run hcs h

theorem operator_cases : ∀ entry ∈ operators,
    (entry.1.tail = [] ∧ entry.1.head?.bind single? = some entry.2) ∨
      (entry.1.tail = ['='] ∧ entry.1.head?.bind withEqual? = some entry.2) := by
  decide

theorem mem_operators_of_single? (h : single? c = some kind) : ([c], kind) ∈ operators := by
  unfold single? at h
  split at h <;> cases h <;> decide

theorem mem_operators_of_withEqual? (h : withEqual? c = some kind) :
    ([c, '='], kind) ∈ operators ∧ (single? c).isSome = true := by
  unfold withEqual? at h
  split at h <;> cases h <;> decide

section Operators

variable (hstart : isWordStart c = false) (hdigit : c.isDigit = false) (hquote : c ≠ '"')

include hstart hdigit hquote

theorem operator_of_lexeme {cs : List Char} (h : Lexeme kind (c :: cs)) :
    (cs = [] ∧ single? c = some kind) ∨ (cs = ['='] ∧ withEqual? c = some kind) := by
  cases h.shape rfl with
  | operator hmem => exact operator_cases _ hmem
  | whole hc _ | decimal hc _ _ _ =>
    rw [hdigit] at hc
    contradiction
  | string _ hc _ _ => exact absurd hc hquote
  | word hc _ =>
    rw [hstart] at hc
    contradiction

theorem fits_withEqual (hkind : withEqual? c = some kind) (hhead : rest.head? = some '=') :
    Fits ⟨.lexeme kind, c :: rest.take 1⟩ (rest.drop 1) := by
  obtain ⟨more, rfl⟩ : ∃ more, rest = '=' :: more := by
    cases rest with
    | nil => contradiction
    | cons d more =>
      cases hhead
      exact ⟨more, rfl⟩
  constructor
  · exact .operator (mem_operators_of_withEqual? hkind).1
  · apply longest_take
    · simp
    · rintro rfl
      contradiction
    · intro cs kind' _ hlexeme
      rcases operator_of_lexeme hstart hdigit hquote hlexeme with ⟨rfl, -⟩ | ⟨rfl, -⟩ <;> simp

theorem fits_single (hkind : single? c = some kind) (hcomment : c = '/' → rest.head? ≠ some '/')
    (hequal : (withEqual? c).isSome → rest.head? ≠ some '=') :
    Fits ⟨.lexeme kind, c :: rest.take 0⟩ (rest.drop 0) := by
  constructor
  · exact .operator (mem_operators_of_single? hkind)
  · apply longest_take (Nat.zero_le _) hcomment
    intro cs kind' hcs hlexeme
    rcases operator_of_lexeme hstart hdigit hquote hlexeme with ⟨rfl, -⟩ | ⟨rfl, hkind'⟩
    · exact Nat.le_refl _
    · obtain ⟨back, rfl⟩ := hcs
      exact absurd rfl (hequal (by rw [hkind']; rfl))

theorem fits_stray (hblank : isBlank c = false) (hnone : single? c = none) :
    Fits ⟨.stray c, c :: rest.take 0⟩ (rest.drop 0) := by
  refine ⟨rfl, ?_, ?_⟩
  · intro hmem
    simp only [blanks, List.mem_cons, List.not_mem_nil, or_false] at hmem
    rcases hmem with rfl | rfl | rfl | rfl <;> contradiction
  · intro kind text hlexeme
    rcases operator_of_lexeme hstart hdigit hquote hlexeme with ⟨-, hkind⟩ | ⟨-, hkind⟩
    · rw [hnone] at hkind
      contradiction
    · have hsome := (mem_operators_of_withEqual? hkind).2
      rw [hnone] at hsome
      contradiction

end Operators

theorem split_fits (c : Char) (rest : List Char) : Fits (split c rest).1 (split c rest).2 := by
  unfold split classify
  by_cases hblank : isBlank c = true
  · rw [if_pos hblank]
    refine ⟨c, ?_, rfl⟩
    simpa [isBlank, blanks, or_assoc] using hblank
  rw [if_neg hblank]
  by_cases hcomment : c = '/' ∧ rest.head? = some '/'
  · rw [if_pos hcomment]
    obtain ⟨rfl, hhead⟩ := hcomment
    exact fits_comment hhead
  rw [if_neg hcomment]
  by_cases hquote : c = '"'
  · rw [if_pos hquote]
    subst hquote
    dsimp only
    cases hopen : (rest.drop (run (· != '"') rest)).isEmpty with
    | true => exact fits_openString hopen
    | false => exact fits_string hopen
  rw [if_neg hquote]
  by_cases hdigit : c.isDigit = true
  · rw [if_pos hdigit]
    exact fits_number hdigit
  rw [if_neg hdigit]
  by_cases hstart : isWordStart c = true
  · rw [if_pos hstart]
    exact fits_word hstart
  rw [if_neg hstart]
  rw [Bool.not_eq_true] at hblank hdigit hstart
  dsimp only
  split
  · rename_i hkind hhead
    exact fits_withEqual hstart hdigit hquote hkind hhead
  · rename_i hne
    cases hkind : single? c with
    | none => exact fits_stray hstart hdigit hquote hblank hkind
    | some kind =>
      apply fits_single hstart hdigit hquote hkind
      · exact fun hslash hhead => hcomment ⟨hslash, hhead⟩
      · intro hsome hhead
        obtain ⟨kind', hkind'⟩ := Option.isSome_iff_exists.1 hsome
        exact hne kind' hkind' hhead

theorem valueOf_string {text body : List Char} (htext : text = '"' :: (body ++ ['"']))
    (h : Lexeme kind text) : valueOf kind text = .str (String.ofList body) := by
  cases h.shape htext with
  | operator hmem => exact absurd rfl (operator_starts _ hmem _ rfl).2.2
  | whole hc _ | decimal hc _ _ _ | word hc _ => contradiction
  | string hkind _ _ _ =>
    subst hkind htext
    simp [valueOf]

theorem Lexed.eq_nil {ts : List Token} {es : List LexicalError} (h : Lexed [] ts es) :
    ts = [] ∧ es = [] := by
  generalize hcs : ([] : List Char) = cs at h
  induction h with
  | nil => exact ⟨rfl, rfl⟩
  | blank | stray | openString => contradiction
  | comment htext _ _ _ =>
    obtain ⟨body, rfl, -⟩ := htext
    contradiction
  | lexeme hkind _ _ _ _ _ =>
    obtain ⟨rfl, -⟩ := List.nil_eq_append_iff.1 hcs
    exact absurd rfl hkind.ne_nil

theorem exists_lexed_add {p : Piece} {ts : List Token} {es : List LexicalError} (s : Scan)
    (hp : Fits p rest) (h : Lexed rest ts es) :
    ∃ ts' es', Lexed (p.text ++ rest) (ts' ++ ts) (es' ++ es) ∧
      (s.add p).tokens.toList = s.tokens.toList ++ ts' ∧
      (s.add p).errors.toList = s.errors.toList ++ es' := by
  obtain ⟨category, text⟩ := p
  cases category with
  | blank =>
    obtain ⟨c, hc, rfl⟩ := hp
    exact ⟨[], [], .blank hc h, by simp [Scan.add], by simp [Scan.add]⟩
  | comment => exact ⟨[], [], .comment hp.1 hp.2 h, by simp [Scan.add], by simp [Scan.add]⟩
  | stray c =>
    obtain ⟨rfl, hblank, hc⟩ := hp
    exact ⟨[], [.unexpectedCharacter c (s.line + [c].count '\n')], .stray hblank hc h,
      by simp [Scan.add, Scan.report], by simp [Scan.add, Scan.report]⟩
  | lexeme kind =>
    obtain ⟨hkind, hlongest⟩ := hp
    refine ⟨[⟨kind, String.ofList text, s.line + text.count '\n', s.index, valueOf kind text⟩], [],
      .lexeme hkind rfl ?_ hlongest h, by simp [Scan.add, Scan.emit], by simp [Scan.add, Scan.emit]⟩
    intro body hbody
    exact valueOf_string hbody hkind
  | openString =>
    obtain ⟨body, rfl, hbody, rfl⟩ := hp
    obtain ⟨rfl, rfl⟩ := h.eq_nil
    have hemit : (s.add ⟨.openString, '"' :: body⟩).tokens = s.tokens.push ⟨.string,
        String.ofList ('"' :: body), s.line + ('"' :: body).count '\n', s.index,
        .str (String.ofList body)⟩ := rfl
    have hreport : (s.add ⟨.openString, '"' :: body⟩).errors =
        s.errors.push (.unterminatedString (s.line + ('"' :: body).count '\n')) := rfl
    rw [List.append_nil, hemit, hreport, Array.toList_push, Array.toList_push]
    exact ⟨_, _, .openString hbody rfl rfl rfl, rfl, rfl⟩

theorem exists_lexed_addAll (s : Scan) (cs : List Char) :
    ∃ ts es, Lexed cs ts es ∧ (s.addAll cs).tokens.toList = s.tokens.toList ++ ts ∧
      (s.addAll cs).errors.toList = s.errors.toList ++ es := by
  induction cs using pieces.induct generalizing s with
  | case1 =>
    rw [Scan.addAll]
    exact ⟨[], [], .nil, (List.append_nil _).symm, (List.append_nil _).symm⟩
  | case2 c rest hle ih =>
    obtain ⟨ts, es, hlexed, htokens, herrors⟩ := ih (s.add (split c rest).1)
    obtain ⟨ts', es', hadd, htokens', herrors'⟩ := exists_lexed_add s (split_fits c rest) hlexed
    rw [split_fst_text] at hadd
    rw [Scan.addAll, htokens, herrors, htokens', herrors', List.append_assoc, List.append_assoc]
    exact ⟨_, _, hadd, rfl, rfl⟩

theorem lexed_scan (index : Nat) (source : String) :
    Lexed source.toList (scan index source).tokens.toList (scan index source).errors.toList := by
  obtain ⟨ts, es, hlexed, htokens, herrors⟩ := exists_lexed_addAll (Scan.start index) source.toList
  rw [show (Scan.start index).tokens.toList = [] from rfl, List.nil_append] at htokens
  rw [show (Scan.start index).errors.toList = [] from rfl, List.nil_append] at herrors
  rwa [scan, htokens, herrors]

end Lox.Lexical

namespace Lox

def Site.index : Site → Nat
  | token t => t.index
  | finish mark => mark.index

def Site.lexeme : Site → String
  | token t => t.lexeme
  | finish _ => ""

def Site.isFinish : Site → Bool
  | token _ => false
  | finish _ => true

def Scan.stream (s : Scan) : List Site := s.tokens.toList.map .token ++ [.finish s.finish]

theorem Scan.Numbered.stream {first : Nat} {s : Scan} (h : s.Numbered first) :
    s.stream.map Site.index = List.range' first (s.tokens.size + 1) := by
  rw [Scan.stream, List.map_append, List.map_map, List.range'_concat, Nat.one_mul, ← h.index,
    ← h.indices]
  rfl

/-- A session cuts every source into the lexemes it emits and the text between them, and numbers them
from where the stream before stopped. -/
theorem Session.scan_lossless (s : Session) (source : String) :
    let (scanned, s') := s.scan source
    Lexical.Lexed source.toList scanned.tokens.toList scanned.errors.toList ∧
      (∃ tokens mark, scanned.stream = tokens ++ [mark] ∧ (∀ t ∈ tokens, t.isFinish = false) ∧
        mark.isFinish = true ∧ mark.lexeme = "") ∧
      scanned.stream.map Site.index = List.range' s.nextIndex scanned.stream.length ∧
      s'.nextIndex = s.nextIndex + scanned.stream.length := by
  have hnumbered := scan_numbered s.nextIndex source
  have hlength : (Lox.scan s.nextIndex source).stream.length =
      (Lox.scan s.nextIndex source).tokens.size + 1 := by
    simp [Scan.stream]
  refine ⟨Lexical.lexed_scan s.nextIndex source, ⟨_, _, rfl, ?_, rfl, rfl⟩, ?_, ?_⟩
  · intro t ht
    obtain ⟨t, -, rfl⟩ := List.mem_map.1 ht
    rfl
  · rw [hlength]
    exact hnumbered.stream
  · rw [hlength, ← Nat.add_assoc, ← hnumbered.index]

end Lox
