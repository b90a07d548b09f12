import Lox.Proofs.Lexical.Rescan
import Lox.Proofs.Number.Decimal
import Lox.Syntax.Parenthesized
import Lox.Value

/-!
Printed numbers are scanned. The numeral of a decimal is one lexeme, with no exponent and a point only
between digits, and the text of a finite double is a numeral that stands for its absolute value, behind a
minus if it is negative. So a scan reads back what was printed.
-/
namespace Lox

namespace Lexical

open Source

theorem digits_of_subset_padded {d : Decimal} {part : List Char} (hsubset : part ⊆ d.padded)
    (hlength : 0 < part.length) : Digits part :=
  ⟨List.ne_nil_of_length_pos hlength, fun _ hc => Decimal.isDigit_of_mem_padded (hsubset hc)⟩

theorem lexeme_numeral (d : Decimal) : Lexeme .number d.numeral := by
  have hplaces := d.places_lt_length_padded
  have hwhole : Digits (d.padded.take (d.padded.length - d.places)) := by
    refine digits_of_subset_padded (List.take_subset _ _) ?_
    rw [List.length_take]
    omega
  rw [d.numeral_eq]
  split
  · rw [List.append_nil]
    exact .whole hwhole
  · refine .decimal hwhole (digits_of_subset_padded (List.drop_subset _ _) ?_)
    rw [List.length_drop]
    omega

theorem pieces_minus (rest : List Char) :
    pieces ('-' :: rest) = ⟨.lexeme .minus, ['-']⟩ :: pieces rest := by
  have hsplit : split '-' rest = (⟨.lexeme .minus, ['-']⟩, rest) := by
    have hclassify : classify '-' rest = (.lexeme .minus, 0) := by
      simp [classify, isBlank, isWordStart, withEqual?, single?]
    rw [split, hclassify]
    rfl
  rw [pieces_cons, hsplit]

theorem count_newline_numeral (d : Decimal) : d.numeral.count '\n' = 0 := by
  rw [List.count_eq_zero]
  intro hmem
  rcases Decimal.of_mem_numeral hmem with h | h <;> contradiction

end Lexical

open Source Lexical

/-- What a scan finds in the text of a number and nothing else. -/
def Site.ofNumber (index : Nat) (x : Float) : List Site :=
  [.token ⟨.number, (Value.num x).text, 1, index, .num x⟩, .finish ⟨1, index + 1⟩]

theorem stream_ofNumber (index : Nat) (x : Float) :
    (Scan.mk #[⟨.number, (Value.num x).text, 1, index, .num x⟩] #[] 1 (index + 1)).stream =
      Site.ofNumber index x := by
  simp [Scan.stream, Scan.finish, Site.ofNumber]

theorem scan_numeral (index : Nat) (d : Decimal) :
    scan index (String.ofList d.numeral) =
      ⟨#[⟨.number, String.ofList d.numeral, 1, index, .num (Decimal.read d.numeral)⟩], #[], 1,
        index + 1⟩ := by
  rw [scan_eq_foldl, String.toList_ofList, pieces_lexeme (lexeme_numeral d)]
  simp [Scan.add, Scan.start, Scan.emit, valueOf, count_newline_numeral]

theorem scan_minus_numeral (index : Nat) (d : Decimal) :
    scan index ("-" ++ String.ofList d.numeral) =
      ⟨#[⟨.minus, "-", 1, index, .nil⟩,
          ⟨.number, String.ofList d.numeral, 1, index + 1, .num (Decimal.read d.numeral)⟩], #[], 1,
        index + 2⟩ := by
  have htext : ("-" ++ String.ofList d.numeral).toList = '-' :: d.numeral := by simp
  rw [scan_eq_foldl, htext, pieces_minus, pieces_lexeme (lexeme_numeral d)]
  simp [Scan.add, Scan.start, Scan.emit, valueOf, count_newline_numeral]

/-- The absolute value of a finite double is printed as a numeral that reads as this value. -/
theorem exists_numeral {x : Float} (h : x.isFinite = true) :
    ∃ d : Decimal, (Value.num x.abs).text = String.ofList d.numeral ∧ Decimal.read d.numeral = x.abs := by
  have hlt := Double.magnitude_lt h
  have hread := Decimal.read_text hlt
  rw [Decimal.text_ofBits hlt, String.toList_ofList] at hread
  refine ⟨Decimal.shortest (Double.magnitude x), ?_, ?_⟩
  · rw [Value.text, Double.abs_eq_ofBits, Decimal.text_ofBits hlt]
  · rw [Double.abs_eq_ofBits, hread]

/-- The text of a finite double, as a value or in a printed tree, is scanned without an error as one number
that is this double or, if its sign is set, as a minus in front of what its absolute value is scanned as. -/
theorem scan_printed_number {x : Float} (h : x.isFinite = true) {text : String}
    (htext : text = (Value.num x).text ∨ text = (Literal.num x).parenthesized) (index : Nat) :
    (scan index text).errors = #[] ∧
      (Double.isNegative x = false → (scan index text).stream = Site.ofNumber index x) ∧
      (Double.isNegative x = true →
        (scan index text).stream =
            .token ⟨.minus, "-", 1, index, .nil⟩ :: Site.ofNumber (index + 1) x.abs ∧
          (scan (index + 1) (Value.num x.abs).text).stream = Site.ofNumber (index + 1) x.abs) := by
  obtain ⟨d, hd, hread⟩ := exists_numeral h
  have hprinted : text = if Double.isNegative x then "-" ++ (Value.num x.abs).text
      else (Value.num x.abs).text := by
    rw [htext.elim id id]
    exact Decimal.text_of_isFinite h
  have habs : ∀ index, scan index (Value.num x.abs).text =
      ⟨#[⟨.number, (Value.num x.abs).text, 1, index, .num x.abs⟩], #[], 1, index + 1⟩ := by
    intro index
    rw [hd, scan_numeral, hread]
  cases hsign : Double.isNegative x with
  | false =>
    rw [Double.abs_of_not_isNegative hsign] at habs
    rw [hsign, if_neg Bool.false_ne_true, Double.abs_of_not_isNegative hsign] at hprinted
    rw [hprinted, habs, stream_ofNumber]
    exact ⟨rfl, fun _ => rfl, nofun⟩
  | true =>
    have hminus : scan index text = ⟨#[⟨.minus, "-", 1, index, .nil⟩,
        ⟨.number, (Value.num x.abs).text, 1, index + 1, .num x.abs⟩], #[], 1, index + 2⟩ := by
      rw [hprinted, hsign, if_pos rfl, hd, scan_minus_numeral, hread]
    rw [hminus, habs, stream_ofNumber]
    refine ⟨rfl, nofun, fun _ => ⟨?_, rfl⟩⟩
    simp [Scan.stream, Scan.finish, Site.ofNumber]

/-- The greatest negative double is printed with 323 zeros behind its point. -/
theorem scan_printed_number_subnormal :
    let x := Float.ofBits 0x8000000000000001
    let digits := String.ofList ('0' :: '.' :: (List.replicate 323 '0' ++ ['5']))
    x.isFinite = true ∧ Double.isNegative x = true ∧ (Literal.num x).parenthesized = "-" ++ digits ∧
      (scan 7 ("-" ++ digits)).errors = #[] ∧
      (scan 7 ("-" ++ digits)).stream =
        [.token ⟨.minus, "-", 1, 7, .nil⟩, .token ⟨.number, digits, 1, 8, .num (Float.ofBits 1)⟩,
          .finish ⟨1, 9⟩] := by
  intro x digits
  have hfinite : x.isFinite = true := by decide +kernel
  have hsign : Double.isNegative x = true := by decide +kernel
  have habs : x.abs = Float.ofBits 1 := by decide +kernel
  have hshortest : Decimal.shortest 1 = ⟨5, 324⟩ := by decide +kernel
  have hnumeral : Decimal.numeral ⟨5, 324⟩ = '0' :: '.' :: (List.replicate 323 '0' ++ ['5']) := by
    decide +kernel
  have hdigits : Decimal.text (Float.ofBits 1) = digits := by
    have htext := Decimal.text_ofBits (show 1 < Double.infinityBits by decide)
    rw [hshortest, hnumeral] at htext
    exact htext
  have hprinted : (Literal.num x).parenthesized = "-" ++ digits := by
    rw [Literal.parenthesized, Decimal.text_of_isFinite hfinite, hsign, if_pos rfl, habs, hdigits]
  obtain ⟨herrors, -, hstream⟩ := scan_printed_number hfinite (.inr hprinted.symm) 7
  refine ⟨hfinite, hsign, hprinted, herrors, ?_⟩
  rw [(hstream hsign).1, habs, Site.ofNumber, Value.text, hdigits]

end Lox
