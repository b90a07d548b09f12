import Lox.Number.Decimal
import Lox.Proofs.Number.Double

/-!
Numbers that are written and read. A numeral has the digits of its decimal, and the decimal that is
chosen for a double reads back to it; so the text of a finite double stands for that double.
-/
namespace Lox.Decimal

theorem ofDigits_toDigits (n : Nat) : ofDigits (Nat.toDigits 10 n) = n := by
  rw [ofDigits, ← Nat.ofDigitChars_eq_foldl, Nat.ofDigitChars_ten_toDigits]

theorem ofDigits_zeros (count : Nat) (digits : List Char) :
    ofDigits (List.replicate count '0' ++ digits) = ofDigits digits := by
  induction count with
  | zero => rfl
  | succ count ih =>
    rw [List.replicate_succ, List.cons_append, ← ih]
    rfl

/-- The digits of a numeral, with zeros in front so that one stands before the point. -/
def padded (d : Decimal) : List Char :=
  List.replicate (d.places + 1 - (Nat.toDigits 10 d.coefficient).length) '0' ++
    Nat.toDigits 10 d.coefficient

theorem ofDigits_padded (d : Decimal) : ofDigits d.padded = d.coefficient := by
  rw [padded, ofDigits_zeros, ofDigits_toDigits]

theorem isDigit_of_mem_padded {d : Decimal} {c : Char} (h : c ∈ d.padded) : c.isDigit = true := by
  rcases List.mem_append.1 h with h | h
  · rw [List.eq_of_mem_replicate h]
    rfl
  · exact Nat.isDigit_of_mem_toDigits (by decide) (by decide) h

theorem places_lt_length_padded (d : Decimal) : d.places < d.padded.length := by
  rw [padded, List.length_append, List.length_replicate]
  omega

theorem numeral_eq (d : Decimal) :
    d.numeral = d.padded.take (d.padded.length - d.places) ++
      if d.places = 0 then [] else '.' :: d.padded.drop (d.padded.length - d.places) := by
  unfold numeral
  by_cases hplaces : d.places = 0
  · have hlength : 0 < (Nat.toDigits 10 d.coefficient).length := Nat.length_toDigits_pos
    have hpad : d.places + 1 - (Nat.toDigits 10 d.coefficient).length = 0 := by omega
    have hpadded : d.padded = Nat.toDigits 10 d.coefficient := by
      rw [padded, hpad, List.replicate_zero, List.nil_append]
    simp [hplaces, hpadded]
  · simp only [if_neg hplaces]
    rfl

theorem ne_point_of_isDigit {c : Char} (h : c.isDigit = true) : (c != '.') = true := by
  rw [bne_iff_ne]
  rintro rfl
  contradiction

theorem ofNumeral_numeral (d : Decimal) : ofNumeral d.numeral = d := by
  have hwhole : ∀ c ∈ d.padded.take (d.padded.length - d.places), (c != '.') = true :=
    fun c hc => ne_point_of_isDigit (isDigit_of_mem_padded (List.mem_of_mem_take hc))
  have hlt := places_lt_length_padded d
  rw [numeral_eq, ofNumeral, List.takeWhile_append_of_pos hwhole, List.dropWhile_append_of_pos hwhole]
  by_cases hplaces : d.places = 0
  · have htake : d.padded.take (d.padded.length - d.places) = d.padded := by
      rw [hplaces, Nat.sub_zero, List.take_length]
    simp only [if_pos hplaces, htake, List.takeWhile_nil, List.dropWhile_nil, List.drop_nil,
      List.append_nil, ofDigits_padded, List.length_nil]
    rw [← hplaces]
  · have hpoint : ('.' != '.') = false := by decide
    have hlength : d.padded.length - (d.padded.length - d.places) = d.places := by omega
    simp only [if_neg hplaces, List.takeWhile_cons, List.dropWhile_cons, hpoint, Bool.false_eq_true,
      if_false, List.append_nil, List.drop_one, List.tail_cons, List.take_append_drop, ofDigits_padded,
      List.length_drop, hlength]

theorem numeral_starts (d : Decimal) : ∃ c cs, d.numeral = c :: cs ∧ c.isDigit = true := by
  have hlt := places_lt_length_padded d
  obtain ⟨count, hcount⟩ : ∃ count, d.padded.length - d.places = count + 1 :=
    ⟨d.padded.length - d.places - 1, by omega⟩
  cases hpadded : d.padded with
  | nil => simp [hpadded] at hlt
  | cons c cs =>
    have hc : c ∈ d.padded := hpadded ▸ List.mem_cons_self
    refine ⟨c, d.numeral.tail, ?_, isDigit_of_mem_padded hc⟩
    rw [numeral_eq, hcount, hpadded, List.take_succ_cons, List.cons_append, List.tail_cons]

theorem of_mem_numeral {d : Decimal} {c : Char} (h : c ∈ d.numeral) : c.isDigit = true ∨ c = '.' := by
  rw [numeral_eq] at h
  rcases List.mem_append.1 h with h | h
  · exact .inl (isDigit_of_mem_padded (List.mem_of_mem_take h))
  · split at h
    · contradiction
    · rcases List.mem_cons.1 h with h | h
      · exact .inr h
      · exact .inl (isDigit_of_mem_padded (List.mem_of_mem_drop h))

theorem nearestBits_trimmed (coefficient places : Nat) :
    (trimmed coefficient places).nearestBits = nearestBits ⟨coefficient, places⟩ := by
  induction places generalizing coefficient with
  | zero => rfl
  | succ places ih =>
    rw [trimmed]
    split
    · rename_i hzero
      have hcoefficient : coefficient / 10 * 10 = coefficient := by omega
      have hscale : Double.nearestBits (coefficient / 10 * 10) (Nat.pow 10 places * 10) =
          Double.nearestBits (coefficient / 10) (Nat.pow 10 places) :=
        Double.nearestBits_scale (by decide)
      rw [hcoefficient] at hscale
      rw [ih]
      exact hscale.symm
    · rfl

theorem nearestBits_trim (d : Decimal) : d.trim.nearestBits = d.nearestBits :=
  nearestBits_trimmed d.coefficient d.places

theorem nearestBits_of_withDigits {bits digits : Nat} {d : Decimal}
    (h : withDigits? bits digits = some d) : d.nearestBits = bits := by
  -- unfolded as a function, since an applied one would be evaluated
  obtain ⟨search, hsearch⟩ : ∃ search, search = withDigits? := ⟨_, rfl⟩
  rw [← hsearch] at h
  delta withDigits? at hsearch
  rw [hsearch] at h
  beta_reduce at h
  extract_lets exactValue floor scale coefficient below above belowIsNearer at h
  -- the two candidates may be any decimals
  clear_value below above coefficient scale floor exactValue
  split at h
  case h_1 hbelow habove =>
    have hchosen := Option.some.inj h
    rcases ite_eq_or_eq belowIsNearer below above with hif | hif
    · rw [← hchosen, hif]
      exact of_decide_eq_true hbelow
    · rw [← hchosen, hif]
      exact of_decide_eq_true habove
  case h_2 hbelow _ =>
    cases h
    exact of_decide_eq_true hbelow
  case h_3 _ habove =>
    cases h
    exact of_decide_eq_true habove
  case h_4 => contradiction

/-- A binary fraction takes as many decimal places as binary ones. -/
theorem nearestBits_binary (numerator places : Nat) :
    nearestBits ⟨numerator * Nat.pow 5 places, places⟩ =
      Double.nearestBits numerator (Nat.pow 2 places) := by
  have hpow : Nat.pow 10 places = Nat.pow 2 places * Nat.pow 5 places := Nat.mul_pow 2 5 places
  have hpos : 0 < Nat.pow 5 places := Nat.pow_pos (by decide)
  rw [nearestBits, hpow, Double.nearestBits_scale hpos]

theorem nearestBits_exactly {bits : Nat} (h : bits < Double.infinityBits) :
    (exactly bits).nearestBits = bits := by
  have hunits := Double.nearestBits_units h
  unfold Double.unitsPerOne at hunits
  unfold exactly
  generalize 1074 = places at hunits ⊢
  rw [nearestBits_binary, hunits]

theorem nearestBits_shortest {bits : Nat} (h : bits < Double.infinityBits) :
    (shortest bits).nearestBits = bits := by
  rw [shortest, nearestBits_trim]
  cases hfound : (List.range' 1 17).findSome? (withDigits? bits) with
  | none => exact nearestBits_exactly h
  | some d =>
    obtain ⟨digits, -, hdigits⟩ := List.exists_of_findSome?_eq_some hfound
    exact nearestBits_of_withDigits hdigits

theorem text_ofBits {bits : Nat} (h : bits < Double.infinityBits) :
    text (Float.ofBits bits.toUInt64) = String.ofList (shortest bits).numeral := by
  rw [text, Double.isNaN_ofBits h, Double.magnitude_ofBits h, Double.isNegative_ofBits h]
  simp [h.ne]

theorem read_text {bits : Nat} (h : bits < Double.infinityBits) :
    read (text (Float.ofBits bits.toUInt64)).toList = Float.ofBits bits.toUInt64 := by
  rw [text_ofBits h, String.toList_ofList, read, ofNumeral_numeral, nearestBits_shortest h]

/-- The text of a finite double is the numeral of its absolute value, behind a minus if it is negative. -/
theorem text_of_isFinite {x : Float} (h : x.isFinite = true) :
    text x = if Double.isNegative x then "-" ++ text x.abs else text x.abs := by
  have hlt := Double.magnitude_lt h
  rw [Double.abs_eq_ofBits, text_ofBits hlt, text, Double.isNaN_of_isFinite h]
  simp [hlt.ne]

theorem read_finite_or_infinite (numeral : List Char) :
    (∃ bits < Double.infinityBits, read numeral = Float.ofBits bits.toUInt64) ∨
      read numeral = Float.ofBits Double.infinityBits.toUInt64 := by
  have hle : (ofNumeral numeral).nearestBits ≤ Double.infinityBits := Nat.min_le_left ..
  rcases Nat.lt_or_eq_of_le hle with hlt | heq
  · exact .inl ⟨_, hlt, rfl⟩
  · exact .inr (by rw [read, heq])

end Lox.Decimal
