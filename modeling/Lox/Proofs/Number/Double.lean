import Lox.Number.Double
import Mathlib

/-!
Doubles and their bits. A finite pattern of bits stands for itself, and the fraction that it stands for
rounds to it. Rounding asks for the value of a fraction only.
-/
namespace Lox.Double

section Words

open Float.Model.UnpackedFloat

variable {bits : Nat}

theorem toNat_unpackExponent (word : BitVec 64) :
    (@unpackExponent .binary64 word).toNat = word.toNat / 2 ^ 52 % 2 ^ 11 := by
  simp [unpackExponent, Nat.shiftRight_eq_div_pow]

theorem toNat_unpackMantissa (word : BitVec 64) :
    (@unpackMantissa .binary64 word).toNat = word.toNat % 2 ^ 52 := by
  simp [unpackMantissa]

theorem unpackExponent_ne (h : bits < infinityBits) :
    @unpackExponent .binary64 bits.toUInt64.toBitVec ≠ -1#_ := by
  have hbits : bits % 2 ^ 64 = bits := Nat.mod_eq_of_lt (h.trans (by decide))
  intro hexponent
  have hnat := toNat_unpackExponent bits.toUInt64.toBitVec
  rw [hexponent, UInt64.toNat_toBitVec, UInt64.toNat_ofNat', hbits] at hnat
  have hall : bits / 2 ^ 52 % 2 ^ 11 = 2 ^ 11 - 1 := hnat.symm
  unfold infinityBits at h
  omega

theorem pack_unpack_finite (h : bits < infinityBits) :
    Float.Model.UnpackedFloat.pack .binary64 (unpack .binary64 bits.toUInt64.toBitVec) =
      bits.toUInt64.toBitVec := by
  rw [pack_unpack, if_neg]
  exact fun hnan => unpackExponent_ne h (of_decide_eq_true hnan).1

theorem toBits_ofBits (h : bits < infinityBits) :
    (Float.ofBits bits.toUInt64).toBits.toNat = bits := by
  have hbits : bits < 2 ^ 64 := h.trans (by decide)
  change (UInt64.ofBitVec (Float.Model.UnpackedFloat.pack .binary64
    (unpack .binary64 bits.toUInt64.toBitVec))).toNat = bits
  rw [pack_unpack_finite h]
  simpa using hbits

theorem isNaN_ofBits (h : bits < infinityBits) : (Float.ofBits bits.toUInt64).isNaN = false := by
  change (unpack .binary64 (Float.Model.UnpackedFloat.pack .binary64
    (unpack .binary64 bits.toUInt64.toBitVec))).isNaN = false
  rw [pack_unpack_finite h, unpack, if_neg (unpackExponent_ne h)]
  split
  · split <;> rfl
  · rfl

variable {x : Float}

theorem ofBits_toBits (x : Float) : Float.ofBits x.toBits = x := by
  obtain ⟨word, hvalid⟩ := x
  have hpack : Float.Model.UnpackedFloat.pack .binary64 (unpack .binary64 word.toBitVec) =
      word.toBitVec := by
    rw [pack_unpack]
    split
    · rename_i hnan
      obtain ⟨hexponent, hmantissa⟩ := of_decide_eq_true hnan
      exact (hvalid.eq_packedNaN hexponent hmantissa).symm
    · rfl
  change Float.ofModel ⟨UInt64.ofBitVec (Float.Model.UnpackedFloat.pack .binary64
    (unpack .binary64 word.toBitVec)), _⟩ = _
  simp only [hpack]

theorem isNaN_of_isFinite (h : x.isFinite = true) : x.isNaN = false := by
  change (unpack .binary64 x.toBits.toBitVec).isFinite = true at h
  change (unpack .binary64 x.toBits.toBitVec).isNaN = false
  generalize unpack .binary64 x.toBits.toBitVec = unpacked at h
  cases unpacked with
  | infinity | notANumber => contradiction
  | zero | finite => rfl

theorem magnitude_lt (h : x.isFinite = true) : magnitude x < infinityBits := by
  have hexponent : @unpackExponent .binary64 x.toBits.toBitVec ≠ -1#_ := by
    intro hexponent
    change (unpack .binary64 x.toBits.toBitVec).isFinite = true at h
    rw [unpack, if_pos hexponent] at h
    split at h <;> contradiction
  have hnat : x.toBits.toNat / 2 ^ 52 % 2 ^ 11 ≠ 2 ^ 11 - 1 := by
    rw [← UInt64.toNat_toBitVec, ← toNat_unpackExponent]
    exact fun hnat => hexponent (BitVec.eq_of_toNat_eq hnat)
  have hmagnitude : magnitude x = x.toBits.toNat % 2 ^ 63 := rfl
  unfold infinityBits
  omega

theorem abs_eq_ofBits (x : Float) : x.abs = Float.ofBits (magnitude x).toUInt64 := by
  have hmagnitude : magnitude x < 2 ^ 63 := Nat.mod_lt _ (by decide)
  have hword : (magnitude x).toUInt64.toBitVec.toNat = x.toBits.toNat % 2 ^ 63 :=
    Nat.mod_eq_of_lt (hmagnitude.trans (by decide))
  have hmantissa : @unpackMantissa .binary64 (magnitude x).toUInt64.toBitVec =
      @unpackMantissa .binary64 x.toBits.toBitVec := by
    apply BitVec.eq_of_toNat_eq
    rw [toNat_unpackMantissa, toNat_unpackMantissa, hword, UInt64.toNat_toBitVec]
    omega
  have hexponent : @unpackExponent .binary64 (magnitude x).toUInt64.toBitVec =
      @unpackExponent .binary64 x.toBits.toBitVec := by
    apply BitVec.eq_of_toNat_eq
    rw [toNat_unpackExponent, toNat_unpackExponent, hword, UInt64.toNat_toBitVec]
    omega
  have hsign : @unpackSign .binary64 (magnitude x).toUInt64.toBitVec = 0#1 := by
    apply BitVec.eq_of_toNat_eq
    simp [unpackSign, Nat.shiftRight_eq_div_pow, hword]
  have hunpack : unpack .binary64 (magnitude x).toUInt64.toBitVec =
      (unpack .binary64 x.toBits.toBitVec).abs := by
    unfold unpack
    rw [hsign]
    simp only [hmantissa, hexponent]
    split
    · split <;> rfl
    · split
      · split <;> rfl
      · rfl
  change Float.ofModel (.pack (unpack .binary64 x.toBits.toBitVec).abs) =
    Float.ofModel (.pack (unpack .binary64 (magnitude x).toUInt64.toBitVec))
  rw [hunpack]

theorem abs_of_not_isNegative (h : isNegative x = false) : x.abs = x := by
  have hmagnitude : magnitude x = x.toBits.toNat :=
    Nat.mod_eq_of_lt (Nat.lt_of_not_le (of_decide_eq_false h))
  rw [abs_eq_ofBits, hmagnitude]
  exact (congrArg Float.ofBits UInt64.ofNat_toNat).trans (ofBits_toBits x)

end Words

theorem magnitude_ofBits {bits : Nat} (h : bits < infinityBits) :
    magnitude (Float.ofBits bits.toUInt64) = bits := by
  rw [magnitude, toBits_ofBits h]
  exact Nat.mod_eq_of_lt (h.trans (by decide))

theorem isNegative_ofBits {bits : Nat} (h : bits < infinityBits) :
    isNegative (Float.ofBits bits.toUInt64) = false := by
  have hbits : bits < Nat.pow 2 63 := h.trans (by decide)
  rw [isNegative, toBits_ofBits h]
  exact decide_eq_false (Nat.not_le_of_lt hbits)

variable {num den factor : Nat}

theorem roundQuotient_scale (hfactor : 0 < factor) :
    roundQuotient (num * factor) (den * factor) = roundQuotient num den := by
  have hremainder : num * factor % (den * factor) = num % den * factor := Nat.mul_mod_mul_right ..
  have hlt : 2 * (num % den * factor) < den * factor ↔ 2 * (num % den) < den := by
    rw [← Nat.mul_assoc]
    exact Nat.mul_lt_mul_right hfactor
  have heq : 2 * (num % den * factor) = den * factor ↔ 2 * (num % den) = den := by
    rw [← Nat.mul_assoc]
    exact Nat.mul_left_inj hfactor.ne'
  simp only [roundQuotient, Nat.mul_div_mul_right num den hfactor, hremainder, hlt, heq]

theorem roundQuotient_exact (quotient : Nat) (hden : 0 < den) :
    roundQuotient (quotient * den) den = quotient := by
  simp [roundQuotient, Nat.mul_div_cancel quotient hden, hden]

theorem nearestBits_scale (hfactor : 0 < factor) :
    nearestBits (num * factor) (den * factor) = nearestBits num den := by
  have hnum : num * factor * unitsPerOne = num * unitsPerOne * factor := Nat.mul_right_comm ..
  have hden : ∀ n, den * factor * n = den * n * factor := fun n => Nat.mul_right_comm ..
  simp only [nearestBits, hnum, hden, Nat.mul_div_mul_right _ den hfactor, roundQuotient_scale hfactor]

theorem log2_units {fraction shift : Nat} (h : fraction < 2 ^ 52) :
    ((fraction + 2 ^ 52) * 2 ^ shift).log2 = 52 + shift := by
  have hpos : 0 < 2 ^ shift := Nat.two_pow_pos shift
  apply (Nat.log2_eq_iff (Nat.mul_pos (by omega) hpos).ne').2
  have hpow : 2 ^ (52 + shift + 1) = 2 ^ 53 * 2 ^ shift := by rw [← Nat.pow_add, Nat.add_right_comm]
  rw [hpow, Nat.pow_add]
  exact ⟨Nat.mul_le_mul_right _ (by omega), Nat.mul_lt_mul_of_pos_right (by omega) hpos⟩

theorem units_small {bits : Nat} (h : bits < 2 ^ 52) : units 52 bits = bits := if_pos h

theorem units_large (exponent : Nat) {fraction : Nat} (h : fraction < 2 ^ 52) :
    units 52 ((exponent + 1) * 2 ^ 52 + fraction) = (fraction + 2 ^ 52) * 2 ^ exponent := by
  have hnot : ¬ (exponent + 1) * 2 ^ 52 + fraction < 2 ^ 52 := by omega
  have hmod : ((exponent + 1) * 2 ^ 52 + fraction) % 2 ^ 52 = fraction := by omega
  have hdiv : ((exponent + 1) * 2 ^ 52 + fraction) / 2 ^ 52 = exponent + 1 := by omega
  refine (if_neg hnot).trans ?_
  simp only [Nat.pow_eq, hmod, hdiv, Nat.add_sub_cancel]

theorem unitsPerOne_pos : 0 < unitsPerOne := by
  unfold unitsPerOne
  generalize 1074 = exponent
  exact Nat.two_pow_pos exponent

/-- A finite double is the nearest to what it stands for. -/
theorem nearestBits_units {bits : Nat} (h : bits < infinityBits) :
    nearestBits (units 52 bits) unitsPerOne = bits := by
  have hpos := unitsPerOne_pos
  suffices hrounded : ∀ count shift, units 52 bits = count * 2 ^ shift →
      (units 52 bits).log2 - 52 = shift → shift * 2 ^ 52 + count = bits →
      nearestBits (units 52 bits) unitsPerOne = bits by
    rcases Nat.lt_or_ge bits (2 ^ 52) with hsmall | hlarge
    · rw [units_small hsmall] at hrounded ⊢
      have hlog : bits.log2 - 52 = 0 := by
        rcases Nat.eq_zero_or_pos bits with rfl | hne
        · rfl
        · have := (Nat.log2_lt hne.ne').2 hsmall
          omega
      exact hrounded bits 0 (by simp) hlog (by simp)
    · obtain ⟨exponent, hexponent⟩ : ∃ exponent, bits / 2 ^ 52 = exponent + 1 :=
        ⟨bits / 2 ^ 52 - 1, by omega⟩
      have hfraction : bits % 2 ^ 52 < 2 ^ 52 := Nat.mod_lt _ (by decide)
      have hbits : (exponent + 1) * 2 ^ 52 + bits % 2 ^ 52 = bits := by omega
      have hsum : exponent * 2 ^ 52 + (bits % 2 ^ 52 + 2 ^ 52) = bits := by
        rw [Nat.succ_mul, Nat.add_right_comm] at hbits
        rw [← Nat.add_assoc, hbits]
      have hunits := units_large exponent hfraction
      rw [hbits] at hunits
      refine hrounded (bits % 2 ^ 52 + 2 ^ 52) exponent hunits ?_ hsum
      rw [hunits, log2_units hfraction]
      omega
  intro count shift hunits hshift hbits
  have hexact : count * 2 ^ shift * unitsPerOne = count * (unitsPerOne * 2 ^ shift) := by
    rw [Nat.mul_assoc, Nat.mul_comm unitsPerOne]
  have hden : 0 < unitsPerOne * 2 ^ shift := Nat.mul_pos hpos (Nat.two_pow_pos shift)
  simp only [nearestBits, Nat.pow_eq]
  rw [Nat.mul_div_cancel _ hpos, hshift, hunits, hexact, roundQuotient_exact count hden, hbits]
  exact Nat.min_eq_right h.le

end Lox.Double
