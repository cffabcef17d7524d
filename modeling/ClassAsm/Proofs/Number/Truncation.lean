import Mathlib.Data.Rat.Floor
import ClassAsm.Proofs.Number.Doubles

/-!
# Truncating doubles

What `truncate` and `whole?` compute on mantissas and exponents, said of the values: the integer
part toward zero, and the integer that a double is.
-/

namespace ClassAsm.Number

/-- The integer part of a number, toward zero. -/
def towardZero (q : ℚ) : ℤ := if 0 ≤ q then ⌊q⌋ else ⌈q⌉

@[simp] theorem towardZero_intCast (i : ℤ) : towardZero i = i := by
  simp [towardZero]

theorem towardZero_neg (q : ℚ) : towardZero (-q) = -towardZero q := by
  rcases lt_trichotomy q 0 with h | rfl | h
  · simp [towardZero, h.le, not_le.mpr h, Int.floor_neg]
  · simp [towardZero]
  · simp [towardZero, h.le, not_le.mpr h, Int.ceil_neg]

/-- Whole parts are taken from the magnitude. -/
theorem towardZero_value (p : Parts) : towardZero p.value =
      withSign p.negative (p.mantissa * 2 ^ p.exponent.toNat / 2 ^ (-p.exponent).toNat) := by
  have hpos : towardZero (p.mantissa * 2 ^ p.exponent) =
      (p.mantissa * 2 ^ p.exponent.toNat / 2 ^ (-p.exponent).toNat : ℕ) := by
    rw [towardZero, if_pos (by positivity), two_zpow, mul_div_assoc']
    have hcast : (p.mantissa * 2 ^ p.exponent.toNat / 2 ^ (-p.exponent).toNat : ℚ) =
        (p.mantissa * 2 ^ p.exponent.toNat : ℕ) / (2 ^ (-p.exponent).toNat : ℕ) := by push_cast; rfl
    rw [hcast, Rat.floor_natCast_div_natCast]
    rfl
  obtain ⟨negative, m, e⟩ := p
  cases negative
  · exact hpos
  · simp only [Parts.value, withSign, if_true, Int.cast_neg, neg_mul, Int.cast_natCast,
      towardZero_neg]
    rw [hpos]

variable {p : Parts}

/-- The bits of a number say between which powers of two it lies. -/
theorem abs_value_lt_iff (hp : p.mantissa = 0 → p.exponent ≤ 0) {k : ℕ} :
    |p.value| < 2 ^ k ↔ p.exponent + bitLength p.mantissa ≤ k := by
  rw [p.abs_value, bitLength]
  split <;> rename_i hm
  · have he := hp hm
    rw [hm, Nat.cast_zero, zero_mul]
    exact iff_of_true (by positivity) (by omega)
  have hshift (b : ℕ) : (2 ^ b * 2 ^ p.exponent : ℚ) = 2 ^ (b + p.exponent) := by
    rw [zpow_add₀ two_ne_zero, zpow_natCast]
  constructor <;> intro h
  · by_contra hk
    have hlog : (2 : ℚ) ^ p.mantissa.log2 ≤ p.mantissa := by exact_mod_cast Nat.log2_self_le hm
    have hle : (2 : ℚ) ^ k ≤ p.mantissa * 2 ^ p.exponent := by
      calc (2 : ℚ) ^ k = 2 ^ (k : ℤ) := (zpow_natCast 2 k).symm
        _ ≤ 2 ^ (p.mantissa.log2 + p.exponent) := zpow_le_zpow_right₀ one_le_two (by omega)
        _ = 2 ^ p.mantissa.log2 * 2 ^ p.exponent := (hshift _).symm
        _ ≤ p.mantissa * 2 ^ p.exponent := by gcongr
    exact absurd h (not_lt.mpr hle)
  · have hlog : (p.mantissa : ℚ) < 2 ^ (p.mantissa.log2 + 1) := by exact_mod_cast Nat.lt_log2_self
    calc p.mantissa * (2 : ℚ) ^ p.exponent < 2 ^ (p.mantissa.log2 + 1) * 2 ^ p.exponent := by gcongr
      _ = 2 ^ ((p.mantissa.log2 + 1 : ℕ) + p.exponent) := hshift _
      _ ≤ 2 ^ (k : ℤ) := zpow_le_zpow_right₀ one_le_two (by omega)
      _ = 2 ^ k := zpow_natCast 2 k

variable {x : Float}

theorem exponent_nonpos_of_parts? (h : parts? x = some p) (hm : p.mantissa = 0) :
    p.exponent ≤ 0 := by
  have hfull := (Parts.on_double_iff.mp (on_double_of_parts? h)).2.2.2
  omega

theorem abs_towardZero (q : ℚ) : |towardZero q| = ⌊|q|⌋ := by
  have hpos {q : ℚ} (h : 0 ≤ q) : |towardZero q| = ⌊|q|⌋ := by
    rw [towardZero, if_pos h, abs_of_nonneg h, abs_of_nonneg (Int.floor_nonneg.mpr h)]
  rcases le_total 0 q with h | h
  · exact hpos h
  · rw [← neg_neg q, towardZero_neg, abs_neg, abs_neg]
    exact hpos (neg_nonneg.mpr h)

variable {i : ℤ}

theorem toInt64?_eq_some_iff {w : Int64} : toInt64? i = some w ↔ w.toInt = i := by
  unfold toInt64?
  have hmin : Int64.minValue.toInt = -2 ^ 63 := by decide
  have hmax : Int64.maxValue.toInt = 2 ^ 63 - 1 := by decide
  have hlow := w.le_toInt
  have hhigh := w.toInt_lt
  split <;> rename_i hi
  · have hword : (Int64.ofInt i).toInt = i := Int64.toInt_ofInt_of_le (by omega) (by omega)
    rw [Option.some.injEq, ← Int64.toInt_inj, hword, eq_comm]
  · exact iff_of_false (by simp) (by omega)

/-- A double is truncated toward zero where that fits a word. -/
theorem truncate_of_parts? (h : parts? x = some p) :
    truncate x = (toInt64? (towardZero p.value)).getD Int64.minValue := by
  simp only [truncate, h]
  split <;> rename_i hbits
  · -- too many bits for a word
    have hlarge : (2 : ℚ) ^ 64 ≤ |p.value| := by
      rw [← not_lt, abs_value_lt_iff (exponent_nonpos_of_parts? h)]
      push_cast
      omega
    have hinteger : 2 ^ 64 ≤ |towardZero p.value| := by
      rw [abs_towardZero, Int.le_floor]
      exact_mod_cast hlarge
    cases hw : toInt64? (towardZero p.value) with
    | none => rfl
    | some w =>
      rw [← toInt64?_eq_some_iff.mp hw, abs_eq_max_neg] at hinteger
      have hlow := w.le_toInt
      have hhigh := w.toInt_lt
      omega
  · have hwhole : (if 0 ≤ p.exponent then p.mantissa * pow2 p.exponent.toNat
        else p.mantissa / pow2 (-p.exponent).toNat) =
        p.mantissa * 2 ^ p.exponent.toNat / 2 ^ (-p.exponent).toNat := by
      split <;> rename_i he
      · change p.mantissa * 2 ^ p.exponent.toNat = _
        rw [show (-p.exponent).toNat = 0 by omega, pow_zero, Nat.div_one]
      · change p.mantissa / 2 ^ (-p.exponent).toNat = _
        rw [show p.exponent.toNat = 0 by omega, pow_zero, Nat.mul_one]
    rw [hwhole, towardZero_value]
    generalize p.mantissa * 2 ^ p.exponent.toNat / 2 ^ (-p.exponent).toNat = n
    change (if Int64.minValue.toInt ≤ withSign p.negative n ∧
      withSign p.negative n ≤ Int64.maxValue.toInt then Int64.ofInt (withSign p.negative n) else
      Int64.minValue) = _
    unfold toInt64?
    split <;> rfl

/-- A word holds every integer of less than 64 bits. -/
theorem exists_toInt_eq (h : |i| < 2 ^ 63) : ∃ w : Int64, w.toInt = i := by
  rw [abs_lt] at h
  exact ⟨Int64.ofInt i, Int64.toInt_ofInt_of_le (by omega) h.2⟩

/-- No bits stand behind the point exactly if the value is an integer. -/
theorem mod_eq_zero_iff (p : Parts) :
    p.mantissa % 2 ^ (-p.exponent).toNat = 0 ↔ p.value = towardZero p.value := by
  have habs := p.abs_value
  rw [two_zpow, mul_div_assoc'] at habs
  have hone : p.exponent.toNat = 0 ∨ (-p.exponent).toNat = 0 := by omega
  constructor
  · intro hmod
    obtain ⟨n, hn⟩ : 2 ^ (-p.exponent).toNat ∣ p.mantissa * 2 ^ p.exponent.toNat :=
      Dvd.dvd.mul_right (Nat.dvd_of_mod_eq_zero hmod) _
    have hscaled : (p.mantissa : ℚ) * (2 ^ p.exponent.toNat / 2 ^ (-p.exponent).toNat) = n := by
      rw [mul_div_assoc', div_eq_iff (by positivity), mul_comm (n : ℚ)]
      exact_mod_cast hn
    rw [towardZero_value, hn, Nat.mul_div_cancel_left _ (Nat.two_pow_pos _), Parts.value, two_zpow]
    cases p.negative
    · exact hscaled
    · change ((-(p.mantissa : ℤ) : ℤ) : ℚ) * _ = ((-(n : ℤ) : ℤ) : ℚ)
      push_cast
      rw [← hscaled, neg_mul]
  · intro hvalue
    rw [hvalue, eq_div_iff (by positivity)] at habs
    have hint : ((p.mantissa * 2 ^ p.exponent.toNat : ℕ) : ℤ) =
        |towardZero p.value| * (2 ^ (-p.exponent).toNat : ℕ) := by exact_mod_cast habs.symm
    have hdvd := Int.natCast_dvd_natCast.mp (Dvd.intro_left _ hint.symm)
    rcases hone with hone | hone <;> rw [hone] at hdvd
    · exact Nat.mod_eq_zero_of_dvd (by simpa using hdvd)
    · rw [hone, pow_zero, Nat.mod_one]

theorem abs_toInt_lt_iff {i : Int64} : |i.toInt| < 2 ^ 63 ↔ i ≠ Int64.minValue := by
  have hmin : Int64.minValue.toInt = -2 ^ 63 := by decide
  have hlow := i.le_toInt
  have hhigh := i.toInt_lt
  rw [abs_lt, Ne, ← Int64.toInt_inj, hmin]
  omega

/-- A double is read as a word when it is an integer and its magnitude is below `2 ^ 63`. -/
theorem whole?_eq_some_iff {i : Int64} :
    whole? x = some i ↔ HasValue x i.toInt ∧ i ≠ Int64.minValue := by
  rw [← abs_toInt_lt_iff]
  cases h : parts? x with
  | none => simp [whole?, HasValue, h]
  | some p =>
    have hbits := abs_value_lt_iff (exponent_nonpos_of_parts? h) (k := 63)
    simp only [whole?, HasValue, h, Option.some.injEq, exists_eq_left']
    split <;> rename_i hlarge
    · refine iff_of_false (by simp) fun ⟨hvalue, hsmall⟩ ↦ ?_
      rw [hvalue] at hbits
      have hbits := hbits.mp (by exact_mod_cast hsmall)
      omega
    have hsmall : |p.value| < 2 ^ 63 := hbits.mpr (by omega)
    have hmod := mod_eq_zero_iff p
    split <;> rename_i hrest
    · refine iff_of_false (by simp) fun ⟨hvalue, _⟩ ↦ hrest (hmod.mpr ?_)
      rw [hvalue, towardZero_intCast]
    · have hvalue := hmod.mp (not_not.mp hrest)
      have hinteger : |towardZero p.value| < 2 ^ 63 := by
        rw [hvalue] at hsmall
        exact_mod_cast hsmall
      obtain ⟨w, hw⟩ := exists_toInt_eq hinteger
      rw [truncate_of_parts? h, toInt64?_eq_some_iff.mpr hw, Option.getD_some, Option.some.injEq,
        ← Int64.toInt_inj, hw]
      refine ⟨fun hi ↦ ⟨?_, ?_⟩, fun ⟨hi, _⟩ ↦ by rw [hi, towardZero_intCast]⟩
      · rw [← hi]
        exact hvalue
      · rwa [← hi]

end ClassAsm.Number
