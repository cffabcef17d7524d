import ClassAsm.Proofs.Number.Rounding

/-!
# Decimals are rounded correctly

A decimal `m / 10 ^ e` becomes a double in one of two ways: small ones by one division of two
doubles that are exact, all others by a division of natural numbers that keeps enough bits.  Either
way the quotient is rounded once, so the double is the nearest one (`isRounding_ofScientific`).

## What is here

* `div_eq`: what the division of mantissas leaves out is in its accuracy.
* `Nearest.hasValue`: what is a double already is not rounded; `exists_hasValue_of_nat` gives
  doubles for all natural numbers of 53 bits.
* `ofScientific_fast`, `ofScientific_slow`: the two ways.
-/

open Float.Model Float.Model.UnpackedFloat

namespace ClassAsm.Number

/-! ## Quotients -/

theorem le_log2_quotient {a b : ℕ} (hb : 0 < b) (h : b.log2 + 53 ≤ a.log2) : 52 ≤ (a / b).log2 := by
  have ha : a ≠ 0 := by
    rintro rfl
    simp at h
  have hle : 2 ^ 52 ≤ a / b := by
    rw [Nat.le_div_iff_mul_le hb]
    calc 2 ^ 52 * b ≤ 2 ^ 52 * 2 ^ (b.log2 + 1) := Nat.mul_le_mul_left _ Nat.lt_log2_self.le
      _ = 2 ^ (b.log2 + 53) := by rw [← Nat.pow_add]; congr 1; omega
      _ ≤ 2 ^ a.log2 := Nat.pow_le_pow_right two_pos h
      _ ≤ a := Nat.log2_self_le ha
  exact (Nat.le_log2 (by omega)).mpr hle

variable {m : ℕ}

theorem le_log2_shiftLeft (hm : 0 < m) (k : ℕ) : m.log2 + k ≤ (m <<< k).log2 := by
  have hpos : 0 < m <<< k := by
    rw [Nat.shiftLeft_eq]
    positivity
  rw [Nat.le_log2 hpos.ne', Nat.shiftLeft_eq, Nat.pow_add]
  exact Nat.mul_le_mul_right _ (Nat.log2_self_le hm.ne')

/-- Division keeps enough bits of the quotient, and what it drops is in the accuracy. -/
theorem div_eq {m₁ m₂ : ℕ} (e₁ e₂ : ℤ) (h₁ : 0 < m₁) (h₂ : 0 < m₂) :
    ∃ t n, Rounded .double (m₁ * 2 ^ e₁ / (m₂ * 2 ^ e₂)) t n ∧
      UnpackedFloat.div Format.binary64 (.finite .positive m₁ e₁ h₁) (.finite .positive m₂ e₂ h₂) =
        carried .positive n t := by
  obtain ⟨t, ht⟩ : ∃ t, t = min (e₁ - e₂) (max (m₁.log2 + e₁ - (m₂.log2 + e₂) - 53) (-1074)) :=
    ⟨_, rfl⟩
  obtain ⟨k, hk⟩ : ∃ k : ℕ, e₁ - e₂ - t = k := ⟨(e₁ - e₂ - t).toNat, by omega⟩
  have hcore : divCore Format.binary64 m₁ e₁ m₂ e₂ =
      ((m₁ <<< k) / m₂, t, accuracyOfFraction ((m₁ <<< k) % m₂) m₂) := by
    have htarget :
      min (e₁ - e₂) (Format.binary64.targetExponent (totalExponent m₁ e₁ - totalExponent m₂ e₂)) =
        t := by
      change min (e₁ - e₂) (max (m₁.log2 + 1 + e₁ - (m₂.log2 + 1 + e₂) - 53) (-1074)) = t
      omega
    simp only [divCore, htarget, hk, Int.toNat_natCast]
  have hm₂ : (m₂ : ℚ) ≠ 0 := by exact_mod_cast h₂.ne'
  have hscaled : (m₁ * 2 ^ e₁ / (m₂ * 2 ^ e₂) : ℚ) / 2 ^ t = (m₁ <<< k : ℕ) / m₂ := by
    have he₁ : (2 : ℚ) ^ e₁ = 2 ^ k * 2 ^ e₂ * 2 ^ t := by
      rw [← zpow_natCast, ← zpow_add₀ two_ne_zero, ← zpow_add₀ two_ne_zero]
      congr 1
      omega
    rw [he₁, Nat.shiftLeft_eq]
    push_cast
    field_simp
  have hdiscard : Discards (accuracyOfFraction ((m₁ <<< k) % m₂) m₂)
      ((m₁ * 2 ^ e₁ / (m₂ * 2 ^ e₂) : ℚ) / 2 ^ t - ((m₁ <<< k) / m₂ : ℕ)) := by
    have hrest : ((m₁ <<< k : ℕ) / m₂ : ℚ) - ((m₁ <<< k) / m₂ : ℕ) =
      ((m₁ <<< k) % m₂ : ℕ) / m₂ := by
      have hdiv : ((m₁ <<< k : ℕ) : ℚ) = m₂ * ((m₁ <<< k) / m₂ : ℕ) + ((m₁ <<< k) % m₂ : ℕ) := by
        exact_mod_cast (Nat.div_add_mod (m₁ <<< k) m₂).symm
      rw [eq_div_iff hm₂, sub_mul, div_mul_cancel₀ _ hm₂]
      linarith
    rw [hscaled, hrest]
    exact discards_accuracyOfFraction (Nat.mod_lt _ h₂)
  have hbits : 52 ≤ ((m₁ <<< k) / m₂).log2 ∨ t ≤ -1074 := by
    by_cases hlow : t ≤ -1074
    · exact .inr hlow
    · have hlog := le_log2_shiftLeft h₁ k
      exact .inl (le_log2_quotient h₂ (by omega))
  obtain ⟨t', n, hrounded, heq⟩ := roundWithAccuracy_eq .positive hdiscard hbits
  refine ⟨t', n, hrounded, ?_⟩
  rw [← heq, UnpackedFloat.div, hcore]
  rfl

/-! ## Exact doubles -/

variable {x y : Float} {q : ℚ}

/-- What is a double already is not rounded. -/
theorem Nearest.hasValue (h : Nearest q x) (hy : HasValue y q) : HasValue x q := by
  obtain ⟨p, hp, hnear⟩ := h
  obtain ⟨p', hp', rfl⟩ := hy
  have hle := (hnear.2 p' (on_double_of_parts? hp')).1
  rw [sub_self, abs_zero] at hle
  exact ⟨p, hp, (sub_eq_zero.mp (abs_nonpos_iff.mp hle)).symm⟩

theorem hasValue_neg (h : HasValue x q) : HasValue (-x) (-q) := by
  obtain ⟨p, hp, rfl⟩ := h
  exact ⟨_, by rw [parts?_neg, hp]; rfl, p.value_neg⟩

/-- A number of 53 bits is a double at every scale. -/
theorem exists_hasValue_of_bits {e : ℤ} (hm : 2 ^ 52 ≤ m) (hlt : m < 2 ^ 53) (hlow : -1074 ≤ e)
    (hhigh : e ≤ 971) : ∃ x, HasValue x (m * 2 ^ e) := by
  obtain ⟨x, hx⟩ := exists_parts? (p := ⟨false, m, e⟩) ⟨hlt, hlow, hhigh, .inl hm⟩
  exact ⟨x, _, hx, rfl⟩

/-- Natural numbers of 53 bits are doubles, and so is `2 ^ 53`. -/
theorem exists_hasValue_of_nat {n : ℕ} (hn : n ≤ 2 ^ 53) : ∃ x, HasValue x n := by
  rcases Nat.eq_zero_or_pos n with rfl | hpos
  · obtain ⟨x, hx⟩ :=
      exists_parts? (p := ⟨false, 0, -1074⟩) ⟨by decide, le_rfl, by decide, .inr rfl⟩
    exact ⟨x, _, hx, by simp [Parts.value, withSign]⟩
  rcases Nat.lt_or_eq_of_le hn with hlt | rfl
  · obtain ⟨hlog, hlow, hhigh⟩ := full_shift hpos.ne' hlt
    obtain ⟨x, hx⟩ :=
      exists_hasValue_of_bits hlow hhigh (e := -(52 - n.log2 : ℕ)) (by omega) (by omega)
    have hvalue : ((n * 2 ^ (52 - n.log2) : ℕ) * 2 ^ (-(52 - n.log2 : ℕ) : ℤ) : ℚ) = n := by
      rw [zpow_neg, zpow_natCast]
      push_cast
      field_simp
    exact ⟨x, hvalue ▸ hx⟩
  · obtain ⟨x, hx⟩ :=
      exists_hasValue_of_bits (m := 2 ^ 52) (e := 1) le_rfl (by decide) (by decide) (by decide)
    have hvalue : ((2 ^ 52 : ℕ) * 2 ^ (1 : ℤ) : ℚ) = (2 ^ 53 : ℕ) := by norm_num
    exact ⟨x, hvalue ▸ hx⟩

variable {p : Parts}

theorem Parts.negative_of_pos (h : 0 < p.value) : p.negative = false := by
  rw [← Bool.not_eq_true]
  intro hneg
  have hle : p.value ≤ 0 := by
    simp only [Parts.value, withSign, hneg, if_true]
    push_cast
    rw [neg_mul, neg_nonpos]
    positivity
  exact absurd h (not_lt.mpr hle)

theorem Parts.value_of_pos (h : 0 < p.value) : p.value = p.mantissa * 2 ^ p.exponent := by
  rw [Parts.value, Parts.negative_of_pos h]
  rfl

theorem unpack_of_parts? (h : parts? x = some p) (hpos : 0 < p.value) :
    ∃ hm, x.toModel.unpack = .finite .positive p.mantissa p.exponent hm := by
  have hsign := Parts.negative_of_pos hpos
  rw [parts?_eq] at h
  cases hu : x.toModel.unpack with
  | notANumber | infinity s => rw [hu] at h; cases h
  | zero s =>
    rw [hu] at h
    cases h
    cases s <;> simp [Parts.value, withSign, isMinus] at hpos
  | finite s m e hm =>
    rw [hu] at h
    cases h
    cases s with
    | positive => exact ⟨hm, rfl⟩
    | negative => cases hsign

/-- The quotient of two doubles is rounded once. -/
theorem div_float_eq {p' : Parts} (hx : parts? x = some p) (hy : parts? y = some p')
    (hp : 0 < p.value) (hp' : 0 < p'.value) :
    ∃ t n, Rounded .double (p.value / p'.value) t n ∧
    x / y = ⟨Float.Model.pack (carried .positive n t)⟩ := by
  obtain ⟨h₁, hux⟩ := unpack_of_parts? hx hp
  obtain ⟨h₂, huy⟩ := unpack_of_parts? hy hp'
  obtain ⟨t, n, hrounded, heq⟩ := div_eq p.exponent p'.exponent h₁ h₂
  rw [← Parts.value_of_pos hp, ← Parts.value_of_pos hp'] at hrounded
  refine ⟨t, n, hrounded, ?_⟩
  rw [← heq, ← hux, ← huy]
  rfl

/-- Shifting a natural number left to 53 bits leaves nothing to round. -/
theorem ofNat_eq (hm : 0 < m) :
    ∃ t n, Rounded .double m t n ∧
    UnpackedFloat.ofNat Format.binary64 m = carried .positive n t := by
  obtain ⟨k, hk⟩ : ∃ k : ℕ, (0 - max ((m.log2 : ℤ) + 0 - 52) (-1074)).toNat = k := ⟨_, rfl⟩
  have hlog := le_log2_shiftLeft hm k
  have hexact : Discards .exact ((m : ℚ) / 2 ^ (0 - (k : ℤ)) - (m <<< k : ℕ)) := by
    change _ = (0 : ℚ)
    rw [Nat.shiftLeft_eq, zero_sub, zpow_neg, zpow_natCast]
    push_cast
    field_simp
    ring
  obtain ⟨t, n, hrounded, heq⟩ := roundWithAccuracy_eq .positive hexact (by omega)
  refine ⟨t, n, hrounded, ?_⟩
  rw [← heq]
  have hcmp : compare (m : ℤ) 0 = .gt := by
    rw [Int.compare_eq_gt]
    exact_mod_cast hm
  simp only [UnpackedFloat.ofNat, UnpackedFloat.ofInt, UnpackedFloat.normalize, hcmp,
    UnpackedFloat.round, decreaseExponent, targetExponent_eq, Int.toNat_natCast, hk]

/-! ## Decimals -/

variable {e : ℕ}

/-- The table of powers of ten holds them exactly. -/
theorem exact_powerOfTen (he : e < Float.exactlyRepresentablePowersOfTen.size) :
    HasValue Float.exactlyRepresentablePowersOfTen[e] (10 ^ e) := by
  have htable : ∀ e : Fin 23, (parts? Float.exactlyRepresentablePowersOfTen[e]).any fun p ↦
      p.negative = false ∧
      p.mantissa * 2 ^ p.exponent.toNat = 10 ^ e.val * 2 ^ (-p.exponent).toNat := by
    decide +kernel
  obtain ⟨p, hp, hvalue⟩ := (Option.any_eq_true _ _).mp (htable ⟨e, he⟩)
  obtain ⟨hsign, hvalue⟩ := of_decide_eq_true hvalue
  refine ⟨p, hp, ?_⟩
  have hp' : p.value = p.mantissa * 2 ^ p.exponent := by
    rw [Parts.value, hsign]
    rfl
  rw [hp', two_zpow, mul_div_assoc', div_eq_iff (by positivity)]
  exact_mod_cast hvalue

theorem exact_ofUInt64 (hpos : 0 < m) (hm : m < 2 ^ 53) : HasValue m.toUInt64.toFloat m := by
  obtain ⟨t, n, hrounded, heq⟩ := ofNat_eq hpos
  have hfloat : m.toUInt64.toFloat = ⟨Float.Model.pack (carried .positive n t)⟩ := by
    have hword : m.toUInt64.toNat = m := UInt64.toNat_ofNat_of_lt' (Nat.lt_trans hm (by decide))
    rw [← heq]
    change (⟨Float.Model.pack (UnpackedFloat.ofNat Format.binary64 m.toUInt64.toNat)⟩ : Float) = _
    rw [hword]
  obtain ⟨-, hnear⟩ | ⟨hle, -⟩ := hrounded.isRounding (Nat.cast_nonneg m)
  · obtain ⟨y, hy⟩ := exists_hasValue_of_nat hm.le
    rw [hfloat]
    exact hnear.hasValue hy
  · rw [Nat.abs_cast] at hle
    have hbits : (m : ℚ) < 2 ^ 64 := by exact_mod_cast Nat.lt_trans hm (by decide)
    exact absurd (two_pow_le_limit.trans hle) (not_le.mpr hbits)

/-- Below half of the least double there is nothing but zero. -/
theorem rounded_zero {r : ℚ} (hr : 0 ≤ r) (h : r < 2 ^ (-1075 : ℤ)) :
    Rounded .double r (-1074) 0 := by
  have hunit : (2 : ℚ) ^ (-1075 : ℤ) = 1 / 2 * 2 ^ (-1074 : ℤ) := by
    rw [show (-1075 : ℤ) = -1 + -1074 by rfl, zpow_add₀ two_ne_zero, zpow_neg_one, one_div]
  have hhalf : r / 2 ^ (-1074 : ℤ) < 1 / 2 := by
    rw [div_lt_iff₀ (by positivity), ← hunit]
    exact h
  refine ⟨.of_abs_lt ?_, le_rfl, hhalf.trans (by norm_num [Grid.double]), .inl rfl⟩
  rw [Nat.cast_zero, Int.cast_zero, sub_zero, abs_of_nonneg (by positivity)]
  exact hhalf

theorem ofScientific_fast (hm : m < 2 ^ 53) (he : e ≤ 22) :
    ∃ t n, Rounded .double (m / 10 ^ e) t n ∧
      Float.ofScientific m true e = ⟨Float.Model.pack (carried .positive n t)⟩ := by
  have he' : e < Float.exactlyRepresentablePowersOfTen.size := Nat.lt_succ_of_le he
  obtain ⟨p', hp', hvalue'⟩ := exact_powerOfTen he'
  have hpos' : 0 < p'.value := by
    rw [hvalue']
    positivity
  have hfast : Float.ofScientific m true e =
    m.toUInt64.toFloat / Float.exactlyRepresentablePowersOfTen[e] := by
    rw [Float.ofScientific, dif_pos ⟨hm, he⟩]
    rfl
  rcases Nat.eq_zero_or_pos m with rfl | hpos
  · obtain ⟨h₂, hu⟩ := unpack_of_parts? hp' hpos'
    refine ⟨-1074, 0, ?_, ?_⟩
    · rw [Nat.cast_zero, zero_div]
      exact rounded_zero le_rfl (by positivity)
    · rw [hfast]
      change (⟨Float.Model.pack (UnpackedFloat.div Format.binary64 (.zero .positive)
        Float.exactlyRepresentablePowersOfTen[e].toModel.unpack)⟩ : Float) = _
      rw [hu]
      rfl
  · obtain ⟨p, hp, hvalue⟩ := exact_ofUInt64 hpos hm
    rw [hfast, ← hvalue, ← hvalue']
    exact div_float_eq hp hp' (by rw [hvalue]; exact_mod_cast hpos) hpos'

theorem mul_two_pow_lt {k : ℕ} (h : m.log2 + 1 + k ≤ e) : m * 2 ^ k < 10 ^ e := by
  calc m * 2 ^ k < 2 ^ (m.log2 + 1) * 2 ^ k :=
        Nat.mul_lt_mul_of_pos_right Nat.lt_log2_self (Nat.two_pow_pos k)
    _ = 2 ^ (m.log2 + 1 + k) := (Nat.pow_add ..).symm
    _ ≤ 2 ^ e := Nat.pow_le_pow_right two_pos h
    _ ≤ 10 ^ e := Nat.pow_le_pow_left (by decide) e

/-- With more than `2048` places beyond the bits of the digits, a decimal is next to nothing. -/
theorem lt_of_places (h : 2 ^ 11 + m.log2 < e) : (m / 10 ^ e : ℚ) < 2 ^ (-1075 : ℤ) := by
  have hlt := mul_two_pow_lt (k := 1075) (by omega : m.log2 + 1 + 1075 ≤ e)
  rw [show (-1075 : ℤ) = -(1075 : ℕ) by rfl, zpow_neg, zpow_natCast, div_lt_iff₀ (by positivity),
    inv_mul_eq_div, lt_div_iff₀ (by positivity)]
  exact_mod_cast hlt

theorem ofScientific_whole (hm : 0 < m) : ∃ t n, Rounded .double m t n ∧
      UnpackedFloat.mul Format.binary64 (.finite .positive (m <<< 53) (-53) (by simpa using hm))
        (.finite .positive 1 0 one_pos) = carried .positive n t := by
  have hlog := le_log2_shiftLeft hm 53
  have hexact : Discards .exact ((m : ℚ) / 2 ^ (-53 + 0 : ℤ) - (m <<< 53 * 1 : ℕ)) := by
    change _ = (0 : ℚ)
    rw [Nat.shiftLeft_eq]
    push_cast
    norm_num
    ring
  obtain ⟨t, n, hrounded, heq⟩ :=
    roundWithAccuracy_eq .positive hexact (.inl (by rw [Nat.mul_one]; omega))
  exact ⟨t, n, hrounded, heq⟩

theorem ofScientific_slow (m e : ℕ) : ∃ t n, Rounded .double (m / 10 ^ e) t n ∧
      UnpackedFloat.ofScientific Format.binary64 m (.negOfNat e) = carried .positive n t := by
  have hneg : Int.negOfNat e = -(e : ℤ) := Int.negOfNat_eq
  have hbits : (2 : ℤ) ^ Format.binary64.exponentBits = 2048 := rfl
  have hzero : Rounded .double 0 (-1074) 0 := rounded_zero le_rfl (by positivity)
  unfold UnpackedFloat.ofScientific
  simp only [hneg, hbits]
  by_cases hm : m = 0
  · refine ⟨-1074, 0, ?_, ?_⟩
    · rwa [hm, Nat.cast_zero, zero_div]
    · rw [dif_pos hm]
      rfl
  have hpos := Nat.pos_of_ne_zero hm
  rw [dif_neg hm, if_neg (by omega)]
  by_cases hplaces : -(e : ℤ) < -(2048 + (m.log2 : ℤ))
  · rw [if_pos hplaces]
    exact ⟨-1074, 0, rounded_zero (by positivity) (lt_of_places (by omega)), rfl⟩
  rw [if_neg hplaces]
  rcases Nat.eq_zero_or_pos e with rfl | he
  · -- a whole number is multiplied by one
    obtain ⟨t, n, hrounded, heq⟩ := ofScientific_whole hpos
    rw [pow_zero, div_one, if_pos (by decide)]
    refine ⟨t, n, hrounded, ?_⟩
    simp only [Nat.cast_zero, neg_zero, Int.toNat_zero, pow_zero]
    exact heq
  · obtain ⟨t, n, hrounded, heq⟩ := div_eq 0 0 hpos (Nat.pow_pos (n := e) (by decide : 0 < 10))
    rw [if_neg (by omega)]
    simp only [neg_neg, Int.toNat_natCast]
    refine ⟨t, n, ?_, heq⟩
    simpa using hrounded

/-- Every decimal is rounded once, to the nearest double. -/
theorem isRounding_ofScientific (m e : ℕ) :
    IsRounding (m / 10 ^ e) (Float.ofScientific m true e) := by
  have hnonneg : (0 : ℚ) ≤ m / 10 ^ e := by positivity
  by_cases hfast : m < 2 ^ 53 ∧ e ≤ 22
  · obtain ⟨t, n, hrounded, heq⟩ := ofScientific_fast hfast.1 hfast.2
    rw [heq]
    exact hrounded.isRounding hnonneg
  · obtain ⟨t, n, hrounded, heq⟩ := ofScientific_slow m e
    rw [Float.ofScientific, dif_neg hfast]
    change IsRounding _
      ⟨Float.Model.pack (UnpackedFloat.ofScientific Format.binary64 m (.negOfNat e))⟩
    rw [heq]
    exact hrounded.isRounding hnonneg

end ClassAsm.Number
