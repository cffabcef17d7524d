import ClassAsm.Proofs.Number.Rounding
import ClassAsm.Proofs.Number.Truncation

/-!
# Rounding doubles to singles

`toSingle` rounds the mantissa of a double on the scale where 24 bits are left and puts the result
together again as a double.  This file says that it finds the nearest single.

## What is here

* `parts?_ofBits` and `hasValue_toFloat`: what is read off a bit pattern, and that parts survive
  being written as one.
* `roundsTo_halfEven`: dropping bits rounds to the nearest integer.
* `toSingle_of_parts?`: the nearest single, and infinity beyond the limit.
-/

open Float.Model Float.Model.UnpackedFloat

namespace ClassAsm.Number

/-- Singles. -/
def Grid.single : Grid := ⟨23, -149, 104, by decide⟩

/-! ## Bit patterns -/

theorem parts?_ofBits (w : UInt64) : parts? (Float.ofBits w) = bitsParts? w.toNat := by
  have hparts := unpackedParts?_unpack w.toBitVec
  rw [parts?_eq]
  change unpackedParts? (Float.Model.pack (unpack Format.binary64 w.toBitVec)).unpack = _
  rw [unpack_pack, hparts]
  · rfl
  · intro p hp
    rw [hparts] at hp
    exact on_double_of_bitsParts? hp

theorem parts?_ofBits_toBits (x : Float) : parts? (Float.ofBits x.toBits) = parts? x :=
  parts?_ofBits _

theorem parts?_ofMagnitude {b f : ℕ} (hpos : 0 < b) (hb : b < 2047) (hf : f < 2 ^ 52)
    (negative : Bool) :
    parts? (ofMagnitude negative (b * 2 ^ 52 + f)) = some ⟨negative, 2 ^ 52 + f, b - 1075⟩ := by
  obtain ⟨w, hw⟩ : ∃ w, w = (if negative then pow2 63 + (b * 2 ^ 52 + f) else b * 2 ^ 52 + f) :=
    ⟨_, rfl⟩
  have hword : w < 2 ^ 64 ∧ decide (w / 2 ^ 63 = 1) = negative ∧ w / 2 ^ 52 % 2 ^ 11 = b ∧
    w % 2 ^ 52 = f := by
    cases negative
    · rw [if_neg (by decide)] at hw
      simp only [decide_eq_false_iff_not]
      omega
    · rw [if_pos rfl] at hw
      change w = 2 ^ 63 + _ at hw
      simp only [decide_eq_true_eq]
      omega
  obtain ⟨hlt, hsign, hbiased, hfraction⟩ := hword
  rw [ofMagnitude, ← hw, parts?_ofBits, UInt64.toNat_ofNat_of_lt' hlt, bitsParts?, hbiased,
    hfraction, hsign, if_neg (by omega), if_neg (by omega)]

theorem parts?_ofMagnitude_zero (negative : Bool) :
    parts? (ofMagnitude negative 0) = some ⟨negative, 0, -1074⟩ := by
  cases negative <;> decide +kernel

theorem parts?_infinity (negative : Bool) : parts? (infinity negative) = none := by
  cases negative <;> decide +kernel

variable {p : Parts}

/-- Parts of a normal double are written exactly. -/
theorem hasValue_toFloat (hbits : p.mantissa < 2 ^ 53)
    (hlow : p.mantissa ≠ 0 → -1022 < p.exponent + bitLength p.mantissa)
    (hhigh : p.exponent + bitLength p.mantissa ≤ 1024) : HasValue p.toFloat p.value := by
  obtain ⟨negative, m, e⟩ := p
  simp only at hbits hlow hhigh
  by_cases hm : m = 0
  · subst hm
    exact ⟨⟨negative, 0, -1074⟩, parts?_ofMagnitude_zero negative,
      by cases negative <;> simp [Parts.value, withSign]⟩
  have hlow := hlow hm
  obtain ⟨hlog, hfull, hlt⟩ := full_shift hm hbits
  have hlen : bitLength m = m.log2 + 1 := if_neg hm
  obtain ⟨k, hk⟩ : ∃ k, k = 52 - m.log2 := ⟨_, rfl⟩
  obtain ⟨b, hb⟩ : ∃ b : ℕ, e + bitLength m + 1022 = b := ⟨(e + bitLength m + 1022).toNat, by omega⟩
  rw [← hk] at hfull hlt
  have hfloat : Parts.toFloat ⟨negative, m, e⟩ =
    ofMagnitude negative (b * 2 ^ 52 + (m * 2 ^ k - 2 ^ 52)) := by
    simp only [Parts.toFloat]
    rw [if_neg hm, if_neg (by omega), if_pos (by omega), show 53 - bitLength m = k by omega, hb,
      Int.toNat_natCast]
    rfl
  refine ⟨⟨negative, m * 2 ^ k, e - k⟩, ?_, ?_⟩
  · rw [hfloat, parts?_ofMagnitude (by omega) (by omega) (by omega), Nat.add_sub_cancel' hfull]
    congr 2
    omega
  · have hscale : ((m * 2 ^ k : ℕ) * 2 ^ (e - k) : ℚ) = m * 2 ^ e := by
      rw [zpow_sub₀ two_ne_zero, zpow_natCast]
      push_cast
      field_simp
    cases negative
    · exact hscale
    · simp only [Parts.value, withSign, if_true, Int.cast_neg, neg_mul, Int.cast_natCast, hscale]

/-! ## Dropping bits -/

theorem roundsTo_halfEven (n k : ℕ) : RoundsTo ((n : ℚ) / 2 ^ k) (halfEven n k) := by
  obtain ⟨q, hq⟩ : ∃ q, q = n / 2 ^ k := ⟨_, rfl⟩
  obtain ⟨r, hr⟩ : ∃ r, r = n % 2 ^ k := ⟨_, rfl⟩
  obtain ⟨f, hf⟩ : ∃ f : ℚ, f * 2 ^ k = r := ⟨r / 2 ^ k, by field_simp⟩
  have hpos : (0 : ℚ) < 2 ^ k := by positivity
  have hn : (n : ℚ) / 2 ^ k = q + f := by
    rw [div_eq_iff hpos.ne', add_mul, hf, hq, hr]
    exact_mod_cast (Nat.div_add_mod' n (2 ^ k)).symm
  have hnonneg : 0 ≤ f := nonneg_of_mul_nonneg_left (hf ▸ Nat.cast_nonneg r) hpos
  have hone : f < 1 := by
    have hlt : (r : ℚ) < 2 ^ k := by exact_mod_cast hr ▸ Nat.mod_lt n (Nat.two_pow_pos k)
    rw [← hf] at hlt
    exact (mul_lt_iff_lt_one_left hpos).mp hlt
  have hlow : 2 * r < 2 ^ k ↔ f < 1 / 2 := by
    rw [← mul_lt_mul_iff_left₀ hpos, hf, ← Nat.cast_lt (α := ℚ)]
    push_cast
    constructor <;> intro h <;> linarith
  have hhigh : 2 ^ k < 2 * r ↔ 1 / 2 < f := by
    rw [← mul_lt_mul_iff_left₀ hpos, hf, ← Nat.cast_lt (α := ℚ)]
    push_cast
    constructor <;> intro h <;> linarith
  change RoundsTo _ ((if 2 * (n % 2 ^ k) < 2 ^ k then n / 2 ^ k else if 2 ^ k < 2 * (n % 2 ^ k) then
    n / 2 ^ k + 1
    else if k = 0 then n / 2 ^ k else n / 2 ^ k + n / 2 ^ k % 2 : ℕ) : ℤ)
  rw [← hq, ← hr, hn]
  split <;> rename_i h₁
  · refine .of_abs_lt ?_
    rw [Int.cast_natCast, add_sub_cancel_left, abs_of_nonneg hnonneg]
    exact hlow.mp h₁
  split <;> rename_i h₂
  · refine .of_abs_lt ?_
    push_cast
    rw [add_sub_add_left_eq_sub, abs_of_nonpos (by linarith)]
    linarith [hhigh.mp h₂]
  have hhalf : f = 1 / 2 := le_antisymm (not_lt.mp (mt hhigh.mpr h₂)) (not_lt.mp (mt hlow.mpr h₁))
  split <;> rename_i h₃
  · -- without bits to drop nothing is half-way
    subst h₃
    omega
  · refine .of_even ?_ (by rw [Int.even_iff]; omega)
    rw [hhalf, Int.cast_natCast, Nat.cast_add, add_sub_add_left_eq_sub]
    rcases Nat.mod_two_eq_zero_or_one q with h | h <;> rw [h] <;> norm_num

/-! ## The nearest single -/

variable {t : ℤ}

/-- A double has more bits than a single, so there are bits to drop, and what is left is rounded on
the grid of singles. -/
theorem rounded_single (hp : p.On .double)
    (ht : max (p.exponent + bitLength p.mantissa - 24) (-149) = t) :
    p.exponent < t ∧ Rounded .single |p.value| t (halfEven p.mantissa (t - p.exponent).toNat) := by
  obtain ⟨hlt, hlow, hhigh, hfull⟩ := Parts.on_double_iff.mp hp
  have hlen : 2 ^ 52 ≤ p.mantissa → bitLength p.mantissa = 53 := fun h ↦ by
    rw [bitLength, if_neg (by omega), log2_of_full h hlt]
  have hlog : bitLength p.mantissa = p.mantissa.log2 + 1 ∨ bitLength p.mantissa = 0 ∧
    p.mantissa.log2 = 0 := by
    unfold bitLength
    split <;> rename_i hm
    · exact .inr ⟨rfl, by rw [hm, Nat.log2_zero]⟩
    · exact .inl rfl
  have hdrop : p.exponent < t := by
    rcases hfull with hfull | hfull
    · have := hlen hfull
      omega
    · omega
  refine ⟨hdrop, ?_⟩
  obtain ⟨k, hk⟩ : ∃ k : ℕ, (t - p.exponent).toNat = k := ⟨_, rfl⟩
  have hscale : |p.value| / 2 ^ t = p.mantissa / 2 ^ k := by
    rw [p.abs_value, show t = p.exponent + k by omega, zpow_add₀ two_ne_zero, zpow_natCast]
    field_simp
  obtain ⟨hbelow, habove⟩ :=
    scaled_bounds (P := 23) (k := k) (v := p.mantissa) (by decide) le_rfl (by simp)
  rw [← hscale] at hbelow habove
  rw [hk]
  refine ⟨by rw [hscale]; exact roundsTo_halfEven _ _, (by omega : -149 ≤ t), hbelow (by omega), ?_⟩
  by_cases hleast : t = -149
  · exact .inl hleast
  · exact .inr (habove (by omega))

theorem Rounded.isNearest_value {g : Grid} {n : ℕ} (h : Rounded g |p.value| t n)
    (hr : |p.value| < g.limit) (hg : 0 < g.bits) :
    g.IsNearest p.value (g.carry p.negative n t) := by
  have hnear := h.isNearest hr hg
  obtain ⟨negative, m, e⟩ := p
  rw [Parts.abs_value] at hnear
  cases negative
  · exact hnear
  · have hcarry : g.carry true n t =
      { g.carry false n t with negative := !(g.carry false n t).negative } := by
      unfold Grid.carry
      split <;> rfl
    have hvalue : Parts.value ⟨true, m, e⟩ = -(m * 2 ^ e) := by simp [Parts.value, withSign]
    rw [hcarry, hvalue]
    exact hnear.neg

/-- A double is rounded to the nearest single, and to infinity from the limit of singles on. -/
theorem toSingle_of_parts? {x : Float} (h : parts? x = some p) : (|p.value| < Grid.single.limit ∧
      ∃ s, Grid.single.IsNearest p.value s ∧ HasValue (toSingle x) s.value) ∨
    (Grid.single.limit ≤ |p.value| ∧ parts? (toSingle x) = none) := by
  obtain ⟨t, ht⟩ : ∃ t, max (p.exponent + bitLength p.mantissa - 24) (-149) = t := ⟨_, rfl⟩
  obtain ⟨hdrop, hrounded⟩ := rounded_single (on_double_of_parts? h) ht
  obtain ⟨n, hn⟩ : ∃ n, halfEven p.mantissa (t - p.exponent).toNat = n := ⟨_, rfl⟩
  rw [hn] at hrounded
  have hle := hrounded.mantissa_le
  have hleast : n = 0 → t = -149 := by
    rintro rfl
    exact hrounded.full_mantissa.resolve_left (Nat.not_le.mpr (Nat.two_pow_pos _))
  have hsingle : toSingle x = if 128 < t + bitLength n then infinity p.negative
      else Parts.toFloat ⟨p.negative, n, t⟩ := by
    simp only [toSingle, h, ht, if_neg (not_le.mpr hdrop), hn]
  have hlimit : |p.value| < Grid.single.limit ↔ t + bitLength n ≤ 128 := by
    have hiff := abs_value_lt_iff (p := ⟨p.negative, n, t⟩) (k := 128) fun hn ↦
      (hleast hn).trans_le (by decide)
    rw [Parts.abs_value] at hiff
    have hpow : (2 : ℚ) ^ (Grid.single.bits + 1) * 2 ^ Grid.single.greatest = 2 ^ 128 := by
      norm_num [Grid.single]
    rw [hrounded.lt_limit_iff, hpow]
    exact hiff
  have hlow : -149 ≤ t := hrounded.le_exponent
  rw [hsingle]
  by_cases hr : |p.value| < Grid.single.limit
  · have htop := hlimit.mp hr
    refine .inl ⟨hr, _, hrounded.isNearest_value hr (by decide), ?_⟩
    rw [if_neg (by omega), hrounded.value_carry]
    exact hasValue_toFloat (Nat.lt_of_le_of_lt hle (by decide)) (fun _ ↦ by simp only; omega)
      (by simp only; omega)
  · have htop := mt hlimit.mpr hr
    refine .inr ⟨not_lt.mp hr, ?_⟩
    rw [if_pos (by omega)]
    exact parts?_infinity p.negative

end ClassAsm.Number
