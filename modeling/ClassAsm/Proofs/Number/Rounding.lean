import ClassAsm.Proofs.Number.Doubles

/-!
# Rounding to the nearest double

`Float` computes with a mantissa that keeps two more bits, shifts it to the exponent where 53 bits
are left, and rounds once.  This file says what comes out in terms of rational numbers.

## What is here

* `RoundsTo`: the nearest integer, ties to even, and `RoundsTo.nearest`: rounding on the right scale
  finds the nearest of all floating-point numbers.
* `Represents`: what the two extra bits say, kept by every shift.
* `Rounded` and `Grid.IsNearest`: rounding on the scale that leaves the bits of a grid, and the
  nearest number of the grid; `Rounded.isNearest` says that the two agree below `Grid.limit`.
* `roundWithAccuracy_eq`: what `Float` does to a mantissa is rounding on the grid of doubles.
* `Nearest` and `IsRounding`: the nearest double, and infinity beyond the limit;
  `Rounded.isRounding` is the main statement.
-/

open Float.Model Float.Model.UnpackedFloat

namespace ClassAsm.Number

variable {v r : ℚ} {t : ℤ} {g : Grid}

/-! ## Nearest integers -/

/-- `n` is the integer nearest to `v`, and the even one where two are. -/
structure RoundsTo (v : ℚ) (n : ℤ) : Prop where
  abs_sub_le_half : |v - n| ≤ 1 / 2
  even_of_half : |v - n| = 1 / 2 → Even n

namespace RoundsTo

variable {n k : ℤ}

theorem of_abs_lt (h : |v - n| < 1 / 2) : RoundsTo v n := ⟨h.le, fun heq ↦ absurd heq h.ne⟩

theorem of_even (h : |v - n| ≤ 1 / 2) (hn : Even n) : RoundsTo v n := ⟨h, fun _ ↦ hn⟩

/-- Two integers are at least one apart, so another one is at least half away. -/
theorem half_le (h : RoundsTo v n) (hk : k ≠ n) : 1 / 2 ≤ |v - k| := by
  have hone : (1 : ℚ) ≤ |(n : ℚ) - k| := by
    exact_mod_cast Int.one_le_abs (sub_ne_zero.mpr hk.symm)
  have htri : |(n : ℚ) - k| ≤ |v - n| + |v - k| := by
    rw [abs_sub_comm v n]
    exact abs_sub_le _ _ _
  linarith [h.abs_sub_le_half]

theorem abs_sub_le (h : RoundsTo v n) (k : ℤ) : |v - n| ≤ |v - k| := by
  by_cases hk : k = n
  · rw [hk]
  · exact h.abs_sub_le_half.trans (h.half_le hk)

theorem eq_or_even (h : RoundsTo v n) (hk : |v - n| = |v - k|) : k = n ∨ Even n := by
  by_cases hkn : k = n
  · exact .inl hkn
  · exact .inr (h.even_of_half (le_antisymm h.abs_sub_le_half (hk ▸ h.half_le hkn)))

theorem le_of_le (h : RoundsTo v n) (hk : k ≤ v) : k ≤ n := by
  by_contra hn
  have hle : (n : ℚ) + 1 ≤ k := by exact_mod_cast not_le.mp hn
  have habs := (abs_le.mp h.abs_sub_le_half).2
  linarith

theorem le_of_lt (h : RoundsTo v n) (hk : v < k) : n ≤ k := by
  by_contra hn
  have hle : (k : ℚ) + 1 ≤ n := by exact_mod_cast not_le.mp hn
  have habs := (abs_le.mp h.abs_sub_le_half).1
  linarith

end RoundsTo

/-! ## Nearest on a grid of floating-point numbers -/

variable {P : ℕ}

/-- Rounding on the scale `2 ^ t` finds the nearest of all numbers with `P + 1` bits and exponents
from `L` on, if `t` is the least exponent or the scaled number has `P + 1` bits itself: finer
numbers then lie below `2 ^ P`, which is on the scale. -/
theorem RoundsTo.nearest {L : ℤ} {n : ℤ} (h : RoundsTo (r / 2 ^ t) n)
    (ht : t = L ∨ (2 : ℚ) ^ P ≤ r / 2 ^ t) {k E : ℤ} (hk : |k| < 2 ^ (P + 1)) (hE : L ≤ E) :
    |r - n * 2 ^ t| ≤ |r - k * 2 ^ E| ∧
      (|r - n * 2 ^ t| = |r - k * 2 ^ E| → (k * 2 ^ E : ℚ) = n * 2 ^ t ∨ Even n) := by
  have hs : (0 : ℚ) < 2 ^ t := by positivity
  obtain ⟨v, rfl⟩ : ∃ v : ℚ, r = v * 2 ^ t := ⟨r / 2 ^ t, by field_simp⟩
  rw [mul_div_cancel_right₀ _ hs.ne'] at h ht
  have hw : (k * 2 ^ E : ℚ) = k * 2 ^ (E - t) * 2 ^ t := by
    rw [mul_assoc, ← zpow_add₀ two_ne_zero, sub_add_cancel]
  rw [hw, ← sub_mul, ← sub_mul, abs_mul, abs_mul, abs_of_pos hs, mul_le_mul_iff_left₀ hs,
    mul_left_inj' hs.ne', mul_left_inj' hs.ne']
  by_cases hte : t ≤ E
  · obtain ⟨d, hd⟩ := Int.eq_ofNat_of_zero_le (sub_nonneg.mpr hte)
    have hcast : (k * 2 ^ (E - t) : ℚ) = (k * 2 ^ d : ℤ) := by
      rw [hd]
      push_cast
      rfl
    rw [hcast]
    exact ⟨h.abs_sub_le _, fun heq ↦ (h.eq_or_even heq).imp_left fun hk ↦ by rw [hk]⟩
  · have hv : (2 : ℚ) ^ P ≤ v := ht.resolve_left (by omega)
    have hbelow : (k * 2 ^ (E - t) : ℚ) < 2 ^ P := by
      have hk' : (|k| : ℚ) < 2 ^ (P + 1) := by exact_mod_cast hk
      calc (k * 2 ^ (E - t) : ℚ) ≤ |(k : ℚ)| * 2 ^ (-1 : ℤ) :=
            mul_le_mul (le_abs_self _) (zpow_le_zpow_right₀ one_le_two (by omega)) (by positivity)
            (abs_nonneg _)
        _ < 2 ^ (P + 1) * 2 ^ (-1 : ℤ) := by gcongr
        _ = 2 ^ P := by rw [pow_succ, zpow_neg_one, mul_inv_cancel_right₀ two_ne_zero]
    have hlt : |v - n| < |v - k * 2 ^ (E - t)| := by
      have hgrid := h.abs_sub_le (2 ^ P)
      push_cast at hgrid
      rw [abs_of_nonneg (sub_nonneg.mpr hv)] at hgrid
      exact (hgrid.trans_lt (by linarith)).trans_le (le_abs_self _)
    exact ⟨hlt.le, fun heq ↦ absurd heq hlt.ne⟩

/-! ## Mantissas with a round bit and a sticky bit -/

/-- What an accuracy says about the fraction that a mantissa leaves out. -/
def Discards : Accuracy → ℚ → Prop
  | .exact, f => f = 0
  | .inexact .lt, f => 0 < f ∧ f < 1 / 2
  | .inexact .eq, f => f = 1 / 2
  | .inexact .gt, f => 1 / 2 < f ∧ f < 1

/-- An extended mantissa tells all that rounding needs to know of `v`. -/
def Represents (em : ExtendedMantissa) (v : ℚ) : Prop := Discards em.accuracy (v - em.mantissa)

variable {a : Accuracy}

theorem Discards.bounds {f : ℚ} (h : Discards a f) : 0 ≤ f ∧ f < 1 := by
  rcases a with _ | _ | _ | _ <;> simp only [Discards] at h <;> constructor <;> linarith

theorem discards_accuracyOfFraction {n d : ℕ} (h : n < d) :
    Discards (accuracyOfFraction n d) ((n : ℚ) / d) := by
  have hd : (0 : ℚ) < d := by exact_mod_cast (Nat.zero_le n).trans_lt h
  have hlt : (n : ℚ) < d := by exact_mod_cast h
  unfold accuracyOfFraction
  split <;> rename_i hn
  · simp [hn, Discards]
  have hpos : (0 : ℚ) < n := by exact_mod_cast Nat.pos_of_ne_zero hn
  rcases hc : compare (2 * n) d with _ | _ | _
  · have hc : (2 * n : ℚ) < d := by exact_mod_cast Nat.compare_eq_lt.mp hc
    exact ⟨div_pos hpos hd, by rw [div_lt_iff₀ hd]; linarith⟩
  · have hc : (2 * n : ℚ) = d := by exact_mod_cast Nat.compare_eq_eq.mp hc
    exact (div_eq_iff hd.ne').mpr (by linarith)
  · have hc : (d : ℚ) < 2 * n := by exact_mod_cast Nat.compare_eq_gt.mp hc
    exact ⟨by rw [lt_div_iff₀ hd]; linarith, by rwa [div_lt_one hd]⟩

variable {m : ℕ}

theorem represents_ofMantissaAndAccuracy (h : Discards a (v - m)) :
    Represents (.ofMantissaAndAccuracy m a) v := by
  rcases a with _ | _ | _ | _ <;> exact h

theorem Discards.roundsTo (h : Discards a (v - m)) : RoundsTo v (a.roundToNearestEven m : ℕ) := by
  rcases a with _ | _ | _ | _ <;> simp only [Accuracy.roundToNearestEven]
  · refine .of_abs_lt ?_
    rw [Int.cast_natCast, show v - m = 0 from h]
    norm_num
  · obtain ⟨hlow, hhigh⟩ : 0 < v - m ∧ v - m < 1 / 2 := h
    exact .of_abs_lt (by rwa [Int.cast_natCast, abs_of_pos hlow])
  · have hf : v - m = 1 / 2 := h
    -- a tie goes to the mantissa if that is even, and else to its successor
    rcases Nat.mod_two_eq_zero_or_one m with hm | hm <;> rw [hm]
    · refine .of_even ?_ (by exact_mod_cast Nat.even_iff.mpr hm)
      rw [Nat.add_zero, Int.cast_natCast, hf]
      norm_num
    · refine .of_even ?_ (by exact_mod_cast Nat.even_iff.mpr (by omega))
      rw [show v - ((m + 1 : ℕ) : ℤ) = -(1 / 2) by push_cast; linarith]
      norm_num
  · obtain ⟨hlow, hhigh⟩ : 1 / 2 < v - m ∧ v - m < 1 := h
    refine .of_abs_lt ?_
    push_cast
    rw [abs_lt]
    constructor <;> linarith

variable {em : ExtendedMantissa}

theorem Represents.roundsTo (h : Represents em v) : RoundsTo v em.roundedMantissa :=
  Discards.roundsTo h

theorem Represents.shiftRightOne (h : Represents em v) : Represents em.shiftRightOne (v / 2) := by
  obtain ⟨m, r, s⟩ := em
  obtain ⟨bit, hbit, hm⟩ : ∃ bit : Bool, (m % 2 != 0) = bit ∧
    (m : ℚ) = 2 * (m / 2 : ℕ) + bit.toNat := by
    refine ⟨m % 2 != 0, rfl, ?_⟩
    have hm : m = 2 * (m / 2) + (m % 2 != 0).toNat := by
      rcases Nat.mod_two_eq_zero_or_one m with hm | hm <;> simp [hm] <;> omega
    exact_mod_cast hm
  obtain ⟨w, rfl⟩ : ∃ w, v = 2 * w := ⟨v / 2, by ring⟩
  rw [mul_div_cancel_left₀ w two_ne_zero]
  simp only [Represents, ExtendedMantissa.shiftRightOne, hbit] at h ⊢
  cases bit <;> cases r <;> cases s <;>
    simp only [ExtendedMantissa.accuracy, Bool.or_true, Bool.or_false, Bool.toNat_false,
      Bool.toNat_true, Nat.cast_zero, Nat.cast_one, Discards] at h hm ⊢ <;>
    first
      | linarith
      | exact ⟨by linarith, by linarith⟩

theorem Represents.shiftRight (h : Represents em v) (k : ℕ) :
    Represents (em >>> k) (v / 2 ^ k) := by
  change Represents (k.repeat ExtendedMantissa.shiftRightOne em) _
  induction k with
  | zero => simpa [Nat.repeat] using h
  | succ k ih =>
    rw [pow_succ, ← div_div]
    exact ih.shiftRightOne

/-! ## Rounding to the bits of a grid -/

/-- The bits of a number that lies in `[m, m + 1)` on the scale `2 ^ e`, counted on the scale
`2 ^ (e + k)`. -/
theorem scaled_bounds {k : ℕ} (hP : 0 < P) (hlow : m ≤ v) (hhigh : v < m + 1) :
    (m.log2 ≤ P + k → v / 2 ^ k < 2 ^ (P + 1)) ∧ (P + k ≤ m.log2 → 2 ^ P ≤ v / 2 ^ k) := by
  have hk : (0 : ℚ) < 2 ^ k := by positivity
  constructor <;> intro hlog
  · have hbits : m + 1 ≤ 2 ^ (P + 1 + k) :=
      Nat.lt_log2_self.trans_le (Nat.pow_le_pow_right two_pos (by omega))
    rw [div_lt_iff₀ hk, ← pow_add]
    exact hhigh.trans_le (by exact_mod_cast hbits)
  · have hm : m ≠ 0 := by
      rintro rfl
      rw [Nat.log2_zero] at hlog
      omega
    have hbits : 2 ^ (P + k) ≤ m := (Nat.pow_le_pow_right two_pos hlog).trans (Nat.log2_self_le hm)
    rw [le_div_iff₀ hk, ← pow_add]
    exact le_trans (by exact_mod_cast hbits) hlow

/-- `n · 2 ^ t` is `r` rounded to the bits of the grid: the scale `2 ^ t` leaves as many of `r`, and
fewer only if it is the finest. -/
structure Rounded (g : Grid) (r : ℚ) (t : ℤ) (n : ℕ) : Prop where
  roundsTo : RoundsTo (r / 2 ^ t) n
  le_exponent : g.least ≤ t
  lt : r / 2 ^ t < 2 ^ (g.bits + 1)
  full : t = g.least ∨ 2 ^ g.bits ≤ r / 2 ^ t

/-- The parts `± n · 2 ^ t`, where rounding may have carried into one more bit. -/
def Grid.carry (g : Grid) (negative : Bool) (n : ℕ) (t : ℤ) : Parts :=
  if n < 2 ^ (g.bits + 1) then ⟨negative, n, t⟩ else ⟨negative, 2 ^ g.bits, t + 1⟩

/-- The least magnitude that is rounded to infinity: half-way between the greatest number of the
grid and the next power of two. -/
def Grid.limit (g : Grid) : ℚ := (2 ^ (g.bits + 1) - 1 / 2) * 2 ^ g.greatest

/-- `p` is on the grid, no number of the grid lies nearer to `q`, and of two that are nearest `p`
has the even mantissa. -/
def Grid.IsNearest (g : Grid) (q : ℚ) (p : Parts) : Prop :=
  p.On g ∧ ∀ p' : Parts, p'.On g →
    |q - p.value| ≤ |q - p'.value| ∧
    (|q - p.value| = |q - p'.value| → p'.value = p.value ∨ Even p.mantissa)

variable {q : ℚ}

theorem Grid.IsNearest.neg {p : Parts} (h : g.IsNearest q p) :
    g.IsNearest (-q) { p with negative := !p.negative } := by
  refine ⟨h.1.sign _, fun p' hp' ↦ ?_⟩
  have hdist (v : ℚ) : |-q - v| = |q - -v| := by
    rw [← abs_neg]
    congr 1
    ring
  obtain ⟨hle, htie⟩ := h.2 _ (hp'.sign !p'.negative)
  rw [Parts.value_neg] at hle htie
  rw [Parts.value_neg, hdist, hdist, neg_neg]
  exact ⟨hle, fun heq ↦ (htie heq).imp_left neg_eq_iff_eq_neg.mp⟩

namespace Rounded

variable {n : ℕ}

theorem mantissa_le (h : Rounded g r t n) : n ≤ 2 ^ (g.bits + 1) := by
  have hle := h.roundsTo.le_of_lt (k := ((2 ^ (g.bits + 1) : ℕ) : ℤ)) (by push_cast; exact h.lt)
  exact_mod_cast hle

theorem full_mantissa (h : Rounded g r t n) : 2 ^ g.bits ≤ n ∨ t = g.least := by
  refine h.full.symm.imp_left fun hfull ↦ ?_
  have hle := h.roundsTo.le_of_le (k := ((2 ^ g.bits : ℕ) : ℤ)) (by push_cast; exact hfull)
  exact_mod_cast hle

theorem lt_limit (h : Rounded g r t n) (ht : t < g.greatest) : r < g.limit := by
  have hone : (1 : ℚ) ≤ 2 ^ g.bits := one_le_pow₀ one_le_two
  calc r < 2 ^ (g.bits + 1) * 2 ^ t := (div_lt_iff₀ (by positivity)).mp h.lt
    _ = 2 ^ g.bits * 2 ^ (t + 1) := by rw [zpow_add_one₀ two_ne_zero]; ring
    _ ≤ 2 ^ g.bits * 2 ^ g.greatest :=
      mul_le_mul_of_nonneg_left (zpow_le_zpow_right₀ one_le_two ht) (by positivity)
    _ ≤ g.limit := by rw [Grid.limit, pow_succ]; gcongr; linarith

theorem limit_le (h : Rounded g r t n) (ht : g.greatest < t) : g.limit ≤ r := by
  have hrange := g.least_le_greatest
  calc g.limit ≤ 2 ^ (g.bits + 1) * 2 ^ g.greatest := by rw [Grid.limit]; gcongr; norm_num
    _ = 2 ^ g.bits * 2 ^ (g.greatest + 1) := by rw [zpow_add_one₀ two_ne_zero]; ring
    _ ≤ 2 ^ g.bits * 2 ^ t :=
      mul_le_mul_of_nonneg_left (zpow_le_zpow_right₀ one_le_two ht) (by positivity)
    _ ≤ r := (le_div_iff₀ (by positivity)).mp (h.full.resolve_left (by omega))

/-- With the greatest exponent, the limit is where rounding carries: the greatest mantissa is
odd. -/
theorem limit_le_iff (h : Rounded g r g.greatest n) : g.limit ≤ r ↔ 2 ^ (g.bits + 1) ≤ n := by
  obtain ⟨hhalf, heven⟩ := h.roundsTo
  rw [Grid.limit, ← le_div_iff₀ (by positivity)]
  generalize r / 2 ^ g.greatest = v at *
  rw [Int.cast_natCast] at hhalf heven
  constructor <;> intro hle
  · by_contra hn
    have hn' : (n : ℚ) + 1 ≤ 2 ^ (g.bits + 1) := by exact_mod_cast not_le.mp hn
    have hv := (abs_le.mp hhalf).2
    have heq : (n : ℚ) + 1 = 2 ^ (g.bits + 1) := by linarith
    have hodd : n + 1 = 2 ^ g.bits * 2 := by
      rw [← pow_succ]
      exact_mod_cast heq
    have hn := Int.even_iff.mp (heven (by rw [abs_of_nonneg] <;> linarith))
    omega
  · have hn : (2 ^ (g.bits + 1) : ℚ) ≤ n := by exact_mod_cast hle
    linarith [(abs_le.mp hhalf).1]

theorem value_carry (h : Rounded g r t n) (negative : Bool) :
    (g.carry negative n t).value = withSign negative n * 2 ^ t := by
  unfold Grid.carry
  split <;> rename_i hn
  · rfl
  · obtain rfl : n = 2 ^ (g.bits + 1) := le_antisymm h.mantissa_le (not_lt.mp hn)
    simp only [Parts.value, withSign, zpow_add_one₀ (two_ne_zero : (2 : ℚ) ≠ 0), pow_succ]
    split
    · push_cast
      ring
    · push_cast
      ring

theorem on_carry (h : Rounded g r t n) (hr : r < g.limit) (negative : Bool) :
    (g.carry negative n t).On g := by
  have hlow := h.le_exponent
  have ht : t ≤ g.greatest := not_lt.mp fun ht ↦ absurd hr (not_lt.mpr (h.limit_le ht))
  unfold Grid.carry
  split <;> rename_i hn
  · exact ⟨hn, hlow, ht, h.full_mantissa⟩
  · have hne : t ≠ g.greatest := by
      rintro rfl
      exact absurd hr (not_lt.mpr (h.limit_le_iff.mpr (not_lt.mp hn)))
    exact ⟨Nat.pow_lt_pow_right one_lt_two (Nat.lt_succ_self _), by simp only; omega,
      by simp only; omega, .inl le_rfl⟩

/-- The limit is where what a number is rounded to gets out of the grid. -/
theorem lt_limit_iff (h : Rounded g r t n) :
    r < g.limit ↔ (n * 2 ^ t : ℚ) < 2 ^ (g.bits + 1) * 2 ^ g.greatest := by
  constructor
  · intro hr
    have hon := h.on_carry hr false
    have hvalue : (n * 2 ^ t : ℚ) = (g.carry false n t).mantissa *
      2 ^ (g.carry false n t).exponent := by
      rw [← Parts.abs_value, h.value_carry false]
      exact (abs_of_nonneg (by positivity : (0 : ℚ) ≤ n * 2 ^ t)).symm
    have hmantissa : ((g.carry false n t).mantissa : ℚ) < 2 ^ (g.bits + 1) := by
      exact_mod_cast hon.mantissa_lt
    rw [hvalue]
    exact mul_lt_mul hmantissa (zpow_le_zpow_right₀ one_le_two hon.exponent_le) (by positivity)
      (by positivity)
  · intro hlt
    by_contra hr
    have hr := not_lt.mp hr
    have hrange := g.least_le_greatest
    refine absurd hlt (not_lt.mpr ?_)
    rcases lt_trichotomy t g.greatest with ht | rfl | ht
    · exact absurd (h.lt_limit ht) (not_lt.mpr hr)
    · have hn : (2 ^ (g.bits + 1) : ℚ) ≤ n := by exact_mod_cast h.limit_le_iff.mp hr
      gcongr
    · have hn : (2 ^ g.bits : ℚ) ≤ n := by exact_mod_cast h.full_mantissa.resolve_right (by omega)
      calc (2 : ℚ) ^ (g.bits + 1) * 2 ^ g.greatest = 2 ^ g.bits * 2 ^ (g.greatest + 1) := by
            rw [zpow_add_one₀ two_ne_zero]
            ring
        _ ≤ n * 2 ^ t :=
          mul_le_mul hn (zpow_le_zpow_right₀ one_le_two ht) (by positivity) (by positivity)

theorem even_carry (hn : Even n) (negative : Bool) (hg : 0 < g.bits) :
    Even (g.carry negative n t).mantissa := by
  unfold Grid.carry
  split
  · exact hn
  · exact (Nat.even_pow' hg.ne').mpr even_two

theorem isNearest (h : Rounded g r t n) (hr : r < g.limit) (hg : 0 < g.bits) :
    g.IsNearest r (g.carry false n t) := by
  refine ⟨h.on_carry hr false, fun p' hp' ↦ ?_⟩
  have hk : |withSign p'.negative p'.mantissa| < 2 ^ (g.bits + 1) := by
    rw [abs_withSign]
    exact_mod_cast hp'.mantissa_lt
  obtain ⟨hnear, htie⟩ := h.roundsTo.nearest h.full hk hp'.le_exponent
  rw [h.value_carry false]
  exact ⟨hnear, fun heq ↦ (htie heq).imp_right fun hn ↦ even_carry (by exact_mod_cast hn) false hg⟩

end Rounded

/-! ## Rounding mantissas to 53 bits -/

/-- The unpacked double `± n · 2 ^ t`, where rounding may have carried into a 54th bit. -/
def carried (s : Sign) (n : ℕ) (t : ℤ) : UnpackedFloat :=
  if h : n = 0 then .zero s
  else if n < 2 ^ 53 then .finite s n t (Nat.pos_of_ne_zero h)
  else .finite s (2 ^ 52) (t + 1) (by decide)

theorem targetExponent_eq (m : ℕ) (e : ℤ) :
    Format.binary64.targetExponent (totalExponent m e) = max (m.log2 + e - 52) (-1074) := by
  change max (m.log2 + 1 + e - 53) (-1074) = _
  omega

theorem shiftToTargetExponent_of_le {n : ℕ} (ht : -1074 ≤ t) (hn : n < 2 ^ 53) :
    shiftToTargetExponent Format.binary64 n t .exact = (⟨n, false, false⟩, t) := by
  have hlog : n.log2 ≤ 52 := by
    rcases Nat.eq_zero_or_pos n with rfl | hpos
    · decide
    · exact Nat.le_of_lt_succ ((Nat.log2_lt hpos.ne').mpr hn)
  have hshift : (max ((n.log2 : ℤ) + t - 52) (-1074) - t).toNat = 0 := by omega
  simp only [shiftToTargetExponent, shiftToExponent, targetExponent_eq, hshift]
  simp [HShiftRight.hShiftRight, Nat.repeat, ExtendedMantissa.ofMantissaAndAccuracy]

theorem shiftToTargetExponent_carry (ht : -1074 ≤ t) :
    shiftToTargetExponent Format.binary64 (2 ^ 53) t .exact = (⟨2 ^ 52, false, false⟩, t + 1) := by
  have hshift : (max (((2 ^ 53 : ℕ).log2 : ℤ) + t - 52) (-1074) - t).toNat = 1 := by
    rw [Nat.log2_two_pow]
    omega
  simp only [shiftToTargetExponent, shiftToExponent, targetExponent_eq, hshift]
  rfl

variable {e : ℤ}

theorem roundWithAccuracy_of_shift (s : Sign)
    (h : shiftToTargetExponent Format.binary64 m e a = (em, t)) (ht : -1074 ≤ t)
    (hem : em.roundedMantissa ≤ 2 ^ 53) :
    roundWithAccuracy Format.binary64 s m e a = carried s em.roundedMantissa t := by
  rcases Nat.lt_or_eq_of_le hem with hlt | heq
  · simp only [roundWithAccuracy, h, shiftToTargetExponent_of_le ht hlt, carried, hlt, if_true]
  · simp only [roundWithAccuracy, h, heq, shiftToTargetExponent_carry ht, carried]
    rfl

/-- Rounding an exact number with a mantissa of 53 bits or an exponent that is low enough. -/
theorem roundWithAccuracy_eq (s : Sign) (ha : Discards a (r / 2 ^ e - m))
    (he : 52 ≤ m.log2 ∨ e ≤ -1074) :
    ∃ t n, Rounded .double r t n ∧ roundWithAccuracy Format.binary64 s m e a = carried s n t := by
  obtain ⟨k, hk⟩ : ∃ k : ℕ, max (m.log2 + e - 52) (-1074) = e + k :=
    ⟨(max (m.log2 + e - 52) (-1074) - e).toNat, by omega⟩
  have hshift : shiftToTargetExponent Format.binary64 m e a =
      (ExtendedMantissa.ofMantissaAndAccuracy m a >>> k, e + k) := by
    simp only [shiftToTargetExponent, shiftToExponent, targetExponent_eq, hk, add_sub_cancel_left,
      Int.toNat_natCast]
  have hscale : r / 2 ^ e / 2 ^ k = r / 2 ^ (e + k) := by
    rw [div_div, zpow_add₀ two_ne_zero, zpow_natCast]
  have hrep := (represents_ofMantissaAndAccuracy ha).shiftRight k
  rw [hscale] at hrep
  obtain ⟨hlow, hhigh⟩ := ha.bounds
  obtain ⟨hlt, hfull⟩ :=
    scaled_bounds (P := 52) (k := k) (by decide) (sub_nonneg.mp hlow) (by linarith)
  rw [hscale] at hlt hfull
  have hrounded : Rounded .double r (e + k)
    (ExtendedMantissa.ofMantissaAndAccuracy m a >>> k).roundedMantissa := by
    refine ⟨hrep.roundsTo, (by omega : -1074 ≤ e + k), hlt (by omega), ?_⟩
    by_cases ht : e + k = -1074
    · exact .inl ht
    · exact .inr (hfull (by omega))
  exact ⟨_, _, hrounded,
    roundWithAccuracy_of_shift s hshift hrounded.le_exponent hrounded.mantissa_le⟩

/-! ## The nearest double -/

/-- `x` is the double nearest to `q`. -/
def Nearest (q : ℚ) (x : Float) : Prop := ∃ p, parts? x = some p ∧ Grid.double.IsNearest q p

/-- `x` is what `q` is rounded to: the nearest double, or infinity from the limit on. -/
def IsRounding (q : ℚ) (x : Float) : Prop :=
  (|q| < Grid.double.limit ∧ Nearest q x) ∨ (Grid.double.limit ≤ |q| ∧ x.isInf = true)

theorem two_pow_le_limit : 2 ^ 64 ≤ Grid.double.limit := by
  have hpow : (2 : ℚ) ^ 64 ≤ 2 ^ (971 : ℤ) := by
    rw [← zpow_natCast]
    exact zpow_le_zpow_right₀ one_le_two (by decide)
  calc (2 : ℚ) ^ 64 ≤ 2 ^ (971 : ℤ) := hpow
    _ ≤ (2 ^ 53 - 1 / 2) * 2 ^ (971 : ℤ) := le_mul_of_one_le_left (by positivity) (by norm_num)

variable {x : Float}

theorem Nearest.neg (h : Nearest q x) : Nearest (-q) (-x) := by
  obtain ⟨p, hp, hnear⟩ := h
  exact ⟨{ p with negative := !p.negative }, by rw [parts?_neg, hp]; rfl, hnear.neg⟩

theorem IsRounding.neg (h : IsRounding q x) : IsRounding (-q) (-x) := by
  rw [IsRounding, abs_neg, isInf_neg]
  exact h.imp_left fun ⟨hlt, hnear⟩ ↦ ⟨hlt, hnear.neg⟩

namespace Rounded

variable {n : ℕ}

/-- Below the limit packing keeps what a number was rounded to. -/
theorem unpack_pack_carried (h : Rounded .double r t n) (hr : r < Grid.double.limit) (s : Sign) :
    unpackedParts? (Float.Model.pack (carried s n t)).unpack =
    some (Grid.double.carry (isMinus s) n t) := by
  have hon := h.on_carry hr (isMinus s)
  have hparts : unpackedParts? (carried s n t) = some (Grid.double.carry (isMinus s) n t) := by
    unfold carried Grid.carry
    split <;> rename_i hzero
    · subst hzero
      have ht : t = -1074 := h.full_mantissa.resolve_left (Nat.not_le.mpr (Nat.two_pow_pos _))
      rw [if_pos (Nat.two_pow_pos _), ht]
      rfl
    · split <;> rename_i hn
      · exact (congrArg some (if_pos hn)).symm
      · exact (congrArg some (if_neg hn)).symm
  rw [unpack_pack, hparts]
  rintro p hp
  rw [hparts, Option.some.injEq] at hp
  exact hp ▸ hon

/-- From the limit on nothing but infinity is left. -/
theorem unpack_pack_infinity (h : Rounded .double r t n) (hr : Grid.double.limit ≤ r) (s : Sign) :
    (Float.Model.pack (carried s n t)).unpack = .infinity s := by
  have ht : 971 ≤ t := not_lt.mp fun ht ↦ absurd (h.lt_limit ht) (not_lt.mpr hr)
  have hfull : 2 ^ 52 ≤ n :=
    h.full_mantissa.resolve_right (by rintro rfl; exact absurd ht (by decide))
  unfold carried
  rw [dif_neg (by omega)]
  split <;> rename_i hn
  · have hne : t ≠ 971 := by
      rintro rfl
      exact absurd (h.limit_le_iff.mp hr) (not_le.mpr hn)
    exact pack_of_large s _ (by omega)
  · exact pack_of_large s _ (by omega)

/-- The nearest double to a rounded number is what it was rounded to. -/
theorem isRounding (h : Rounded .double r t n) (hr : 0 ≤ r) :
    IsRounding r ⟨Float.Model.pack (carried .positive n t)⟩ := by
  rw [IsRounding, abs_of_nonneg hr]
  rcases lt_or_ge r Grid.double.limit with hlt | hle
  · refine .inl ⟨hlt, Grid.double.carry false n t, ?_, h.isNearest hlt (by decide)⟩
    rw [parts?_eq]
    exact h.unpack_pack_carried hlt .positive
  · refine .inr ⟨hle, ?_⟩
    change (Float.Model.pack (carried .positive n t)).unpack.isInf = true
    rw [h.unpack_pack_infinity hle]
    rfl

end Rounded

end ClassAsm.Number
