import Mathlib
import ClassAsm.Number.Floating

/-!
# The values of doubles

`parts?` reads a double off its bits.  Here it is read off the sign, the mantissa and the exponent
that `Float` computes with, so that what `Float` does to those is known of the parts, and every
finite double gets its exact value.

## What is here

* `Parts.value`: the rational number that parts stand for.
* `parts?_eq`: the parts of a double are those of its unpacked form.
* `Grid` and `Parts.On`: the numbers of one width; `on_double_of_parts?` and `exists_parts?` say
  that the parts on the grid of doubles are the parts of doubles.
* `parts?_neg`: negation changes the sign alone.
-/

open Float.Model Float.Model.UnpackedFloat

namespace ClassAsm.Number

/-- The number that parts stand for. -/
def Parts.value (p : Parts) : ℚ := withSign p.negative p.mantissa * 2 ^ p.exponent

/-- `x` is a finite double with the value `q`. -/
def HasValue (x : Float) (q : ℚ) : Prop := ∃ p, parts? x = some p ∧ p.value = q

/-- A width of floating-point numbers: mantissas of `bits + 1` bits and a range of exponents. -/
structure Grid where
  bits : ℕ
  least : ℤ
  greatest : ℤ
  least_le_greatest : least ≤ greatest

/-- Doubles. -/
def Grid.double : Grid := ⟨52, -1074, 971, by decide⟩

/-- The parts of the numbers of one width: all bits are used unless the exponent is the least. -/
structure Parts.On (p : Parts) (g : Grid) : Prop where
  mantissa_lt : p.mantissa < 2 ^ (g.bits + 1)
  le_exponent : g.least ≤ p.exponent
  exponent_le : p.exponent ≤ g.greatest
  full : 2 ^ g.bits ≤ p.mantissa ∨ p.exponent = g.least

variable {p : Parts}

theorem Parts.on_double_iff :
    p.On .double ↔ p.mantissa < 2 ^ 53 ∧ -1074 ≤ p.exponent ∧ p.exponent ≤ 971 ∧
      (2 ^ 52 ≤ p.mantissa ∨ p.exponent = -1074) :=
  ⟨fun h ↦ ⟨h.1, h.2, h.3, h.4⟩, fun h ↦ ⟨h.1, h.2.1, h.2.2.1, h.2.2.2⟩⟩

theorem Parts.On.sign {g : Grid} (h : p.On g) (negative : Bool) : Parts.On { p with negative } g :=
  ⟨h.mantissa_lt, h.le_exponent, h.exponent_le, h.full⟩

@[simp] theorem withSign_not (negative : Bool) (n : ℕ) :
    withSign (!negative) n = -withSign negative n := by
  cases negative <;> simp [withSign]

@[simp] theorem abs_withSign (negative : Bool) (n : ℕ) : |withSign negative n| = n := by
  cases negative <;> simp [withSign]

theorem Parts.value_neg (p : Parts) :
    Parts.value { p with negative := !p.negative } = -p.value := by
  simp [Parts.value]

theorem Parts.abs_value (p : Parts) : |p.value| = p.mantissa * 2 ^ p.exponent := by
  rw [Parts.value, abs_mul, abs_of_pos (by positivity : (0 : ℚ) < 2 ^ p.exponent)]
  congr 1
  exact_mod_cast abs_withSign p.negative p.mantissa

theorem two_zpow (z : ℤ) : (2 : ℚ) ^ z = 2 ^ z.toNat / 2 ^ (-z).toNat := by
  rw [eq_div_iff (by positivity), ← zpow_natCast, ← zpow_natCast, ← zpow_add₀ two_ne_zero]
  congr 1
  omega

/-! ## Unpacked doubles -/

/-- Whether a sign is a minus. -/
def isMinus : Sign → Bool
  | .negative => true
  | .positive => false

/-- The parts of an unpacked double. -/
def unpackedParts? : UnpackedFloat → Option Parts
  | .finite s m e _ => some ⟨isMinus s, m, e⟩
  | .zero s => some ⟨isMinus s, 0, -1074⟩
  | .infinity _ | .notANumber => none

theorem toNat_unpackExponent (b : BitVec Format.binary64.numBits) :
    (unpackExponent b).toNat = b.toNat / 2 ^ 52 % 2 ^ 11 := by
  simp only [unpackExponent, BitVec.toNat_cast, BitVec.extractLsb_toNat, Nat.shiftRight_eq_div_pow]

theorem toNat_unpackMantissa (b : BitVec Format.binary64.numBits) :
    (unpackMantissa b).toNat = b.toNat % 2 ^ 52 := by
  simp only [unpackMantissa, BitVec.toNat_cast, BitVec.extractLsb_toNat, Nat.shiftRight_zero]

theorem toNat_unpackSign (b : BitVec Format.binary64.numBits) :
    (unpackSign b).toNat = b.toNat / 2 ^ 63 % 2 := by
  simp only [unpackSign, BitVec.toNat_cast, BitVec.extractLsb_toNat, Nat.shiftRight_eq_div_pow]

theorem isMinus_ofBitVec (b : BitVec Format.binary64.numBits) :
    isMinus (Sign.ofBitVec (unpackSign b)) = decide (b.toNat / 2 ^ 63 = 1) := by
  have hb : b.toNat < 2 ^ 64 := b.isLt
  have hs := toNat_unpackSign b
  unfold Sign.ofBitVec
  split <;> rename_i h
  · rw [h] at hs
    simp only [isMinus, Bool.false_eq, decide_eq_false_iff_not]
    simp at hs
    omega
  · have h' : (unpackSign b).toNat ≠ 0 := fun hz ↦ h (BitVec.eq_of_toNat_eq (by simpa using hz))
    simp only [isMinus, Bool.true_eq, decide_eq_true_eq]
    omega

theorem toNat_implicit_append (v : BitVec 52) : (1#1 ++ v).toNat = 2 ^ 52 + v.toNat := by
  rw [BitVec.toNat_append, ← Nat.shiftLeft_add_eq_or_of_lt v.isLt, Nat.shiftLeft_eq]
  rfl

/-- The parts that 64 bits stand for. -/
def bitsParts? (bits : ℕ) : Option Parts :=
  if bits / 2 ^ 52 % 2 ^ 11 = 2 ^ 11 - 1 then none
  else if bits / 2 ^ 52 % 2 ^ 11 = 0 then some ⟨decide (bits / 2 ^ 63 = 1), bits % 2 ^ 52, -1074⟩
  else some ⟨decide (bits / 2 ^ 63 = 1), 2 ^ 52 + bits % 2 ^ 52,
    (bits / 2 ^ 52 % 2 ^ 11 : ℕ) - 1075⟩

theorem unpackedParts?_unpack (b : BitVec Format.binary64.numBits) :
    unpackedParts? (unpack Format.binary64 b) = bitsParts? b.toNat := by
  have hE := toNat_unpackExponent b
  have hM := toNat_unpackMantissa b
  have hs := isMinus_ofBitVec b
  have hall : unpackExponent b = -1#11 ↔ b.toNat / 2 ^ 52 % 2 ^ 11 = 2 ^ 11 - 1 := by
    rw [← hE]
    exact BitVec.toNat_inj.symm
  have hzero : unpackExponent b = 0#11 ↔ b.toNat / 2 ^ 52 % 2 ^ 11 = 0 := by
    rw [← hE]
    exact BitVec.toNat_inj.symm
  have hempty : unpackMantissa b = 0#52 ↔ b.toNat % 2 ^ 52 = 0 := by
    rw [← hM]
    exact BitVec.toNat_inj.symm
  rw [UnpackedFloat.unpack, bitsParts?]
  by_cases ha : b.toNat / 2 ^ 52 % 2 ^ 11 = 2 ^ 11 - 1
  · rw [if_pos ha, if_pos (hall.mpr ha)]
    split <;> rfl
  rw [if_neg ha, if_neg (mt hall.mp ha)]
  by_cases hz : b.toNat / 2 ^ 52 % 2 ^ 11 = 0
  · rw [if_pos hz, if_pos (hzero.mpr hz), ← hs, ← hM]
    split <;> rename_i hm
    · simp [unpackedParts?, hm]
    · simp only [unpackedParts?, hzero.mpr hz]
      rfl
  · rw [if_neg hz, if_neg (mt hzero.mp hz), ← hs, ← hM, ← hE, ← toNat_implicit_append]
    rfl

/-- The parts read off the bits are those that the arithmetic of doubles works with. -/
theorem parts?_eq (x : Float) : parts? x = unpackedParts? x.toModel.unpack :=
  (unpackedParts?_unpack x.toModel.toBits.toBitVec).symm

/-! ## Which parts occur -/

theorem on_double_of_bitsParts? {bits : ℕ} (h : bitsParts? bits = some p) : p.On .double := by
  have hfraction : bits % 2 ^ 52 < 2 ^ 52 := Nat.mod_lt _ (by decide)
  have hbiased : bits / 2 ^ 52 % 2 ^ 11 < 2 ^ 11 := Nat.mod_lt _ (by decide)
  rw [Parts.on_double_iff]
  unfold bitsParts? at h
  split at h
  · cases h
  split at h <;> cases h
  · exact ⟨Nat.lt_trans hfraction (by decide), Int.le_refl _, (by decide : (-1074 : ℤ) ≤ 971),
      .inr rfl⟩
  · exact ⟨by simp only; omega, by simp only; omega, by simp only; omega,
      .inl (by simp only; omega)⟩

variable {x : Float}

theorem on_double_of_parts? (h : parts? x = some p) : p.On .double :=
  on_double_of_bitsParts? h

/-! ## Packing -/

theorem ofBitVec_unpackSign (s : Sign) (e : BitVec 11) (m : BitVec 52) :
    Sign.ofBitVec (unpackSign (packComponents Format.binary64 s e m)) = s := by
  simp only [unpackSign, packComponents, BitVec.extractLsb]
  rw [BitVec.extractLsb'_append_eq_of_le (by decide),
    BitVec.extractLsb'_append_eq_of_le (by decide)]
  cases s <;> rfl

variable {m : ℕ}

theorem log2_of_full (h : 2 ^ 52 ≤ m) (hm : m < 2 ^ 53) : m.log2 = 52 :=
  (Nat.log2_eq_iff (by omega)).mpr ⟨h, hm⟩

theorem full_shift (hm : m ≠ 0) (hlt : m < 2 ^ 53) :
    m.log2 ≤ 52 ∧ 2 ^ 52 ≤ m * 2 ^ (52 - m.log2) ∧ m * 2 ^ (52 - m.log2) < 2 ^ 53 := by
  have hlog : m.log2 ≤ 52 := Nat.le_of_lt_succ ((Nat.log2_lt hm).mpr hlt)
  refine ⟨hlog, ?_, ?_⟩
  · calc 2 ^ 52 = 2 ^ m.log2 * 2 ^ (52 - m.log2) := by rw [← Nat.pow_add, Nat.add_sub_cancel' hlog]
      _ ≤ m * 2 ^ (52 - m.log2) := Nat.mul_le_mul_right _ (Nat.log2_self_le hm)
  · calc m * 2 ^ (52 - m.log2) < 2 ^ (m.log2 + 1) * 2 ^ (52 - m.log2) :=
          Nat.mul_lt_mul_of_pos_right Nat.lt_log2_self (Nat.two_pow_pos _)
      _ = 2 ^ 53 := by rw [← Nat.pow_add]; congr 1; omega

variable {e : ℤ}

theorem unpack_pack_full (s : Sign) (hm : 0 < m) (hfull : 2 ^ 52 ≤ m) (hlt : m < 2 ^ 53)
    (hlow : -1074 ≤ e) (hhigh : e ≤ 971) :
    (Float.Model.pack (.finite s m e hm)).unpack = .finite s m e hm := by
  have hbias :
    (e + Format.binary64.exponentBias + Format.binary64.mantissaBitsWithoutImplicit).toNat =
      (e + 1075).toNat := by
    change (e + 1023 + 52).toNat = _
    omega
  have hE : (BitVec.ofNat 11 (e + 1075).toNat).toNat = (e + 1075).toNat := by
    rw [BitVec.toNat_ofNat, Nat.mod_eq_of_lt (by omega)]
  have hM : (1#1 ++ BitVec.ofNat 52 m).toNat = m := by
    rw [toNat_implicit_append, BitVec.toNat_ofNat]
    omega
  have hall : BitVec.ofNat 11 (e + 1075).toNat ≠ -1#11 := by
    rw [Ne, ← BitVec.toNat_inj, hE]
    change (e + 1075).toNat ≠ 2047
    omega
  have hzero : BitVec.ofNat 11 (e + 1075).toNat ≠ 0#11 := by
    rw [Ne, ← BitVec.toNat_inj, hE]
    change (e + 1075).toNat ≠ 0
    omega
  change UnpackedFloat.unpack Format.binary64
    (UnpackedFloat.pack Format.binary64 (.finite s m e hm)) = _
  rw [UnpackedFloat.pack]
  simp only [hbias, log2_of_full hfull hlt]
  rw [if_neg (by omega), if_pos (by rfl), UnpackedFloat.unpack]
  simp only [unpackExponent_packComponents, unpackMantissa_packComponents, ofBitVec_unpackSign]
  rw [if_neg hall, if_neg hzero]
  simp only [hM, hE]
  congr 1
  change ((e + 1075).toNat : ℤ) - 1075 = e
  omega

theorem unpack_pack_small (s : Sign) (hm : 0 < m) (hlt : m < 2 ^ 52) :
    (Float.Model.pack (.finite s m (-1074) hm)).unpack = .finite s m (-1074) hm := by
  have hM : (BitVec.ofNat 52 m).toNat = m := by
    rw [BitVec.toNat_ofNat, Nat.mod_eq_of_lt hlt]
  have hempty : BitVec.ofNat 52 m ≠ 0#52 := by
    rw [Ne, ← BitVec.toNat_inj, hM]
    exact hm.ne'
  have hlog : ¬m.log2 + 1 = Format.binary64.mantissaBits := by
    have := (Nat.log2_lt hm.ne').mpr hlt
    change ¬m.log2 + 1 = 53
    omega
  change UnpackedFloat.unpack Format.binary64
    (UnpackedFloat.pack Format.binary64 (.finite s m (-1074) hm)) = _
  rw [UnpackedFloat.pack]
  simp only
  rw [if_neg (by decide), if_neg hlog, UnpackedFloat.unpack]
  simp only [unpackExponent_packComponents, unpackMantissa_packComponents, ofBitVec_unpackSign]
  rw [if_neg (by decide), if_pos trivial, dif_neg hempty]
  simp only [hM]
  rfl

/-- What has the parts of a double survives packing. -/
theorem unpack_pack {u : UnpackedFloat} (hu : ∀ p, unpackedParts? u = some p → p.On .double) :
    (Float.Model.pack u).unpack = u := by
  cases u with
  | notANumber => rfl
  | infinity s => cases s <;> rfl
  | zero s => cases s <;> rfl
  | finite s m e hm =>
    obtain ⟨hlt, hlow, hhigh, hfull⟩ := Parts.on_double_iff.mp (hu _ rfl)
    by_cases hm' : 2 ^ 52 ≤ m
    · exact unpack_pack_full s hm hm' hlt hlow hhigh
    · obtain rfl : e = -1074 := hfull.resolve_left hm'
      exact unpack_pack_small s hm (by omega)

theorem exists_parts? (hp : p.On .double) : ∃ x, parts? x = some p := by
  obtain ⟨negative, m, e⟩ := p
  obtain ⟨s, rfl⟩ : ∃ s, isMinus s = negative := by
    cases negative
    · exact ⟨.positive, rfl⟩
    · exact ⟨.negative, rfl⟩
  rcases Nat.eq_zero_or_pos m with rfl | hm
  · obtain rfl : e = -1074 := hp.full.resolve_left (Nat.not_le.mpr (Nat.two_pow_pos _))
    refine ⟨⟨Float.Model.pack (.zero s)⟩, ?_⟩
    cases s <;> rfl
  · refine ⟨⟨Float.Model.pack (.finite s m e hm)⟩, ?_⟩
    rw [parts?_eq, unpack_pack]
    · rfl
    · rintro p ⟨⟩
      exact hp

theorem pack_of_large (s : Sign) (hm : 0 < m) (he : 972 ≤ e) :
    (Float.Model.pack (.finite s m e hm)).unpack = .infinity s := by
  have hbias : 2 ^ Format.binary64.exponentBits ≤
      (e + Format.binary64.exponentBias + Format.binary64.mantissaBitsWithoutImplicit).toNat +
      1 := by
    change 2 ^ 11 ≤ (e + 1023 + 52).toNat + 1
    omega
  change UnpackedFloat.unpack Format.binary64
    (UnpackedFloat.pack Format.binary64 (.finite s m e hm)) = _
  rw [UnpackedFloat.pack]
  simp only
  rw [if_pos hbias]
  cases s <;> rfl

/-! ## Negation -/

theorem on_double_of_unpack (x : Float) :
    ∀ p, unpackedParts? x.toModel.unpack = some p → p.On .double := by
  intro p hp
  rw [← parts?_eq] at hp
  exact on_double_of_parts? hp

theorem unpack_neg (x : Float) : (-x).toModel.unpack = x.toModel.unpack.neg := by
  change (Float.Model.pack x.toModel.unpack.neg).unpack = x.toModel.unpack.neg
  have hx := on_double_of_unpack x
  refine unpack_pack fun p hp ↦ ?_
  revert hx hp
  cases x.toModel.unpack with
  | notANumber | infinity s => exact fun _ hp ↦ nomatch hp
  | zero s =>
    rintro hx ⟨⟩
    exact (hx _ rfl).sign _
  | finite s m e hm =>
    rintro hx ⟨⟩
    exact (hx _ rfl).sign _

theorem isMinus_neg (s : Sign) : isMinus (-s) = !isMinus s := by cases s <;> rfl

theorem parts?_neg (x : Float) :
    parts? (-x) = (parts? x).map fun p ↦ { p with negative := !p.negative } := by
  rw [parts?_eq, parts?_eq, unpack_neg]
  cases x.toModel.unpack <;> simp [UnpackedFloat.neg, unpackedParts?, isMinus_neg]

theorem isInf_of_parts? (h : parts? x = some p) : x.isInf = false := by
  rw [parts?_eq] at h
  change x.toModel.unpack.isInf = false
  cases hu : x.toModel.unpack with
  | infinity s => rw [hu] at h; cases h
  | _ => rfl

theorem isInf_neg (x : Float) : (-x).isInf = x.isInf := by
  change (-x).toModel.unpack.isInf = x.toModel.unpack.isInf
  rw [unpack_neg]
  cases x.toModel.unpack <;> rfl

end ClassAsm.Number
