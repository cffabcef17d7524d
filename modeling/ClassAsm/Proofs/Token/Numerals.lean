import Mathlib.Data.Nat.Digits.Defs
import ClassAsm.Proofs.Lists
import ClassAsm.Token.Scan
import ClassAsm.Proofs.Number.Decimals
import ClassAsm.Proofs.Number.Truncation

/-!
# Numbers in a source text

A word is a number if it is a decimal number: `Decimal` is such a number as it is written, with its
text and its value.  The scanner reads the digits (`numeral?_text`, `exists_decimal_of_numeral?`),
keeps a number without separator as it is, and rounds every other one to a double before it asks
whether it is an integer (`kind?_whole`, `kind?_rounded`).  Main statement:
`integer_tokens_hold_rounded_decimals`.
-/

open ClassAsm.Number

namespace ClassAsm.Token

/-! ## Decimal notation -/

/-- A decimal number as it is written: perhaps a sign (`true` is minus), digits, and perhaps a
separator with digits after it. -/
structure Decimal where
  sign : Option Bool
  whole : List (Fin 10)
  fraction : Option (Char × List (Fin 10))
  isSeparator_fraction : ∀ f ∈ fraction, isSeparator f.1 = true
  digits_ne_nil : whole ++ (fraction.map Prod.snd).getD [] ≠ []

namespace Decimal

variable (d : Decimal)

/-- The digits behind the separator. -/
def places : List (Fin 10) := (d.fraction.map Prod.snd).getD []

/-- The number that all digits make, read without the separator. -/
def digits : ℕ := Nat.ofDigits 10 ((d.whole ++ d.places).map Fin.val).reverse

/-- The number that is written. -/
def value : ℚ := withSign (d.sign = some true) d.digits / 10 ^ d.places.length

/-- The characters of digits. -/
def figures (ds : List (Fin 10)) : List Char := ds.map fun d : Fin 10 ↦ Nat.digitChar d.val

/-- What is written of the sign. -/
def signText (sign : Option Bool) : List Char :=
  sign.elim [] fun minus ↦ if minus then ['-'] else ['+']

/-- The separator and what follows it. -/
def rear : List Char := d.fraction.elim [] fun f ↦ f.1 :: figures f.2

/-- How a decimal number is written. -/
def text : List Char := signText d.sign ++ (figures d.whole ++ d.rear)

/-- A decimal number with its digits read. -/
def numeral : Numeral := ⟨d.sign = some true, d.digits, d.fraction.map fun f ↦ f.2.length⟩

end Decimal

/-! ## Reading digits -/

theorem digit?_digitChar (d : Fin 10) : digit? (Nat.digitChar d) = some d.val := by
  revert d
  decide

variable {c : Char}

theorem eq_digitChar_of_digit? {n : ℕ} (h : digit? c = some n) :
    ∃ d : Fin 10, c = Nat.digitChar d := by
  unfold digit? at h
  split at h <;> rename_i hc
  · have hlow : 48 ≤ c.toNat := hc.1
    have hhigh : c.toNat ≤ 57 := hc.2
    refine ⟨⟨c.toNat - 48, by omega⟩, Char.toNat_inj.mp ?_⟩
    rw [Nat.toNat_digitChar_of_lt_ten (by omega)]
    exact (Nat.add_sub_of_le hlow).symm
  · cases h

theorem readDigitsFrom_figures (acc : ℕ) (ds : List (Fin 10)) :
    readDigitsFrom acc (Decimal.figures ds) =
      some (acc * 10 ^ ds.length + Nat.ofDigits 10 (ds.map Fin.val).reverse) := by
  induction ds generalizing acc with
  | nil => simp [Decimal.figures, readDigitsFrom]
  | cons d ds ih =>
    rw [Decimal.figures, List.map_cons, readDigitsFrom, digit?_digitChar]
    refine (ih (10 * acc + d)).trans ?_
    rw [List.map_cons, List.reverse_cons, Nat.ofDigits_append, Nat.ofDigits_singleton]
    simp only [List.length_cons, List.length_reverse, List.length_map, pow_succ, Option.some.injEq]
    ring

variable {s : List Char}

theorem exists_figures_of_readDigitsFrom {acc n : ℕ} (h : readDigitsFrom acc s = some n) :
    ∃ ds, s = Decimal.figures ds := by
  induction s generalizing acc with
  | nil => exact ⟨[], rfl⟩
  | cons c s ih =>
    rw [readDigitsFrom] at h
    split at h <;> rename_i hc
    · obtain ⟨d, rfl⟩ := eq_digitChar_of_digit? hc
      obtain ⟨ds, rfl⟩ := ih h
      exact ⟨d :: ds, rfl⟩
    · cases h

variable {ds : List (Fin 10)}

theorem readNat?_figures (h : ds ≠ []) :
    readNat? (Decimal.figures ds) = some (Nat.ofDigits 10 (ds.map Fin.val).reverse) := by
  cases ds with
  | nil => exact absurd rfl h
  | cons d ds =>
    refine (readDigitsFrom_figures 0 (d :: ds)).trans ?_
    rw [Nat.zero_mul, Nat.zero_add]

theorem exists_figures_of_readNat? {n : ℕ} (h : readNat? s = some n) :
    ∃ ds, ds ≠ [] ∧ s = Decimal.figures ds := by
  cases s with
  | nil => cases h
  | cons c s =>
    obtain ⟨ds, hds⟩ := exists_figures_of_readDigitsFrom h
    refine ⟨ds, ?_, hds⟩
    rintro rfl
    cases hds

/-! ## Reading decimals -/

theorem not_isSeparator_of_mem_figures (h : c ∈ Decimal.figures ds) : isSeparator c = false := by
  have hdigit : ∀ d : Fin 10, isSeparator (Nat.digitChar d) = false := by decide
  obtain ⟨d, -, rfl⟩ := List.mem_map.mp h
  exact hdigit d

/-- What follows the sign is cut at the separator. -/
theorem takeWhile_figures (ds : List (Fin 10)) {rest : List Char}
    (h : ∀ c ∈ rest.head?, isSeparator c = true) :
    (Decimal.figures ds ++ rest).takeWhile (!isSeparator ·) = Decimal.figures ds := by
  rw [List.takeWhile_append_of_pos fun c hc ↦ by simp [not_isSeparator_of_mem_figures hc]]
  cases rest with
  | nil => simp
  | cons c rest => simp [h c rfl]

namespace Decimal

variable (d : Decimal)

theorem figures_append (ds es : List (Fin 10)) : figures (ds ++ es) = figures ds ++ figures es :=
  List.map_append

theorem isSeparator_rear : ∀ c ∈ d.rear.head?, isSeparator c = true := by
  intro c hc
  unfold rear at hc
  cases hf : d.fraction with
  | none => simp [hf] at hc
  | some f =>
    obtain rfl : f.1 = c := by simpa [hf] using hc
    exact d.isSeparator_fraction f hf

theorem drop_one_rear : d.rear.drop 1 = figures d.places := by
  unfold rear places
  cases d.fraction <;> rfl

theorem fraction_eq :
    (if d.rear.isEmpty then none else some (d.rear.length - 1)) = d.numeral.fraction := by
  unfold rear numeral
  cases d.fraction <;> simp [figures]

theorem splitSign_of_ne {rest : List Char} (hminus : c ≠ '-') (hplus : c ≠ '+') :
    splitSign (c :: rest) = (false, c :: rest) := by
  unfold splitSign
  split <;> simp_all

theorem splitSign_text :
    splitSign d.text = (decide (d.sign = some true), figures d.whole ++ d.rear) := by
  have hdigit : ∀ e : Fin 10, Nat.digitChar e.val ≠ '-' ∧ Nat.digitChar e.val ≠ '+' := by decide
  unfold text
  rcases hsign : d.sign with _ | _ | _
  · -- without a sign the text begins with a digit, or else with the separator
    cases hw : d.whole with
    | cons e es => exact splitSign_of_ne (hdigit e).1 (hdigit e).2
    | nil =>
      cases hf : d.fraction with
      | none => exact absurd (by simp [hw, hf]) d.digits_ne_nil
      | some f =>
        have hsep := d.isSeparator_fraction f hf
        have hrear : d.rear = f.1 :: figures f.2 := by simp [rear, hf]
        rw [hrear]
        refine splitSign_of_ne ?_ ?_ <;> intro hc <;> rw [hc] at hsep <;> revert hsep <;> decide
  · rfl
  · rfl

theorem exists_signText (word : List Char) :
    ∃ sign, word = signText sign ++ (splitSign word).2 := by
  unfold splitSign
  split
  · exact ⟨some true, rfl⟩
  · exact ⟨some false, rfl⟩
  · exact ⟨none, rfl⟩

end Decimal

theorem numeral?_text (d : Decimal) : numeral? d.text = some d.numeral := by
  have hdigits : d.whole ++ d.places ≠ [] := d.digits_ne_nil
  simp only [numeral?, d.splitSign_text, takeWhile_figures d.whole d.isSeparator_rear,
    List.drop_left, d.drop_one_rear, d.fraction_eq]
  rw [← Decimal.figures_append, readNat?_figures hdigits]
  rfl

variable {n : Numeral} {word : List Char}

theorem exists_decimal_of_numeral? (h : numeral? word = some n) : ∃ d : Decimal, d.text = word := by
  obtain ⟨sign, hsign⟩ := Decimal.exists_signText word
  generalize hbody : (splitSign word).2 = body at hsign
  have hcut : body.takeWhile (!isSeparator ·) ++ body.dropWhile (!isSeparator ·) = body :=
    List.takeWhile_append_dropWhile
  have hhead := List.head?_dropWhile_not (!isSeparator ·) body
  simp only [numeral?, hbody, drop_length_takeWhile, Option.map_eq_some_iff] at h
  obtain ⟨digits, hread, -⟩ := h
  obtain ⟨ds, hds, heq⟩ := exists_figures_of_readNat? hread
  obtain ⟨whole, places, rfl, hwhole, hplaces⟩ := List.map_eq_append_iff.mp heq.symm
  cases hback : body.dropWhile (!isSeparator ·) with
  | nil =>
    rw [hback] at hcut hplaces
    obtain rfl : places = [] := List.map_eq_nil_iff.mp hplaces
    refine ⟨⟨sign, whole, none, by simp, hds⟩, ?_⟩
    rw [hsign, ← hcut, ← hwhole]
    rfl
  | cons c rest =>
    rw [hback] at hcut hplaces hhead
    refine ⟨⟨sign, whole, some (c, places), ?_, hds⟩, ?_⟩
    · rintro f ⟨⟩
      simpa using hhead
    · rw [hsign, ← hcut, ← hwhole, ← show places.map _ = rest from hplaces]
      rfl

/-! ## The values of numerals -/

/-- The number that a numeral stands for. -/
def Numeral.value (n : Numeral) : ℚ := withSign n.negative n.digits / 10 ^ n.fraction.getD 0

theorem value_numeral (d : Decimal) : d.numeral.value = d.value := by
  have hplaces : d.numeral.fraction.getD 0 = d.places.length := by
    unfold Decimal.numeral Decimal.places
    cases d.fraction <;> rfl
  rw [Numeral.value, hplaces]
  rfl

/-- The double of a numeral is its value, rounded once. -/
theorem isRounding_toFloat (n : Numeral) : IsRounding n.value n.toFloat := by
  have h := isRounding_ofScientific n.digits (n.fraction.getD 0)
  unfold Numeral.value Numeral.toFloat
  cases n.negative
  · exact h
  · have hvalue : ((withSign true n.digits : ℤ) : ℚ) / 10 ^ n.fraction.getD 0 =
        -((n.digits : ℚ) / 10 ^ n.fraction.getD 0) := by
      simp [withSign, neg_div]
    rw [hvalue]
    exact h.neg

/-- From `2 ^ 63` on, the nearest double is no smaller: `2 ^ 63` is a double itself. -/
theorem two_pow_le_abs_of_nearest {q : ℚ} {x : Float} {p : Parts} (h : Nearest q x)
    (hp : parts? x = some p) (hq : 2 ^ 63 ≤ |q|) : 2 ^ 63 ≤ |p.value| := by
  obtain ⟨y, hy⟩ :=
    exists_hasValue_of_bits (m := 2 ^ 52) (e := 11) le_rfl (by decide) (by decide) (by decide)
  have hvalue : ((2 ^ 52 : ℕ) * 2 ^ (11 : ℤ) : ℚ) = 2 ^ 63 := by norm_num
  rw [hvalue] at hy
  obtain ⟨z, p', hz, hdist⟩ : ∃ z p', parts? z = some p' ∧ |q - p'.value| = |q| - 2 ^ 63 := by
    rcases le_total 0 q with hsign | hsign
    · obtain ⟨p', hp', hv⟩ := hy
      rw [abs_of_nonneg hsign] at hq ⊢
      exact ⟨y, p', hp', by rw [hv, abs_of_nonneg (sub_nonneg.mpr hq)]⟩
    · obtain ⟨p', hp', hv⟩ := hasValue_neg hy
      rw [abs_of_nonpos hsign] at hq ⊢
      refine ⟨-y, p', hp', ?_⟩
      rw [hv, abs_of_nonpos (by linarith)]
      ring
  obtain ⟨_, hp', hnear⟩ := h
  cases hp.symm.trans hp'
  have hle := (hnear.2 p' (on_double_of_parts? hz)).1
  have htri := abs_sub_abs_le_abs_sub q p.value
  linarith

/-! ## The kinds of numerals -/

/-- The word that a numeral without separator is. -/
def Numeral.integral? (n : Numeral) : Option Int64 :=
  if n.fraction.isNone then toInt64? (withSign n.negative n.digits) else none

theorem kind?_of_integral? {w : Int64} (h : n.integral? = some w) : n.kind? = some (.int w) := by
  unfold Numeral.integral? at h
  simp only [Numeral.kind?, h]

/-- A numeral that is no word as it stands is looked at as a double. -/
theorem kind?_of_not_integral? (h : n.integral? = none) : n.kind? = if n.toFloat.isInf then none
      else some ((whole? n.toFloat).elim (.float n.toFloat) .int) := by
  unfold Numeral.integral? at h
  simp only [Numeral.kind?, h]
  split
  · rfl
  · cases whole? n.toFloat <;> rfl

theorem kind?_eq_int_iff (h : n.integral? = none) (i : Int64) :
    n.kind? = some (.int i) ↔ whole? n.toFloat = some i := by
  rw [kind?_of_not_integral? h]
  cases hw : whole? n.toFloat with
  | none => split <;> simp
  | some w =>
    obtain ⟨⟨p, hp, -⟩, -⟩ := whole?_eq_some_iff.mp hw
    rw [isInf_of_parts? hp]
    simp

theorem value_of_fraction_none (hn : n.fraction = none) :
    n.value = withSign n.negative n.digits := by
  simp [Numeral.value, hn]

/-- Without a separator, an integer token is the number itself. -/
theorem kind?_whole (hn : n.fraction = none) (i : Int64) :
    n.kind? = some (.int i) ↔ (i.toInt : ℚ) = n.value := by
  have hexact : n.integral? = toInt64? (withSign n.negative n.digits) := by
    simp [Numeral.integral?, hn]
  rw [value_of_fraction_none hn]
  cases he : n.integral? with
  | some w =>
    rw [kind?_of_integral? he, ← toInt64?_eq_some_iff.mp (hexact.symm.trans he)]
    simp [Int64.toInt_inj, eq_comm]
  | none =>
    have hno (w : Int64) : w.toInt ≠ withSign n.negative n.digits := by
      intro hw
      rw [hexact, toInt64?_eq_some_iff.mpr hw] at he
      cases he
    refine iff_of_false (fun hk ↦ ?_) fun hi ↦ hno i (by exact_mod_cast hi)
    -- a number that no word holds is at least `2 ^ 63`, and so is its double
    obtain ⟨⟨p, hp, hv⟩, hi⟩ := whole?_eq_some_iff.mp ((kind?_eq_int_iff he i).mp hk)
    obtain ⟨-, hnear⟩ | ⟨-, hinf⟩ := isRounding_toFloat n
    · have hlarge : 2 ^ 63 ≤ |withSign n.negative n.digits| := by
        by_contra hsmall
        obtain ⟨w, hw⟩ := exists_toInt_eq (not_le.mp hsmall)
        exact hno w hw
      have hle := two_pow_le_abs_of_nearest hnear hp
        (by rw [value_of_fraction_none hn]; exact_mod_cast hlarge)
      rw [hv] at hle
      exact absurd (by exact_mod_cast hle) (not_le.mpr (abs_toInt_lt_iff.mpr hi))
    · rw [isInf_of_parts? hp] at hinf
      cases hinf

/-- With a separator, an integer token is the double that is nearest to the number. -/
theorem kind?_rounded (hn : n.fraction ≠ none) (i : Int64) :
    n.kind? = some (.int i) ↔ HasValue n.toFloat i.toInt ∧ i ≠ Int64.minValue := by
  have hexact : n.integral? = none := by simp [Numeral.integral?, hn]
  rw [kind?_eq_int_iff hexact, whole?_eq_some_iff]

theorem kind?_cases (n : Numeral) :
    (∃ i, n.kind? = some (.int i)) ∨ (n.kind? = some (.float n.toFloat) ∧ n.toFloat.isInf = false) ∨
      (n.kind? = none ∧ n.toFloat.isInf = true) := by
  cases he : n.integral? with
  | some w => exact .inl ⟨w, kind?_of_integral? he⟩
  | none =>
    rw [kind?_of_not_integral? he]
    cases n.toFloat.isInf <;> cases whole? n.toFloat <;> simp

theorem numeral?_of_keyword? {kind : Kind} (h : keyword? word = some kind) :
    numeral? word = none := by
  unfold keyword? at h
  split at h <;> rename_i hw <;> first
    | (rw [← String.toList_ofList (l := word), hw]; decide)
    | cases h

theorem kind_classify (d : Decimal) :
    (classify d.text).kind = d.numeral.kind?.getD .identifier := by
  have hread := numeral?_text d
  unfold classify
  cases hk : keyword? d.text with
  | some kind =>
    rw [numeral?_of_keyword? hk] at hread
    cases hread
  | none =>
    simp only [hread, Option.bind_some]
    cases d.numeral.kind? <;> rfl

theorem kind_eq_int_iff (d : Decimal) (i : Int64) :
    (classify d.text).kind = .int i ↔ d.numeral.kind? = some (.int i) := by
  rw [kind_classify]
  cases d.numeral.kind? <;> simp

theorem isSome_numeral?_iff (word : List Char) : (numeral? word).isSome = true ↔
    ∃ d : Decimal, d.text = word := by
  constructor <;> intro h
  · obtain ⟨n, hn⟩ := Option.isSome_iff_exists.mp h
    exact exists_decimal_of_numeral? hn
  · obtain ⟨d, rfl⟩ := h
    rw [numeral?_text]
    rfl

theorem exists_hasValue_of_int {i : ℤ} (hi : |i| ≤ 2 ^ 53) : ∃ x, HasValue x i := by
  rw [Int.abs_eq_natAbs] at hi
  obtain ⟨x, hx⟩ := exists_hasValue_of_nat (n := i.natAbs) (by omega)
  rcases Int.natAbs_eq i with h | h <;> rw [h]
  · exact ⟨x, hx⟩
  · exact ⟨-x, by simpa using hasValue_neg hx⟩

/-- Small integers are doubles, so rounding keeps them. -/
theorem kind?_small {i : Int64} (hi : |i.toInt| ≤ 2 ^ 53) (hv : (i.toInt : ℚ) = n.value) :
    n.kind? = some (.int i) := by
  by_cases hn : n.fraction = none
  · exact (kind?_whole hn i).mpr hv
  rw [kind?_rounded hn]
  refine ⟨?_, abs_toInt_lt_iff.mp (lt_of_le_of_lt hi (by decide))⟩
  obtain ⟨-, hnear⟩ | ⟨hlimit, -⟩ := isRounding_toFloat n
  · obtain ⟨y, hy⟩ := exists_hasValue_of_int hi
    rw [hv] at hy ⊢
    exact hnear.hasValue hy
  · rw [← hv] at hlimit
    have hsmall : |(i.toInt : ℚ)| < 2 ^ 64 := by exact_mod_cast lt_of_le_of_lt hi (by decide)
    exact absurd (two_pow_le_limit.trans hlimit) (not_le.mpr hsmall)

/-- Which decimal numbers are integer tokens, and of which value.  Exactly the words with a sign,
digits and at most one separator are numbers.  A number without separator is an integer token
exactly if it fits a signed word, and the token holds it.  With a separator, the number is rounded
to the nearest double first: the token is an integer exactly if that double is one and lies strictly
between the bounds of a word, and the token holds the double.  So up to `2 ^ 53` integers are exact
in both forms.  What is no integer token is a floating token with the nearest double, or a name if
there is none. -/
theorem integer_tokens_hold_rounded_decimals (word : List Char) (d : Decimal) :
    ((numeral? word).isSome = true ↔ ∃ d : Decimal, d.text = word) ∧
    (d.fraction = none → ∀ i : Int64, (classify d.text).kind = .int i ↔ (i.toInt : ℚ) = d.value) ∧
    (d.fraction ≠ none → ∃ x, IsRounding d.value x ∧ ∀ i : Int64,
      (classify d.text).kind = .int i ↔ HasValue x i.toInt ∧ i ≠ Int64.minValue) ∧
    (∀ i : Int64, |i.toInt| ≤ 2 ^ 53 → (i.toInt : ℚ) = d.value → (classify d.text).kind = .int i) ∧
    ((∀ i, (classify d.text).kind ≠ .int i) →
      (∃ x, (classify d.text).kind = .float x ∧ Nearest d.value x) ∨
      ((classify d.text).kind = .identifier ∧ Grid.double.limit ≤ |d.value|)) := by
  refine ⟨isSome_numeral?_iff word, ?_⟩
  have hround := isRounding_toFloat d.numeral
  simp only [kind_eq_int_iff, ← value_numeral, ne_eq]
  refine ⟨fun hd ↦ kind?_whole (by simp [Decimal.numeral, hd]),
    fun hd ↦ ⟨d.numeral.toFloat, hround, kind?_rounded (by simp [Decimal.numeral, hd])⟩,
    fun i hi hv ↦ kind?_small hi hv, fun hno ↦ ?_⟩
  obtain ⟨i, hi⟩ | ⟨hk, hinf⟩ | ⟨hk, hinf⟩ := kind?_cases d.numeral
  · exact absurd hi (hno i)
  · refine .inl ⟨d.numeral.toFloat, by rw [kind_classify, hk]; rfl, ?_⟩
    exact (hround.resolve_right fun h ↦ by simp [hinf] at h).2
  · refine .inr ⟨by rw [kind_classify, hk]; rfl, ?_⟩
    obtain ⟨-, p, hp, -⟩ | ⟨hlimit, -⟩ := hround
    · rw [isInf_of_parts? hp] at hinf
      cases hinf
    · exact hlimit

/-- Up to here all integers are exact, also with a separator. -/
theorem widest_decimal_is_exact :
    (classify "9007199254740992,0".toList).kind = .int 9007199254740992 :=
  (integer_tokens_hold_rounded_decimals [] ⟨none, [9, 0, 0, 7, 1, 9, 9, 2, 5, 4, 7, 4, 0, 9, 9, 2],
    some (',', [0]), by simp [isSeparator], by simp⟩).2.2.2.1 9007199254740992 (by decide)
    (by decide +kernel)

/-- Beyond that an integer is rounded on its way to the token.  A fraction can become an integer,
and the least word becomes no integer token. -/
theorem wide_decimals_are_rounded :
    (classify "9007199254740993.0".toList).kind = .int 9007199254740992 ∧
    (classify "0.99999999999999999999".toList).kind = .int 1 ∧
    (classify "-9223372036854775808.0".toList).kind = .float (-9223372036854775808.0) := by
  decide +kernel

end ClassAsm.Token
