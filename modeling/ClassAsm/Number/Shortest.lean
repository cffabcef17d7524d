import ClassAsm.Number.Floating

/-!
# Shortest decimal text of a double or single

The text of a floating-point number is the decimal with the fewest digits that reads back to the
same number; among those of that length it is the one nearest to the number, and of two equally
near the one with the even last digit.

The search is exact.  A number `m · 2 ^ e` is read back from every decimal in the interval that
ends half a unit above it and half a unit below it (a quarter below, when the number is the least
of its binade), ends included exactly when `m` is even.  Decimal grids `10 ^ k` are tried from
coarse to fine; on each grid only the two neighbours of the number can lie in the interval.

`Layout` holds the decisions of the written form: which exponents are written positionally, and
how many digits an exponent has at least.
-/

namespace ClassAsm.Number

/-- A decimal `digits · 10 ^ exponent`. -/
structure Decimal where
  digits : Nat
  exponent : Int
deriving DecidableEq, Repr

/-- The binary format a number is read back in: its precision in bits and the exponent of its
least positive number. -/
structure Precision where
  bits : Nat
  least : Int
deriving DecidableEq

/-- Double precision. -/
def Precision.double : Precision := ⟨53, -1074⟩

/-- Single precision. -/
def Precision.single : Precision := ⟨24, -149⟩

/-- The interval of reals that read back as one number, all multiplied by a common denominator:
the number itself, the two ends, and whether the ends belong to it. -/
structure Interval where
  low : Nat
  value : Nat
  high : Nat
  closed : Bool

/-- Whether `x` lies in the interval. -/
def Interval.holds (i : Interval) (x : Nat) : Bool :=
  if i.closed then i.low ≤ x && x ≤ i.high else i.low < x && x < i.high

/-- The point of the grid of multiples of `step` that represents the interval, if one does: of the
two neighbours of the value, one that lies in the interval, the nearer if both do, the even one
if they are equally near. -/
def Interval.onGrid? (i : Interval) (step : Nat) : Option Nat :=
  let d := i.value / step
  let below := i.value - d * step
  let above := (d + 1) * step - i.value
  match i.holds (d * step), i.holds ((d + 1) * step) with
  | true, true =>
    if below < above then some d
    else if above < below then some (d + 1)
    else some (d + d % 2)
  | true, false => some d
  | false, true => some (d + 1)
  | false, false => none

/-- The interval of `m · 2 ^ e` in units of `2 ^ (e - 2) · 10 ^ k / c`, where `c` clears the
denominators, together with the grid step `10 ^ k` in the same units. -/
def scaled (p : Precision) (m : Nat) (e k : Int) : Interval × Nat :=
  let lowGap := if m = pow2 (p.bits - 1) ∧ p.least < e then 1 else 2
  let unit := pow2 (e - 2).toNat * pow10 (-k).toNat
  let step := pow2 (2 - e).toNat * pow10 k.toNat
  (⟨(4 * m - lowGap) * unit, 4 * m * unit, (4 * m + 2) * unit, m % 2 = 0⟩, step)

/-- Try the grids `10 ^ k`, `10 ^ (k - 1)`, … and take the first that has a point in the
interval. -/
def searchGrid (p : Precision) (m : Nat) (e : Int) : Nat → Int → Decimal
  | 0, k => ⟨0, k⟩
  | fuel + 1, k =>
    let (i, step) := scaled p m e k
    match i.onGrid? step with
    | some d => ⟨d, k⟩
    | none => searchGrid p m e fuel (k - 1)

/-- A decimal exponent that is at least that of `m · 2 ^ e`: `log₁₀ 2` is below `0.30103`, and
above it when the logarithm to base two is negative is `0.30102`. -/
def startExponent (m : Nat) (e : Int) : Int :=
  let top := e + bitLength m
  if 0 ≤ top then top * 30103 / 100000 + 1 else top * 30102 / 100000 + 1

/-- The shortest decimal that reads back as `m · 2 ^ e`, for a positive `m`.  The grid that
separates neighbouring doubles is reached within the fuel: 17 digits always suffice. -/
def shortest (p : Precision) (m : Nat) (e : Int) : Decimal :=
  searchGrid p m e 24 (startExponent m e)

/-! ## Written form -/

/-- The decisions of the written form. -/
structure Layout where
  /-- The least decimal exponent that is written positionally. -/
  plainFrom : Int
  /-- The least decimal exponent above those that are written positionally. -/
  plainBelow : Int
  /-- The least number of digits of a written exponent. -/
  exponentDigits : Nat

/-- The layout of all floating-point text: positional for exponents `-4` to `5`, and otherwise
one digit before the point and an exponent of at least two digits with its sign. -/
def Layout.standard : Layout := ⟨-4, 6, 2⟩

/-- Pad a digit text with zeros on the left. -/
def padZeros (width : Nat) (s : List Char) : List Char :=
  List.replicate (width - s.length) '0' ++ s

/-- Drop the zeros that end a digit text. -/
def dropZeros (s : List Char) : List Char := (s.reverse.dropWhile (· = '0')).reverse

/-- The written form of a positive decimal. -/
def Layout.write (l : Layout) (d : Decimal) : List Char :=
  let all := Nat.toDigits 10 d.digits
  let exponent : Int := all.length - 1 + d.exponent
  let ds := dropZeros all
  if exponent < l.plainFrom ∨ l.plainBelow ≤ exponent then
    let mark := if exponent < 0 then '-' else '+'
    let tail := 'e' :: mark :: padZeros l.exponentDigits (Nat.toDigits 10 exponent.natAbs)
    match ds with
    | [] => tail
    | [c] => c :: tail
    | c :: rest => c :: '.' :: rest ++ tail
  else if exponent < 0 then
    '0' :: '.' :: List.replicate (-exponent - 1).toNat '0' ++ ds
  else
    let whole := exponent.toNat + 1
    let front := ds.take whole
    let back := ds.drop whole
    front ++ List.replicate (whole - ds.length) '0' ++ (if back.isEmpty then [] else '.' :: back)

/-- The text of a finite number in the given precision. -/
def partsText (p : Precision) (x : Parts) : String :=
  let sign := if x.negative then ['-'] else []
  if x.mantissa = 0 then String.ofList (sign ++ ['0'])
  else String.ofList (sign ++ Layout.standard.write (shortest p x.mantissa x.exponent))

/-- The text of a number that is not finite. -/
def specialText (x : Float) : String :=
  if x.isNaN then "NaN" else if x < 0 then "-Inf" else "+Inf"

/-- The text of a double. -/
def doubleText (x : Float) : String :=
  match parts? x with
  | none => specialText x
  | some p => partsText .double p

/-- The text of a number at single precision. -/
def singleText (x : Float) : String :=
  let y := toSingle x
  match singleParts? y with
  | none => specialText y
  | some p => partsText .single p

end ClassAsm.Number
