import ClassAsm.Number.Integer

/-!
# Floating-point words

Doubles are `Float`; sums, products, quotients and comparisons are those of `Float`.  What `Float`
leaves to the platform is defined here by exact arithmetic on the mantissa and the exponent:
truncation to a signed word, rounding to single precision, and the remainder.

## What is here

* `Parts` and `parts?`: a finite double as `± mantissa · 2 ^ exponent`, and `Parts.toFloat` back.
* `truncate`: toward zero, with one answer for everything that does not fit a signed word.
* `toSingle`: the nearest single, ties to even, kept as a double.
* `remainder`: what is left of the dividend, with the dividend's sign.
-/

namespace ClassAsm.Number

/-! ## Mantissa and exponent -/

/-- A finite number `± mantissa · 2 ^ exponent`. -/
structure Parts where
  negative : Bool
  mantissa : Nat
  exponent : Int
deriving DecidableEq, Repr

/-- The number of binary digits of `n`. -/
def bitLength (n : Nat) : Nat := if n = 0 then 0 else Nat.log2 n + 1

/-- The parts of a finite double. -/
def parts? (x : Float) : Option Parts :=
  let bits := x.toBits.toNat
  let negative := bits / pow2 63 = 1
  let biased : Nat := bits / pow2 52 % pow2 11
  let fraction : Nat := bits % pow2 52
  if biased = pow2 11 - 1 then none
  else if biased = 0 then some ⟨negative, fraction, -1074⟩
  else some ⟨negative, pow2 52 + fraction, (biased : Int) - 1075⟩

/-- The double with the given sign and bit pattern of the magnitude. -/
def ofMagnitude (negative : Bool) (magnitude : Nat) : Float :=
  Float.ofBits (UInt64.ofNat (if negative then pow2 63 + magnitude else magnitude))

/-- The double with exactly these parts.  The parts must be those of a double: at most 53
significant bits, none of them below `2 ^ (-1074)`, and a magnitude below `2 ^ 1024`. -/
def Parts.toFloat (p : Parts) : Float :=
  let len := bitLength p.mantissa
  let top := p.exponent + len
  if p.mantissa = 0 then ofMagnitude p.negative 0
  else if top ≤ -1022 then
    ofMagnitude p.negative (p.mantissa * pow2 (p.exponent + 1074).toNat)
  else
    let scaled := if len ≤ 53 then p.mantissa * pow2 (53 - len) else p.mantissa / pow2 (len - 53)
    ofMagnitude p.negative ((top + 1022).toNat * pow2 52 + (scaled - pow2 52))

/-- Infinity with the given sign. -/
def infinity (negative : Bool) : Float := ofMagnitude negative (0x7ff * pow2 52)

/-- The one not-a-number. -/
def notANumber : Float := Float.ofBits 0x7ff8000000000000

/-! ## Between words and doubles -/

/-- The double nearest to a signed word, ties to even. -/
def ofInt64 (i : Int64) : Float :=
  if i < 0 then -(UInt64.ofNat i.toInt.natAbs).toFloat else i.toUInt64.toFloat

/-- Truncate toward zero.  What does not fit a signed word, not-a-number included, gives the least
signed word: this is the answer of 64-bit x86 processors, and others may give another one. -/
def truncate (x : Float) : Int64 :=
  match parts? x with
  | none => Int64.minValue
  | some p =>
    if 64 < p.exponent + bitLength p.mantissa then Int64.minValue
    else
      let n := if 0 ≤ p.exponent then p.mantissa * pow2 p.exponent.toNat
        else p.mantissa / pow2 (-p.exponent).toNat
      let i : Int := if p.negative then -(n : Int) else n
      if Int64.minValue.toInt ≤ i ∧ i ≤ Int64.maxValue.toInt then Int64.ofInt i
      else Int64.minValue

/-- The signed word equal to a double, when the double is whole and its magnitude is below
`2 ^ 63`. -/
def whole? (x : Float) : Option Int64 :=
  match parts? x with
  | none => none
  | some p =>
    if 63 < p.exponent + bitLength p.mantissa then none
    else if p.mantissa % pow2 (-p.exponent).toNat ≠ 0 then none
    else some (truncate x)

/-- `n / 2 ^ k` rounded to the nearest natural number, ties to even. -/
def halfEven (n k : Nat) : Nat :=
  let q := n / pow2 k
  let r := n % pow2 k
  if 2 * r < pow2 k then q
  else if pow2 k < 2 * r then q + 1
  else if k = 0 then q
  else q + q % 2

/-- Round to single precision, ties to even, and keep the result as a double.  Singles have 24
significant bits, none below `2 ^ (-149)`, and a magnitude below `2 ^ 128`. -/
def toSingle (x : Float) : Float :=
  match parts? x with
  | none => x
  | some p =>
    let unit : Int := max (p.exponent + bitLength p.mantissa - 24) (-149)
    let rounded : Parts :=
      if unit ≤ p.exponent then p
      else ⟨p.negative, halfEven p.mantissa (unit - p.exponent).toNat, unit⟩
    if 128 < rounded.exponent + bitLength rounded.mantissa then infinity p.negative
    else rounded.toFloat

/-- The remainder of `x` by `y`: `x` less the multiple of `y` that lies nearest below it in
magnitude, with the sign of `x`. -/
def remainder (x y : Float) : Float :=
  match parts? x, parts? y with
  | none, _ => notANumber
  | some _, none => if y.isNaN then notANumber else x
  | some p, some q =>
    if q.mantissa = 0 then notANumber
    else
      let unit := min p.exponent q.exponent
      let a := p.mantissa * pow2 (p.exponent - unit).toNat
      let b := q.mantissa * pow2 (q.exponent - unit).toNat
      Parts.toFloat ⟨p.negative, a % b, unit⟩

/-- The parts of a finite single that is stored as a double: at most 24 bits of mantissa. -/
def singleParts? (x : Float) : Option Parts :=
  (parts? x).map fun p ↦
    if p.mantissa = 0 then ⟨p.negative, 0, -149⟩
    else
      let unit : Int := max (p.exponent + bitLength p.mantissa - 24) (-149)
      ⟨p.negative, p.mantissa / pow2 (unit - p.exponent).toNat, unit⟩

end ClassAsm.Number
