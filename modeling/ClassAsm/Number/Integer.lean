/-!
# Integers as text

Reading decimal integers that must fit a signed 64-bit word, and the integer literals that command
line flags accept, which may carry a base and digit separators.
-/

namespace ClassAsm.Number

/-- Two to the power `k`. -/
abbrev pow2 (k : Nat) : Nat := Nat.pow 2 k

/-- Ten to the power `k`. -/
abbrev pow10 (k : Nat) : Nat := Nat.pow 10 k

/-- The value of a decimal digit. -/
def digit? (c : Char) : Option Nat :=
  if '0' ≤ c ∧ c ≤ '9' then some (c.toNat - '0'.toNat) else none

/-- The value of a run of decimal digits read after a number `acc`; `none` when another character
occurs. -/
def readDigitsFrom (acc : Nat) : List Char → Option Nat
  | [] => some acc
  | c :: rest =>
    match digit? c with
    | some d => readDigitsFrom (10 * acc + d) rest
    | none => none

/-- The value of a non-empty run of decimal digits. -/
def readNat? : List Char → Option Nat
  | [] => none
  | s => readDigitsFrom 0 s

/-- Cut an optional sign off a number; the flag says whether it was a minus. -/
def splitSign : List Char → Bool × List Char
  | '-' :: rest => (true, rest)
  | '+' :: rest => (false, rest)
  | s => (false, s)

/-- The integer with the given sign and magnitude. -/
def withSign (negative : Bool) (n : Nat) : Int := if negative then -(n : Int) else n

/-- The signed word with value `i`, when there is one. -/
def toInt64? (i : Int) : Option Int64 :=
  if Int64.minValue.toInt ≤ i ∧ i ≤ Int64.maxValue.toInt then some (Int64.ofInt i) else none

/-- Read a decimal integer with an optional sign that fits a signed 64-bit word. -/
def readInt64? (s : List Char) : Option Int64 :=
  let (negative, digits) := splitSign s
  (readNat? digits).bind fun n ↦ toInt64? (withSign negative n)

/-! ## Integer literals with a base -/

/-- The value of a digit of any base up to 36. -/
def anyDigit? (c : Char) : Option Nat :=
  if '0' ≤ c ∧ c ≤ '9' then some (c.toNat - '0'.toNat)
  else if 'a' ≤ c ∧ c ≤ 'z' then some (c.toNat - 'a'.toNat + 10)
  else if 'A' ≤ c ∧ c ≤ 'Z' then some (c.toNat - 'A'.toNat + 10)
  else none

/-- Why a literal has no value. -/
inductive LiteralError where
  | malformed
  /-- The value does not fit the word. -/
  | tooLarge
deriving DecidableEq, Repr

/-- Read digits in a base after a number `acc`, and pass over underscores.  Reading ends at the
first character that is no digit of the base, and at the first digit that takes the value beyond 64
bits, whichever comes first. -/
def readBaseFrom (base acc : Nat) : List Char → Except LiteralError Nat
  | [] => .ok acc
  | c :: rest =>
    if c = '_' then readBaseFrom base acc rest
    else match anyDigit? c with
      | none => .error .malformed
      | some d =>
        if base ≤ d then .error .malformed
        else if pow2 64 ≤ base * acc + d then .error .tooLarge
        else readBaseFrom base (base * acc + d) rest

/-- Whether every underscore stands between two digits, and the text does not end with one; `digit`
says that a digit, or the mark of the base, stands just before. -/
def separated (digit : Bool) : List Char → Bool
  | [] => digit
  | c :: rest => if c = '_' then digit && separated false rest else separated true rest

/-- Read the digits of a literal in a base; `marked` says that the mark of the base stands before
them. -/
def readBase (base : Nat) (marked : Bool) (digits : List Char) : Except LiteralError Nat :=
  match readBaseFrom base 0 digits with
  | .ok n => if separated marked digits then .ok n else .error .malformed
  | .error e => .error e

/-- Read an unsigned literal: `0x`, `0o`, `0b` or a leading zero select the base. -/
def readLiteralNat : List Char → Except LiteralError Nat
  | [] => .error .malformed
  | '0' :: rest =>
    match rest with
    | 'x' :: d :: ds | 'X' :: d :: ds => readBase 16 true (d :: ds)
    | 'o' :: d :: ds | 'O' :: d :: ds => readBase 8 true (d :: ds)
    | 'b' :: d :: ds | 'B' :: d :: ds => readBase 2 true (d :: ds)
    | ds => readBase 8 true ds
  | ds => readBase 10 false ds

/-- Read an integer literal with an optional sign that fits a signed 64-bit word. -/
def readLiteral (s : List Char) : Except LiteralError Int64 :=
  let (negative, digits) := splitSign s
  match readLiteralNat digits with
  | .error e => .error e
  | .ok n =>
    match toInt64? (withSign negative n) with
    | some i => .ok i
    | none => .error .tooLarge

/-- The decimal text of an integer. -/
def intText (i : Int) : String :=
  match i with
  | .ofNat n => String.ofList (Nat.toDigits 10 n)
  | .negSucc n => String.ofList ('-' :: Nat.toDigits 10 (n + 1))

/-- The decimal text of a natural number. -/
def natText (n : Nat) : String := String.ofList (Nat.toDigits 10 n)

end ClassAsm.Number
