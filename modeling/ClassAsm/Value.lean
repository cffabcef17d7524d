import ClassAsm.Number.Shortest
import ClassAsm.Ty

/-!
# Machine values

A value is a tag, a 64-bit word and a payload.  Scalars live in the word: a truth value as zero or
not, a byte and an integer as themselves, a floating-point number as the bits of a double.  Strings
carry their text as payload; arrays and objects carry the address of their cell in the heap, so
that two values with the same address share it.

The accessors look at the word or the payload only and never fail: the integer of a string, for
instance, is its word, which is zero.
-/

namespace ClassAsm

/-- What a value refers to beside its word. -/
inductive Payload where
  | none
  /-- The text of a string. -/
  | text (s : String)
  /-- The address of an array cell. -/
  | array (addr : Nat)
  /-- The address of an object cell. -/
  | object (addr : Nat)
  /-- An object that belongs to the host and that the machine knows by its class name only. -/
  | foreign (className : String) (id : Nat)
deriving DecidableEq, Repr, Inhabited

/-- A machine value.  The default is the value of an unused slot. -/
structure Value where
  tag : Tag := .void
  word : UInt64 := 0
  payload : Payload := .none
deriving DecidableEq, Repr, Inhabited

namespace Value

/-! ## Making values -/

/-- The value of an unused slot and of a procedure without result. -/
def void : Value := {}

/-- The null reference. -/
def null : Value := { tag := .null }

/-- A truth value. -/
def ofBool (b : Bool) : Value := { tag := .bool, word := if b then 1 else 0 }

/-- A byte. -/
def ofByte (b : UInt8) : Value := { tag := .byte, word := b.toUInt64 }

/-- An integer. -/
def ofInt (i : Int64) : Value := { tag := .int, word := i.toUInt64 }

/-- A single, rounded from a double. -/
def ofSingle (x : Float) : Value := { tag := .float, word := (Number.toSingle x).toBits }

/-- A double. -/
def ofDouble (x : Float) : Value := { tag := .double, word := x.toBits }

/-- A string. -/
def ofString (s : String) : Value := { tag := .string, payload := .text s }

/-- A reference to an array cell. -/
def ofArray (addr : Nat) : Value := { tag := .array, payload := .array addr }

/-- A reference to an object cell. -/
def ofObject (addr : Nat) : Value := { tag := .object, payload := .object addr }

/-- A reference to an object of the host. -/
def ofForeign (className : String) (id : Nat) : Value :=
  { tag := .object, payload := .foreign className id }

/-! ## Reading values -/

/-- The value as an integer: floating-point numbers are truncated, everything else is its word. -/
def toInt (v : Value) : Int64 :=
  if v.tag.isFloating then Number.truncate (Float.ofBits v.word) else v.word.toInt64

/-- The value as a double: integers are rounded to the nearest. -/
def toFloat (v : Value) : Float :=
  if v.tag.isFloating then Float.ofBits v.word else Number.ofInt64 v.word.toInt64

/-- The value as a condition. -/
def truth (v : Value) : Bool := v.word ≠ 0

/-- The text of a string, empty for anything else. -/
def str (v : Value) : String :=
  match v.payload with
  | .text s => s
  | _ => ""

/-- Null, nothing, and an array or object reference to no cell. -/
def isNull (v : Value) : Bool :=
  match v.tag with
  | .null | .void => true
  | .array | .object => v.payload = .none
  | _ => false

/-! ## Comparing values -/

/-- Equality as a program sees it: numbers by value across their types, strings by text, null with
null, and arrays and objects only with themselves. -/
def same (a b : Value) : Bool :=
  if a.tag.isNumeric && b.tag.isNumeric then
    if a.tag.isFloating || b.tag.isFloating then a.toFloat == b.toFloat
    else a.toInt = b.toInt
  else if a.isNull || b.isNull then a.isNull && b.isNull
  else if a.tag ≠ b.tag then false
  else if a.tag = .string then a.str = b.str
  else if a.tag = .bool then a.word = b.word
  else a.payload = b.payload

/-- The order of numbers: as doubles when either is floating, as integers otherwise. -/
def less (a b : Value) : Bool :=
  if a.tag.isFloating || b.tag.isFloating then a.toFloat < b.toFloat
  else a.toInt < b.toInt

end Value

/-- The value that a fresh slot of a type holds. -/
def Ty.zero : Ty → Value
  | .bool => .ofBool false
  | .byte => .ofByte 0
  | .int => .ofInt 0
  | .float => .ofSingle 0
  | .double => .ofDouble 0
  | .string => .ofString ""
  | .void => .void
  | _ => .null

end ClassAsm
