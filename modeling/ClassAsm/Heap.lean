import ClassAsm.Bytecode.Module

/-!
# The heap

Arrays and objects live in cells that values refer to by address; a cell is never freed and an
address never changes its meaning.  Arrays and objects have separate address spaces, so an array
reference can only ever meet an array cell.

What depends on the cells is here too: the printed form of a value and its conversion to a type.
-/

namespace ClassAsm

open Bytecode (ClassRef)

/-- An array: its element type and its items. -/
structure ArrayCell where
  elem : Ty
  items : Array Value

/-- An object: its class and the values of its fields, in the order of the class. -/
structure ObjectCell where
  cls : ClassRef
  fields : Array Value

/-- All arrays and objects. -/
structure Heap where
  arrays : Array ArrayCell := #[]
  objects : Array ObjectCell := #[]

namespace Heap

/-- The heap with a further array, which gets the address `h.arrays.size`. -/
def addArray (h : Heap) (cell : ArrayCell) : Heap := { h with arrays := h.arrays.push cell }

/-- The heap with a further object, which gets the address `h.objects.size`. -/
def addObject (h : Heap) (cell : ObjectCell) : Heap := { h with objects := h.objects.push cell }

/-- Replace an item of an array. -/
def setItem (h : Heap) (addr i : Nat) (v : Value) : Heap :=
  { h with arrays := h.arrays.modify addr fun c ↦ { c with items := c.items.setIfInBounds i v } }

/-- Replace a field of an object. -/
def setField (h : Heap) (addr i : Nat) (v : Value) : Heap :=
  { h with objects := h.objects.modify addr fun c ↦
      { c with fields := c.fields.setIfInBounds i v } }

/-- A new object of a class: every field holds the zero of its type. -/
def freshObject (cls : ClassRef) : ObjectCell := ⟨cls, cls.get.fields.map fun f ↦ f.type.zero⟩

/-- A new array of `n` zeros. -/
def freshArray (elem : Ty) (n : Nat) : ArrayCell := ⟨elem, Array.replicate n elem.zero⟩

/-- The text of the failure to make an array whose length is negative. -/
def lengthText : String := "runtime error: makeslice: len out of range"

/-- Make an array of zeros for a host, which may ask for a negative length. -/
def makeArray (elem : Ty) (length : Int) : Except String ArrayCell :=
  if length < 0 then .error lengthText else .ok (freshArray elem length.toNat)

/-- The array cell that a value refers to. -/
def array? (h : Heap) (v : Value) : Option ArrayCell :=
  match v.payload with
  | .array addr => h.arrays[addr]?
  | _ => none

/-- The class name of the object that a value refers to, in the heap or at the host. -/
def className? (h : Heap) (v : Value) : Option String :=
  match v.payload with
  | .object addr => h.objects[addr]?.map fun c ↦ c.cls.name
  | .foreign className _ => some className
  | _ => none

/-! ## Printed form -/

/-- The printed form of a value, with at most `depth` levels of nested arrays shown. -/
def formatWithin (h : Heap) : Nat → Value → String
  | 0, _ => "..."
  | depth + 1, v =>
    match v.tag with
    | .string => v.str
    | .int => Number.intText v.word.toInt64.toInt
    | .byte => Number.natText (v.word.toNat % 256)
    | .float => Number.singleText (Float.ofBits v.word)
    | .double => Number.doubleText (Float.ofBits v.word)
    | .bool => if v.truth then "true" else "false"
    | .array =>
      match h.array? v with
      | none => "null"
      | some c =>
        "[" ++ String.intercalate ", " (c.items.toList.map (h.formatWithin depth)) ++ "]"
    | .object =>
      match h.className? v with
      | none => "null"
      | some name => "<" ++ name ++ ">"
    | .null | .void => "null"
    | .other _ => Number.natText v.word.toNat

/-- The printed form of a value: arrays are shown eleven levels deep. -/
def format (h : Heap) (v : Value) : String := h.formatWithin 11 v

/-! ## Conversion -/

/-- Convert a value to a type.  Numbers convert freely: toward zero to integers, modulo 256 to
bytes, rounded to singles.  Every value but null has a string form.  Null is an array and an
object of any type; otherwise arrays and objects only have their own type. -/
def convert? (h : Heap) (v : Value) (t : Ty) : Option Value :=
  match t with
  | .int => if v.tag.isNumeric then some (.ofInt v.toInt) else none
  | .byte => if v.tag.isNumeric then some (.ofByte v.toInt.toUInt64.toUInt8) else none
  | .float => if v.tag.isNumeric then some (.ofSingle v.toFloat) else none
  | .double => if v.tag.isNumeric then some (.ofDouble v.toFloat) else none
  | .bool => if v.tag = .bool then some v else none
  | .string =>
    if v.tag = .string || v.isNull then some v else some (.ofString (h.format v))
  | .array elem =>
    if v.isNull then some .null
    else if (h.array? v).any fun c ↦ c.elem = elem then some v
    else none
  | .bareArray => if v.isNull then some .null else none
  | .object className =>
    if v.isNull then some .null
    else if h.className? v = some className then some v
    else none
  | .void | .null | .other _ => none

/-- The complaint about a value with tag `source` that has no conversion to `target`. -/
def conversionText (source : Tag) (target : Ty) : String :=
  "value: cannot convert " ++ source.name ++ " to " ++ target.name

end Heap

end ClassAsm
