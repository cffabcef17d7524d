import ClassAsm.Machine.Step
import ClassAsm.Proofs.Codegen.Instr

/-!
# What programs do with values and the heap

The elementary operations of the language as functions of a heap: reading and writing fields and
items, making arrays, computing and comparing.  Each of them has a result or a fault.  The machine
performs the same operations on the top of its stack.
-/

namespace ClassAsm.Reference

open Bytecode Machine

/-! ## Objects and arrays -/

/-- The address and the cell of the object that a value refers to. -/
def objectAt (h : Heap) (o : Value) : Except Cause (Nat × ObjectCell) :=
  match o.payload with
  | .object addr =>
    match h.objects[addr]? with
    | some c => .ok (addr, c)
    | none => .error .nullReference
  | _ => .error .nullReference

/-- Read a field of an object. -/
def readField (h : Heap) (o : Value) (i : Nat) : Except Cause Value := do
  let (_, c) ← objectAt h o
  match c.fields[i]? with
  | some v => return v
  | none => throw (.outOfBounds i c.fields.size)

/-- Write a field of an object. -/
def writeField (h : Heap) (o : Value) (i : Nat) (v : Value) : Except Cause Heap := do
  let (addr, c) ← objectAt h o
  if c.fields.size ≤ i then throw (.outOfBounds i c.fields.size) else return h.setField addr i v

section Fields

variable {h : Heap} {o v : Value} {i addr : Nat} {cell : ObjectCell} {c : Cause}

theorem readField_of_error (ho : objectAt h o = .error c) : readField h o i = .error c := by
  rw [readField, ho]
  rfl

theorem readField_of_field (ho : objectAt h o = .ok (addr, cell)) (hv : cell.fields[i]? = some v) :
    readField h o i = .ok v := by
  simp [readField, ho, hv, bind, Except.bind, pure, Except.pure]

theorem readField_of_none (ho : objectAt h o = .ok (addr, cell)) (hv : cell.fields[i]? = none) :
    readField h o i = .error (.outOfBounds i cell.fields.size) := by
  simp [readField, ho, hv, bind, Except.bind, throw, throwThe, MonadExceptOf.throw]

theorem writeField_of_error (ho : objectAt h o = .error c) : writeField h o i v = .error c := by
  rw [writeField, ho]
  rfl

theorem writeField_of_le (ho : objectAt h o = .ok (addr, cell)) (hi : cell.fields.size ≤ i) :
    writeField h o i v = .error (.outOfBounds i cell.fields.size) := by
  simp [writeField, ho, hi, bind, Except.bind, throw, throwThe, MonadExceptOf.throw]

theorem writeField_of_lt (ho : objectAt h o = .ok (addr, cell)) (hi : i < cell.fields.size) :
    writeField h o i v = .ok (h.setField addr i v) := by
  simp [writeField, ho, Nat.not_le_of_lt hi, bind, Except.bind, pure, Except.pure]

end Fields

/-- The address of the array that a value refers to, and the place of an item, which must be in
range. -/
def itemAt (h : Heap) (a : Value) (index : Int64) : Except Cause (Nat × Nat) :=
  match a.payload with
  | .array addr =>
    match h.arrays[addr]? with
    | some c =>
      if index < 0 || (c.items.size : Int) ≤ index.toInt then
        .error (.itemIndex index c.items.size)
      else .ok (addr, index.toInt.toNat)
    | none => .error .nullReference
  | _ => .error .nullReference

/-- Read an item of an array. -/
def readItem (h : Heap) (a : Value) (index : Int64) : Except Cause Value := do
  let (addr, i) ← itemAt h a index
  match h.arrays[addr]?.bind (·.items[i]?) with
  | some v => return v
  | none => throw .nullReference

/-- Write an item of an array. -/
def writeItem (h : Heap) (a : Value) (index : Int64) (v : Value) : Except Cause Heap := do
  let (addr, i) ← itemAt h a index
  return h.setItem addr i v

section Items

variable {h : Heap} {a v : Value} {index : Int64} {i addr : Nat} {c : Cause}

theorem readItem_of_error (ha : itemAt h a index = .error c) : readItem h a index = .error c := by
  rw [readItem, ha]
  rfl

theorem readItem_of_item (ha : itemAt h a index = .ok (addr, i))
    (hv : h.arrays[addr]?.bind (·.items[i]?) = some v) : readItem h a index = .ok v := by
  simp [readItem, ha, hv, bind, Except.bind, pure, Except.pure]

theorem readItem_of_none (ha : itemAt h a index = .ok (addr, i))
    (hv : h.arrays[addr]?.bind (·.items[i]?) = none) :
    readItem h a index = .error .nullReference := by
  simp [readItem, ha, hv, bind, Except.bind, throw, throwThe, MonadExceptOf.throw]

theorem writeItem_of_error (ha : itemAt h a index = .error c) :
    writeItem h a index v = .error c := by
  rw [writeItem, ha]
  rfl

theorem writeItem_of_ok (ha : itemAt h a index = .ok (addr, i)) :
    writeItem h a index v = .ok (h.setItem addr i v) := by
  rw [writeItem, ha]
  rfl

end Items

/-- Make an array of zeros. -/
def makeArray (h : Heap) (elem : Ty) (size : Int64) : Except Cause (Heap × Value) :=
  if size.toInt < 0 then .error .negativeSize
  else if Machine.maxArrayLength < size.toInt then .error .arrayTooLarge
  else .ok (h.addArray (Heap.freshArray elem size.toInt.toNat), .ofArray h.arrays.size)

/-! ## Numbers and truth values -/

/-- Both values, which must be numbers. -/
def numbers (x y : Value) : Except Cause Unit :=
  if x.tag.isNumeric && y.tag.isNumeric then .ok () else .error .notNumeric

/-- Integer arithmetic. -/
def intResult (a : Arith) (x y : Value) : Except Cause Value := do
  numbers x y
  match Machine.intArith a x.toInt y.toInt with
  | none => throw .divisionByZero
  | some r => return .ofInt r

/-- Floating-point arithmetic, in single or double precision. -/
def floatResult (a : Arith) (single : Bool) (x y : Value) : Except Cause Value := do
  numbers x y
  let r := Machine.floatArith a x.toFloat y.toFloat
  return if single then .ofSingle r else .ofDouble r

/-- A comparison.  Any two values can be compared for equality, but only numbers are ordered. -/
def testResult (t : Test) (x y : Value) : Except Cause Bool :=
  match t with
  | .equal => .ok (x.same y)
  | .unequal => .ok (!x.same y)
  | .greater => do
    numbers x y
    return y.less x
  | .less => do
    numbers x y
    return x.less y

/-- A value as one of type `t`. -/
def converted? (h : Heap) (v : Value) (t : Ty) : Except Cause Value :=
  match h.convert? v t with
  | some c => .ok c
  | none => .error (.conversion v.tag t)

end ClassAsm.Reference
