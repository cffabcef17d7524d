import ClassAsm.Codegen.State

/-!
# Literals

A literal operand is a constant with a type.  Where the literal is the default of a field it is
converted to the field's type at once, so that the constant can be stored as it is.
-/

namespace ClassAsm.Codegen

open Program (Operand)

/-- The constant and the type of a literal operand. -/
def literal? : Operand → Option (Value × Ty)
  | .string s => some (.ofString s, .string)
  | .bool b => some (.ofBool b, .bool)
  | .byte i => some (.ofByte i.toUInt64.toUInt8, .byte)
  | .int i => some (.ofInt i, .int)
  | .float x => some (.ofSingle x, .float)
  | .double x => some (.ofDouble x, .double)
  | .null => some (.null, .null)
  | .identifier _ | .returnValue | .unknown _ => none

/-- The constant and the type of an operand that must be a literal. -/
def literal (o : Operand) : Gen (Value × Ty) :=
  match literal? o with
  | some l => pure l
  | none => stop (.notLiteral o)

/-- Whether an operand is an integer literal that is no byte. -/
def overflowsByte : Operand → Option Int64
  | .int i => if i < 0 || 255 < i then some i else none
  | _ => none

/-- A literal as a constant of type `t`, for the field `name`. -/
def literalAs (o : Operand) (t : Ty) (name : String) : Gen Value := do
  let (v, source) ← literal o
  if !t.accepts source then fail (.literalType name o source t)
  if t = .byte then
    if let some i := overflowsByte o then fail (.byteRange name i)
  match Heap.convert? {} v t with
  | some c => return c
  | none => fail (.conversion name v.tag t)

end ClassAsm.Codegen
