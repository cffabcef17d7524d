import ClassAsm.Number.Integer

/-!
# Types

The types of fields, locals and results: six scalar types, arrays, and classes by name.  `void` is
the type of no result and `null` that of the null literal; neither can be written in a program.  An
array type with no element type and the tags beyond the table exist only for callers that build
machine code by hand.

`Ty.ofName?` reads a type name and `Ty.name` writes it.
-/

namespace ClassAsm

/-! ## Tags -/

/-- The tag of a machine value. -/
inductive Tag where
  | void
  | null
  | bool
  | byte
  | int
  | float
  | double
  | string
  | array
  | object
  | other (code : UInt8)
deriving DecidableEq, Repr, Inhabited

namespace Tag

/-- The tag with the given number. -/
def ofCode (n : UInt8) : Tag :=
  match n with
  | 0 => void
  | 1 => null
  | 2 => bool
  | 3 => byte
  | 4 => int
  | 5 => float
  | 6 => double
  | 7 => string
  | 8 => array
  | 9 => object
  | n => other n

/-- The name of a tag. -/
def name : Tag → String
  | void => "void"
  | null => "null"
  | bool => "bool"
  | byte => "byte"
  | int => "int"
  | float => "float"
  | double => "double"
  | string => "string"
  | array => "array"
  | object => "object"
  | other n => "type(" ++ Number.natText n.toNat ++ ")"

/-- The tags of numbers. -/
def isNumeric : Tag → Bool
  | byte | int | float | double => true
  | _ => false

/-- The tags of floating-point numbers. -/
def isFloating : Tag → Bool
  | float | double => true
  | _ => false

/-- The tags that null can stand for. -/
def isReference : Tag → Bool
  | string | array | object | null => true
  | _ => false

end Tag

/-! ## Types -/

/-- A resolved type. -/
inductive Ty where
  | void
  | null
  | bool
  | byte
  | int
  | float
  | double
  | string
  | array (elem : Ty)
  | bareArray
  | object (className : String)
  | other (code : UInt8)
deriving DecidableEq, Repr, Inhabited

namespace Ty

/-- The tag of the values of a type. -/
def tag : Ty → Tag
  | void => .void
  | null => .null
  | bool => .bool
  | byte => .byte
  | int => .int
  | float => .float
  | double => .double
  | string => .string
  | array _ => .array
  | bareArray => .array
  | object _ => .object
  | other n => .other n

/-- The type with the given tag and nothing else. -/
def ofTag : Tag → Ty
  | .void => void
  | .null => null
  | .bool => bool
  | .byte => byte
  | .int => int
  | .float => float
  | .double => double
  | .string => string
  | .array => bareArray
  | .object => object ""
  | .other n => other n

/-- The name of a type, as a program writes it. -/
def name : Ty → String
  | array elem => elem.name ++ "[]"
  | bareArray => "[]"
  | object className => className
  | t => t.tag.name

/-- The scalar types by name. -/
def scalar? : String → Option Ty
  | "bool" => some bool
  | "byte" => some byte
  | "int" => some int
  | "float" => some float
  | "double" => some double
  | "string" => some string
  | _ => none

/-- A type name that is not an array: a scalar type, or a class that `isClass` knows. -/
def simple? (isClass : String → Bool) (s : String) : Option Ty :=
  match scalar? s with
  | some t => some t
  | none => if s ≠ "" ∧ isClass s then some (object s) else none

/-- Read a type name given backwards, so that the brackets of an array come first. -/
def ofReversed? (isClass : String → Bool) : List Char → Option Ty
  | ']' :: '[' :: rest => (ofReversed? isClass rest).map array
  | s => simple? isClass (String.ofList s.reverse)

/-- Read a type name, where `isClass` says which class names are declared. -/
def ofName? (isClass : String → Bool) (s : String) : Option Ty :=
  ofReversed? isClass s.toList.reverse

/-- Whether a value of type `source` may be stored in a slot of type `target`, possibly after a
conversion: anything but nothing into a string, numbers into numbers, and otherwise only the same
type, or null into an array or an object. -/
def accepts (target source : Ty) : Bool :=
  match target.tag with
  | .string => source.tag ≠ .void
  | .byte | .int | .float | .double => source.tag.isNumeric
  | .bool => source.tag = .bool
  | .array | .object => source.tag = .null || target = source
  | _ => false

end Ty

end ClassAsm
