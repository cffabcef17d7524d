import ClassAsm.Number.Shortest
import ClassAsm.Text.Quoted

/-!
# Operands

An operand names something, is a literal, or is the return value of the last call or computation.
A parsed program holds identifiers, strings, truth values, integers, floating-point numbers, null
and the return value; bytes, doubles and kinds beyond the table only occur in programs that are
built by hand.
-/

namespace ClassAsm.Program

/-- An operand of an instruction, or a default of a field. -/
inductive Operand where
  | identifier (name : String)
  | string (text : String)
  | bool (value : Bool)
  | byte (value : Int64)
  | int (value : Int64)
  | float (value : Float)
  | double (value : Float)
  | null
  | returnValue
  | unknown (code : UInt8)
deriving DecidableEq

namespace Operand

/-- The name of the kind with the given number. -/
def kindNameOf (n : UInt8) : String :=
  match n with
  | 0 => "identifier"
  | 1 => "string"
  | 2 => "bool"
  | 3 => "byte"
  | 4 => "int"
  | 5 => "float"
  | 6 => "double"
  | 7 => "null"
  | 8 => "return-value"
  | _ => "unknown"

/-- The number of an operand's kind. -/
def kindCode : Operand → UInt8
  | identifier _ => 0
  | string _ => 1
  | bool _ => 2
  | byte _ => 3
  | int _ => 4
  | float _ => 5
  | double _ => 6
  | null => 7
  | returnValue => 8
  | unknown n => n

/-- The name of an operand's kind. -/
def kindName (o : Operand) : String := kindNameOf o.kindCode

/-- The kinds that hold a floating-point number. -/
def kindIsFloating (n : UInt8) : Bool := n = 5 || n = 6

/-- The kinds that hold a number. -/
def kindIsNumeric (n : UInt8) : Bool := 3 ≤ n && n ≤ 6

/-- The text of an operand, or why it has none. -/
def text? : Operand → Except String String
  | identifier name => .ok name
  | string s => .ok (Text.quote s)
  | bool b => .ok (if b then "true" else "false")
  | byte i | int i => .ok (Number.intText i.toInt)
  | float x | double x => .ok (Number.doubleText x)
  | null => .ok "null"
  | returnValue => .ok "ret"
  | unknown n => .error ("ast: unhandled operand kind " ++ Number.natText n.toNat)

/-- The text of an operand inside a message, where an operand without text shows the reason. -/
def shown (o : Operand) : String :=
  match o.text? with
  | .ok s => s
  | .error e => "%!s(PANIC=String method: " ++ e ++ ")"

end Operand

end ClassAsm.Program
