import ClassAsm.Number.Floating

/-!
# Tokens

A token is a kind, its text and the line it stands on.  Number tokens carry their value in the kind;
the text of a string token is its content, without quotes and with escapes resolved.
-/

namespace ClassAsm

/-- The kind of a token. -/
inductive Token.Kind where
  | identifier
  | string
  | int (value : Int64)
  | float (value : Float)
  | classKw
  | fieldKw
  | funcKw
  | constructorKw
  | endKw
  | publicKw
  | privateKw
  | abstractKw
  | overrideKw
  | assign
  | colon
  | leftParen
  | rightParen
  | greater
  | other (code : UInt8)
deriving DecidableEq

namespace Token.Kind

/-- The kind with the given number; number tokens get the given value. -/
def ofCode (n : UInt8) (i : Int64 := 0) (x : Float := 0) : Kind :=
  match n with
  | 0 => identifier
  | 1 => string
  | 2 => int i
  | 3 => float x
  | 4 => classKw
  | 5 => fieldKw
  | 6 => funcKw
  | 7 => constructorKw
  | 8 => endKw
  | 9 => publicKw
  | 10 => privateKw
  | 11 => abstractKw
  | 12 => overrideKw
  | 13 => assign
  | 14 => colon
  | 15 => leftParen
  | 16 => rightParen
  | 17 => greater
  | n => other n

/-- The name of a kind in messages. -/
def name : Kind → String
  | identifier => "identifier"
  | string => "string"
  | int _ => "int"
  | float _ => "float"
  | classKw => "class"
  | fieldKw => "field"
  | funcKw => "func"
  | constructorKw => "constructor"
  | endKw => "end"
  | publicKw => "public"
  | privateKw => "private"
  | abstractKw => "abstract"
  | overrideKw => "override"
  | assign => "'='"
  | colon => "':'"
  | leftParen => "'('"
  | rightParen => "')'"
  | greater => "'>'"
  | other _ => "unknown"

/-- The keywords that qualify a declaration. -/
def isAttribute : Kind → Bool
  | publicKw | privateKw | abstractKw | overrideKw => true
  | _ => false

/-- Structural punctuation, and every kind beyond the table. -/
def isPunctuation : Kind → Bool
  | assign | colon | leftParen | rightParen | greater | other _ => true
  | _ => false

end Token.Kind

/-- A lexical unit of a line. -/
structure Token where
  kind : Token.Kind
  text : String
  line : Int := 0
deriving DecidableEq

end ClassAsm
