import ClassAsm.Text.Printable

/-!
# Quoted text

How a string is shown inside a message: between double quotes, with a backslash before quotes and
backslashes, the usual one-letter escapes, and a hexadecimal escape for every other character that
is not printable.
-/

namespace ClassAsm.Text

/-- The last `width` hexadecimal digits of `n`, in lower case. -/
def hexDigits : Nat → Nat → List Char
  | 0, _ => []
  | width + 1, n => hexDigits width (n / 16) ++ [Nat.digitChar (n % 16)]

/-- The one-letter escape of a control character, where there is one. -/
def shortEscape (c : Char) : Option Char :=
  match c.toNat with
  | 0x07 => some 'a'
  | 0x08 => some 'b'
  | 0x0c => some 'f'
  | 0x0a => some 'n'
  | 0x0d => some 'r'
  | 0x09 => some 't'
  | 0x0b => some 'v'
  | _ => none

/-- One character of a quoted text. -/
def quoteChar (c : Char) : List Char :=
  if c = '"' || c = '\\' then ['\\', c]
  else if isPrintable c then [c]
  else match shortEscape c with
    | some e => ['\\', e]
    | none =>
      let n := c.toNat
      if n < 0x20 || n = 0x7f then '\\' :: 'x' :: hexDigits 2 n
      else if n < 0x10000 then '\\' :: 'u' :: hexDigits 4 n
      else '\\' :: 'U' :: hexDigits 8 n

/-- The quoted form of a string. -/
def quote (s : String) : String :=
  String.ofList ('"' :: (s.toList.flatMap quoteChar ++ ['"']))

example : quote "a\"b\n\x1b" = "\"a\\\"b\\n\\x1b\"" := by decide +kernel

end ClassAsm.Text
