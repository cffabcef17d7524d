import ClassAsm.Text.Blank
import ClassAsm.Token

/-!
# From source text to tokens

A source text is cut into lines.  A comment starts at a semicolon outside a string literal and runs
to the end of its line.  Lines that are blank without their comment are dropped, and every other
line becomes a row of tokens that carry its number, counted from one.

Within a line, spaces, tabs and carriage returns separate words; quotes, `=`, `:` and parentheses
end a word and are tokens of their own.  A word is a keyword, a decimal number or an identifier, so
scanning never fails.

Texts are strings of Unicode characters.  A text of bytes that are not valid UTF-8 is not covered.

Three small machines read the characters of a line, each by recursion on the text: `stripComment`
looks for the comment, `lex` cuts words and literals, and `classify` looks at one word.
-/

namespace ClassAsm.Token

/-! ## Lines -/

/-- A line that is not blank: its number and its text without comment and outer blanks. -/
structure SourceLine where
  number : Nat
  text : List Char
deriving DecidableEq

/-- Drop the comment of a line.  Inside a string literal a backslash protects the character after
it; `inString` says whether the text starts inside a literal. -/
def stripComment (inString : Bool) : List Char → List Char
  | [] => []
  | c :: rest =>
    if inString && c = '\\' then
      match rest with
      | [] => [c]
      | d :: rest => c :: d :: stripComment true rest
    else if c = '"' then c :: stripComment (!inString) rest
    else if !inString && c = ';' then []
    else c :: stripComment inString rest

/-- The text of a line that is scanned. -/
def lineText (raw : List Char) : List Char := Text.trim (stripComment false raw)

/-- The lines that are not blank, where the first of the given lines has number `n`. -/
def numbered (n : Nat) : List (List Char) → List SourceLine
  | [] => []
  | raw :: rest =>
    let text := lineText raw
    if text.isEmpty then numbered (n + 1) rest else ⟨n, text⟩ :: numbered (n + 1) rest

/-- The lines of a source text that are not blank. -/
def prepare (src : String) : List SourceLine := numbered 1 (src.toList.splitOn '\n')

/-! ## Words -/

/-- The keywords. -/
def keyword? (word : List Char) : Option Kind :=
  match String.ofList word with
  | "class" => some .classKw
  | "field" => some .fieldKw
  | "func" => some .funcKw
  | "constructor" => some .constructorKw
  | "end" => some .endKw
  | "public" => some .publicKw
  | "private" => some .privateKw
  | "abstract" => some .abstractKw
  | "override" => some .overrideKw
  | ">" => some .greater
  | _ => none

/-- The two characters that separate the whole part of a number from its fraction. -/
def isSeparator (c : Char) : Bool := c = '.' || c = ','

/-- A number as written: its sign, all of its digits, and how many of them follow the separator
(`none` without a separator). -/
structure Numeral where
  negative : Bool
  digits : Nat
  fraction : Option Nat
deriving DecidableEq

/-- Read a decimal number: an optional sign, at least one digit, at most one separator. -/
def numeral? (word : List Char) : Option Numeral :=
  let (negative, body) := Number.splitSign word
  let front := body.takeWhile (!isSeparator ·)
  let back := body.drop front.length
  (Number.readNat? (front ++ back.drop 1)).map fun digits ↦
    ⟨negative, digits, if back.isEmpty then none else some (back.length - 1)⟩

/-- The double nearest to a numeral. -/
def Numeral.toFloat (n : Numeral) : Float :=
  let x := Float.ofScientific n.digits true (n.fraction.getD 0)
  if n.negative then -x else x

/-- The kind of a number: whole numbers that fit a signed word are integers, however they are
written; numbers too large for a double are no numbers. -/
def Numeral.kind? (n : Numeral) : Option Kind :=
  let exact := if n.fraction.isNone then Number.toInt64? (Number.withSign n.negative n.digits)
    else none
  match exact with
  | some i => some (.int i)
  | none =>
    let x := n.toFloat
    if x.isInf then none
    else match Number.whole? x with
      | some i => some (.int i)
      | none => some (.float x)

/-- The token of a word. -/
def classify (word : List Char) : Token :=
  let text := String.ofList word
  match keyword? word with
  | some kind => ⟨kind, text, 0⟩
  | none =>
    match (numeral? word).bind Numeral.kind? with
    | some kind => ⟨kind, text, 0⟩
    | none => ⟨.identifier, text, 0⟩

/-! ## Rows -/

/-- Where scanning stands: in or between words, or inside a string literal.  What was read of the
word or literal is kept reversed. -/
inductive Mode where
  | word (read : List Char)
  | literal (read : List Char)

/-- The token of the word read so far, if there is one. -/
def flush (read : List Char) : List Token :=
  if read.isEmpty then [] else [classify read.reverse]

/-- The characters that separate words within a line. -/
def isGap (c : Char) : Bool := c = ' ' || c = '\t' || c = '\r'

/-- The punctuation that is a token by itself. -/
def punctuation? (c : Char) : Option Kind :=
  match c with
  | '=' => some .assign
  | ':' => some .colon
  | '(' => some .leftParen
  | ')' => some .rightParen
  | _ => none

/-- What a backslash and the character after it stand for in a literal, reversed.  Unknown escapes
stand for themselves. -/
def unescape (c : Char) : List Char :=
  match c with
  | 'n' => ['\n']
  | 't' => ['\t']
  | '"' => ['"']
  | '\\' => ['\\']
  | c => [c, '\\']

/-- The token of a string literal. -/
def literalToken (read : List Char) : Token := ⟨.string, String.ofList read.reverse, 0⟩

/-- Cut a text into tokens.  A literal without closing quote runs to the end. -/
def lex : Mode → List Char → List Token
  | .word read, [] => flush read
  | .word read, c :: rest =>
    if isGap c then flush read ++ lex (.word []) rest
    else if c = '"' then flush read ++ lex (.literal []) rest
    else match punctuation? c with
      | some kind => flush read ++ ⟨kind, c.toString, 0⟩ :: lex (.word []) rest
      | none => lex (.word (c :: read)) rest
  | .literal read, [] => [literalToken read]
  | .literal read, '"' :: rest => literalToken read :: lex (.word []) rest
  | .literal read, '\\' :: c :: rest => lex (.literal (unescape c ++ read)) rest
  | .literal read, c :: rest => lex (.literal (c :: read)) rest

/-- The tokens of one line. -/
def tokenize (line : List Char) : List Token := lex (.word []) line

/-- The tokens of a line, with its number. -/
def SourceLine.row (l : SourceLine) : List Token :=
  (tokenize l.text).map fun t ↦ { t with line := l.number }

/-- The token rows of a source text, one for every line that is not blank. -/
def scan (src : String) : List (List Token) := (prepare src).map SourceLine.row

end ClassAsm.Token
