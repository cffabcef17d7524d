/-!
# Typed lines

Lines are read through a buffer of fixed size.  A line that does not fit is read in pieces, each of
which counts as a line, so a character may be torn between two of them.
-/

namespace ClassAsm.Repl

/-- How many bytes of a line, its newline included, are read at once. -/
def lineBuffer : Nat := 4096

/-! ## Cutting -/

/-- The bytes of a line without the newline, and the return before it, at its end. -/
def withoutNewline (bytes : List UInt8) : List UInt8 :=
  let body := bytes.dropLast
  if body.getLast? = some 13 then body.dropLast else body

/-- How many bytes of a line that does not fit the buffer are read at once.  A return at the end is
left to the next piece, where it may stand before the newline. -/
def pieceLength (bytes : List UInt8) : Nat :=
  if (bytes.take lineBuffer).getLast? = some 13 then lineBuffer - 1 else lineBuffer

theorem pieceLength_pos (bytes : List UInt8) : 0 < pieceLength bytes := by
  rw [pieceLength]
  split <;> decide

/-- Cut the bytes of a line, its newline included, into what is read at once. -/
def linePieces (bytes : List UInt8) : List (List UInt8) :=
  if bytes.length ≤ lineBuffer then [withoutNewline bytes]
  else bytes.take (pieceLength bytes) :: linePieces (bytes.drop (pieceLength bytes))
termination_by bytes.length
decreasing_by
  have := pieceLength_pos bytes
  rw [List.length_drop]
  omega

/-! ## Text -/

/-- Whether a byte continues a character. -/
def isContinuation (b : UInt8) : Bool := 0x80 ≤ b && b < 0xc0

/-- How many bytes a character has, by its first byte. -/
def characterWidth (b : UInt8) : Nat :=
  if b < 0x80 then 1 else if b < 0xe0 then 2 else if b < 0xf0 then 3 else 4

/-- How many bytes at the end of a piece belong to a character that goes on behind it. -/
def tornEnd (bytes : List UInt8) : Nat :=
  let back := bytes.reverse
  let tail := back.takeWhile isContinuation
  match back.drop tail.length with
  | lead :: _ => if tail.length + 1 < characterWidth lead then tail.length + 1 else 0
  | [] => 0

/-- The text of a piece.  Every byte of a torn character becomes a replacement character. -/
def pieceText (bytes : List UInt8) : String :=
  let torn (n : Nat) := String.ofList (List.replicate n '\ufffd')
  let start := bytes.takeWhile isContinuation
  let rest := bytes.drop start.length
  let whole := rest.take (rest.length - tornEnd rest)
  torn start.length ++ (String.fromUTF8? ⟨whole.toArray⟩).getD "" ++ torn (tornEnd rest)

/-- The lines that a typed line, given without its newline, is read as. -/
def typedLines (line : String) : List String :=
  (linePieces (line.toUTF8.toList ++ [10])).map pieceText

end ClassAsm.Repl
