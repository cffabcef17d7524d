import ClassAsm.Cli.Config

/-!
# Configuration files

A configuration file holds headers `[Table]`, and entries `Key = integer` and `Key = "text"` that
belong to the table above them.  A header may name a table inside another one, with dots between the
names.  What the file does not mention keeps its default.

A file is read in three steps, and each looks at the whole file before the next begins:

* `ConfigLine.read` reads every line by itself;
* `document` puts the lines together, and refuses names that are used twice;
* `Config.applyItem` changes the settings, and refuses names and types that no setting has.
-/

namespace ClassAsm.Cli

/-! ## Lines -/

/-- The value of an entry as written. -/
inductive Setting where
  | int (digits : String)
  | text (s : String)
deriving DecidableEq

/-- A line of a configuration file. -/
inductive ConfigLine where
  | blank
  | header (path : List String)
  | entry (key : String) (value : Setting)
  /-- An entry with an escape that stands for no character. -/
  | badEscape
  | malformed
deriving DecidableEq

/-- The characters that may stand between the parts of a line. -/
def isPadding (c : Char) : Bool := c = ' ' || c = '\t'

/-- Drop the padding at the front of a text. -/
def skipPadding (s : List Char) : List Char := s.dropWhile isPadding

/-- Drop the padding at both ends of a text. -/
def trimPadding (s : List Char) : List Char := (skipPadding (skipPadding s).reverse).reverse

/-- Whether only padding and a comment are left of a line. -/
def isLineEnd (s : List Char) : Bool :=
  match skipPadding s with
  | [] | '#' :: _ => true
  | _ => false

/-- The characters of names. -/
def isNameChar (c : Char) : Bool := c.isAlphanum || c = '_' || c = '-'

/-- Whether a text is a name. -/
def isName (s : List Char) : Bool := !s.isEmpty && s.all isNameChar

/-- The character with the code that hexadecimal digits give, if they are digits and there is
one. -/
def escapedChar? (digits : List Char) : Option (Option Char) :=
  (digits.mapM fun c ↦ (Number.anyDigit? c).filter (· < 16)).map fun ds ↦
    let n := ds.foldl (fun n d ↦ 16 * n + d) 0
    if n.isValidChar then some (Char.ofNat n) else none

/-- Put an escaped character, if it is one, before a text that was read. -/
def consEscaped (c : Option Char) (read : Option (List Char) × List Char) :
    Option (List Char) × List Char :=
  (c.bind fun c ↦ read.1.map (c :: ·), read.2)

/-- Read a quoted text behind its opening quote: the text, unless one of its escapes stands for no
character, and what follows the closing quote. -/
def readQuoted : List Char → Option (Option (List Char) × List Char)
  | [] => none
  | '"' :: rest => some (some [], rest)
  | '\\' :: 'n' :: rest => (readQuoted rest).map (consEscaped (some '\n'))
  | '\\' :: 't' :: rest => (readQuoted rest).map (consEscaped (some '\t'))
  | '\\' :: 'r' :: rest => (readQuoted rest).map (consEscaped (some '\r'))
  | '\\' :: 'b' :: rest => (readQuoted rest).map (consEscaped (some '\x08'))
  | '\\' :: 'f' :: rest => (readQuoted rest).map (consEscaped (some '\x0c'))
  | '\\' :: '"' :: rest => (readQuoted rest).map (consEscaped (some '"'))
  | '\\' :: '\\' :: rest => (readQuoted rest).map (consEscaped (some '\\'))
  | '\\' :: '/' :: rest => (readQuoted rest).map (consEscaped none)
  | '\\' :: 'u' :: a :: b :: c :: d :: rest =>
    (escapedChar? [a, b, c, d]).bind fun e ↦ (readQuoted rest).map (consEscaped e)
  | '\\' :: 'U' :: a :: b :: c :: d :: e :: f :: g :: h :: rest =>
    (escapedChar? [a, b, c, d, e, f, g, h]).bind fun e ↦ (readQuoted rest).map (consEscaped e)
  | c :: rest =>
    if c = '\\' || c < ' ' then none else (readQuoted rest).map (consEscaped (some c))

/-- Whether a text is a run of decimal digits without leading zeros, where an underscore may stand
between two digits. -/
def isPlainNumber (s : List Char) : Bool :=
  s.all (fun c ↦ c.isDigit || c = '_') && Number.separated false s &&
    (s.length = 1 || s.head? ≠ some '0')

/-- Read an entry behind its equals sign. -/
def readValue (key : String) (s : List Char) : ConfigLine :=
  match s with
  | '"' :: rest =>
    match readQuoted rest with
    | none => .malformed
    | some (t, rest) =>
      if isLineEnd rest then
        match t with
        | some t => .entry key (.text (String.ofList t))
        | none => .badEscape
      else .malformed
  | s =>
    let number := s.takeWhile fun c ↦ !isPadding c && c ≠ '#'
    if isPlainNumber (Number.splitSign number).2 && isLineEnd (s.drop number.length) then
      .entry key (.int (String.ofList (number.filter (· ≠ '_'))))
    else .malformed

/-- Read a header behind its opening bracket. -/
def readHeader (s : List Char) : ConfigLine :=
  let body := s.takeWhile (· ≠ ']')
  let names := (body.splitOn '.').map trimPadding
  match s.drop body.length with
  | _ :: rest =>
    if names.all isName && isLineEnd rest then .header (names.map String.ofList) else .malformed
  | [] => .malformed

/-- Read a line of a configuration file. -/
def ConfigLine.read (line : List Char) : ConfigLine :=
  if isLineEnd line then .blank
  else match skipPadding line with
    | '[' :: rest => readHeader rest
    | s =>
      let key := s.takeWhile isNameChar
      match skipPadding (s.drop key.length) with
      | '=' :: value =>
        if key.isEmpty then .malformed else readValue (String.ofList key) (skipPadding value)
      | _ => .malformed

/-- The lines of a file.  Every return and every newline ends a line. -/
def configLines (text : String) : List ConfigLine :=
  ((text.toList.map fun c ↦ if c = '\r' then '\n' else c).splitOn '\n').map ConfigLine.read

/-! ## What can be wrong -/

/-- Why a line of a configuration file cannot be used. -/
inductive ConfigCause where
  | syntaxError
  | badEscape
  /-- A key is used again after the entry on line `earlier`. -/
  | keyTwice (key : String) (earlier : Nat)
  | keyIsTable (key : String) (earlier : Nat)
  | tableTwice (name : String) (earlier : Nat)
  | tableIsKey (name : String) (earlier : Nat)
  /-- A table is to be inside an entry. -/
  | insideKey (key : String) (earlier : Nat)
  | unknownKey (key record reference : String)
  | wrongType (field : String) (value : Setting) (wanted : String)
  | tableForSetting (wanted : String)
  /-- An integer does not fit a signed 64-bit word. -/
  | outOfRange (field digits : String)
deriving DecidableEq

/-- The text of a cause.  The line of an earlier entry under the same key is written in
hexadecimal. -/
def ConfigCause.message : ConfigCause → String
  | syntaxError => "invalid TOML syntax"
  | badEscape => "invalid syntax"
  | keyTwice key earlier =>
    "key `" ++ key ++ "' is in conflict with line " ++
      String.ofList (Nat.toDigits 16 earlier) ++ "d"
  | keyIsTable key earlier =>
    "key `" ++ key ++ "' is in conflict with table in line " ++ Number.natText earlier
  | tableTwice name earlier =>
    "table `" ++ name ++ "' is in conflict with table in line " ++ Number.natText earlier
  | tableIsKey name earlier =>
    "table `" ++ name ++ "' is in conflict with line " ++ Number.natText earlier
  | insideKey key earlier =>
    "key `" ++ key ++ "' is in conflict with line " ++ Number.natText earlier
  | unknownKey key record reference =>
    "field '" ++ key ++ "' is not defined in " ++ record ++ reference
  | wrongType field value wanted =>
    let found := match value with
      | .int _ => "integer"
      | .text _ => "string"
    "(" ++ field ++ ") cannot unmarshal TOML " ++ found ++ " into " ++ wanted
  | tableForSetting wanted =>
    "cannot unmarshal TOML table into " ++ wanted ++ " (need struct or map)"
  | outOfRange field digits =>
    "(" ++ field ++ ") value " ++ digits ++ " is out of range for int"

/-! ## Documents -/

/-- A header or an entry, with the line it stands on.  Tables are known by the names that lead to
them. -/
inductive ConfigItem where
  | header (path : List String) (line : Nat)
  | entry (table : List String) (key : String) (value : Setting) (line : Nat)
deriving DecidableEq

/-- What a configuration file says, in order. -/
abbrev Document := List ConfigItem

namespace Document

/-- The line of the header of a table. -/
def headerLine? (d : Document) (path : List String) : Option Nat :=
  d.findSome? fun i ↦ match i with
    | .header p line => if p = path then some line else none
    | .entry .. => none

/-- The line of a table: that of its header, or else of the first header inside it. -/
def tableLine? (d : Document) (path : List String) : Option Nat :=
  d.headerLine? path <|> d.findSome? fun i ↦ match i with
    | .header p line => if path.isPrefixOf p then some line else none
    | .entry .. => none

/-- The line of the entry that names lead to. -/
def entryLine? (d : Document) (path : List String) : Option Nat :=
  d.findSome? fun i ↦ match i with
    | .header .. => none
    | .entry table key _ line => if table ++ [key] = path then some line else none

/-- The first entry on the way to a table, with its line. -/
def entryAbove? (d : Document) (path : List String) : Option (String × Nat) :=
  d.findSome? fun i ↦ match i with
    | .header .. => none
    | .entry table key _ line =>
      if (table ++ [key]).isPrefixOf path.dropLast then some (key, line) else none

/-- Add a header. -/
def addHeader (d : Document) (path : List String) (line : Nat) : Except ConfigCause Document :=
  let name := path.getLast?.getD ""
  match d.entryAbove? path, d.headerLine? path, d.entryLine? path with
  | some (key, earlier), _, _ => .error (.insideKey key earlier)
  | none, some earlier, _ => .error (.tableTwice name earlier)
  | none, none, some earlier => .error (.tableIsKey name earlier)
  | none, none, none => .ok (d ++ [.header path line])

/-- Add an entry to a table. -/
def addEntry (d : Document) (table : List String) (key : String) (value : Setting) (line : Nat) :
    Except ConfigCause Document :=
  match d.tableLine? (table ++ [key]), d.entryLine? (table ++ [key]) with
  | some earlier, _ => .error (.keyIsTable key earlier)
  | none, some earlier => .error (.keyTwice key earlier)
  | none, none => .ok (d ++ [.entry table key value line])

/-- Add the lines of a file from line number `n` on, where `current` is the table that entries
belong to. -/
def addLines (d : Document) (current : List String) (n : Nat) :
    List ConfigLine → Except (Nat × ConfigCause) Document
  | [] => .ok d
  | line :: rest =>
    match line with
    | .blank => addLines d current (n + 1) rest
    | .malformed => .error (n, .syntaxError)
    | .badEscape => .error (n, .badEscape)
    | .header path =>
      match d.addHeader path n with
      | .ok d => addLines d path (n + 1) rest
      | .error cause => .error (n, cause)
    | .entry key value =>
      match d.addEntry current key value n with
      | .ok d => addLines d current (n + 1) rest
      | .error cause => .error (n, cause)

end Document

/-- Put the lines of a file together.  A malformed line is reported before anything else. -/
def document (lines : List ConfigLine) : Except (Nat × ConfigCause) Document :=
  match lines.findIdx? (· = .malformed) with
  | some i => .error (i + 1, .syntaxError)
  | none => Document.addLines [] [] 1 lines

/-! ## Settings -/

/-- The sections of the settings. -/
inductive Section where
  | compiler
  | source
  | log
deriving DecidableEq

namespace Section

/-- The section with a name. -/
def ofName? : String → Option Section
  | "Compiler" => some compiler
  | "Source" => some source
  | "Log" => some log
  | _ => none

/-- The name of a section's record in messages. -/
def record : Section → String
  | compiler => "drasm.Config"
  | source => "main.sourceConfig"
  | log => "main.logConfig"

/-- Where the keys of a section are described, in messages. -/
def reference : Section → String
  | compiler =>
    ", see https://godoc.org/github.com/agenthands/drasm/pkg/drasm#Config for available fields"
  | source | log => ""

/-- The name of the type that a key has in messages. -/
def typeOf? : Section → String → Option String
  | compiler, "CacheSize" | compiler, "GasLimit" | source, "MaxFileSize" => some "int"
  | source, "Root" | log, "Level" => some "string"
  | _, _ => none

/-- The complaint about a key that a section does not have. -/
def unknownKey (s : Section) (key : String) : ConfigCause := .unknownKey key s.record s.reference

end Section

/-- The name of the record of all sections in messages. -/
def wholeRecord : String := "main.drasmConfig"

/-- A setting that must be an integer. -/
def Setting.asInt (field : String) : Setting → Except ConfigCause Int
  | .int digits =>
    match Number.readInt64? digits.toList with
    | some i => .ok i.toInt
    | none => .error (.outOfRange field digits)
  | v => .error (.wrongType field v "int")

/-- A setting that must be a text. -/
def Setting.asText (field : String) : Setting → Except ConfigCause String
  | .text s => .ok s
  | v => .error (.wrongType field v "string")

namespace Config

/-- Change the setting `key` of a section. -/
def put (c : Config) (s : Section) (key : String) (v : Setting) : Except ConfigCause Config :=
  let field := s.record ++ "." ++ key
  match s, key with
  | .compiler, "CacheSize" => do return { c with cacheSize := ← v.asInt field }
  | .compiler, "GasLimit" => do return { c with gasLimit := ← v.asInt field }
  | .source, "Root" => do return { c with root := ← v.asText field }
  | .source, "MaxFileSize" => do return { c with maxFileSize := ← v.asInt field }
  | .log, "Level" => do return { c with level := ← v.asText field }
  | s, key => .error (s.unknownKey key)

/-- The complaint about an entry that stands before any header: there are only sections. -/
def outside (key : String) (v : Setting) : ConfigCause :=
  match Section.ofName? key with
  | some s => .wrongType (wholeRecord ++ "." ++ key) v s.record
  | none => .unknownKey key wholeRecord ""

/-- The complaint about a header, if its table is not a section. -/
def refusal? (path : List String) : Option ConfigCause :=
  match path with
  | [] => none
  | name :: inner =>
    match Section.ofName? name, inner with
    | none, _ => some (.unknownKey name wholeRecord "")
    | some _, [] => none
    | some s, key :: _ =>
      match s.typeOf? key with
      | some wanted => some (.tableForSetting wanted)
      | none => some (s.unknownKey key)

/-- Apply an item of a document.  A header is refused where its outermost bad table begins. -/
def applyItem (d : Document) (c : Config) : ConfigItem → Except (Nat × ConfigCause) Config
  | .header path line =>
    match refusal? path with
    | none => .ok c
    | some cause =>
      let bad := path.take (if (path.head?.bind Section.ofName?).isSome then 2 else 1)
      .error ((d.tableLine? bad).getD line, cause)
  | .entry table key v line =>
    match table.head?.bind Section.ofName? with
    | none => .error (line, outside key v)
    | some s =>
      match c.put s key v with
      | .ok c => .ok c
      | .error cause => .error (line, cause)

/-- Apply a configuration file; the error message names it. -/
def applyFile (c : Config) (name text : String) : Except String Config :=
  match document (configLines text) >>= fun d ↦ d.foldlM (applyItem d) c with
  | .ok c => .ok c
  | .error (n, cause) =>
    .error (name ++ ", line " ++ Number.natText n ++ ": " ++ cause.message)

end Config

end ClassAsm.Cli
