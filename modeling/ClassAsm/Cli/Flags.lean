import ClassAsm.Number.Integer
import ClassAsm.Text.Quoted

/-!
# Command line flags

A flag is written with one or two dashes, and its value follows after an equals sign or as the next
argument.  Flags end at the first argument that is none, or after a lone `--`.  When a flag is given
more than once, the last one counts, except for flags that collect their values.  A flag may have
several names, of which only one may be used at a time.
-/

namespace ClassAsm.Cli

/-- What values a flag takes. -/
inductive FlagKind where
  | text
  | int
  /-- On or off; on when no value is written. -/
  | switch
deriving DecidableEq

/-- A flag with its names, the main one first. -/
structure Flag where
  names : List String
  kind : FlagKind

/-- Why arguments cannot be read. -/
inductive FlagError where
  | malformed (arg : String)
  | undefined (name : String)
  | valueMissing (name : String)
  | notNumber (name value : String)
  | outOfRange (name value : String)
  | notSwitch (name value : String)
  | twoForms (name earlier : String)
deriving DecidableEq

/-- The text of an error. -/
def FlagError.message : FlagError → String
  | malformed arg => "bad flag syntax: " ++ arg
  | undefined name => "flag provided but not defined: -" ++ name
  | valueMissing name => "flag needs an argument: -" ++ name
  | notNumber name value =>
    "invalid value " ++ Text.quote value ++ " for flag -" ++ name ++ ": parse error"
  | outOfRange name value =>
    "invalid value " ++ Text.quote value ++ " for flag -" ++ name ++ ": value out of range"
  | notSwitch name value =>
    "invalid boolean value " ++ Text.quote value ++ " for -" ++ name ++ ": parse error"
  | twoForms name earlier => "Cannot use two forms of the same flag: " ++ name ++ " " ++ earlier

/-- The value of a flag. -/
inductive FlagValue where
  | text (s : String)
  | int (i : Int)
  | switch (on : Bool)
deriving DecidableEq

/-- The flags that were given, in order and under the names that were written. -/
abbrev Flags := List (String × FlagValue)

namespace Flags

/-- The text that a flag was given last. -/
def text? (fs : Flags) (name : String) : Option String :=
  fs.reverse.findSome? fun f ↦ match f with
    | (n, .text s) => if n = name then some s else none
    | _ => none

/-- All texts that a flag was given, in order. -/
def texts (fs : Flags) (name : String) : List String :=
  fs.filterMap fun f ↦ match f with
    | (n, .text s) => if n = name then some s else none
    | _ => none

/-- The number that a flag was given last. -/
def int? (fs : Flags) (name : String) : Option Int :=
  fs.reverse.findSome? fun f ↦ match f with
    | (n, .int i) => if n = name then some i else none
    | _ => none

/-- Whether a switch was last turned on, under any of its names. -/
def isOn (fs : Flags) (flag : Flag) : Bool :=
  (fs.reverse.findSome? fun f ↦ match f with
    | (n, .switch b) => if n ∈ flag.names then some b else none
    | _ => none).getD false

/-- The error of a flag that was given under two of its names. -/
def twoForms? (fs : Flags) (flag : Flag) : Option FlagError :=
  match flag.names.filter fun n ↦ fs.any fun f ↦ f.1 = n with
  | earlier :: name :: _ => some (.twoForms name earlier)
  | _ => none

end Flags

/-- The value of a switch as written. -/
def switchValue? (s : String) : Option Bool :=
  if s ∈ ["1", "t", "T", "true", "TRUE", "True"] then some true
  else if s ∈ ["0", "f", "F", "false", "FALSE", "False"] then some false
  else none

/-- Read the value of a flag. -/
def FlagKind.read (kind : FlagKind) (name value : String) : Except FlagError FlagValue :=
  match kind with
  | .text => .ok (.text value)
  | .int =>
    match Number.readLiteral value.toList with
    | .error .malformed => .error (.notNumber name value)
    | .error .tooLarge => .error (.outOfRange name value)
    | .ok i => .ok (.int i.toInt)
  | .switch =>
    match switchValue? value with
    | none => .error (.notSwitch name value)
    | some b => .ok (.switch b)

/-- What an argument is to the reader of flags. -/
inductive Piece where
  /-- Not a flag: the flags end before it. -/
  | plain
  /-- The flags end after it. -/
  | terminator
  | malformed
  /-- A flag, perhaps with its value. -/
  | flag (name : String) (value : Option String)

/-- Read the name and the value of a flag behind its dashes. -/
def flagPiece (body : List Char) : Piece :=
  match body with
  | [] => .malformed
  | c :: rest =>
    if c = '-' || c = '=' then .malformed
    else
      let more := rest.takeWhile (· ≠ '=')
      let value := rest.drop more.length
      .flag (String.ofList (c :: more))
        (if value.isEmpty then none else some (String.ofList (value.drop 1)))

/-- What an argument is to the reader of flags. -/
def pieceOf (arg : String) : Piece :=
  match arg.toList with
  | ['-', '-'] => .terminator
  | '-' :: '-' :: body => flagPiece body
  | ['-'] => .plain
  | '-' :: body => flagPiece body
  | _ => .plain

/-- What reading arguments leads to: the flags at their front, and the arguments behind the flags or
the reason to stop among them. -/
structure FlagReading where
  given : Flags
  rest : Except FlagError (List String)

/-- Read the flags at the front of the arguments; `read` holds those read so far, last first. -/
def readFlags (flags : List Flag) (read : Flags) : List String → FlagReading
  | [] => ⟨read.reverse, .ok []⟩
  | arg :: rest =>
    match pieceOf arg with
    | .plain => ⟨read.reverse, .ok (arg :: rest)⟩
    | .terminator => ⟨read.reverse, .ok rest⟩
    | .malformed => ⟨read.reverse, .error (.malformed arg)⟩
    | .flag name value =>
      match flags.find? fun f ↦ f.names.contains name, value, rest with
      | none, _, _ => ⟨read.reverse, .error (.undefined name)⟩
      | some f, some v, rest =>
        match f.kind.read name v with
        | .ok v => readFlags flags ((name, v) :: read) rest
        | .error e => ⟨read.reverse, .error e⟩
      | some ⟨_, .switch⟩, none, rest =>
        readFlags flags ((name, .switch true) :: read) rest
      | some _, none, [] => ⟨read.reverse, .error (.valueMissing name)⟩
      | some f, none, v :: rest =>
        match f.kind.read name v with
        | .ok v => readFlags flags ((name, v) :: read) rest
        | .error e => ⟨read.reverse, .error e⟩

/-- The flags at the front of the arguments, and the arguments behind them.  That a flag was given
under two names is reported before anything that is wrong with the arguments. -/
def parseFlags (flags : List Flag) (args : List String) : Except FlagError (Flags × List String) :=
  let r := readFlags flags [] args
  match flags.findSome? r.given.twoForms? with
  | some e => .error e
  | none => r.rest.map fun rest ↦ (r.given, rest)

/-- Move the arguments that stand before the first flag behind the flags.  Arguments after a lone
`--` are not looked at. -/
def flagsFirst (args : List String) : List String :=
  let isFlag (a : String) : Bool := a ≠ "-" && a.toList.head? = some '-'
  let opened := args.takeWhile (· ≠ "--")
  let closed := args.drop opened.length
  let front := opened.takeWhile (!isFlag ·)
  let back := opened.drop front.length
  if back.isEmpty then args else back ++ front ++ closed

end ClassAsm.Cli
