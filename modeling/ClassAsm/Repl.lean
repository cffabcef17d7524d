import ClassAsm.Cli.Config
import ClassAsm.Cli.Listing
import ClassAsm.Repl.Line
import ClassAsm.Session

/-!
# The dialogue

An interactive session.  Lines are collected until every class, function and constructor that they
open is closed, and are then loaded as one unit; a line that starts with a colon is a command.  The
dialogue is a state that lines are fed to: what it writes is part of the answer, and nothing here
reads or prints.
-/

namespace ClassAsm.Repl

/-- Where a piece of text is written. -/
inductive Channel where
  | out
  | err
deriving DecidableEq

/-- A piece of text and where it is written. -/
abbrev Chunk := Channel × String

/-- The state of a dialogue. -/
structure State where
  session : Session
  /-- The address of the current object. -/
  object : Option Nat := none
  /-- The lines of the unit that is being typed, each ended by a newline. -/
  pending : String := ""
  /-- How many scopes the pending lines leave open. -/
  depth : Int := 0
  /-- What was entered before, oldest first. -/
  history : List String := []

/-- What is written when the dialogue starts. -/
def greeting : String :=
  "Enter class declarations; a unit is loaded once its last end is typed.\n" ++
  "  :classes            list loaded classes\n" ++
  "  :new <Class> [n]    instantiate Class through constructor n\n" ++
  "  :call <method>      call a method on the current object\n" ++
  "  :get <field>        print a field of the current object\n" ++
  "  :dump <Class>       print the generated code of Class\n" ++
  "  :quit               leave\n"

/-- What is written before a line is read. -/
def State.prompt (s : State) : String := if s.pending = "" then "drasm> " else "...... "

/-- How a token row changes the number of open scopes. -/
def rowNesting (row : List Token) : Int :=
  match row with
  | [] => 0
  | t :: _ =>
    match t.kind with
    | .classKw | .funcKw | .constructorKw => 1
    | .endKw => -1
    | _ => 0

/-- How a line changes the number of open scopes. -/
def nesting (line : String) : Int :=
  (Token.scan line).foldl (fun depth row ↦ depth + rowNesting row) 0

/-! ## History -/

/-- How many entries the history keeps. -/
def historyLimit : Nat := 1000

/-- Add an entry, unless it equals the one before it.  The oldest entry goes when there are too
many. -/
def remember (history : List String) (entry : String) : List String :=
  if history.getLast? = some entry then history
  else
    let longer := history ++ [entry]
    longer.drop (longer.length - historyLimit)

/-- The history that earlier dialogues have left.  A line that is too long to be read at once ends
it. -/
def pastHistory (lines : List String) : List String :=
  let entries := (lines.takeWhile fun l ↦ l.utf8ByteSize < lineBuffer).flatMap typedLines
  entries.drop (entries.length - historyLimit)

/-! ## Commands -/

/-- A command either writes a text, or fails with a message. -/
abbrev Reply := Except String String

/-- Do a request to the session; what it prints comes before the reply. -/
def ask {α : Type} (s : State) (act : Session.Request α) (f : α → State → State × Reply) :
    State × List Chunk :=
  let finish (s : State) (reply : Reply) : State × List Chunk :=
    let printed := s.session.output
    let s := { s with session := { s.session with output := "" } }
    match reply with
    | .ok text => (s, [(.out, printed), (.out, text)])
    | .error e => (s, [(.out, printed), (.err, e ++ "\n")])
  match act s.session with
  | .ok a session =>
    let (s, reply) := f a { s with session }
    finish s reply
  | .error e session => finish { s with session } (.error e.text)

/-- A command that only fails. -/
def refuse (s : State) (message : String) : State × List Chunk := (s, [(.err, message ++ "\n")])

/-- Make an instance, which becomes the current object. -/
def newCommand (s : State) (name : String) (ctor : Int) : State × List Chunk :=
  ask s (Session.new name ctor) fun v s ↦
    let object := match v.payload with
      | .object addr => some addr
      | _ => none
    ({ s with object },
      .ok ("current object is a new " ++ (s.session.heap.className? v).getD "" ++ "\n"))

/-- Do something with the current object and print the value it yields. -/
def onObject (s : State) (act : Nat → Session.Request Value) : State × List Chunk :=
  match s.object with
  | none => refuse s "no current object, use :new first"
  | some addr => ask s (act addr) fun v s ↦ (s, .ok (s.session.heap.format v ++ "\n"))

/-- Print the code of a class. -/
def dumpCommand (s : State) (name : String) : State × List Chunk :=
  match s.session.registry.find? name with
  | none => refuse s ("unknown class " ++ name)
  | some cls => (s, [(.out, Cli.codeListing s.session.heap cls)])

/-- Do a command, given as its words. -/
def command (s : State) : List String → State × List Chunk
  | ":classes" :: _ => (s, [(.out, String.intercalate " " s.session.registry.names ++ "\n")])
  | [":new"] => refuse s "usage: :new <Class> [ctor]"
  | [":new", name] => newCommand s name 0
  | ":new" :: name :: index :: _ =>
    match Number.readInt64? index.toList with
    | none => refuse s ("bad constructor index " ++ Text.quote index)
    | some i => newCommand s name i.toInt
  | [":call", method] => onObject s fun addr ↦ Session.call (some addr) method
  | ":call" :: _ => refuse s "usage: :call <method>"
  | [":get", field] => onObject s fun addr ↦ Session.getField addr field
  | ":get" :: _ => refuse s "usage: :get <field>"
  | [":dump", name] => dumpCommand s name
  | ":dump" :: _ => refuse s "usage: :dump <Class>"
  | name :: _ => refuse s ("unknown command " ++ name ++ ", type :quit to exit")
  | [] => (s, [])

/-! ## Lines -/

/-- What feeding a line leads to. -/
structure Step where
  state : State
  chunks : List Chunk := []
  /-- Whether the dialogue is over. -/
  quit : Bool := false

/-- Handle a complete unit or command. -/
def handle (s : State) (unit : String) : Step :=
  let text := Text.trimmed unit
  if text = "" then { state := s }
  else
    let entry := String.ofList (text.toList.map fun c ↦ if c = '\n' then ' ' else c)
    let s := { s with history := remember s.history entry }
    if text.toList.head? = some ':' then
      if text = ":quit" then { state := s, quit := true }
      else
        let (s, chunks) := command s (Text.words text)
        { state := s, chunks }
    else
      let (s, chunks) := ask s (Session.load unit) fun names s ↦
        (s, .ok ("loaded " ++ String.intercalate ", " names ++ "\n"))
      { state := s, chunks }

/-- Feed a line to the dialogue. -/
def feed (s : State) (line : String) : Step :=
  if s.pending = "" && (Text.trim line.toList).head? = some ':' then handle s line
  else
    let pending := s.pending ++ line ++ "\n"
    let depth := s.depth + nesting line
    if depth ≤ 0 then handle { s with pending := "", depth := 0 } pending
    else { state := { s with pending, depth } }

/-- The end of the input: what is pending is handled as it is. -/
def finish (s : State) : Step :=
  if s.pending = "" then { state := s }
  else handle { s with pending := "", depth := 0 } s.pending

/-- The start of a dialogue. -/
def start (config : Cli.Config) (past : List String) : State :=
  { session := .start config.cacheSize config.gasLimit, history := pastHistory past }

/-- All that a dialogue writes over the given lines of input, and the state it ends in. -/
def converse (s : State) : List String → List Chunk × State
  | [] =>
    let last := finish s
    let again := if s.pending = "" then [] else (.out, s.prompt) :: last.chunks
    (again ++ [(.out, last.state.prompt), (.out, "\n")], last.state)
  | line :: rest =>
    let step := feed s line
    if step.quit then ((.out, s.prompt) :: step.chunks, step.state)
    else
      let (more, final) := converse step.state rest
      ((.out, s.prompt) :: step.chunks ++ more, final)

end ClassAsm.Repl
