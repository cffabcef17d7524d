import ClassAsm.Cli.Command
import ClassAsm.Repl

/-!
# The command line tool

The thin layer between the tool and the outside world: it reads files and lines, and prints.
-/

namespace ClassAsm.Main

/-- What a path leads to in the outside world. -/
def lookup (path : String) : IO (Except Files.AccessError Files.Found) := do
  try
    let text ← IO.FS.readFile path
    return .ok (.file text)
  catch e =>
    match e with
    | .noFileOrDirectory .. => return .error .notFound
    -- A path through a file cannot be opened; a directory can, and then not be read.
    | .inappropriateType (some _) .. => return .error .notDirectory
    | .inappropriateType none .. => return .ok .directory
    | .invalidArgument .. =>
      return .error (if path.toList.contains '\x00' then .invalid else .nameTooLong)
    | _ => return .error .notFound

/-- The file system of the outside world. -/
def files : Files.Access IO where
  workingDirectory := do return .ofText (← IO.currentDir).toString
  lookup := lookup

/-- Print what a dialogue has written. -/
def say (chunks : List Repl.Chunk) : IO Unit :=
  chunks.forM fun (channel, text) ↦
    match channel with
    | .out => IO.print text
    | .err => IO.eprint text

/-- The line without the newline at its end. -/
def chomp (line : String) : String :=
  let cs := line.toList
  String.ofList (if cs.getLast? = some '\n' then cs.dropLast else cs)

/-- Hold a dialogue from the given state on, where `waiting` holds lines that are already read. -/
partial def converse (input : IO.FS.Stream) (s : Repl.State) (waiting : List String) :
    IO Repl.State := do
  IO.print s.prompt
  (← IO.getStdout).flush
  let lines ← if waiting.isEmpty then do
      let line ← input.getLine
      pure (if line.isEmpty then [] else Repl.typedLines (chomp line))
    else pure waiting
  match lines with
  | [] =>
    let step := Repl.finish s
    say step.chunks
    IO.println (if s.pending = "" then "" else step.state.prompt)
    return step.state
  | line :: waiting =>
    let step := Repl.feed s line
    say step.chunks
    if step.quit then return step.state
    converse input step.state waiting

/-- The file that keeps the history of dialogues. -/
def historyFile : IO String := do
  return (← IO.getEnv "HOME").getD "" ++ "/.drasm_history"

/-- Hold a dialogue, with the history of earlier ones. -/
def dialogue (config : Cli.Config) : IO Unit := do
  let path ← historyFile
  let past ← try IO.FS.readFile path catch _ => pure ""
  IO.print Repl.greeting
  let lines := (past.toList.splitOn '\n').map String.ofList
  let final ← converse (← IO.getStdin) (Repl.start config lines.dropLast) []
  try
    IO.FS.writeFile path (String.join (final.history.map (· ++ "\n")))
  catch _ => pure ()

end ClassAsm.Main

/-- The tool: do what the arguments say. -/
def main (args : List String) : IO UInt32 := do
  match ← ClassAsm.Cli.plan ClassAsm.Main.files args with
  | .dialogue config =>
    ClassAsm.Main.dialogue config
    return 0
  | .done o =>
    IO.print o.stdout
    IO.eprint o.stderr
    match o.failure with
    | none => return 0
    | some message =>
      IO.eprintln message
      return 1
