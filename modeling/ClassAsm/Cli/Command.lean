import ClassAsm.Cli.ConfigFile
import ClassAsm.Cli.Flags
import ClassAsm.Cli.Listing
import ClassAsm.Files.Sandbox
import ClassAsm.Session

/-!
# Commands

What the command line tool does with its arguments.  Everything that can be done without a dialogue
yields an `Outcome`: the text for the two output channels, and why the command failed, if it did.
The file system is a parameter.
-/

namespace ClassAsm.Cli

open Files (Access Sandbox)

/-- What a command has written, and why it failed if it did. -/
structure Outcome where
  stdout : String := ""
  stderr : String := ""
  failure : Option String := none

/-- A command that fails before it has written anything. -/
def Outcome.failed (message : String) : Outcome := { failure := some message }

/-- What is to be done for a list of arguments. -/
inductive Plan where
  | done (o : Outcome)
  /-- A dialogue is to be held with the given settings. -/
  | dialogue (config : Config)

/-- The commands. -/
inductive Command where
  | run
  | check
  | dump
  | dumpConfig
  | dialogue
  | help
deriving DecidableEq

namespace Command

/-- The command with a name. -/
def ofName? : String → Option Command
  | "run" => some run
  | "check" => some check
  | "dump" => some dump
  | "dumpconfig" => some dumpConfig
  | "repl" => some dialogue
  | "help" | "h" => some help
  | _ => none

/-- The flag that every command takes. -/
def helpFlag : Flag := ⟨["help", "h"], .switch⟩

/-- The flags of a command. -/
def flags : Command → List Flag
  | run => [⟨["class"], .text⟩, ⟨["ctor"], .int⟩, ⟨["call"], .text⟩, helpFlag]
  | dump => [⟨["model"], .switch⟩, helpFlag]
  | _ => [helpFlag]

end Command

section

variable {m : Type → Type} [Monad m] (files : Access m)

/-- The text of the unit at a path.  Without a root directory in the settings, units are read from
the directory they are in. -/
def readUnit (config : Config) (path : String) : m (Except String String) := do
  let cwd ← files.workingDirectory
  let (root, name) :=
    if config.root = "" then (Files.Path.directory path, Files.Path.baseName path)
    else (Files.Path.ofText config.root, path)
  let result ← Sandbox.read files ⟨root.absolute cwd, config.maxFileSize⟩ name
  return match result with
    | .ok text => .ok text
    | .error e => .error e.text

/-! ## Running a unit -/

/-- Make an instance of every public class of the unit that is not abstract. -/
def instantiateAll : List String → Session.Request Unit
  | [] => pure ()
  | name :: rest => do
    if let some cls := (← get).registry.find? name then
      if cls.get.isPublic && !cls.get.isAbstract then
        let _ ← Session.new name
    instantiateAll rest

/-- Call methods of an object one after another, and print the results that are not void. -/
def callAll (cls : String) (obj : Value) : List String → Session.Request Unit
  | [] => pure ()
  | method :: rest => do
    let addr := match obj.payload with
      | .object addr => some addr
      | _ => none
    let result ← Session.call addr method
    if result.tag ≠ .void then
      modify fun s ↦
        { s with output := s.output ++ cls ++ "." ++ method ++ " = " ++
          s.heap.format result ++ "\n" }
    callAll cls obj rest

/-- Load a unit and do what the flags ask for. -/
def hostUnit (flags : Flags) (src : String) : Session.Request (Option String) := do
  let names ← Session.load src
  let calls := flags.texts "call"
  let cls := (flags.text? "class").getD ""
  if cls = "" then
    if !calls.isEmpty then return some "--call needs --class"
    instantiateAll names
  else
    let obj ← Session.new cls ((flags.int? "ctor").getD 0)
    callAll cls obj calls
  return none

/-- Compile a unit, make instances of its classes and call methods. -/
def runUnit (config : Config) (flags : Flags) (args : List String) : m Outcome := do
  match args with
  | [path] =>
    match ← readUnit files config path with
    | .error e => return .failed e
    | .ok src =>
      match hostUnit flags src (Session.start config.cacheSize config.gasLimit) with
      | .ok failure s => return { stdout := s.output, failure }
      | .error e s => return { stdout := s.output, failure := some e.text }
  | _ => return .failed "run expects exactly one file"

/-! ## The other commands -/

/-- Compile units one after another; `failed` counts those that do not compile. -/
def checkEach (config : Config) (o : Outcome) (failed : Nat) : List String → m (Outcome × Nat)
  | [] => return (o, failed)
  | path :: rest => do
    let result : Except String Nat := match ← readUnit files config path with
      | .error e => .error e
      | .ok src =>
        match compile src with
        | .error e => .error e.text
        | .ok unit => .ok unit.classes.size
    match result with
    | .ok count =>
      let line := path ++ ": ok (" ++ Number.natText count ++ " classes)\n"
      checkEach config { o with stdout := o.stdout ++ line } failed rest
    | .error e =>
      checkEach config { o with stderr := o.stderr ++ path ++ ": " ++ e ++ "\n" } (failed + 1) rest

/-- Compile units and report what is wrong with them. -/
def checkUnits (config : Config) (args : List String) : m Outcome := do
  if args.isEmpty then return .failed "check expects at least one file"
  let (o, failed) ← checkEach files config {} 0 args
  if failed = 0 then return o
  return { o with failure := some (Number.natText failed ++ " of " ++ Number.natText args.length ++
    " units failed") }

/-- Print the generated code of a unit. -/
def dumpUnit (config : Config) (args : List String) : m Outcome := do
  match args with
  | [path] =>
    match ← readUnit files config path with
    | .error e => return .failed e
    | .ok src =>
      match compile src with
      | .error e => return .failed e.text
      | .ok unit => return { stdout := moduleListing unit }
  | _ => return .failed "dump expects exactly one file"

/-- Print the settings. -/
def dumpConfig (config : Config) : Outcome :=
  { stdout := "# drasm configuration\n\n" ++ config.text }

/-- Help on the command that is named first; without a name, help on the tool. -/
def helpOn : List String → Outcome
  | [] | "" :: _ => {}
  | name :: _ =>
    if (Command.ofName? name).isSome then {} else .failed ("No help topic for '" ++ name ++ "'")

/-! ## Arguments -/

/-- The flag that asks for the version. -/
def versionFlag : Flag := ⟨["version", "v"], .switch⟩

/-- The flags that stand before the command. -/
def globalFlags : List Flag :=
  [⟨["config"], .text⟩, ⟨["verbosity"], .text⟩, ⟨["gas"], .int⟩, ⟨["root"], .text⟩,
    Command.helpFlag, versionFlag]

/-- The settings of a configuration file on top of the defaults. -/
def fileConfig (name : String) : m (Except String Config) := do
  match ← files.lookup name with
  | .error e => return .error ("open " ++ name ++ ": " ++ e.text)
  | .ok .directory => return .error ("read " ++ name ++ ": is a directory")
  | .ok (.file text) => return Config.applyFile {} name text

/-- The settings: the defaults, then the configuration file, then the flags. -/
def makeConfig (flags : Flags) : m (Except String Config) := do
  let base ← match (flags.text? "config").getD "" with
    | "" => pure (.ok {})
    | name => fileConfig files name
  return base.map fun c ↦
    { c with
      level := (flags.text? "verbosity").getD c.level
      gasLimit := (flags.int? "gas").getD c.gasLimit
      root := (flags.text? "root").getD c.root }

/-- Do a command with its arguments. -/
def Command.perform (config : Config) (command : Command) (args : List String) : m Plan := do
  match parseFlags command.flags (flagsFirst args) with
  | .error e => return .done (.failed e.message)
  | .ok (flags, args) =>
    if flags.isOn helpFlag then return .done {}
    match command with
    | .run => return .done (← runUnit files config flags args)
    | .check => return .done (← checkUnits files config args)
    | .dump => return .done (← dumpUnit files config args)
    | .dumpConfig => return .done (Cli.dumpConfig config)
    | .dialogue => return .dialogue config
    | .help => return .done (helpOn args)

/-- Decide what to do for the arguments of the tool, and do it unless it is a dialogue.  Arguments
that name no command are taken as a question for help. -/
def plan (args : List String) : m Plan := do
  match parseFlags globalFlags args with
  | .error e => return .done (.failed e.message)
  | .ok (flags, rest) =>
    if flags.isOn Command.helpFlag || flags.isOn versionFlag then return .done {}
    match ← makeConfig files flags with
    | .error e => return .done (.failed e)
    | .ok config =>
      if config.level ∉ levels then
        return .done (.failed ("log15: unknown level: " ++ config.level))
      match rest.head?.bind Command.ofName? with
      | none => return .done (helpOn rest)
      | some command => command.perform files config rest.tail

end

end ClassAsm.Cli
