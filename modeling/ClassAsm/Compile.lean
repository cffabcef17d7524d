import ClassAsm.Codegen.Unit
import ClassAsm.Program.Parse
import ClassAsm.Token.Scan

/-!
# From source text to machine code

`compile` scans, parses and generates one unit.  It either yields a module, or says which of the two
later stages failed and how; scanning cannot fail.
-/

namespace ClassAsm

/-- Why a unit cannot be compiled. -/
inductive CompileError where
  | parse (e : Program.ParseError)
  | generate (e : Codegen.Error)

namespace CompileError

/-- The failure that is reported, unless the generator gave up. -/
def failure? : CompileError → Option Failure
  | parse e => some (.within "drasm: parse" (.diagnostic e.diagnostic))
  | generate e => e.failure?.map (.within "drasm: generate")

/-- The text of the error. -/
def text (e : CompileError) : String :=
  match e.failure?, e with
  | some f, _ => f.text
  | none, generate (.abort reason) => reason.message
  | none, _ => ""

end CompileError

/-- Parse the source text of a unit. -/
def parseSource (src : String) : Except Program.ParseError Program := Program.parse (Token.scan src)

/-- Compile the source text of a unit. -/
def compile (src : String) : Except CompileError Bytecode.CompiledModule :=
  match parseSource src with
  | .error e => .error (.parse e)
  | .ok program =>
    match Codegen.generate program with
    | .error e => .error (.generate e)
    | .ok m => .ok m

end ClassAsm
