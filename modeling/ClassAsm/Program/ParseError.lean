import ClassAsm.Diagnostic
import ClassAsm.Program.Opcode
import ClassAsm.Text.Quoted
import ClassAsm.Token

/-!
# What is wrong with a row

Every way in which token rows fail to be a program, as a cause with the names it needs.  The name at
fault and the wording are functions of the cause; all of them are structural diagnostics.
-/

namespace ClassAsm.Program

/-- Why a row, or the end of the input, is refused. -/
inductive ParseCause where
  /-- A row cannot start with this token. -/
  | badStart (kind : Token.Kind) (text : String)
  /-- A declaration lacks its name. -/
  | nameExpected (what : String)
  | nestedClass (name outer : String)
  | classTaken (name : String)
  | classAttribute (kind : Token.Kind) (name : String)
  | memberOutside (what : String)
  | memberInside (what enclosing : String)
  | returnTypeExpected (name : String)
  | memberAttribute (kind : Token.Kind) (label described : String)
  | abstractInConcrete (name className : String)
  | methodTaken (name className : String)
  | fieldOutside (name : String)
  | fieldInside (name enclosing : String)
  | fieldTaken (name className : String)
  | fieldTypeExpected (name : String)
  | fieldAttribute (kind : Token.Kind) (name : String)
  | fieldUnexpected (kind : Token.Kind) (name : String)
  | defaultMissing (name : String)
  | defaultNotLiteral (name text : String)
  /-- A field has neither a type nor a default. -/
  | fieldUntyped (name : String)
  /-- A field without a type has several defaults. -/
  | arrayUntyped (name : String)
  | afterEnd (kind : Token.Kind)
  | abstractBody (label described : String)
  | endUnmatched
  | unknownInstruction (word : String)
  | instructionOutside (word : String) (op : Opcode)
  | operandCount (word : String) (op : Opcode) (given : Nat)
  | labelKind (word : String) (kind : Token.Kind)
  | labelTaken (name enclosing : String)
  | operandKind (kind : Token.Kind) (text : String)
  | memberUnclosed (label described : String)
  | classUnclosed (name : String)
deriving DecidableEq

/-- How many operands an instruction takes, in words. -/
def Opcode.arityText (op : Opcode) : String :=
  match op.arity with
  | (1, 1) => "1 operand"
  | (least, most) =>
    if least = most then Number.natText least ++ " operands"
    else Number.natText least ++ " to " ++ Number.natText most ++ " operands"

namespace ParseCause

/-- The name at fault. -/
def construct : ParseCause → String
  | badStart _ text => text
  | nameExpected what => what
  | nestedClass name _ => name
  | classTaken name => name
  | classAttribute _ name => name
  | memberOutside what => what
  | memberInside what _ => what
  | returnTypeExpected name => name
  | memberAttribute _ label _ => label
  | abstractInConcrete name _ => name
  | methodTaken name _ => name
  | fieldOutside name => name
  | fieldInside name _ => name
  | fieldTaken name _ => name
  | fieldTypeExpected name => name
  | fieldAttribute _ name => name
  | fieldUnexpected _ name => name
  | defaultMissing name => name
  | defaultNotLiteral name _ => name
  | fieldUntyped name => name
  | arrayUntyped name => name
  | afterEnd _ => "end"
  | abstractBody label _ => label
  | endUnmatched => "end"
  | unknownInstruction word => word
  | instructionOutside word _ => word
  | operandCount word _ _ => word
  | labelKind word _ => word
  | labelTaken name _ => name
  | operandKind _ text => text
  | memberUnclosed label _ => label
  | classUnclosed name => name

/-- The message. -/
def message : ParseCause → String
  | badStart kind _ => "unexpected " ++ kind.name ++ " at start of line"
  | nameExpected what => "expected name after " ++ what
  | nestedClass name outer => "class " ++ name ++ " declared inside class " ++ outer
  | classTaken name => "class " ++ name ++ " is already declared"
  | classAttribute kind name =>
    "unexpected " ++ kind.name ++ " in declaration of class " ++ name
  | memberOutside what => what ++ " declared outside of a class"
  | memberInside what enclosing => what ++ " declared inside " ++ enclosing
  | returnTypeExpected name => "expected return type after ':' in func " ++ name
  | memberAttribute kind _ described =>
    "unexpected " ++ kind.name ++ " in declaration of " ++ described
  | abstractInConcrete name className =>
    "abstract func " ++ name ++ " in non-abstract class " ++ className
  | methodTaken name className =>
    "func " ++ name ++ " is already declared in class " ++ className
  | fieldOutside name => "field " ++ name ++ " declared outside of a class"
  | fieldInside name enclosing => "field " ++ name ++ " declared inside " ++ enclosing
  | fieldTaken name className =>
    "field " ++ name ++ " is already declared in class " ++ className
  | fieldTypeExpected name => "expected type after ':' in field " ++ name
  | fieldAttribute kind name =>
    "attribute " ++ kind.name ++ " is not valid on field " ++ name
  | fieldUnexpected kind name =>
    "unexpected " ++ kind.name ++ " in declaration of field " ++ name
  | defaultMissing name => "missing default value for field " ++ name
  | defaultNotLiteral name text =>
    "default of field " ++ name ++ " must be a literal, got " ++ text
  | fieldUntyped name => "field " ++ name ++ " has neither a type nor a default value"
  | arrayUntyped name => "array default of field " ++ name ++ " needs a declared type"
  | afterEnd kind => "unexpected " ++ kind.name ++ " after end"
  | abstractBody _ described => "abstract " ++ described ++ " has a body"
  | endUnmatched => "end without an open class or method"
  | unknownInstruction word => "unknown instruction " ++ Text.quote word
  | instructionOutside _ op =>
    "instruction " ++ op.name ++ " outside of a method or constructor"
  | operandCount _ op given =>
    op.name ++ " takes " ++ op.arityText ++ ", got " ++ Number.natText given
  | labelKind _ kind => "label name must be an identifier, got " ++ kind.name
  | labelTaken name enclosing =>
    "label " ++ name ++ " is already declared in " ++ enclosing
  | operandKind kind _ => "unexpected " ++ kind.name ++ " in operand position"
  | memberUnclosed _ described => described ++ " is not closed before end of input"
  | classUnclosed name => "class " ++ name ++ " is not closed before end of input"

end ParseCause

/-- A cause and the line it was met on. -/
structure ParseError where
  line : Int
  cause : ParseCause
deriving DecidableEq

/-- The diagnostic of a parse error. -/
def ParseError.diagnostic (e : ParseError) : Diagnostic :=
  ⟨.structural, e.line, e.cause.construct, e.cause.message⟩

end ClassAsm.Program
