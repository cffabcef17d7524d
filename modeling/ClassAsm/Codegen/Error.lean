import ClassAsm.Codegen.Registers
import ClassAsm.Diagnostic
import ClassAsm.Heap
import ClassAsm.Program.Decl

/-!
# Why no code can be generated

A `Cause` is something wrong with the program, with the names and types it is about; its kind, the
name at fault and the wording are functions of it.  `Error` adds what can go wrong only for programs
that no source text parses to: instructions beyond the table, missing operands, and operands that
are no literals where one is needed.
-/

namespace ClassAsm.Codegen

open Program (Opcode Operand)

/-- Something wrong with a program. -/
inductive Cause where
  -- Names.
  | malformedChain (chain : String)
  | leadingIndex (chain : String)
  | misplacedThis (chain : String)
  | unknownIdentifier (name : String)
  | unknownMember (name : String) (owner : Ty)
  | unknownOwner (name className : String)
  | privateField (name className : String)
  | emptyIndex
  | assignThis (name : String)
  | tooManyLocals (name procName : String)
  | registerUnset (r : Register) (construct : String)
  | unknownLocal (name : String)
  | localTaken (name : String)
  | undefinedLabel (name : String)
  | labelRange (name : String)
  | unknownMethod (name className : String)
  -- Types.
  | unknownType (name : String)
  | notArray (segment previous : String) (type : Ty)
  | indexType (expr : String) (type : Ty)
  | cannotAssign (name : String) (source target : Ty)
  | registerMixed (r : Register) (construct : String) (line : Int)
  | notNumeric (op : Opcode) (left right : Ty)
  | notBool (op : Opcode) (type : Ty)
  | cannotCompare (op : Opcode) (left right : Ty)
  | returnMissing (procName : String) (returns : Ty)
  | returnUnexpected (procName : String)
  | returnType (procName : String) (source returns : Ty)
  | arraySize (typeName : String) (type : Ty)
  | sizeNeeded (typeName : String) (type : Ty)
  | abstractClass (typeName className : String)
  | singleDefault (name : String) (type : Ty)
  | literalType (name : String) (literal : Operand) (source target : Ty)
  | byteRange (name : String) (value : Int64)
  | conversion (name : String) (source : Tag) (target : Ty)
  | inference (name : String) (literal : Operand)
  -- Shape of an instruction.
  | nameOperand (op : Opcode) (operand : Operand)
  | defineForm (name : String)
  | localName (name : String)
  | noLoop (op : Opcode)
deriving DecidableEq

namespace Cause

/-- What the complaint is about. -/
def kind : Cause → Diagnostic.Kind
  | malformedChain _ | leadingIndex _ | misplacedThis _ | unknownIdentifier _
  | unknownMember _ _ | unknownOwner _ _ | privateField _ _ | emptyIndex | assignThis _
  | tooManyLocals _ _ | registerUnset _ _ | unknownLocal _ | localTaken _ | undefinedLabel _
  | labelRange _ | unknownMethod _ _ => .resolution
  | unknownType _ | notArray _ _ _ | indexType _ _ | cannotAssign _ _ _ | registerMixed _ _ _
  | notNumeric _ _ _ | notBool _ _ | cannotCompare _ _ _ | returnMissing _ _
  | returnUnexpected _ | returnType _ _ _ | arraySize _ _ | sizeNeeded _ _ | abstractClass _ _
  | singleDefault _ _ | literalType _ _ _ _ | byteRange _ _ | conversion _ _ _
  | inference _ _ => .typing
  | nameOperand _ _ | defineForm _ | localName _ | noLoop _ => .structural

/-- The name at fault. -/
def construct : Cause → String
  | malformedChain chain => chain
  | leadingIndex chain => chain
  | misplacedThis chain => chain
  | unknownIdentifier name => name
  | unknownMember name _ => name
  | unknownOwner name _ => name
  | privateField name _ => name
  | emptyIndex => "[]"
  | assignThis name => name
  | tooManyLocals name _ => name
  | registerUnset _ construct => construct
  | unknownLocal name => name
  | localTaken name => name
  | undefinedLabel name => name
  | labelRange name => name
  | unknownMethod name _ => name
  | unknownType name => name
  | notArray segment _ _ => segment
  | indexType expr _ => expr
  | cannotAssign name _ _ => name
  | registerMixed _ construct _ => construct
  | notNumeric op _ _ => op.name
  | notBool op _ => op.name
  | cannotCompare op _ _ => op.name
  | returnMissing _ _ => Opcode.ret.name
  | returnUnexpected _ => Opcode.ret.name
  | returnType _ _ _ => Opcode.ret.name
  | arraySize typeName _ => typeName
  | sizeNeeded typeName _ => typeName
  | abstractClass typeName _ => typeName
  | singleDefault name _ => name
  | literalType name _ _ _ => name
  | byteRange name _ => name
  | conversion name _ _ => name
  | inference name _ => name
  | nameOperand op _ => op.name
  | defineForm name => name
  | localName name => name
  | noLoop op => op.name

/-- The most locals a code block can define. -/
def localLimit : Nat := 64 - registerCount

/-- The message. -/
def message : Cause → String
  | malformedChain chain => "malformed identifier " ++ chain
  | leadingIndex chain => "identifier " ++ chain ++ " starts with an index"
  | misplacedThis chain => "this must start identifier " ++ chain
  | unknownIdentifier name => "unknown identifier " ++ name
  | unknownMember name owner => "unknown member " ++ name ++ " on type " ++ owner.name
  | unknownOwner _ className => "unknown class " ++ className
  | privateField name className => "field " ++ name ++ " of class " ++ className ++ " is private"
  | emptyIndex => "empty index"
  | assignThis _ => "cannot assign to this"
  | tooManyLocals _ procName =>
    "too many locals in " ++ procName ++ " (limit " ++ Number.natText localLimit ++ ")"
  | registerUnset r _ => r.name ++ " register read before it is written on every path"
  | unknownLocal name => "unknown local " ++ name
  | localTaken name => "local " ++ name ++ " is already defined"
  | undefinedLabel name => "undefined label " ++ name
  | labelRange name => "label " ++ name ++ " is out of range"
  | unknownMethod name className => "unknown method " ++ name ++ " on class " ++ className
  | unknownType name => "unknown type " ++ name
  | notArray _ previous type => "cannot index " ++ previous ++ " of type " ++ type.name
  | indexType expr type => "index " ++ expr ++ " has type " ++ type.name ++ ", not a number"
  | cannotAssign name source target =>
    "cannot assign " ++ source.name ++ " to " ++ name ++ " of type " ++ target.name
  | registerMixed r _ line =>
    r.name ++ " register holds different types on the paths reaching line " ++
      Number.intText line
  | notNumeric op left right =>
    op.name ++ " needs numeric operands, got " ++ left.name ++ " and " ++ right.name
  | notBool op type => op.name ++ " needs a bool, got " ++ type.name
  | cannotCompare _ left right => "cannot compare " ++ left.name ++ " with " ++ right.name
  | returnMissing procName returns =>
    procName ++ " must return a " ++ returns.name ++ " value"
  | returnUnexpected procName => procName ++ " does not return a value"
  | returnType procName source returns =>
    "cannot return " ++ source.name ++ " from " ++ procName ++ " (" ++ returns.name ++ ")"
  | arraySize _ type => "array size must be a number, got " ++ type.name
  | sizeNeeded _ type => Opcode.new.name ++ " of " ++ type.name ++ " needs a size"
  | abstractClass _ className => "cannot instantiate abstract class " ++ className
  | singleDefault name type =>
    "field " ++ name ++ " of type " ++ type.name ++ " takes a single default value"
  | literalType _ literal source target =>
    "cannot use " ++ source.name ++ " literal " ++ literal.shown ++ " as " ++ target.name
  | byteRange _ value => "literal " ++ Number.intText value.toInt ++ " overflows byte"
  | conversion _ source target =>
    Heap.conversionText source target
  | inference name literal =>
    "cannot infer the type of field " ++ name ++ " from " ++ literal.shown
  | nameOperand op operand => op.name ++ " expects a name, got " ++ operand.shown
  | defineForm name => "expected: " ++ Opcode.define.name ++ " " ++ name ++ " as <type>"
  | localName name => "invalid local name " ++ name
  | noLoop op => op.name ++ " without an open " ++ Opcode.loop.name

end Cause

/-- Why the generator stops in the middle of an instruction. -/
inductive Abort where
  /-- A literal is needed and the operand is none. -/
  | notLiteral (operand : Operand)
  /-- An operand, default, signature or place in the code is missing. -/
  | missing (index count : Nat)
  /-- A class or an element type that does not exist is used. -/
  | absent
  /-- A jump leads to before the block. -/
  | lostJump (target : Int)
  /-- The tracked stack has no such entry. -/
  | emptyStack
  /-- A chain is nested deeper than it is long. -/
  | nesting
  /-- The register facts still change after the last pass. -/
  | unsettled
deriving DecidableEq

/-- The text of an abort. -/
def Abort.message : Abort → String
  | notLiteral operand => "emitter: " ++ operand.kindName ++ " is not a literal"
  | missing index count =>
    "runtime error: index out of range [" ++ Number.natText index ++ "] with length " ++
      Number.natText count
  | absent => "runtime error: invalid memory address or nil pointer dereference"
  | lostJump target => "runtime error: index out of range [" ++ Number.intText target ++ "]"
  | emptyStack => "the tracked stack is empty"
  | nesting => "an identifier is nested deeper than it is long"
  | unsettled => "the register facts do not settle"

/-- Why no code can be generated. -/
inductive Error where
  /-- The program is at fault, on this line. -/
  | diagnostic (line : Int) (cause : Cause)
  /-- No code exists for this instruction. -/
  | unhandled (op : Opcode)
  /-- An instruction did not leave the tracked stack as it found it. -/
  | unbalanced (op : Opcode) (count : Nat) (line : Int)
  /-- The generator stopped. -/
  | abort (reason : Abort)
deriving DecidableEq

namespace Error

/-- The failure that is reported, for all but an abort. -/
def failure? : Error → Option Failure
  | diagnostic line cause =>
    some (.diagnostic ⟨cause.kind, line, cause.construct, cause.message⟩)
  | unhandled op => some (.plain ("emitter: unhandled opcode " ++ op.name))
  | unbalanced op count line =>
    some (.plain ("emitter: " ++ op.name ++ " left " ++ Number.natText count ++
      " values on the stack at line " ++ Number.intText line))
  | abort _ => none

end Error

end ClassAsm.Codegen
