import ClassAsm.Diagnostic
import ClassAsm.Heap

/-!
# Faults

A `Cause` is why an instruction cannot be executed.  A `Fault` is a cause with the place where it
arose: the procedure and, if it is known, the source line.  `Stop` is how a call from the host can
end without a result: with a fault, with a refusal before anything has run, or with an abort that
the machine passes on to its host as it is.
-/

namespace ClassAsm.Machine

/-- Why an instruction cannot be executed. -/
inductive Cause where
  | stackOverflow
  | stackUnderflow
  | frameOverflow
  | gasExhausted
  | divisionByZero
  | nullReference
  | itemIndex (index : Int64) (count : Nat)
  | abstractCall
  | abstractClass
  | noConstructor
  | unknownOp
  | unknownHost
  | negativeSize
  | arrayTooLarge
  | notNumeric
  | conversion (source : Tag) (target : Ty)
  /-- The machine code refers to an entry that a table does not have. -/
  | outOfBounds (index count : Nat)
  /-- The machine code refers to a class or an element type that does not exist. -/
  | missing
  /-- A host function failed. -/
  | host (text : String)
deriving DecidableEq

/-- The text of a cause. -/
def Cause.message : Cause → String
  | stackOverflow => "vm: stack overflow"
  | stackUnderflow => "vm: stack underflow"
  | frameOverflow => "vm: call depth exceeded"
  | gasExhausted => "vm: gas exhausted"
  | divisionByZero => "vm: division by zero"
  | nullReference => "vm: null reference"
  | itemIndex index count =>
    "vm: index out of range: " ++ Number.intText index.toInt ++ " of " ++ Number.natText count
  | abstractCall => "vm: call of abstract method"
  | abstractClass => "vm: instantiation of abstract class"
  | noConstructor => "vm: class has no constructor"
  | unknownOp => "vm: unknown opcode"
  | unknownHost => "vm: unknown host function"
  | negativeSize => "vm: negative array size"
  | arrayTooLarge => "vm: array size exceeds MaxArrayLen"
  | notNumeric => "vm: operand is not a number"
  | conversion source target => Heap.conversionText source target
  | outOfBounds index count =>
    "runtime error: index out of range [" ++ Number.natText index ++ "] with length " ++
      Number.natText count
  | missing => "runtime error: invalid memory address or nil pointer dereference"
  | host text => text

/-- Where a fault arose: the name of the procedure and the source line, or zero. -/
structure Place where
  proc : String
  line : Int
deriving DecidableEq

/-- A cause, and where it arose if an active procedure is to blame. -/
structure Fault where
  cause : Cause
  place : Option Place
deriving DecidableEq

/-- The text of a fault. -/
def Fault.text (f : Fault) : String :=
  match f.place with
  | none => f.cause.message
  | some p =>
    f.cause.message ++ " in " ++ p.proc ++
      if 0 < p.line then " (line " ++ Number.intText p.line ++ ")" else ""

/-- How an instruction can fail to complete. -/
inductive Signal where
  | fault (cause : Cause)
  /-- A host function gave up in a way that is not the machine's to handle. -/
  | abort (text : String)
deriving DecidableEq

/-- How a call from the host can end without a result. -/
inductive Stop where
  | fault (f : Fault)
  /-- The call is not allowed, and nothing has run. -/
  | refused (d : Diagnostic)
  | abort (text : String)
deriving DecidableEq

/-- A signal outside of any run reaches the host as an abort. -/
def Signal.escape : Signal → Stop
  | fault cause => .abort cause.message
  | abort text => .abort text

end ClassAsm.Machine
