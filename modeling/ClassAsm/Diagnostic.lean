import ClassAsm.Number.Integer

/-!
# Diagnostics

A diagnostic is a located complaint about a program or about the use of a class: its kind, the
source line (not positive when unknown), the name at fault and the message.  A `Failure` is what an
operation reports: a diagnostic or plain text, under any number of contexts.
-/

namespace ClassAsm

/-- What a diagnostic is about. -/
inductive Diagnostic.Kind where
  | structural
  | resolution
  | typing
  | instantiation
  | runtime
  | other (code : UInt8)
deriving DecidableEq, Repr

namespace Diagnostic

/-- The kind with the given number. -/
def Kind.ofCode (n : UInt8) : Kind :=
  match n with
  | 1 => .structural
  | 2 => .resolution
  | 3 => .typing
  | 4 => .instantiation
  | 5 => .runtime
  | n => .other n

/-- The word for a kind that starts a diagnostic. -/
def Kind.name : Kind → String
  | .structural => "structural"
  | .resolution => "resolution"
  | .typing => "type"
  | .instantiation => "instantiation"
  | .runtime => "runtime"
  | .other _ => "unknown"

end Diagnostic

/-- A complaint, its place and the name at fault. -/
structure Diagnostic where
  kind : Diagnostic.Kind
  line : Int
  construct : String
  message : String
deriving DecidableEq, Repr

/-- The text of a diagnostic; the line is left out when it is unknown. -/
def Diagnostic.text (d : Diagnostic) : String :=
  if 0 < d.line then
    d.kind.name ++ " error at line " ++ Number.intText d.line ++ ": " ++ d.message
  else d.kind.name ++ " error: " ++ d.message

/-- What an operation reports when it does not succeed. -/
inductive Failure where
  /-- A diagnostic. -/
  | diagnostic (d : Diagnostic)
  /-- Anything else, by its text. -/
  | plain (text : String)
  /-- A failure met while doing what `context` says. -/
  | within (context : String) (inner : Failure)
deriving DecidableEq, Repr

namespace Failure

/-- The whole text, contexts first. -/
def text : Failure → String
  | diagnostic d => d.text
  | plain t => t
  | within context inner => context ++ ": " ++ inner.text

/-- The diagnostic that a failure carries, under whatever contexts. -/
def diagnostic? : Failure → Option Diagnostic
  | diagnostic d => some d
  | plain _ => none
  | within _ inner => inner.diagnostic?

/-- Whether a failure carries a diagnostic of the given kind. -/
def isKind (f : Failure) (k : Diagnostic.Kind) : Bool :=
  match f.diagnostic? with
  | some d => d.kind = k
  | none => false

end Failure

end ClassAsm
