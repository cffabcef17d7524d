import ClassAsm.Machine.Run

/-!
# The host's side of the machine

What a host can do with classes and objects: make an instance, call a method, and read and write
fields, all of them public only.  Besides, the host manages the machine itself: it installs host
functions, resets the machine, and gives it back for reuse.
-/

namespace ClassAsm.Machine

open Bytecode (ClassRef Routine)

/-- A refusal of the host interface: nothing has been run. -/
def refusal (construct message : String) : Diagnostic := ⟨.instantiation, 0, construct, message⟩

/-- Refuse a call. -/
def refuse {α : Type} (construct message : String) : HostCall α :=
  throw (.refused (refusal construct message))

/-! ## Instances and methods -/

/-- Make an instance of a public class through its public constructor number `ctor`.  The result is
the object. -/
def instantiate (cls : ClassRef) (ctor : Int := 0) : HostCall Value := do
  let c := cls.get
  if !c.isPublic then refuse c.name ("class " ++ c.name ++ " is private")
  if c.isAbstract then refuse c.name ("class " ++ c.name ++ " is abstract")
  let number := "#" ++ Number.intText ctor
  let code? := if ctor < 0 then none else c.constructors[ctor.toNat]?
  match code? with
  | none => refuse c.name ("class " ++ c.name ++ " has no constructor " ++ number)
  | some code =>
    if !code.isPublic then
      refuse c.name ("constructor " ++ number ++ " of class " ++ c.name ++ " is private")
    let addr ← direct (newObject cls)
    invoke ⟨code, some cls⟩ (some addr) true

/-- The public method of a class that a host may call. -/
def publicMethod (cls : ClassRef) (name : String) : HostCall Routine := do
  let c := cls.get
  match (c.methodIndex? name).bind (c.methods[·]?) with
  | none => refuse name ("class " ++ c.name ++ " has no method " ++ name)
  | some code =>
    if !code.isPublic then refuse name ("method " ++ c.name ++ "." ++ name ++ " is private")
    if code.isAbstract then refuse name ("method " ++ c.name ++ "." ++ name ++ " is abstract")
    return ⟨code, some cls⟩

/-- Call a public method of an object. -/
def callObject (obj : Option Nat) (name : String) : HostCall Value := do
  let objects := (← get).heap.objects
  match obj.bind fun addr ↦ objects[addr]?.map fun c ↦ (addr, c.cls) with
  | none => refuse name ("call of " ++ name ++ " on a nil object")
  | some (addr, cls) => invoke (← publicMethod cls name) (some addr)

/-! ## Fields -/

/-- The index of a public field of a class. -/
def publicField (cls : ClassRef) (name : String) : Except Diagnostic Nat :=
  let c := cls.get
  match c.fieldIndex? name with
  | none => .error (refusal name ("class " ++ c.name ++ " has no field " ++ name))
  | some i =>
    if c.fields[i]?.any (·.isPublic) then .ok i
    else .error (refusal name ("field " ++ c.name ++ "." ++ name ++ " is private"))

/-- Read a public field of an object. -/
def getField (cell : ObjectCell) (name : String) : Except Diagnostic Value := do
  let i ← publicField cell.cls name
  return cell.fields[i]?.getD .void

/-- The value that a public field holds after `v` is written to it: `v` converted to the type of the
field. -/
def fieldValue (h : Heap) (cls : ClassRef) (name : String) (v : Value) :
    Except Diagnostic (Nat × Value) := do
  let i ← publicField cls name
  let t := (cls.get.fields[i]?.map (·.type)).getD .void
  match h.convert? v t with
  | some c => return (i, c)
  | none => .error ⟨.typing, 0, name,
      "field " ++ cls.name ++ "." ++ name ++ ": " ++ Heap.conversionText v.tag t⟩

/-- Write a public field of the object at an address. -/
def setField (h : Heap) (addr : Nat) (name : String) (v : Value) : Except Diagnostic Heap :=
  match h.objects[addr]? with
  | none => .ok h
  | some cell => do
    let (i, c) ← fieldValue h cell.cls name v
    return h.setField addr i c

/-! ## The machine itself -/

/-- Replace the host functions by the built-in ones. -/
def State.install (s : State) : State := { s with host := builtins }

/-- Add a host function behind the others. -/
def State.register (s : State) (f : HostFunction) : State := { s with host := s.host.push f }

/-- Empty the stack and the frames. -/
def State.reset (s : State) : State := s.unwind 0 0

/-- Give the machine back for reuse: nothing that it held is left.  The heap and what was printed
are the host's. -/
def State.release (s : State) : State :=
  { s.reset with host := #[], sink := .standard, gasLimit := 0 }

end ClassAsm.Machine
