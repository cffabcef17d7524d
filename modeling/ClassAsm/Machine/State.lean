import ClassAsm.Bytecode.Builtin
import ClassAsm.Machine.Fault
import ClassAsm.Machine.Slots

/-!
# The machine's state

An operand stack of 256 slots, 64 frames with 64 locals each, the heap, the text printed so far, and
the host functions that code can call.  `Exec` is the monad of machine steps.  A step that fails
keeps the changes it has made.
-/

namespace ClassAsm.Machine

open Bytecode (Routine)

/-- The number of slots of the operand stack. -/
def stackDepth : Nat := 256

/-- The number of frames. -/
def maxFrames : Nat := 64

/-- The number of locals of a frame. -/
def maxLocals : Nat := 64

/-- The greatest size of an array. -/
def maxArrayLength : Nat := 1048576

/-- How many instructions a run may take if the machine sets no other limit. -/
def defaultGas : Nat := 1000000

/-- One active procedure. -/
structure Frame where
  routine : Routine
  ip : Nat := 0
  /-- The height of the operand stack at entry. -/
  base : Nat
  /-- The address of the object that the procedure works on. -/
  this : Option Nat
  /-- Whether the object is handed to the caller on return. -/
  constructs : Bool
  locals : Vector Value maxLocals := Vector.replicate maxLocals .void

/-- The object that a frame works on, as a value. -/
def Frame.self (f : Frame) : Value :=
  match f.this with
  | some addr => .ofObject addr
  | none => .null

/-- A function of the host that code can call by index.  These are the kinds of functions that are
covered.  A host could also install one that pushes values, or that calls the machine again; of such
functions nothing is said. -/
inductive HostFunction where
  /-- Pops a value and prints it on a line. -/
  | print
  /-- Pops a value and prints it. -/
  | echo
  /-- Fails with a text. -/
  | fail (text : String)
  /-- Gives up with a text, and takes the whole run with it. -/
  | abort (text : String)
  /-- A place in the table with no function. -/
  | absent
deriving DecidableEq, Inhabited

/-- The built-in host functions, in the order of their names. -/
def builtins : Array HostFunction := #[.print]

/-- Where printed text goes. -/
inductive Sink where
  | standard
  | attached
deriving DecidableEq, Inhabited

/-- The state of a machine together with the heap it works on. -/
structure State where
  stack : Slots Value stackDepth := .empty
  frames : Slots (Option Frame) maxFrames := .empty
  host : Array HostFunction := #[]
  sink : Sink := .standard
  /-- The instruction limit of a run; not positive for the default. -/
  gasLimit : Int := 0
  heap : Heap := {}
  output : String := ""
deriving Inhabited

/-- A machine step. -/
abbrev Exec := EStateM Signal State

/-- A call from the host. -/
abbrev HostCall := EStateM Stop State

/-- Stop the instruction. -/
def fault {α : Type} (cause : Cause) : Exec α := throw (.fault cause)

/-- The entry of a table that the machine code refers to. -/
def entry {α : Type} (xs : Array α) (i : Nat) : Exec α :=
  match xs[i]? with
  | some x => pure x
  | none => fault (.outOfBounds i xs.size)

/-! ## Stack and output -/

/-- Push a value. -/
def push (v : Value) : Exec Unit := fun s ↦
  if h : s.stack.top < stackDepth then .ok () { s with stack := s.stack.push v h }
  else .error (.fault .stackOverflow) s

/-- Pop a value. -/
def pop : Exec Value := fun s ↦
  if h : 0 < s.stack.top then .ok (s.stack.peek h) { s with stack := s.stack.pop h }
  else .error (.fault .stackUnderflow) s

/-- Print a text. -/
def write (text : String) : Exec Unit := modify fun s ↦ { s with output := s.output ++ text }

/-! ## Frames -/

/-- The active frame. -/
def frame : Exec Frame := fun s ↦
  if h : 0 < s.frames.top then
    match s.frames.peek h with
    | some f => .ok f s
    | none => .error (.fault .missing) s
  else .error (.fault .missing) s

/-- Change the active frame. -/
def modifyFrame (f : Frame → Frame) : Exec Unit := modify fun s ↦
  { s with frames := s.frames.modifyTop (Option.map f) }

/-- Continue with the next instruction. -/
def advance : Exec Unit := modifyFrame fun f ↦ { f with ip := f.ip + 1 }

/-- Continue with the instruction at `ip`. -/
def jumpTo (ip : Nat) : Exec Unit := modifyFrame fun f ↦ { f with ip := ip }

/-- Enter a procedure. -/
def enter (routine : Routine) (this : Option Nat) (constructs : Bool) : Exec Unit := fun s ↦
  if h : s.frames.top < maxFrames then
    let f : Frame := { routine, base := s.stack.top, this, constructs }
    .ok () { s with frames := s.frames.push (some f) h }
  else .error (.fault .frameOverflow) s

/-- Leave the active procedure. -/
def leave : Exec Unit := modify fun s ↦ { s with frames := s.frames.dropTo (s.frames.top - 1) }

/-! ## Heap -/

/-- Allocate an object. -/
def newObject (cls : Bytecode.ClassRef) : Exec Nat := fun s ↦
  .ok s.heap.objects.size { s with heap := s.heap.addObject (Heap.freshObject cls) }

/-- Allocate an array of zeros. -/
def newArray (elem : Ty) (n : Nat) : Exec Value := fun s ↦
  .ok (.ofArray s.heap.arrays.size) { s with heap := s.heap.addArray (Heap.freshArray elem n) }

end ClassAsm.Machine
