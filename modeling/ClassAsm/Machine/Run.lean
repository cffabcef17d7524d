import ClassAsm.Machine.Step

/-!
# Runs

`run` executes instructions until the number of frames is back at a given depth, something fails, or
the gas is used up.  A failure is located at the frame that was active when the instruction began:
if that frame has been left by then, the fault has no place.

`invoke` calls a procedure from the host.  After a fault the stack and the frames are cut back to
their heights before the call; an abort of a host function leaves them as they are.
-/

namespace ClassAsm.Machine

open Bytecode (Routine)

/-- Where a frame stands. -/
def Frame.place (f : Frame) : Place := ⟨f.routine.fullName, f.routine.code.lineAt f.ip⟩

/-- Locate a cause at the frame with index `i`. -/
def locate (i : Nat) (cause : Cause) (s : State) : Fault :=
  ⟨cause, (s.frames.cells[i]?.join).map Frame.place⟩

/-- The stop that a signal becomes when the frame with index `i` is active. -/
def Signal.stopAt (i : Nat) (s : State) : Signal → Stop
  | fault cause => .fault (locate i cause s)
  | abort text => .abort text

/-- Run until at most `depth` frames are active, for at most `gas` instructions. -/
def run (depth gas : Nat) : HostCall Unit := fun s ↦
  if s.frames.top ≤ depth then .ok () s
  else
    let active := s.frames.top - 1
    match gas with
    | 0 => .error (.fault (locate active .gasExhausted s)) s
    | gas + 1 =>
      match step s with
      | .ok () t => run depth gas t
      | .error signal t => .error (signal.stopAt active t) t

/-- The instruction limit of a run. -/
def State.gas (s : State) : Nat := if s.gasLimit ≤ 0 then defaultGas else s.gasLimit.toNat

/-- Cut frames and stack back to the given heights. -/
def State.unwind (s : State) (depth base : Nat) : State :=
  { s with frames := s.frames.dropTo depth, stack := s.stack.dropTo base }

/-- Do a machine step on behalf of the host, outside of any run. -/
def direct {α : Type} (act : Exec α) : HostCall α := fun s ↦
  match act s with
  | .ok a t => .ok a t
  | .error signal t => .error signal.escape t

/-- A fault in a procedure that has not been entered. -/
def faultBefore {α : Type} (r : Routine) (cause : Cause) : HostCall α :=
  throw (.fault ⟨cause, some ⟨r.fullName, 0⟩⟩)

/-- Run a procedure that has been entered from the given heights, and cut back after a fault. -/
def runEntered (depth base : Nat) : HostCall Unit := fun s ↦
  match run depth s.gas s with
  | .error (.fault f) t => .error (.fault f) (t.unwind depth base)
  | result => result

/-- Run a procedure on an object until it returns.  The result of a constructor is the object. -/
def invoke (r : Routine) (this : Option Nat) (constructs : Bool := false) : HostCall Value := do
  if r.code.isAbstract then faultBefore r .abstractCall
  let s ← get
  if maxFrames ≤ s.frames.top then faultBefore r .frameOverflow
  let depth := s.frames.top
  let base := s.stack.top
  direct (enter r this constructs)
  runEntered depth base
  if constructs || r.code.returns ≠ .void then direct pop else return .void

end ClassAsm.Machine
