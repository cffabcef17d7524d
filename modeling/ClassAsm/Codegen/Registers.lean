import ClassAsm.Ty

/-!
# The pseudo-registers and what is known about them

Compiled code keeps three values in fixed local slots: the selected value, the value to compare with
and the return value.  The generator tracks for each of them whether it has been written on every
path to an instruction, and with which type.

Facts are ordered: a typed register is above a mixed one, which is above an unset one.  `meet` is
the greatest lower bound, so facts can only be lost where paths join.
-/

namespace ClassAsm.Codegen

/-- The three pseudo-registers. -/
inductive Register where
  | selected
  | comparing
  | result
deriving DecidableEq, Repr

/-- The local slot of a register. -/
def Register.slot : Register → Nat
  | .selected => 0
  | .comparing => 1
  | .result => 2

/-- How many local slots the registers take; locals follow them. -/
def registerCount : Nat := 3

/-- The name of a register in messages. -/
def Register.name : Register → String
  | .selected => "selected"
  | .comparing => "comparing"
  | .result => "ret"

/-- What is known about a register at one point of the code. -/
inductive Fact where
  /-- Not written on some path. -/
  | unset
  /-- Written on every path, with different types. -/
  | mixed
  /-- Last written with this type on every path. -/
  | typed (t : Ty)
deriving DecidableEq, Repr

/-- What remains known where two paths join. -/
def Fact.meet : Fact → Fact → Fact
  | .unset, _ | _, .unset => .unset
  | .typed s, .typed t => if s = t then .typed s else .mixed
  | _, _ => .mixed

/-- What is known about all registers. -/
structure Registers where
  selected : Fact := .unset
  comparing : Fact := .unset
  result : Fact := .unset
deriving DecidableEq, Repr

namespace Registers

/-- The fact about one register. -/
def get (rs : Registers) : Register → Fact
  | .selected => rs.selected
  | .comparing => rs.comparing
  | .result => rs.result

/-- Replace the fact about one register. -/
def set (rs : Registers) (r : Register) (f : Fact) : Registers :=
  match r with
  | .selected => { rs with selected := f }
  | .comparing => { rs with comparing := f }
  | .result => { rs with result := f }

/-- What remains known where two paths join. -/
def meet (a b : Registers) : Registers :=
  ⟨a.selected.meet b.selected, a.comparing.meet b.comparing, a.result.meet b.result⟩

end Registers

/-- The register facts that flow into each instruction along some of its edges. -/
abbrev Flow := Array (Option Registers)

/-- No facts for any of `n` instructions. -/
def Flow.empty (n : Nat) : Flow := Array.replicate n none

/-- The facts recorded for an instruction. -/
def Flow.at (f : Flow) (i : Nat) : Option Registers := f[i]?.join

/-- Join facts into those recorded for an instruction. -/
def Flow.add (f : Flow) (i : Nat) (rs : Registers) : Flow :=
  f.modify i fun recorded ↦ Option.merge Registers.meet recorded (some rs)

/-- Join two flows, instruction by instruction. -/
def Flow.merge (f g : Flow) : Flow := f.zipWith (Option.merge Registers.meet) g

end ClassAsm.Codegen
