import ClassAsm.Codegen.Instruction

/-!
# The code of a block

`pass` generates the instructions of a block in order.  Where paths join, the register facts of all
of them are met; those of a backward jump are only known after the pass, so `settle` generates the
block again with what the passes before have found, until a pass finds nothing new.  Facts are only
lost from pass to pass, and each of the instructions can change at most seven times: once to be
reached at all, and twice for each of the three registers.
-/

namespace ClassAsm.Codegen

open Bytecode (Word Procedure)
open Program (Instruction)

/-- The register facts at the start of an instruction: what all paths into it agree on.  An
instruction that nothing reaches keeps the facts of the one before it. -/
def enter (ctx : Context) (i : Nat) : Gen Unit := modify fun s ↦
  let fall := if s.reachable then some s.registers else none
  let jumped := Option.merge Registers.meet (s.forward.at i) (ctx.back.at i)
  { s with
    registers := (Option.merge Registers.meet fall jumped).getD s.registers
    current := i
    reachable := true }

/-- Generate one instruction, and check that it leaves the operand stack empty. -/
def instruction (ctx : Context) (i : Nat) (instr : Instruction) : Gen Unit := do
  enter ctx i
  modify fun s ↦ { s with offsets := s.offsets.push s.code.size, line := instr.line }
  lower ctx i instr
  let depth := (← get).stack.length
  if depth ≠ 0 then throw (.unbalanced instr.op depth instr.line)

/-- Generate the instructions of a block from index `i` on. -/
def instructionsFrom (ctx : Context) (i : Nat) : List Instruction → Gen Unit
  | [] => pure ()
  | instr :: rest => do
    instruction ctx i instr
    instructionsFrom ctx (i + 1) rest

/-- Generate all instructions of a block once. -/
def pass (ctx : Context) : Gen Unit := instructionsFrom ctx 0 ctx.body.code.toList

/-- Generate a block from the state `start` until the facts on backward edges no longer change. -/
def settle (ctx : Context) (start : State) : Nat → Flow → Except Error State
  | 0, _ => .error (.abort .unsettled)
  | fuel + 1, back => do
    let ((), s) ← pass { ctx with back := back } start
    let next := back.merge s.backward
    if next = back then .ok s else settle ctx start fuel next

/-- A label that stands behind the end of a block. -/
def strayLabel? (body : Program.Block) : Option String :=
  (body.labels.find? fun l ↦ ↑body.code.size < l.2).map (·.1)

/-- The place that an instruction jumps to, when it is a jump to a label before the block. -/
def lostTarget? (body : Program.Block) (instr : Instruction) : Option Int :=
  match instr.op, instr.operands with
  | .goto, .identifier name :: _ | .jump, .identifier name :: _ => (body.label? name).filter (· < 0)
  | _, _ => none

/-- The place that the first jump to before a block goes to. -/
def lostJump? (body : Program.Block) : Option Int := body.code.toList.findSome? (lostTarget? body)

/-- Generate a block. -/
def body (ctx : Context) : Gen Unit := fun s ↦ do
  if let some name := strayLabel? ctx.body then
    throw (.diagnostic s.line (.labelRange name))
  let n := ctx.body.code.size
  let start := { s with forward := .empty n, backward := .empty n }
  return ((), ← settle ctx start (1 + 7 * n) (.empty n))

/-- Refuse a block with a jump to before the block. -/
def checkJumps (body : Program.Block) : Gen Unit :=
  match lostJump? body with
  | none => pure ()
  | some target => stop (.lostJump target)

/-- The return at the end of every procedure: a method that falls off its end returns the zero
value of its result type. -/
def epilogue (returns : Ty) : Gen Unit := do
  modify fun s ↦ { s with offsets := s.offsets.push s.code.size }
  if returns = .void then emit .ret
  else
    emitConstant returns.zero
    emit .ret 1

/-- Fill in the target of a jump: the code offset of the instruction it goes to, or of the return at
the end. -/
def Patch.apply (offsets : Array Nat) (code : Array Word) (p : Patch) :
    Except Error (Array Word) :=
  match offsets[min p.target (offsets.size - 1)]? with
  | none => .error (.abort (.missing p.target offsets.size))
  | some offset =>
    if p.position < code.size then
      .ok (code.modify p.position fun w ↦ Word.pack w.opByte offset)
    else .error (.abort (.missing p.position code.size))

/-- Fill in the targets of jumps, in the order in which they were emitted. -/
def applyPatches (offsets : Array Nat) (code : Array Word) :
    List Patch → Except Error (Array Word)
  | [] => .ok code
  | p :: rest => do applyPatches offsets (← p.apply offsets code) rest

/-- The finished procedure. -/
def finish (signature : Procedure) (s : State) : Except Error Procedure := do
  return { signature with
    code := ← applyPatches s.offsets s.code s.patches.toList
    lines := s.lines
    consts := s.consts
    types := s.types
    locals := s.nextLocal }

end ClassAsm.Codegen
