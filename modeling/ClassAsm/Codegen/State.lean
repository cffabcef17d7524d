import ClassAsm.Codegen.Error

/-!
# The generator's state

The state of generating one code block: the code, constants and types emitted so far, the types on
the operand stack at this point of the code, the locals in scope, and the register facts.  `Gen` is
the monad of generation steps, and the primitive steps are here: emit an instruction, find or add a
constant or a type, and push, pop or inspect the tracked stack.
-/

namespace ClassAsm.Codegen

open Bytecode (Op Word CompiledModule ClassRef Procedure)

/-- What a code block is generated for. -/
structure Context where
  /-- The class, in a module that holds the layout of all classes. -/
  owner : ClassRef
  /-- The signature of the procedure. -/
  signature : Procedure
  /-- The code block. -/
  body : Program.Block
  /-- The register facts that flow along backward edges, as known from the passes before. -/
  back : Flow := #[]

/-- The name of the procedure in messages. -/
def Context.procName (ctx : Context) : String := ctx.owner.name ++ "." ++ ctx.signature.name

/-- Whether a class of the unit has the given name. -/
def Context.isClass (ctx : Context) (name : String) : Bool :=
  (ctx.owner.home.classIndex? name).isSome

/-- A local in scope: its slot and its type. -/
structure Local where
  slot : Nat
  type : Ty
deriving DecidableEq

/-- A jump whose target is an instruction of the block, to be filled in at the end. -/
structure Patch where
  position : Nat
  target : Nat
deriving DecidableEq

/-- An open loop: the code offset and the index of its first instruction. -/
structure LoopTop where
  offset : Nat
  index : Nat
deriving DecidableEq

/-- The state of generating one code block. -/
structure State where
  code : Array Word := #[]
  lines : Array Int := #[]
  consts : Array Value := #[]
  types : Array Ty := #[]
  /-- The line that instructions are attributed to. -/
  line : Int
  /-- The types on the operand stack, top first. -/
  stack : List Ty := []
  locals : List (String × Local) := []
  nextLocal : Nat := registerCount
  registers : Registers := {}
  /-- The index of the instruction that is being generated. -/
  current : Nat := 0
  /-- Whether control can fall into the next instruction. -/
  reachable : Bool := true
  /-- Facts that flow along forward edges. -/
  forward : Flow := #[]
  /-- Facts that flow along backward edges in this pass. -/
  backward : Flow := #[]
  /-- The code offset of each instruction of the block. -/
  offsets : Array Nat := #[]
  patches : Array Patch := #[]
  /-- The open loops, innermost first. -/
  loops : List LoopTop := []
deriving DecidableEq

/-- A generation step. -/
abbrev Gen := StateT State (Except Error)

/-- Complain about the program on the current line. -/
def fail {α : Type} (cause : Cause) : Gen α := fun s ↦ .error (.diagnostic s.line cause)

/-- Stop in the middle of an instruction. -/
def stop {α : Type} (reason : Abort) : Gen α := fun _ ↦ .error (.abort reason)

/-! ## Code -/

/-- Emit an instruction. -/
def emit (op : Op) (arg : Nat := 0) : Gen Unit := modify fun s ↦
  { s with code := s.code.push (op.word arg), lines := s.lines.push s.line }

/-- Whether two constants can share a place in the table. -/
def sharesConstant (a b : Value) : Bool :=
  a.tag = b.tag && a.word = b.word && (a.tag ≠ .string || a.str = b.str)

/-- The place of a constant, which is added when it is new. -/
def constant (v : Value) : Gen Nat := fun s ↦
  match s.consts.findIdx? (sharesConstant v) with
  | some i => .ok (i, s)
  | none => .ok (s.consts.size, { s with consts := s.consts.push v })

/-- The place of a type, which is added when it is new. -/
def typeIndex (t : Ty) : Gen Nat := fun s ↦
  match s.types.findIdx? (· = t) with
  | some i => .ok (i, s)
  | none => .ok (s.types.size, { s with types := s.types.push t })

/-- Emit a push of a constant. -/
def emitConstant (v : Value) : Gen Unit := do emit .pushConst (← constant v)

/-! ## The tracked stack -/

/-- Note that the code has pushed a value of type `t`. -/
def push (t : Ty) : Gen Unit := modify fun s ↦ { s with stack := t :: s.stack }

/-- Note that the code has popped `n` values. -/
def pop (n : Nat) : Gen Unit := fun s ↦
  if n ≤ s.stack.length then .ok ((), { s with stack := s.stack.drop n })
  else .error (.abort .emptyStack)

/-- The type of the value `i` entries below the top. -/
def peek (i : Nat := 0) : Gen Ty := fun s ↦
  match s.stack[i]? with
  | some t => .ok (t, s)
  | none => .error (.abort .emptyStack)

/-- Note that the value `i` entries below the top now has type `t`. -/
def retype (i : Nat) (t : Ty) : Gen Unit := fun s ↦
  if i < s.stack.length then .ok ((), { s with stack := s.stack.set i t })
  else .error (.abort .emptyStack)

/-- Emit a conversion of the top of the stack, unless it already has type `t`.  Null needs no
conversion to a type it belongs to. -/
def convertTop (t : Ty) : Gen Unit := do
  let source ← peek
  if source = t || (source = .null && t.tag.isReference) then return
  emit .convert (← typeIndex t)
  retype 0 t

/-! ## Registers -/

/-- Emit a write of the top of the stack, of type `t`, to a register. -/
def writeRegister (r : Register) (t : Ty) : Gen Unit := do
  emit .popLocal r.slot
  pop 1
  modify fun s ↦ { s with registers := s.registers.set r (.typed t) }

/-- Emit a read of a register on behalf of `construct`, and return its type. -/
def readRegister (r : Register) (construct : String) : Gen Ty := do
  match (← get).registers.get r with
  | .unset => fail (.registerUnset r construct)
  | .mixed => fail (.registerMixed r construct (← get).line)
  | .typed t =>
    emit .pushLocal r.slot
    push t
    return t

/-! ## Edges -/

/-- Record that control can pass to an instruction with the current register facts.  Nothing reads
a register behind the block, so edges that leave it are dropped. -/
def edge (ctx : Context) (target : Nat) : Gen Unit := modify fun s ↦
  if ctx.body.code.size ≤ target then s
  else if target ≤ s.current then { s with backward := s.backward.add target s.registers }
  else { s with forward := s.forward.add target s.registers }

/-- Emit a jump to an instruction of the block. -/
def jumpTo (ctx : Context) (op : Op) (target : Nat) : Gen Unit := do
  let position := (← get).code.size
  emit op
  modify fun s ↦ { s with patches := s.patches.push ⟨position, target⟩ }
  edge ctx target

/-! ## Names -/

/-- The type that a name stands for. -/
def resolveType (ctx : Context) (name : String) : Gen Ty :=
  match Ty.ofName? ctx.isClass name with
  | some t => pure t
  | none => fail (.unknownType name)

/-- The local in scope under a name. -/
def State.local? (s : State) (name : String) : Option Local :=
  (s.locals.find? fun l ↦ l.1 = name).map (·.2)

/-- Bring a new local into scope. -/
def declare (ctx : Context) (name : String) (t : Ty) : Gen Local := do
  let s ← get
  if 64 ≤ s.nextLocal then fail (.tooManyLocals name ctx.procName)
  let l : Local := ⟨s.nextLocal, t⟩
  set { s with nextLocal := s.nextLocal + 1, locals := (name, l) :: s.locals }
  return l

end ClassAsm.Codegen
