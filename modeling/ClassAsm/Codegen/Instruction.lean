import ClassAsm.Bytecode.Builtin
import ClassAsm.Codegen.Chain
import ClassAsm.Codegen.Literal

/-!
# The code of one instruction

`lower` emits the machine code of one instruction of a block.  Every instruction starts and ends
with an empty operand stack: what it pushes it consumes, and results go to a register, a local, a
field or an array item.
-/

namespace ClassAsm.Codegen

open Bytecode (Op Arith)
open Program (Opcode Operand Instruction)

/-! ## Operands -/

/-- The operand at a place that the instruction needs. -/
def operandAt (ops : List Operand) (i : Nat) : Gen Operand :=
  match ops[i]? with
  | some o => pure o
  | none => stop (.missing i ops.length)

/-- The name that an operand of `op` must be. -/
def nameOf (op : Opcode) : Operand → Gen String
  | .identifier name => pure name
  | o => fail (.nameOperand op o)

/-- Push the value of an operand and return its type. -/
def operand (ctx : Context) (o : Operand) : Gen Ty := do
  match o with
  | .identifier chain =>
    let p ← resolve ctx chain
    load p
    return p.type
  | .returnValue => readRegister .result "ret"
  | o =>
    let (v, t) ← literal o
    emitConstant v
    push t
    return t

/-- Push both operands of an instruction, the left one from register `r` when it is left out. -/
def operandPair (ctx : Context) (r : Register) (instr : Instruction) : Gen Unit := do
  match instr.operands with
  | [left, right] =>
    let _ ← operand ctx left
    let _ ← operand ctx right
  | ops =>
    let _ ← readRegister r instr.op.name
    let _ ← operand ctx (← operandAt ops 0)

/-! ## Arithmetic and conditions -/

/-- The type in which two numbers meet: int when both are integral, double when either is a double,
and float otherwise. -/
def commonType (left right : Ty) : Ty :=
  if left = .double || right = .double then .double
  else if left.tag.isFloating || right.tag.isFloating then .float
  else .int

/-- Convert the two numbers on top of the stack to their common type, which is returned. -/
def promote (op : Opcode) : Gen Ty := do
  let left ← peek 1
  let right ← peek
  if !(left.tag.isNumeric && right.tag.isNumeric) then fail (.notNumeric op left right)
  let common := commonType left right
  convertTop common
  if left ≠ common then
    emit .swap
    emit .convert (← typeIndex common)
    emit .swap
    retype 1 common
  return common

/-- The operation on integers, singles or doubles; singles are told by the argument. -/
def emitArith (a : Arith) : Ty → Gen Unit
  | .int => emit (.intArith a)
  | .float => emit (.floatArith a) 1
  | _ => emit (.floatArith a)

/-- Compute in the common type, and write the result to the result register as a float. -/
def lowerArith (ctx : Context) (a : Arith) (instr : Instruction) : Gen Unit := do
  operandPair ctx .selected instr
  let common ← promote instr.op
  emitArith a common
  pop 2
  push common
  convertTop .float
  writeRegister .result .float

/-- Push a truth value, and negate it if `negate` says so. -/
def lowerTruth (ctx : Context) (negate : Bool) (instr : Instruction) : Gen Unit := do
  match instr.operands with
  | [o] => let _ ← operand ctx o
  | _ => let _ ← readRegister .comparing instr.op.name
  let t ← peek
  if t ≠ .bool then fail (.notBool instr.op t)
  if negate then emit .not

/-- Whether values of two types that are not both numbers can be equal. -/
def canCompare (left right : Ty) : Bool :=
  if left = .null then right.tag.isReference
  else if right = .null then left.tag.isReference
  else left = right

/-- Push the outcome of a comparison; `ordered` comparisons are for numbers only. -/
def lowerComparison (ctx : Context) (test : Op) (ordered : Bool) (instr : Instruction) : Gen Unit :=
  do
  operandPair ctx .comparing instr
  let left ← peek 1
  let right ← peek
  if left.tag.isNumeric && right.tag.isNumeric then
    let _ ← promote instr.op
  else if ordered then fail (.notNumeric instr.op left right)
  else if !canCompare left right then fail (.cannotCompare instr.op left right)
  emit test
  pop 2
  push .bool

/-- End a conditional: when it fails, exactly the next instruction is skipped. -/
def skipNext (ctx : Context) (i : Nat) : Gen Unit := do
  jumpTo ctx .jumpFalse (i + 2)
  pop 1

/-! ## The other instructions -/

/-- Assign a value to a place. -/
def lowerSet (ctx : Context) (ops : List Operand) : Gen Unit := do
  let target ← operandAt ops 0
  let source ← operandAt ops 1
  let p ← resolve ctx (← nameOf .set target)
  let _ ← operand ctx source
  store p

/-- Bring a local into scope with the zero value of its type. -/
def lowerDefine (ctx : Context) (ops : List Operand) : Gen Unit := do
  let name ← nameOf .define (← operandAt ops 0)
  if (← operandAt ops 1) ≠ .identifier "as" then fail (.defineForm name)
  let typeName ← nameOf .define (← operandAt ops 2)
  if name.toList.any (fun c ↦ c = '.' || c = '[' || c = ']') || name = "this" then
    fail (.localName name)
  if ((← get).local? name).isSome then fail (.localTaken name)
  let t ← resolveType ctx typeName
  let l ← declare ctx name t
  emitConstant t.zero
  emit .popLocal l.slot

/-- Take a local out of scope; its slot is not used again. -/
def lowerDelete (ops : List Operand) : Gen Unit := do
  let name ← nameOf .delete (← operandAt ops 0)
  if ((← get).local? name).isNone then fail (.unknownLocal name)
  modify fun s ↦ { s with locals := s.locals.filter fun l ↦ l.1 ≠ name }

/-- Write a value to a register. -/
def lowerWrite (ctx : Context) (r : Register) (ops : List Operand) : Gen Unit := do
  writeRegister r (← operand ctx (← operandAt ops 0))

/-- Note that control does not reach the next instruction from here. -/
def unreachable : Gen Unit := modify fun s ↦ { s with reachable := false }

/-- Jump to a label.  A jump to a place before the block leads nowhere; `lostJump?` finds it once
the block is generated. -/
def lowerJump (ctx : Context) (instr : Instruction) : Gen Unit := do
  let name ← nameOf instr.op (← operandAt instr.operands 0)
  match ctx.body.label? name with
  | none => fail (.undefinedLabel name)
  | some target =>
    match target with
    | .ofNat index => jumpTo ctx .jump index
    | .negSucc _ => emit .jump
    unreachable

/-- Open a loop at the instruction `i`. -/
def lowerLoop (i : Nat) : Gen Unit := modify fun s ↦
  { s with loops := ⟨s.code.size, i⟩ :: s.loops }

/-- Jump back to the start of the innermost open loop. -/
def lowerRepeat (ctx : Context) : Gen Unit := do
  match (← get).loops with
  | [] => fail (.noLoop .repeatLoop)
  | top :: _ =>
    emit .jump top.offset
    edge ctx top.index
    unreachable

/-- Close the innermost open loop. -/
def lowerBreak : Gen Unit := do
  match (← get).loops with
  | [] => fail (.noLoop .breakLoop)
  | _ :: rest => modify fun s ↦ { s with loops := rest }

/-- Call a method of the same object; its result goes to the result register. -/
def lowerCall (ctx : Context) (ops : List Operand) : Gen Unit := do
  let name ← nameOf .call (← operandAt ops 0)
  let c := ctx.owner.get
  match c.methodIndex? name with
  | none => fail (.unknownMethod name c.name)
  | some i =>
    match c.methods[i]? with
    | none => stop (.missing i c.methods.size)
    | some callee =>
      emit .call i
      if callee.returns ≠ .void then
        push callee.returns
        writeRegister .result callee.returns

/-- Print a value. -/
def lowerPrint (ctx : Context) (ops : List Operand) : Gen Unit := do
  let _ ← operand ctx (← operandAt ops 0)
  emit .hostCall ((Bytecode.builtinIndex? "print").getD 0)
  pop 1

/-- Return from the procedure, with a value exactly when it has a result. -/
def lowerReturn (ctx : Context) (ops : List Operand) : Gen Unit := do
  unreachable
  let returns := ctx.signature.returns
  match ops with
  | [] =>
    if returns ≠ .void then fail (.returnMissing ctx.procName returns)
    emit .ret
  | o :: _ =>
    if returns = .void then fail (.returnUnexpected ctx.procName)
    let t ← operand ctx o
    if !returns.accepts t then fail (.returnType ctx.procName t returns)
    convertTop returns
    emit .ret 1
    pop 1

/-- The type of the items of a new array, whose type name may name the array or its items. -/
def itemType : Ty → Ty
  | .array elem => elem
  | t => t

/-- Assign a new array of the given size. -/
def lowerNewArray (ctx : Context) (p : Place) (typeName : String) (t : Ty) (size : Operand) :
    Gen Unit := do
  let sizeType ← operand ctx size
  if !sizeType.tag.isNumeric then fail (.arraySize typeName sizeType)
  convertTop .int
  emit .newArray (← typeIndex (.array (itemType t)))
  pop 1
  push (.array (itemType t))
  store p

/-- Assign a new object. -/
def lowerNewObject (ctx : Context) (p : Place) (typeName : String) (t : Ty) : Gen Unit := do
  match t with
  | .object className =>
    match ctx.owner.home.class? className with
    | none => stop .absent
    | some c =>
      if c.get.isAbstract then fail (.abstractClass typeName c.name)
      emit .new c.index.val
      push t
      store p
  | _ => fail (.sizeNeeded typeName t)

/-- Assign a new object, or with a size a new array. -/
def lowerNew (ctx : Context) (ops : List Operand) : Gen Unit := do
  let name ← nameOf .new (← operandAt ops 0)
  let typeName ← nameOf .new (← operandAt ops 1)
  let t ← resolveType ctx typeName
  let p ← resolve ctx name
  match ops with
  | [_, _, size] => lowerNewArray ctx p typeName t size
  | _ => lowerNewObject ctx p typeName t

/-- Emit the code of the instruction with index `i`. -/
def lower (ctx : Context) (i : Nat) (instr : Instruction) : Gen Unit :=
  match instr.op with
  | .set => lowerSet ctx instr.operands
  | .define => lowerDefine ctx instr.operands
  | .delete => lowerDelete instr.operands
  | .select => lowerWrite ctx .selected instr.operands
  | .compare => lowerWrite ctx .comparing instr.operands
  | .add => lowerArith ctx .add instr
  | .sub => lowerArith ctx .sub instr
  | .mul => lowerArith ctx .mul instr
  | .div => lowerArith ctx .div instr
  | .rem => lowerArith ctx .rem instr
  | .isTrue => do lowerTruth ctx false instr; skipNext ctx i
  | .isFalse => do lowerTruth ctx true instr; skipNext ctx i
  | .isEqual => do lowerComparison ctx .equal false instr; skipNext ctx i
  | .isUnequal => do lowerComparison ctx .notEqual false instr; skipNext ctx i
  | .isGreater => do lowerComparison ctx .greater true instr; skipNext ctx i
  | .isLess => do lowerComparison ctx .less true instr; skipNext ctx i
  | .goto | .jump => lowerJump ctx instr
  | .loop => lowerLoop i
  | .repeatLoop => lowerRepeat ctx
  | .breakLoop => lowerBreak
  | .call => lowerCall ctx instr.operands
  | .print => lowerPrint ctx instr.operands
  | .ret => lowerReturn ctx instr.operands
  | .new => lowerNew ctx instr.operands
  | .defLabel | .unknown _ => throw (.unhandled instr.op)

end ClassAsm.Codegen
