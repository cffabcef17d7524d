import ClassAsm.Machine.State

/-!
# One instruction

`step` executes the instruction that the active frame stands at.  An instruction pops its operands
before it looks at tables or the heap, and moves on only when it has succeeded; the two that enter a
procedure move on first, since the procedure returns behind them.
-/

namespace ClassAsm.Machine

open Bytecode (Op Arith ClassRef Routine)

/-! ## Arithmetic -/

/-- Integer arithmetic wraps around; division goes toward zero and has no result for zero. -/
def intArith (a : Arith) (x y : Int64) : Option Int64 :=
  match a with
  | .add => some (x + y)
  | .sub => some (x - y)
  | .mul => some (x * y)
  | .div => if y = 0 then none else some (x / y)
  | .rem => if y = 0 then none else some (x % y)

/-- Floating-point arithmetic; the remainder has the sign of the left operand. -/
def floatArith (a : Arith) (x y : Float) : Float :=
  match a with
  | .add => x + y
  | .sub => x - y
  | .mul => x * y
  | .div => x / y
  | .rem => Number.remainder x y

/-- Pop two numbers, the right one first. -/
def popNumbers : Exec (Value × Value) := do
  let right ← pop
  let left ← pop
  if !(left.tag.isNumeric && right.tag.isNumeric) then fault .notNumeric
  return (left, right)

/-! ## Objects and arrays -/

/-- The address of the object that a value refers to. -/
def objectOf (v : Value) : Exec Nat :=
  match v.payload with
  | .object addr => pure addr
  | _ => fault .nullReference

/-- The object cell at an address. -/
def objectCell (addr : Nat) : Exec ObjectCell := do
  match (← get).heap.objects[addr]? with
  | some c => return c
  | none => fault .nullReference

/-- The address of the array that a value refers to, once its index is known to be in range. -/
def itemOf (v : Value) (index : Int64) : Exec (Nat × Nat) := do
  match v.payload with
  | .array addr =>
    match (← get).heap.arrays[addr]? with
    | some c =>
      if index < 0 || (c.items.size : Int) ≤ index.toInt then
        fault (.itemIndex index c.items.size)
      return (addr, index.toInt.toNat)
    | none => fault .nullReference
  | _ => fault .nullReference

/-- Push a field of the object on the stack. -/
def loadField (arg : Nat) : Exec Unit := do
  let c ← objectCell (← objectOf (← pop))
  push (← entry c.fields arg)

/-- Store the top of the stack in a field of the object below it. -/
def storeField (arg : Nat) : Exec Unit := do
  let v ← pop
  let addr ← objectOf (← pop)
  let count := (← objectCell addr).fields.size
  if count ≤ arg then fault (.outOfBounds arg count)
  modify fun s ↦ { s with heap := s.heap.setField addr arg v }

/-- Push an item of an array. -/
def loadItem : Exec Unit := do
  let index := (← pop).toInt
  let (addr, i) ← itemOf (← pop) index
  match (← get).heap.arrays[addr]?.bind (·.items[i]?) with
  | some v => push v
  | none => fault .nullReference

/-- Store the top of the stack in an item of an array. -/
def storeItem : Exec Unit := do
  let v ← pop
  let index := (← pop).toInt
  let (addr, i) ← itemOf (← pop) index
  modify fun s ↦ { s with heap := s.heap.setItem addr i v }

/-- Push a new array whose size is on the stack. -/
def allocateArray (types : Array Ty) (arg : Nat) : Exec Unit := do
  let n := (← pop).toInt.toInt
  if n < 0 then fault .negativeSize
  if maxArrayLength < n then fault .arrayTooLarge
  match ← entry types arg with
  | .array elem => push (← newArray elem n.toNat)
  | _ => fault .missing

/-! ## Procedures -/

/-- The class that a routine belongs to. -/
def ownerOf (r : Routine) : Exec ClassRef :=
  match r.owner with
  | some c => pure c
  | none => fault .missing

/-- Enter a method of the class of the active procedure. -/
def callMethod (f : Frame) (arg : Nat) : Exec Unit := do
  let owner ← ownerOf f.routine
  let callee ← entry owner.get.methods arg
  if callee.isAbstract then fault .abstractCall
  advance
  enter ⟨callee, some owner⟩ f.this false

/-- Enter the first constructor of a class of the module, on a new object. -/
def construct (f : Frame) (arg : Nat) : Exec Unit := do
  let home := (← ownerOf f.routine).home
  match home.classAt? arg with
  | none => fault (.outOfBounds arg home.classes.size)
  | some cls =>
    if cls.get.isAbstract then fault .abstractClass
    match cls.get.constructors[0]? with
    | none => fault .noConstructor
    | some code =>
      advance
      let addr ← newObject cls
      enter ⟨code, some cls⟩ (some addr) true

/-- Leave the active procedure: the stack goes back to its height at entry, and then receives the
result, if there is one, and the object, if it was constructed. -/
def returnFrom (f : Frame) (withResult : Bool) : Exec Unit := do
  let result ← if withResult then some <$> pop else pure none
  modify fun s ↦ { s with stack := s.stack.dropTo f.base }
  leave
  if let some v := result then push v
  if f.constructs then push f.self

/-- Call a host function. -/
def callHost : HostFunction → Exec Unit
  | .print => do
    let v ← pop
    write ((← get).heap.format v ++ "\n")
  | .echo => do
    let v ← pop
    write ((← get).heap.format v)
  | .fail text => fault (.host text)
  | .abort text => throw (.abort text)
  | .absent => fault .unknownHost

/-! ## Instructions -/

/-- Execute an operation with its argument in the active frame `f`. -/
def execute (f : Frame) (op : Op) (arg : Nat) : Exec Unit :=
  match op with
  | .noop => advance
  | .pushConst => do
    push (← entry f.routine.code.consts arg)
    advance
  | .pushLocal => do
    push (← entry f.locals.toArray arg)
    advance
  | .popLocal => do
    let v ← pop
    if h : arg < maxLocals then
      modifyFrame fun f ↦ { f with ip := f.ip + 1, locals := f.locals.set arg v h }
    else fault (.outOfBounds arg maxLocals)
  | .pushThis => do
    push f.self
    advance
  | .dup => do
    let v ← pop
    push v
    push v
    advance
  | .drop => do
    let _ ← pop
    advance
  | .swap => do
    let y ← pop
    let x ← pop
    push y
    push x
    advance
  | .convert => do
    let v ← pop
    let t ← entry f.routine.code.types arg
    match (← get).heap.convert? v t with
    | none => fault (.conversion v.tag t)
    | some c => push c
    advance
  | .loadField => do
    loadField arg
    advance
  | .storeField => do
    storeField arg
    advance
  | .loadItem => do
    loadItem
    advance
  | .storeItem => do
    storeItem
    advance
  | .intArith a => do
    let (x, y) ← popNumbers
    match intArith a x.toInt y.toInt with
    | none => fault .divisionByZero
    | some r => push (.ofInt r)
    advance
  | .floatArith a => do
    let (x, y) ← popNumbers
    let r := floatArith a x.toFloat y.toFloat
    push (if arg = 1 then .ofSingle r else .ofDouble r)
    advance
  | .equal => do
    let y ← pop
    let x ← pop
    push (.ofBool (x.same y))
    advance
  | .notEqual => do
    let y ← pop
    let x ← pop
    push (.ofBool (!x.same y))
    advance
  | .greater => do
    let (x, y) ← popNumbers
    push (.ofBool (y.less x))
    advance
  | .less => do
    let (x, y) ← popNumbers
    push (.ofBool (x.less y))
    advance
  | .not => do
    let v ← pop
    push (.ofBool (!v.truth))
    advance
  | .jump => jumpTo arg
  | .jumpFalse => do
    if (← pop).truth then advance else jumpTo arg
  | .call => callMethod f arg
  | .ret => returnFrom f (arg = 1)
  | .new => construct f arg
  | .newArray => do
    allocateArray f.routine.code.types arg
    advance
  | .hostCall => do
    match (← get).host[arg]? with
    | none => fault .unknownHost
    | some h => callHost h
    advance

/-- Execute the instruction that the active frame stands at. -/
def step : Exec Unit := do
  let f ← frame
  let w ← entry f.routine.code.code f.ip
  match Op.ofByte? w.opByte with
  | none => fault .unknownOp
  | some op => execute f op w.arg

end ClassAsm.Machine
