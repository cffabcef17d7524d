import ClassAsm.Codegen.Unit
import ClassAsm.Proofs.Reference.Access
import ClassAsm.Proofs.Reference.Statement

/-!
# A reference interpreter

Programs are executed from their text, one instruction at a time.  Every instruction is read anew
with the names that the text before it brings into scope (`Names.statement?`), and what it says is
done on the heap and on the variables of the active procedure.  Operands are evaluated from left to
right, the steps that lead to a place before the value that goes there, and every access checks for
null and for its bounds when it is made.

The interpreter knows no machine.  It takes the classes with their fields and signatures from a
module, but never looks at machine code: the blocks that it executes are those of the program.  It
has no limits on time, calls or nesting either.

A step that fails keeps the changes it has made.
-/

namespace ClassAsm.Reference

open Bytecode
open Codegen (Register commonType constructorsOf)
open Machine Program

/-! ## Values of expressions -/

/-- A value in a register, with the type it was written with. -/
structure Written where
  value : Value
  type : Ty

/-- The variables of an active procedure. -/
structure Env where
  /-- The object that the procedure works on. -/
  self : Value
  /-- The cells of the defines, void until the define is executed. -/
  cells : Nat → Value := fun _ ↦ .void
  /-- What has been written to the registers. -/
  registers : Register → Option Written := fun _ ↦ none

namespace Env

/-- Write to a cell. -/
def setCell (env : Env) (k : Nat) (v : Value) : Env :=
  { env with cells := fun j ↦ if j = k then v else env.cells j }

theorem cells_setCell (env : Env) (k j : Nat) (v : Value) :
    (env.setCell k v).cells j = if j = k then v else env.cells j := rfl

/-- Write to a register. -/
def setRegister (env : Env) (r : Register) (w : Written) : Env :=
  { env with registers := fun q ↦ if q = r then some w else env.registers q }

theorem registers_setRegister (env : Env) (r q : Register) (w : Written) :
    (env.setRegister r w).registers q = if q = r then some w else env.registers q := rfl

/-- The types of the registers that have been written. -/
def types (env : Env) (r : Register) : Option Ty := (env.registers r).map Written.type

end Env

/-- The value of an expression. -/
def Expr.value (h : Heap) (env : Env) : Expr → Except Cause Value
  | const v _ => .ok v
  | register r _ => .ok ((env.registers r).elim .void Written.value)
  | cell k _ => .ok (env.cells k)
  | this _ => .ok env.self
  | field o i _ => do readField h (← o.value h env) i
  | item a i _ => do
    let array ← a.value h env
    let index ← i.value h env
    readItem h array index.toInt
  | convert e t => do converted? h (← e.value h env) t

/-- A value of type `source` as one of type `target`. -/
def coerced (h : Heap) (source target : Ty) (v : Value) : Except Cause Value :=
  if suits source target then .ok v else converted? h v target

/-- Arithmetic in a numeric type. -/
def compute (a : Arith) (t : Ty) (x y : Value) : Except Cause Value :=
  match t with
  | .int => intResult a x y
  | .float => floatResult a true x y
  | _ => floatResult a false x y

/-! ## Configurations -/

/-- A place that can be written to, once the values that lead there are known. -/
inductive Place where
  | cell (k : Nat)
  | field (object : Value) (index : Nat)
  | item (array : Value) (index : Int64)

/-- Where a procedure stands. -/
inductive Position where
  /-- Before the defaults of a constructor. -/
  | entry
  | instruction (i : Nat)

/-- The position behind. -/
def Position.next : Position → Position
  | entry => instruction 0
  | instruction i => instruction (i + 1)

/-- An active procedure. -/
structure Activation where
  owner : ClassRef
  member : Member
  returns : Ty
  env : Env
  position : Position := .entry

/-- The names at the instruction with index `i`. -/
def Activation.names (a : Activation) (i : Nat) : Names :=
  ⟨a.owner, Scope.before (fun name ↦ (a.owner.home.classIndex? name).isSome) a.member.body i,
    a.env.types⟩

/-- What is done with the result of a procedure in the one that has called it. -/
inductive Pending where
  /-- It goes to the result register, unless it is nothing. -/
  | result (type : Ty)
  /-- It is a new object that goes to a place. -/
  | object (place : Place) (source target : Ty)

/-- What there is while a program runs. -/
structure Config where
  active : Activation
  callers : List (Activation × Pending) := []
  heap : Heap
  output : String

/-- Why a step fails. -/
inductive Failure where
  | fault (c : Cause)
  /-- The text says nothing here. -/
  | meaningless

/-- A part of a step. -/
abbrev Act := EStateM Failure Config

/-! ## Parts of a step -/

/-- Do what may fail. -/
def attempt {α : Type} : Except Cause α → Act α
  | .ok a => pure a
  | .error c => throw (.fault c)

/-- Change the active procedure. -/
def modifyActive (f : Activation → Activation) : Act Unit :=
  modify fun c ↦ { c with active := f c.active }

/-- Change the variables of the active procedure. -/
def modifyEnv (f : Env → Env) : Act Unit := modifyActive fun a ↦ { a with env := f a.env }

/-- Change the heap. -/
def setHeap (h : Heap) : Act Unit := modify fun c ↦ { c with heap := h }

/-- Go on behind the current position. -/
def advance : Act Unit := modifyActive fun a ↦ { a with position := a.position.next }

/-- Go on with the instruction with index `i`. -/
def goTo (i : Nat) : Act Unit := modifyActive fun a ↦ { a with position := .instruction i }

/-- Go on with the next instruction, or skip it. -/
def continueIf (holds : Bool) : Act Unit := do
  advance
  if !holds then advance

/-- Evaluate an expression. -/
def evaluate (e : Expr) : Act Value := fun c ↦ attempt (e.value c.heap c.active.env) c

/-- Make a value of type `source` one of type `target`. -/
def coerce (source target : Ty) (v : Value) : Act Value := fun c ↦
  attempt (coerced c.heap source target v) c

/-- Make two numbers numbers of their common type, the right one first. -/
def promote (left right : Ty) (x y : Value) : Act (Value × Value) := do
  let y ← coerce right (commonType left right) y
  let x ← coerce left (commonType left right) x
  return (x, y)

/-- Evaluate what leads to a place. -/
def locate : Expr → Act Place
  | .cell k _ => return .cell k
  | .field o i _ => do return .field (← evaluate o) i
  | .item a i _ => do
    let array ← evaluate a
    let index ← evaluate i
    return .item array index.toInt
  | _ => throw .meaningless

/-- Write to a place. -/
def store (v : Value) : Place → Act Unit
  | .cell k => modifyEnv (·.setCell k v)
  | .field o i => fun c ↦ (attempt (writeField c.heap o i v) >>= setHeap) c
  | .item a i => fun c ↦ (attempt (writeItem c.heap a i v) >>= setHeap) c

/-- Make an array of zeros. -/
def allocate (elem : Ty) (size : Int64) : Act Value := fun c ↦
  match makeArray c.heap elem size with
  | .ok (h, array) => .ok array { c with heap := h }
  | .error x => .error (.fault x) c

/-- Print a value. -/
def print (v : Value) : Act Unit := modify fun c ↦
  { c with output := c.output ++ (c.heap.format v ++ "\n") }

/-! ## Defaults -/

/-- Store items into an array, from index `i` on. -/
def storeItems (array : Value) (i : Nat) : List Value → Act Unit
  | [] => pure ()
  | v :: vs => do
    store v (.item array (Int64.ofNat i))
    storeItems array (i + 1) vs

/-- Store the default of the field with an index. -/
def Default.apply (self : Value) (index : Nat) : Default → Act Unit
  | zero => pure ()
  | value v => store v (.field self index)
  | items elem vs => do
    let array ← allocate elem (Int64.ofNat vs.length)
    storeItems array 0 vs
    store array (.field self index)

/-- Store the defaults of the fields from index `i` on. -/
def applyDefaults (self : Value) (i : Nat) : List Default → Act Unit
  | [] => pure ()
  | d :: ds => do
    d.apply self i
    applyDefaults self (i + 1) ds

/-- The defaults that a procedure begins with: those of all fields, if it is a constructor. -/
def Activation.defaults? (p : Program) (a : Activation) : Option (List Default) :=
  if a.member.isConstructor then
    p.classes[a.owner.index.val]?.bind fun c ↦
      defaultsOf? c.fields.toList (a.owner.get.fields.toList.map fun f ↦ f.type)
  else some []

/-! ## Steps -/

/-- Enter a procedure. -/
def enter (callee : Activation) (pending : Pending) : Act Unit := modify fun c ↦
  { c with active := callee, callers := (c.active, pending) :: c.callers }

/-- Call a method of the same object. -/
def callMethod (p : Program) (k : Nat) (returns : Ty) : Act Unit := do
  let a := (← get).active
  match p.classes[a.owner.index.val]?.bind (·.methods[k]?) with
  | none => throw .meaningless
  | some m =>
    if m.isAbstract then throw (.fault .abstractCall)
    else enter ⟨a.owner, m, returns, { self := a.env.self }, .entry⟩ (.result returns)

/-- Make an object of the class with index `k` by its first constructor. -/
def construct (p : Program) (k : Nat) (pending : Pending) : Act Unit := do
  let c ← get
  match c.active.owner.home.classAt? k, p.classes[k]? with
  | some cls, some decl =>
    if decl.isAbstract then throw (.fault .abstractClass)
    else
      match (constructorsOf decl)[0]? with
      | none => throw .meaningless
      | some m =>
        setHeap (c.heap.addObject (Heap.freshObject cls))
        enter ⟨cls, m, .void, { self := .ofObject c.heap.objects.size }, .entry⟩ pending
  | _, _ => throw .meaningless

/-- Do what a statement says, unless it is a return. -/
def perform (p : Program) : Statement → Act Unit
  | .skip => advance
  | .assign e v => do
    let place ← locate e
    let a ← evaluate v
    store (← coerce v.type e.type a) place
    advance
  | .define k t => do
    modifyEnv (·.setCell k t.zero)
    advance
  | .write r v => do
    let a ← evaluate v
    modifyEnv (·.setRegister r ⟨a, v.type⟩)
    advance
  | .arith a l r => do
    let x ← evaluate l
    let y ← evaluate r
    let (x, y) ← promote l.type r.type x y
    let z ← attempt (compute a (commonType l.type r.type) x y)
    let z ← coerce (commonType l.type r.type) .float z
    modifyEnv (·.setRegister .result ⟨z, .float⟩)
    advance
  | .truth negated v => do
    let a ← evaluate v
    continueIf (a.truth != negated)
  | .compare test l r => do
    let x ← evaluate l
    let y ← evaluate r
    let (x, y) ← if l.type.tag.isNumeric && r.type.tag.isNumeric then promote l.type r.type x y
      else pure (x, y)
    continueIf (← attempt (testResult test x y))
  | .jump j => goTo j
  | .call k t => callMethod p k t
  | .print v => do
    print (← evaluate v)
    advance
  | .newArray e elem size => do
    let place ← locate e
    let n ← evaluate size
    let n ← coerce size.type .int n
    let array ← allocate elem n.toInt
    store (← coerce (.array elem) e.type array) place
    advance
  | .newObject e k className => do
    let place ← locate e
    construct p k (.object place (.object className) e.type)
  | .ret _ => throw .meaningless

/-- The active procedure ends with a value, or with its object if it is a constructor, and the
caller goes on.  Without a caller this is the result of the run. -/
def finish (v : Value) : Act (Option Value) := do
  let c ← get
  let result := if c.active.member.isConstructor then c.active.env.self else v
  match c.callers with
  | [] => return some result
  | (caller, pending) :: rest =>
    set { c with active := caller, callers := rest }
    match pending with
    | .result t =>
      if t = .void then pure () else modifyEnv (·.setRegister .result ⟨result, t⟩)
    | .object place source target => store (← coerce source target result) place
    advance
    return none

/-- Do what a statement says. -/
def exec (p : Program) (returns : Ty) : Statement → Act (Option Value)
  | .ret none => finish .void
  | .ret (some v) => do
    let a ← evaluate v
    finish (← coerce v.type returns a)
  | st => do
    perform p st
    return none

/-- One step.  Behind its last instruction a procedure ends with the zero of its result type. -/
def step (p : Program) : Act (Option Value) := do
  let a := (← get).active
  match a.position with
  | .entry =>
    match a.defaults? p with
    | none => throw .meaningless
    | some ds =>
      applyDefaults a.env.self 0 ds
      advance
      return none
  | .instruction i =>
    match a.member.body.code[i]? with
    | none => finish a.returns.zero
    | some instr =>
      match (a.names i).statement? a.member.body instr with
      | none => throw .meaningless
      | some st => exec p a.returns st

/-- Take at most `n` steps, up to the end of the procedure that was called first. -/
def run (p : Program) : Nat → Config → Option (Except Failure Value × Config)
  | 0, _ => none
  | n + 1, c =>
    match step p c with
    | .ok none c => run p n c
    | .ok (some v) c => some (.ok v, c)
    | .error f c => some (.error f, c)

/-- **What a program does**: from `c` it comes to the end `r`, with this heap and this output. -/
def Evaluates (p : Program) (c : Config) (r : Except Failure Value) (h : Heap) (output : String) :
    Prop :=
  ∃ n c', run p n c = some (r, c') ∧ c'.heap = h ∧ c'.output = output

end ClassAsm.Reference
