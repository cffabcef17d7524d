import Mathlib.Data.List.Forall2
import ClassAsm.Proofs.Lists
import ClassAsm.Proofs.Reference.Names

/-!
# Machine instructions with their arguments looked up

The argument of a machine word is an index into a table of its procedure, or an offset in its code.
An `Instr` is what the word means once the argument has been looked up: constants and types stand
for themselves, and a jump names an instruction of the source block.  `Instr.Emitted` ties a word to
what it means, for given tables.

The code of an expression is its steps in order, each of which leaves one value on the stack:
`Expr.code`.  A place that is written to is an expression whose last step is left out, `Expr.lead`,
and whose store comes last instead, `Expr.store?`.
-/

namespace ClassAsm.Bytecode

/-- The comparisons of two values. -/
inductive Test where
  | equal
  | unequal
  | greater
  | less
deriving DecidableEq

/-- The operation of a comparison. -/
def Test.op : Test → Op
  | equal => .equal
  | unequal => .notEqual
  | greater => .greater
  | less => .less

/-- A machine instruction with its argument looked up. -/
inductive Instr where
  | const (v : Value)
  | pushLocal (slot : Nat)
  | popLocal (slot : Nat)
  | this
  | dup
  | swap
  | convert (t : Ty)
  | loadField (index : Nat)
  | storeField (index : Nat)
  | loadItem
  | storeItem
  | intArith (a : Arith)
  | floatArith (a : Arith) (single : Bool)
  | test (t : Test)
  | not
  /-- Go on with an instruction of the source block. -/
  | jump (target : Nat)
  | jumpFalse (target : Nat)
  | call (method : Nat)
  | ret (withResult : Bool)
  | new (cls : Nat)
  | newArray (elem : Ty)
  | print
deriving DecidableEq

namespace Instr

/-- The operation of an instruction. -/
def op : Instr → Op
  | const _ => .pushConst
  | pushLocal _ => .pushLocal
  | popLocal _ => .popLocal
  | this => .pushThis
  | dup => .dup
  | swap => .swap
  | convert _ => .convert
  | loadField _ => .loadField
  | storeField _ => .storeField
  | loadItem => .loadItem
  | storeItem => .storeItem
  | intArith a => .intArith a
  | floatArith a _ => .floatArith a
  | test t => t.op
  | not => .not
  | jump _ => .jump
  | jumpFalse _ => .jumpFalse
  | call _ => .call
  | ret _ => .ret
  | new _ => .new
  | newArray _ => .newArray
  | print => .hostCall

/-- The instruction of the source block that a jump goes to. -/
def target? : Instr → Option Nat
  | jump j => some j
  | jumpFalse j => some j
  | _ => none

/-- What the argument of an instruction has to be, where `dest` relates the target of a jump to the
offset that it has in the code. -/
def Refers (consts : Array Value) (types : Array Ty) (dest : Nat → Nat → Prop) :
    Instr → Nat → Prop
  | const v, a => consts[a]? = some v
  | pushLocal k, a => a = k
  | popLocal k, a => a = k
  | convert t, a => types[a]? = some t
  | loadField i, a => a = i
  | storeField i, a => a = i
  | floatArith _ single, a => a = if single then 1 else 0
  | jump j, a => dest j a
  | jumpFalse j, a => dest j a
  | call i, a => a = i
  | ret withResult, a => a = if withResult then 1 else 0
  | new i, a => a = i
  | newArray t, a => types[a]? = some (.array t)
  | print, a => a = 0
  | this, _ | dup, _ | swap, _ | loadItem, _ | storeItem, _ | intArith _, _ | test _, _
  | not, _ => True

/-- A word that means the given instruction. -/
def Emitted (consts : Array Value) (types : Array Ty) (dest : Nat → Nat → Prop) (x : Instr)
    (w : Word) : Prop :=
  ∃ a, w = x.op.word a ∧ x.Refers consts types dest a

variable {consts consts' : Array Value} {types types' : Array Ty} {dest : Nat → Nat → Prop}
  {a : Nat} {x : Instr}

/-- Tables only grow while code is generated, and what a word means stays. -/
theorem Refers.mono (h : x.Refers consts types dest a) (hc : consts.toList <+: consts'.toList)
    (ht : types.toList <+: types'.toList) : x.Refers consts' types' dest a := by
  cases x <;> first | exact h | exact getElem?_of_prefix hc h | exact getElem?_of_prefix ht h

end Instr

end ClassAsm.Bytecode

namespace ClassAsm.Reference

open Bytecode Codegen

namespace Expr

/-- The last step of an expression. -/
def access : Expr → Instr
  | const v _ => .const v
  | register r _ => .pushLocal r.slot
  | cell k _ => .pushLocal (k + registerCount)
  | this _ => .this
  | field _ i _ => .loadField i
  | item _ _ _ => .loadItem
  | convert _ t => .convert t

/-- The code of an expression. -/
def code : Expr → List Instr
  | const v _ => [.const v]
  | register r _ => [.pushLocal r.slot]
  | cell k _ => [.pushLocal (k + registerCount)]
  | this _ => [.this]
  | field o i _ => o.code ++ [.loadField i]
  | item a i _ => a.code ++ i.code ++ [.loadItem]
  | convert e t => e.code ++ [.convert t]

/-- The code of all steps but the last. -/
def lead : Expr → List Instr
  | field o _ _ => o.code
  | item a i _ => a.code ++ i.code
  | convert e _ => e.code
  | _ => []

/-- The types that the steps before the last leave on the stack, top first. -/
def leadTypes : Expr → List Ty
  | field o _ _ => [o.type]
  | item a i _ => [i.type, a.type]
  | convert e _ => [e.type]
  | _ => []

theorem length_leadTypes (e : Expr) : e.leadTypes.length ≤ 2 := by
  cases e <;> simp [leadTypes]

theorem code_eq (e : Expr) : e.code = e.lead ++ [e.access] := by
  cases e <;> rfl

/-- The instruction that writes to a place, behind the code that leads there and that of the value.
Only variables, fields and items can be written to. -/
def store? : Expr → Option Instr
  | cell k _ => some (.popLocal (k + registerCount))
  | field _ i _ => some (.storeField i)
  | item _ _ _ => some .storeItem
  | _ => none

end Expr

/-- The code that makes the top of the stack, of type `source`, a value of type `target`. -/
def conversion (source target : Ty) : List Instr :=
  if suits source target then [] else [.convert target]

/-- The type that the generator notes for it: null stays null. -/
def converted (source target : Ty) : Ty := if suits source target then source else target

theorem Expr.code_coerced (e : Expr) (t : Ty) :
    (e.coerced t).code = e.code ++ conversion e.type t := by
  rw [coerced, conversion]
  split <;> simp [code]

theorem Expr.type_coerced (e : Expr) (t : Ty) : (e.coerced t).type = converted e.type t := by
  rw [coerced, converted]
  split <;> rfl

end ClassAsm.Reference
