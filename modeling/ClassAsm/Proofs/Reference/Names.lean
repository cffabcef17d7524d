import ClassAsm.Codegen.Chain
import ClassAsm.Codegen.Literal

/-!
# What names mean

Names are resolved by the text of a block alone.  The text before an instruction brings variables
into scope and takes them out again; `Scope.after` says how, instruction by instruction, and
`Scope.before` is the scope of the instruction with a given index.  Every `op_define` has a cell of
its own, numbered in the order of the text, and a variable denotes the cell of the nearest define
before it.

An identifier chain resolves to an `Expr`: a path of field and item accesses with the static type of
every step.  The first segment is the object itself, a variable in scope, or a field of the class;
the others are fields of the class that the segments before them have, or items of an array.  What a
path denotes when the program runs is the business of `ClassAsm.Proofs.Reference.Interpreter`, and
which machine code reads it that of `ClassAsm.Proofs.Codegen.Instr`.
-/

namespace ClassAsm.Reference

open Bytecode Codegen Program

/-! ## Scopes -/

/-- A variable in scope: its cell and its type. -/
structure Variable where
  cell : Nat
  type : Ty
deriving DecidableEq

/-- What the text before an instruction says about names. -/
structure Scope where
  vars : List (String × Variable) := []
  /-- How many variables have been defined; the next one gets this cell. -/
  count : Nat := 0
  /-- The indices of the open loops, innermost first. -/
  loops : List Nat := []
deriving DecidableEq

namespace Scope

/-- The variable with a name. -/
def find? (sc : Scope) (name : String) : Option Variable :=
  (sc.vars.find? fun v ↦ v.1 = name).map (·.2)

/-- The scope with a further variable. -/
def define (sc : Scope) (name : String) (t : Ty) : Scope :=
  { sc with vars := (name, ⟨sc.count, t⟩) :: sc.vars, count := sc.count + 1 }

/-- The scope without a variable. -/
def delete (sc : Scope) (name : String) : Scope :=
  { sc with vars := sc.vars.filter fun v ↦ v.1 ≠ name }

/-- The scope behind an instruction with index `i`, where `isClass` says which classes exist. -/
def after (isClass : String → Bool) (sc : Scope) (i : Nat) (instr : Instruction) : Scope :=
  match instr.op, instr.operands with
  | .define, [.identifier name, _, .identifier typeName] =>
    match Ty.ofName? isClass typeName with
    | some t => sc.define name t
    | none => sc
  | .delete, [.identifier name] => sc.delete name
  | .loop, _ => { sc with loops := i :: sc.loops }
  | .breakLoop, _ => { sc with loops := sc.loops.tail }
  | _, _ => sc

/-- The scope behind a list of instructions, the first of which has index `i`. -/
def through (isClass : String → Bool) (sc : Scope) (i : Nat) : List Instruction → Scope
  | [] => sc
  | instr :: rest => through isClass (sc.after isClass i instr) (i + 1) rest

/-- The scope of the instruction with index `i` of a block. -/
def before (isClass : String → Bool) (b : Block) (i : Nat) : Scope :=
  through isClass {} 0 (b.code.toList.take i)

end Scope

/-! ## Paths -/

/-- A value that an operand stands for, with its static type. -/
inductive Expr where
  | const (v : Value) (type : Ty)
  | register (r : Register) (type : Ty)
  | cell (k : Nat) (type : Ty)
  | this (className : String)
  /-- The field with an index of the class of `object`. -/
  | field (object : Expr) (index : Nat) (type : Ty)
  | item (array index : Expr) (type : Ty)
  | convert (e : Expr) (target : Ty)

namespace Expr

/-- The static type of an expression. -/
def type : Expr → Ty
  | const _ t => t
  | register _ t => t
  | cell _ t => t
  | this className => .object className
  | field _ _ t => t
  | item _ _ t => t
  | convert _ t => t

end Expr

/-- Whether a value of type `source` is one of type `target` as it is: nothing needs to be converted
for the same type, and null is a value of every type it belongs to. -/
def suits (source target : Ty) : Bool :=
  source = target || (source = .null && target.tag.isReference)

/-- An expression as one of type `t`. -/
def Expr.coerced (e : Expr) (t : Ty) : Expr := if suits e.type t then e else .convert e t

/-! ## Resolution -/

/-- What names stand for at one instruction: the class that the block belongs to, the scope, and the
types of the registers that are known to be written. -/
structure Names where
  owner : ClassRef
  scope : Scope
  registers : Register → Option Ty

namespace Names

/-- Whether a class has the given name. -/
def isClass (n : Names) (name : String) : Bool := (n.owner.home.classIndex? name).isSome

/-- The index and the type of a field of the class itself. -/
def ownField? (n : Names) (name : String) : Option (Nat × Ty) := do
  let i ← n.owner.get.fieldIndex? name
  let f ← n.owner.get.fields[i]?
  return (i, f.type)

/-- The index and the type of a field of a value of type `t`, if the class may use it. -/
def member? (n : Names) (t : Ty) (name : String) : Option (Nat × Ty) :=
  match t with
  | .object className => do
    let c ← n.owner.home.class? className
    let i ← c.get.fieldIndex? name
    let f ← c.get.fields[i]?
    if c.index.val ≠ n.owner.index.val && !f.isPublic then none else return (i, f.type)
  | _ => none

/-- A name at the start of a chain: a variable in scope, or else a field of the class. -/
def root? (n : Names) (name : String) : Option Expr :=
  match n.scope.find? name with
  | some v => some (.cell v.cell v.type)
  | none => (n.ownField? name).map fun f ↦ .field (.this n.owner.name) f.1 f.2

/-- The first segment of a chain: the object itself, or a name. -/
def first? (n : Names) : List Char → Option Expr
  | [] => none
  | '[' :: _ => none
  | seg =>
    if String.ofList seg = "this" then some (.this n.owner.name)
    else n.root? (String.ofList seg)

variable {seg : List Char}

theorem first?_of_name (n : Names) (hne : seg ≠ []) (hbracket : ∀ inner, seg ≠ '[' :: inner) :
    n.first? seg = if String.ofList seg = "this" then some (.this n.owner.name)
      else n.root? (String.ofList seg) := by
  unfold first?
  split
  · exact absurd rfl hne
  · exact absurd rfl (hbracket _)
  · rfl

/-- The expression inside brackets: an integer, or a chain that `resolve` resolves to a number. -/
def subscript? (resolve : List Char → Option Expr) (text : List Char) : Option Expr :=
  match Number.readInt64? text with
  | some i => some (.const (.ofInt i) .int)
  | none =>
    if text.isEmpty then none
    else do
      let e ← resolve text
      if e.type.tag.isNumeric then return e.coerced .int else none

/-- The path `e` extended by a further segment. -/
def next? (n : Names) (resolve : List Char → Option Expr) (e : Expr) : List Char → Option Expr
  | [] => none
  | '[' :: inner =>
    match e.type with
    | .array elem => (subscript? resolve inner.dropLast).map fun i ↦ .item e i elem
    | _ => none
  | seg =>
    if String.ofList seg = "this" then none
    else (n.member? e.type (String.ofList seg)).map fun f ↦ .field e f.1 f.2

theorem next?_of_name (n : Names) (resolve : List Char → Option Expr) (e : Expr) (hne : seg ≠ [])
    (hbracket : ∀ inner, seg ≠ '[' :: inner) :
    n.next? resolve e seg = if String.ofList seg = "this" then none
      else (n.member? e.type (String.ofList seg)).map fun f ↦ .field e f.1 f.2 := by
  unfold next?
  split
  · exact absurd rfl hne
  · exact absurd rfl (hbracket _)
  · rfl

/-- The path `e` extended by further segments. -/
def extend? (n : Names) (resolve : List Char → Option Expr) (e : Expr) :
    List (List Char) → Option Expr
  | [] => some e
  | seg :: rest => (n.next? resolve e seg).bind fun e ↦ n.extend? resolve e rest

/-- Resolve a chain whose brackets nest less than `depth` deep. -/
def resolveWithin? (n : Names) : Nat → List Char → Option Expr
  | 0, _ => none
  | depth + 1, chain =>
    match splitChain chain with
    | none | some [] => none
    | some (seg :: rest) =>
      (n.first? seg).bind fun e ↦ n.extend? (n.resolveWithin? depth) e rest

/-- Resolve an identifier chain; a chain inside brackets is shorter than the whole. -/
def resolve? (n : Names) (chain : String) : Option Expr :=
  n.resolveWithin? (chain.toList.length + 1) chain.toList

/-- The expression that reads a register. -/
def register? (n : Names) (r : Register) : Option Expr := (n.registers r).map (.register r)

/-- The expression that an operand stands for. -/
def operand? (n : Names) : Operand → Option Expr
  | .identifier chain => n.resolve? chain
  | .returnValue => n.register? .result
  | o => (literal? o).map fun (v, t) ↦ .const v t

/-- The left and the right operand of an instruction, the left one from register `r` when it is left
out. -/
def pair? (n : Names) (r : Register) : List Operand → Option (Expr × Expr)
  | [right] => do return (← n.register? r, ← n.operand? right)
  | [left, right] => do return (← n.operand? left, ← n.operand? right)
  | _ => none

end Names

end ClassAsm.Reference
