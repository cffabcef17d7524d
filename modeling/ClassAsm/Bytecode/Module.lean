import ClassAsm.Bytecode.Op
import ClassAsm.Value

/-!
# Modules

A module is the machine code of one unit: its classes in declaration order, each with its fields,
constructors and methods.  Modules are values and are never changed; a `ClassRef` names a class by
the module that holds it and its place there.

When a name occurs twice, in a module or in a class, the later entry is the one that is found by
name.
-/

namespace ClassAsm.Bytecode

/-- The greatest index below `n` at which the predicate holds. -/
def lastBelow? {α : Type} (p : α → Bool) (xs : Array α) : Nat → Option Nat
  | 0 => none
  | n + 1 => if xs[n]?.any p then some n else lastBelow? p xs n

/-- The index of the last entry for which the predicate holds. -/
def lastIndex? {α : Type} (p : α → Bool) (xs : Array α) : Option Nat := lastBelow? p xs xs.size

/-- One executable constructor or method. -/
structure Procedure where
  name : String
  isPublic : Bool := false
  isAbstract : Bool := false
  isConstructor : Bool := false
  returns : Ty := .void
  code : Array Word := #[]
  /-- The source line of each instruction. -/
  lines : Array Int := #[]
  consts : Array Value := #[]
  types : Array Ty := #[]
  /-- How many local slots the code uses. -/
  locals : Nat := 0
deriving DecidableEq, Inhabited

/-- The source line of the instruction at `ip`, or zero. -/
def Procedure.lineAt (p : Procedure) (ip : Nat) : Int := p.lines[ip]?.getD 0

/-- The layout of one field. -/
structure FieldSlot where
  name : String
  type : Ty
  isPublic : Bool
deriving DecidableEq, Inhabited

/-- A class: its layout and its code. -/
structure CompiledClass where
  name : String
  isPublic : Bool
  isAbstract : Bool
  fields : Array FieldSlot := #[]
  constructors : Array Procedure := #[]
  methods : Array Procedure := #[]
deriving DecidableEq, Inhabited

namespace CompiledClass

/-- The index of a field by name. -/
def fieldIndex? (c : CompiledClass) (name : String) : Option Nat :=
  lastIndex? (fun f ↦ f.name = name) c.fields

/-- The index of a method by name. -/
def methodIndex? (c : CompiledClass) (name : String) : Option Nat :=
  lastIndex? (fun p ↦ p.name = name) c.methods

end CompiledClass

/-- The machine code of one unit. -/
structure CompiledModule where
  classes : Array CompiledClass := #[]
deriving DecidableEq, Inhabited

/-- The index of a class by name. -/
def CompiledModule.classIndex? (m : CompiledModule) (name : String) : Option Nat :=
  lastIndex? (fun c ↦ c.name = name) m.classes

/-- A class of a module. -/
structure ClassRef where
  home : CompiledModule
  index : Fin home.classes.size

namespace ClassRef

/-- The class that is referred to. -/
def get (r : ClassRef) : CompiledClass := r.home.classes[r.index]

/-- The name of the class. -/
def name (r : ClassRef) : String := r.get.name

end ClassRef

/-- The class at an index. -/
def CompiledModule.classAt? (m : CompiledModule) (i : Nat) : Option ClassRef :=
  if h : i < m.classes.size then some ⟨m, i, h⟩ else none

/-- The class with a name. -/
def CompiledModule.class? (m : CompiledModule) (name : String) : Option ClassRef :=
  (m.classIndex? name).bind m.classAt?

/-- A procedure together with the class it belongs to, if it belongs to one. -/
structure Routine where
  code : Procedure
  owner : Option ClassRef := none

/-- The name of a routine in messages: with its class, if it has one. -/
def Routine.fullName (r : Routine) : String :=
  match r.owner with
  | some c => c.name ++ "." ++ r.code.name
  | none => r.code.name

end ClassAsm.Bytecode
