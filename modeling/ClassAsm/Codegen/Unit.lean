import ClassAsm.Codegen.Body

/-!
# The code of a unit

`layout` fixes the fields, results and visibility of all classes first, so that code can refer to
any class, field or method whatever the order of their declarations.  `generate` then fills in the
code of every constructor and method.  The first error ends it, and there is no module.
-/

namespace ClassAsm.Codegen

open Bytecode (CompiledModule CompiledClass ClassRef FieldSlot Procedure)
open Program (ClassDecl FieldDecl Member Operand)

/-! ## Layout -/

/-- The type of a name on a line. -/
def typeNamed (isClass : String → Bool) (line : Int) (name : String) : Except Error Ty :=
  match Ty.ofName? isClass name with
  | some t => .ok t
  | none => .error (.diagnostic line (.unknownType name))

/-- The type of a literal default, which the field takes when it has no type name. -/
def inferred? : Operand → Option Ty
  | .int _ => some .int
  | .float _ => some .float
  | .double _ => some .double
  | .string _ => some .string
  | .bool _ => some .bool
  | .byte _ => some .byte
  | .identifier _ | .null | .returnValue | .unknown _ => none

/-- The type of a field. -/
def fieldType (isClass : String → Bool) (f : FieldDecl) : Except Error Ty :=
  match f.typeName with
  | some name => typeNamed isClass f.line name
  | none =>
    match f.defaults with
    | [] => .error (.abort (.missing 0 0))
    | lit :: _ =>
      match inferred? lit with
      | some t => .ok t
      | none => .error (.diagnostic f.line (.inference f.name lit))

/-- The slot of a field. -/
def fieldSlot (isClass : String → Bool) (f : FieldDecl) : Except Error FieldSlot := do
  return ⟨f.name, ← fieldType isClass f, f.isPublic⟩

/-- The result type of a method. -/
def resultType (isClass : String → Bool) (m : Member) : Except Error Ty :=
  match m.returns with
  | none | some "void" => .ok .void
  | some name => typeNamed isClass m.line name

/-- The signature of a method. -/
def methodSignature (isClass : String → Bool) (m : Member) : Except Error Procedure := do
  return {
    name := m.name, isPublic := m.isPublic, isAbstract := m.isAbstract
    returns := ← resultType isClass m }

/-- The signature of a constructor. -/
def constructorSignature (m : Member) : Procedure :=
  { name := "constructor", isPublic := m.isPublic, isConstructor := true }

/-- The constructors of a class: those declared, or else a public one that only sets the fields. -/
def constructorsOf (c : ClassDecl) : Array Member :=
  if c.constructors.isEmpty then #[{ line := c.line, isPublic := true, isConstructor := true }]
  else c.constructors

/-- The layout of a class. -/
def classLayout (isClass : String → Bool) (c : ClassDecl) : Except Error CompiledClass := do
  let fields ← c.fields.mapM (fieldSlot isClass)
  let methods ← c.methods.mapM (methodSignature isClass)
  return {
    name := c.name, isPublic := c.isPublic, isAbstract := c.isAbstract, fields, methods
    constructors := (constructorsOf c).map constructorSignature }

/-- The layout of all classes, without code. -/
def layout (p : Program) : Except Error CompiledModule := do
  let isClass name := p.classes.any fun c ↦ c.name = name
  return ⟨← p.classes.mapM (classLayout isClass)⟩

/-! ## Code -/

/-- Emit the items of an array default, from index `i` on, into the array on the stack. -/
def arrayItems (f : FieldDecl) (elem : Ty) (i : Nat) : List Operand → Gen Unit
  | [] => pure ()
  | lit :: rest => do
    let v ← literalAs lit elem f.name
    emit .dup
    emitConstant (.ofInt (Int64.ofNat i))
    emitConstant v
    emit .storeItem
    arrayItems f elem (i + 1) rest

/-- Emit a single default. -/
def singleDefault (f : FieldDecl) (t : Ty) : Gen Unit := do
  match f.defaults with
  | [lit] => emitConstant (← literalAs lit t f.name)
  | [] => stop (.missing 0 0)
  | _ => fail (.singleDefault f.name t)

/-- Emit the store of a field's default, if it has one. -/
def fieldDefault (index : Nat) (f : FieldDecl) (t : Ty) : Gen Unit := do
  if !f.hasValue then return
  modify fun s ↦ { s with line := f.line }
  emit .pushThis
  match t, f.defaults with
  | .array _, [.null] | .bareArray, [.null] => singleDefault f t
  | .array elem, items =>
    emitConstant (.ofInt (Int64.ofNat items.length))
    emit .newArray (← typeIndex t)
    arrayItems f elem 0 items
  | .bareArray, _ => stop .absent
  | t, _ => singleDefault f t
  emit .storeField index

/-- Emit the defaults of the fields from index `i` on, which every constructor stores before its own
code. -/
def prologue (slots : Array FieldSlot) (i : Nat) : List FieldDecl → Gen Unit
  | [] => pure ()
  | f :: rest => do
    match slots[i]? with
    | none => stop (.missing i slots.size)
    | some slot => fieldDefault i f slot.type
    prologue slots (i + 1) rest

/-- Emit the code of a constructor or method. -/
def memberCode (ctx : Context) (c : ClassDecl) (m : Member) : Gen Unit := do
  if m.isConstructor then prologue ctx.owner.get.fields 0 c.fields.toList
  if !m.isAbstract then body ctx
  epilogue ctx.signature.returns
  if !m.isAbstract then checkJumps m.body

/-- Generate a constructor or method with the given signature. -/
def procedure (owner : ClassRef) (c : ClassDecl) (m : Member) (signature : Procedure) :
    Except Error Procedure := do
  let ((), s) ← memberCode ⟨owner, signature, m.body, #[]⟩ c m { line := m.line }
  finish signature s

/-- Generate the members of a class from index `i` of their signatures on. -/
def proceduresFrom (owner : ClassRef) (c : ClassDecl) (signatures : Array Procedure) (i : Nat) :
    List Member → Except Error (List Procedure)
  | [] => .ok []
  | m :: rest => do
    match signatures[i]? with
    | none => .error (.abort (.missing i signatures.size))
    | some signature =>
      return (← procedure owner c m signature) ::
        (← proceduresFrom owner c signatures (i + 1) rest)

/-- Generate the code of a class of a laid-out module. -/
def classCode (owner : ClassRef) (c : ClassDecl) : Except Error CompiledClass := do
  let constructors ←
    proceduresFrom owner c owner.get.constructors 0 (constructorsOf c).toList
  let methods ← proceduresFrom owner c owner.get.methods 0 c.methods.toList
  return { owner.get with constructors := constructors.toArray, methods := methods.toArray }

/-- Generate the code of the classes from index `i` on. -/
def classesFrom (m : CompiledModule) (i : Nat) : List ClassDecl → Except Error (List CompiledClass)
  | [] => .ok []
  | c :: rest => do
    match m.classAt? i with
    | none => .error (.abort (.missing i m.classes.size))
    | some owner => return (← classCode owner c) :: (← classesFrom m (i + 1) rest)

/-- Generate the machine code of a unit. -/
def generate (p : Program) : Except Error CompiledModule := do
  return ⟨(← classesFrom (← layout p) 0 p.classes.toList).toArray⟩

end ClassAsm.Codegen
