import ClassAsm.Machine.Disassembly

/-!
# Listings

The readable form of a class: its head, its fields, and the disassembled code of its constructors
and methods.
-/

namespace ClassAsm.Cli

open Bytecode (ClassRef CompiledModule)

/-- The disassembled code of a class.  Code that refers to entries its tables do not have ends in
the complaint about it. -/
def codeListing (h : Heap) (cls : ClassRef) : String :=
  String.join ((cls.get.constructors ++ cls.get.methods).toList.map fun p ↦
    match Machine.disassemble h ⟨p, some cls⟩ with
    | .ok text => text
    | .error cause => cause.message ++ "\n")

/-- A truth value in a listing. -/
def truthText (b : Bool) : String := if b then "true" else "false"

/-- The lines of the fields of a class. -/
def fieldListing (cls : ClassRef) : String :=
  String.join (cls.get.fields.toList.zipIdx.map fun (f, i) ↦
    "  field " ++ Number.natText i ++ " " ++ f.name ++ " : " ++ f.type.name ++ " public=" ++
      truthText f.isPublic ++ "\n")

/-- The listing of a class. -/
def classListing (cls : ClassRef) : String :=
  let c := cls.get
  "class " ++ c.name ++ " public=" ++ truthText c.isPublic ++ " abstract=" ++
    truthText c.isAbstract ++ "\n" ++ fieldListing cls ++ codeListing {} cls

/-- The listing of all classes of a module. -/
def moduleListing (m : CompiledModule) : String :=
  String.join ((List.finRange m.classes.size).map fun i ↦ classListing ⟨m, i⟩)

end ClassAsm.Cli
