import ClassAsm.Program.Opcode
import ClassAsm.Program.Operand

/-!
# Programs

The model of a parsed unit: classes with fields, constructors and methods, and the code block of
each constructor and method.  Everything is kept in declaration order.
-/

namespace ClassAsm.Program

/-- One instruction with its operands. -/
structure Instruction where
  op : Opcode
  operands : List Operand
  line : Int
deriving DecidableEq

/-- The body of a constructor or method.  A label names the instruction that follows it, by index;
it may stand after the last one.  A model that was not parsed may have labels anywhere. -/
structure Block where
  labels : List (String × Int) := []
  code : Array Instruction := #[]
deriving DecidableEq

/-- The place that a label names. -/
def Block.label? (b : Block) (name : String) : Option Int :=
  (b.labels.find? fun l ↦ l.1 = name).map (·.2)

/-- A field.  Without a type name the type is that of the default, of which there is then exactly
one; an array field has its elements as defaults. -/
structure FieldDecl where
  name : String
  line : Int
  isPublic : Bool := false
  typeName : Option String := none
  defaults : List Operand := []
  hasValue : Bool := false
deriving DecidableEq

/-- A method or a constructor; constructors have no name and no result.  That a method overrides
another is recorded and has no effect, since classes do not inherit. -/
structure Member where
  name : String := ""
  line : Int
  isPublic : Bool := false
  isAbstract : Bool := false
  isOverride : Bool := false
  isConstructor : Bool := false
  returns : Option String := none
  body : Block := {}
deriving DecidableEq

namespace Member

/-- How a member is called in messages. -/
def describe (m : Member) : String := if m.isConstructor then "constructor" else "func " ++ m.name

/-- The name of a member as the construct at fault. -/
def label (m : Member) : String := if m.isConstructor then "constructor" else m.name

end Member

/-- A class. -/
structure ClassDecl where
  name : String
  line : Int
  isPublic : Bool := false
  isAbstract : Bool := false
  fields : Array FieldDecl := #[]
  constructors : Array Member := #[]
  methods : Array Member := #[]
deriving DecidableEq

namespace ClassDecl

/-- Whether a field has the given name. -/
def hasField (c : ClassDecl) (name : String) : Bool := c.fields.any fun f ↦ f.name = name

/-- Whether a method has the given name. -/
def hasMethod (c : ClassDecl) (name : String) : Bool := c.methods.any fun m ↦ m.name = name

/-- The class with a further member at the end of its constructors or methods. -/
def addMember (c : ClassDecl) (m : Member) : ClassDecl :=
  if m.isConstructor then { c with constructors := c.constructors.push m }
  else { c with methods := c.methods.push m }

end ClassDecl

end ClassAsm.Program

/-- A parsed unit: its classes in declaration order. -/
structure ClassAsm.Program where
  classes : Array ClassAsm.Program.ClassDecl := #[]
deriving DecidableEq
