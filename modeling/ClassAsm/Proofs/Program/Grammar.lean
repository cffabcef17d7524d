import ClassAsm.Program.Decl
import ClassAsm.Token

/-!
# The grammar of units

The syntax of a unit, given as types of syntax trees whose leaves are tokens:

    unit   = class*
    class  = classRow member* END
    member = fieldRow | (funcRow | constructorRow) (instructionRow | labelRow)* END

Every tree has the rows that it is written in (`rows`, `tokens`) and what it declares (`decl`,
`member`, `program`).  What a grammar cannot say is said by `Admissible`: names are not declared
twice, abstract members have no code and stand in abstract classes, and defaults are literals.
-/

namespace ClassAsm.Grammar

open Program

/-! ## Tokens -/

/-- A token of the given kind. -/
abbrev Keyword (k : Token.Kind) := { t : Token // t.kind = k }

/-- A token of a kind that passes the test. -/
abbrev Terminal (test : Token.Kind → Bool) := { t : Token // test t.kind = true }

/-- A name. -/
abbrev Name := Keyword .identifier

/-- The attributes of a class. -/
def isClassAttribute : Token.Kind → Bool
  | .publicKw | .privateKw | .abstractKw => true
  | _ => false

/-- The attributes of a field. -/
def isFieldAttribute : Token.Kind → Bool
  | .publicKw | .privateKw => true
  | _ => false

/-- The tokens that can stand as operands. -/
def isOperand : Token.Kind → Bool
  | .identifier | .string | .int _ | .float _ => true
  | _ => false

/-- Whether something declared with these attributes is public, if it is as `shown` says without
them.  The last word counts. -/
def visible (shown : Bool) (attributes : List Token) : Bool :=
  attributes.foldl (fun shown t ↦ match t.kind with
    | .publicKw => true
    | .privateKw => false
    | _ => shown) shown

/-- Whether one of the attributes is of the given kind. -/
def marked (k : Token.Kind) (attributes : List Token) : Bool := attributes.any fun t ↦ t.kind = k

/-- What an operand stands for.  Four words are no names. -/
def operandValue (t : Terminal isOperand) : Operand :=
  match t.1.kind with
  | .string => .string t.1.text
  | .int i => .int i
  | .float x => .float x
  | _ =>
    match t.1.text with
    | "true" => .bool true
    | "false" => .bool false
    | "null" => .null
    | "ret" => .returnValue
    | name => .identifier name

/-! ## Rows -/

/-- `class <name> <attribute>…` -/
structure ClassRow where
  keyword : Keyword .classKw
  name : Name
  attributes : List (Terminal isClassAttribute)

/-- `: <name>` -/
structure TypeClause where
  colon : Keyword .colon
  name : Name

/-- `func <name> [: <type>] <attribute>…` -/
structure FuncRow where
  keyword : Keyword .funcKw
  name : Name
  result : Option TypeClause
  attributes : List (Terminal Token.Kind.isAttribute)

/-- `constructor <attribute>…` -/
structure ConstructorRow where
  keyword : Keyword .constructorKw
  attributes : List (Terminal Token.Kind.isAttribute)

/-- `= <operand> <operand>…` -/
structure DefaultClause where
  assign : Keyword .assign
  first : Terminal isOperand
  others : List (Terminal isOperand)

/-- `field <name> [: <type>] <attribute>… [= <operand>…]` -/
structure FieldRow where
  keyword : Keyword .fieldKw
  name : Name
  type : Option TypeClause
  attributes : List (Terminal isFieldAttribute)
  defaults : Option DefaultClause

/-- An instruction word with as many operands as it takes. -/
structure InstructionRow where
  word : Name
  op : Opcode
  operands : List (Terminal isOperand)
  names : Opcode.ofWord? word.1.text = some op
  notLabel : op ≠ .defLabel
  least : op.arity.1 ≤ operands.length
  most : operands.length ≤ op.arity.2

/-- `def_label <name>` -/
structure LabelRow where
  word : Name
  name : Name
  names : Opcode.ofWord? word.1.text = some .defLabel

/-- A row of a body. -/
inductive BodyRow where
  | instruction (r : InstructionRow)
  | label (r : LabelRow)

/-- The first row of a method or a constructor. -/
inductive RoutineHead where
  | func (r : FuncRow)
  | constructor (r : ConstructorRow)

/-- `end` -/
abbrev EndRow := Keyword .endKw

/-! ## Trees -/

/-- A method or a constructor. -/
structure Routine where
  head : RoutineHead
  body : List BodyRow
  close : EndRow

/-- A member of a class. -/
inductive MemberTree where
  | field (r : FieldRow)
  | routine (r : Routine)

/-- A class. -/
structure ClassTree where
  head : ClassRow
  members : List MemberTree
  close : EndRow

/-- A unit. -/
abbrev UnitTree := List ClassTree

/-! ## The rows of a tree -/

/-- The tokens of a type, if there is one. -/
def typeTokens : Option TypeClause → List Token
  | none => []
  | some c => [c.colon, c.name]

/-- The defaults of a field. -/
def DefaultClause.items (d : DefaultClause) : List (Terminal isOperand) := d.first :: d.others

/-- The tokens of defaults, if there are any. -/
def defaultTokens : Option DefaultClause → List Token
  | none => []
  | some d => d.assign :: d.items.map (·.1)

def ClassRow.tokens (r : ClassRow) : List Token := r.keyword :: r.name :: r.attributes.map (·.1)

def FuncRow.tokens (r : FuncRow) : List Token :=
  r.keyword :: r.name :: (typeTokens r.result ++ r.attributes.map (·.1))

def ConstructorRow.tokens (r : ConstructorRow) : List Token := r.keyword :: r.attributes.map (·.1)

def FieldRow.tokens (r : FieldRow) : List Token :=
  r.keyword :: r.name :: (typeTokens r.type ++ (r.attributes.map (·.1) ++ defaultTokens r.defaults))

def BodyRow.tokens : BodyRow → List Token
  | instruction r => r.word :: r.operands.map (·.1)
  | label r => [r.word, r.name]

def RoutineHead.tokens : RoutineHead → List Token
  | func r => r.tokens
  | constructor r => r.tokens

def Routine.rows (r : Routine) : List (List Token) :=
  r.head.tokens :: (r.body.map BodyRow.tokens ++ [[r.close.1]])

def MemberTree.rows : MemberTree → List (List Token)
  | field r => [r.tokens]
  | routine r => r.rows

def ClassTree.rows (c : ClassTree) : List (List Token) :=
  c.head.tokens :: (c.members.flatMap MemberTree.rows ++ [[c.close.1]])

/-- The rows of a unit. -/
def UnitTree.rows (u : UnitTree) : List (List Token) := u.flatMap ClassTree.rows

/-! ## What a tree declares -/

/-- A class before its members are added. -/
def ClassRow.decl (r : ClassRow) : ClassDecl where
  name := r.name.1.text
  line := r.keyword.1.line
  isPublic := visible false (r.attributes.map (·.1))
  isAbstract := marked .abstractKw (r.attributes.map (·.1))

/-- A method or constructor before its body is added. -/
def RoutineHead.member : RoutineHead → Member
  | func r => {
      name := r.name.1.text
      line := r.keyword.1.line
      isPublic := visible false (r.attributes.map (·.1))
      isAbstract := marked .abstractKw (r.attributes.map (·.1))
      isOverride := marked .overrideKw (r.attributes.map (·.1))
      returns := r.result.map (·.name.1.text) }
  | constructor r => {
      line := r.keyword.1.line
      isPublic := visible false (r.attributes.map (·.1))
      isAbstract := marked .abstractKw (r.attributes.map (·.1))
      isOverride := marked .overrideKw (r.attributes.map (·.1))
      isConstructor := true }

def FieldRow.decl (r : FieldRow) : FieldDecl where
  name := r.name.1.text
  line := r.keyword.1.line
  isPublic := visible false (r.attributes.map (·.1))
  typeName := r.type.map (·.name.1.text)
  defaults := r.defaults.elim [] fun d ↦ d.items.map operandValue
  hasValue := r.defaults.isSome

def InstructionRow.instruction (r : InstructionRow) : Instruction :=
  ⟨r.op, r.operands.map operandValue, r.word.1.line⟩

/-- A block with one more row.  A label names the place of the next instruction. -/
def BodyRow.add (b : Block) : BodyRow → Block
  | instruction r => { b with code := b.code.push r.instruction }
  | label r => { b with labels := b.labels ++ [(r.name.1.text, ↑b.code.size)] }

def Routine.member (r : Routine) : Member :=
  { r.head.member with body := r.body.foldl BodyRow.add {} }

def MemberTree.field? : MemberTree → Option FieldDecl
  | field r => some r.decl
  | routine _ => none

def MemberTree.constructor? : MemberTree → Option Member
  | field _ => none
  | routine r => if r.member.isConstructor then some r.member else none

def MemberTree.method? : MemberTree → Option Member
  | field _ => none
  | routine r => if r.member.isConstructor then none else some r.member

/-- A class with further members. -/
def extend (c : ClassDecl) (members : List MemberTree) : ClassDecl :=
  { c with
    fields := c.fields ++ (members.filterMap MemberTree.field?).toArray
    constructors := c.constructors ++ (members.filterMap MemberTree.constructor?).toArray
    methods := c.methods ++ (members.filterMap MemberTree.method?).toArray }

def ClassTree.decl (c : ClassTree) : ClassDecl := extend c.head.decl c.members

/-- The program of a unit. -/
def UnitTree.program (u : UnitTree) : Program := ⟨(u.map ClassTree.decl).toArray⟩

/-! ## What a grammar cannot say -/

/-- The label that a row declares. -/
def BodyRow.label? : BodyRow → Option String
  | instruction _ => none
  | label r => some r.name.1.text

/-- A field whose defaults are literals, exactly one if it has no type. -/
structure FieldRow.Admissible (r : FieldRow) : Prop where
  literals : ∀ d, r.defaults = some d → ∀ t ∈ d.items, t.1.kind = .identifier →
    t.1.text = "true" ∨ t.1.text = "false" ∨ t.1.text = "null"
  untyped : r.type = none → ∃ d, r.defaults = some d ∧ d.others = []

/-- A method or constructor with different labels, and without instructions if it is abstract. -/
structure Routine.Admissible (r : Routine) : Prop where
  labels : (r.body.filterMap BodyRow.label?).Nodup
  empty : r.head.member.isAbstract = true → ∀ i, BodyRow.instruction i ∉ r.body

/-- A member that may stand in a class, which may be abstract. -/
def MemberTree.Admissible (inAbstract : Bool) : MemberTree → Prop
  | field r => r.Admissible
  | routine r => r.Admissible ∧
    (r.head.member.isConstructor = false → r.head.member.isAbstract = true → inAbstract = true)

/-- A class of such members with different names. -/
structure ClassTree.Admissible (c : ClassTree) : Prop where
  fields : ((c.members.filterMap MemberTree.field?).map (·.name)).Nodup
  methods : ((c.members.filterMap MemberTree.method?).map (·.name)).Nodup
  members : ∀ m ∈ c.members, m.Admissible c.head.decl.isAbstract

/-- A unit of such classes with different names. -/
structure UnitTree.Admissible (u : UnitTree) : Prop where
  names : (u.map fun c ↦ c.head.name.1.text).Nodup
  classes : ∀ c ∈ u, c.Admissible

/-- Rows in which all names have a text. -/
def Named (rows : List (List Token)) : Prop :=
  ∀ row ∈ rows, ∀ t ∈ row, t.kind = .identifier → t.text ≠ ""

end ClassAsm.Grammar
