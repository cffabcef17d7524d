import ClassAsm.Program.Decl
import ClassAsm.Program.ParseError

/-!
# From token rows to a program

Rows are read one after the other.  Between rows the only state is the classes that are closed and
the scope that is open: nothing, a class, or a member of a class.  Each row either opens a scope,
closes one, or adds a field, an instruction or a label to the open scope; the first row that does
none of these ends the parse with its cause.
-/

namespace ClassAsm.Program

/-- The scope that is open between two rows. -/
inductive Scope where
  | outside
  | inClass (c : ClassDecl)
  | inMember (c : ClassDecl) (m : Member)
deriving DecidableEq

/-- How many scopes are open. -/
def Scope.depth : Scope → Nat
  | .outside => 0
  | .inClass _ => 1
  | .inMember _ _ => 2

/-- What is known between two rows: the closed classes, the open scope, and the line of the row
that was read last. -/
structure ParseState where
  closed : Array ClassDecl := #[]
  scope : Scope := .outside
  line : Int := 0
deriving DecidableEq

/-- A row either parses or has a cause why not. -/
abbrev ParseM := Except ParseCause

/-- The name that follows the first word of a declaration. -/
def declaredName (what : String) : List Token → ParseM String
  | ⟨.identifier, name, _⟩ :: _ => .ok name
  | _ => .error (.nameExpected what)

/-- The class in which a member may be declared. -/
def memberScope (what : String) : Scope → ParseM ClassDecl
  | .outside => .error (.memberOutside what)
  | .inClass c => .ok c
  | .inMember _ m => .error (.memberInside what m.describe)

/-! ## Classes -/

/-- Apply the attributes of a class declaration. -/
def classAttributes (c : ClassDecl) : List Token → ParseM ClassDecl
  | [] => .ok c
  | t :: rest =>
    match t.kind with
    | .publicKw => classAttributes { c with isPublic := true } rest
    | .privateKw => classAttributes { c with isPublic := false } rest
    | .abstractKw => classAttributes { c with isAbstract := true } rest
    | kind => .error (.classAttribute kind c.name)

/-- Read `class <name> <attributes>`, given what follows the first word. -/
def parseClass (s : ParseState) (line : Int) (args : List Token) : ParseM Scope := do
  let name ← declaredName "class" args
  match s.scope with
  | .inClass c | .inMember c _ => throw (.nestedClass name c.name)
  | .outside =>
    if s.closed.any fun c ↦ c.name = name then throw (.classTaken name)
    return .inClass (← classAttributes { name, line } (args.drop 1))

/-! ## Members -/

/-- Apply the attributes of a member declaration. -/
def memberAttributes (m : Member) : List Token → ParseM Member
  | [] => .ok m
  | t :: rest =>
    match t.kind with
    | .publicKw => memberAttributes { m with isPublic := true } rest
    | .privateKw => memberAttributes { m with isPublic := false } rest
    | .abstractKw => memberAttributes { m with isAbstract := true } rest
    | .overrideKw => memberAttributes { m with isOverride := true } rest
    | kind => .error (.memberAttribute kind m.label m.describe)

/-- Cut an optional `: <type>` off a declaration.  A type without text counts as none. -/
def splitType (missing : ParseCause) : List Token → ParseM (Option String × List Token)
  | ⟨.colon, _, _⟩ :: ⟨.identifier, name, _⟩ :: rest =>
    .ok (if name = "" then none else some name, rest)
  | ⟨.colon, _, _⟩ :: _ => .error missing
  | rest => .ok (none, rest)

/-- Read `func <name> [: <type>] <attributes>`, given what follows the first word. -/
def parseFunc (s : ParseState) (line : Int) (args : List Token) : ParseM Scope := do
  let name ← declaredName "func" args
  let c ← memberScope ("func " ++ name) s.scope
  let (returns, rest) ← splitType (.returnTypeExpected name) (args.drop 1)
  let m ← memberAttributes { name, line, returns } rest
  if m.isAbstract && !c.isAbstract then throw (.abstractInConcrete name c.name)
  if c.hasMethod name then throw (.methodTaken name c.name)
  return .inMember c m

/-- Read `constructor <attributes>`, given what follows the first word. -/
def parseConstructor (s : ParseState) (line : Int) (args : List Token) : ParseM Scope := do
  let c ← memberScope "constructor" s.scope
  return .inMember c (← memberAttributes { line, isConstructor := true } args)

/-! ## Operands and fields -/

/-- The operand of a token.  The words `true`, `false`, `null` and `ret` are reserved. -/
def operandOf (t : Token) : ParseM Operand :=
  match t.kind with
  | .identifier =>
    match t.text with
    | "true" => .ok (.bool true)
    | "false" => .ok (.bool false)
    | "null" => .ok .null
    | "ret" => .ok .returnValue
    | name => .ok (.identifier name)
  | .string => .ok (.string t.text)
  | .int i => .ok (.int i)
  | .float x => .ok (.float x)
  | kind => .error (.operandKind kind t.text)

/-- Apply the attributes of a field declaration, and return what follows them. -/
def fieldAttributes (f : FieldDecl) : List Token → ParseM (FieldDecl × List Token)
  | [] => .ok (f, [])
  | t :: rest =>
    match t.kind with
    | .publicKw => fieldAttributes { f with isPublic := true } rest
    | .privateKw => fieldAttributes { f with isPublic := false } rest
    | kind =>
      if kind.isAttribute then .error (.fieldAttribute kind f.name) else .ok (f, t :: rest)

/-- The default that a token stands for, which must be a literal. -/
def defaultOf (name : String) (t : Token) : ParseM Operand := do
  match ← operandOf t with
  | .identifier _ | .returnValue => throw (.defaultNotLiteral name t.text)
  | o => return o

/-- Read `= <default>…` at the end of a field declaration, or nothing. -/
def fieldDefaults (f : FieldDecl) : List Token → ParseM FieldDecl
  | [] => .ok f
  | t :: rest =>
    match t.kind with
    | .assign => do
      if rest.isEmpty then throw (.defaultMissing f.name)
      return { f with defaults := ← rest.mapM (defaultOf f.name), hasValue := true }
    | kind => .error (.fieldUnexpected kind f.name)

/-- Read `field <name> [: <type>] <attributes> [= <default>…]`, given what follows the first
word. -/
def parseField (s : ParseState) (line : Int) (args : List Token) : ParseM Scope := do
  let name ← declaredName "field" args
  match s.scope with
  | .outside => throw (.fieldOutside name)
  | .inMember _ m => throw (.fieldInside name m.describe)
  | .inClass c =>
    if c.hasField name then throw (.fieldTaken name c.name)
    let (typeName, rest) ← splitType (.fieldTypeExpected name) (args.drop 1)
    let (f, rest) ← fieldAttributes { name, line, typeName } rest
    let f ← fieldDefaults f rest
    if f.typeName.isNone then
      if !f.hasValue then throw (.fieldUntyped name)
      if 1 < f.defaults.length then throw (.arrayUntyped name)
    return .inClass { c with fields := c.fields.push f }

/-! ## Code -/

/-- Read an instruction or a label. -/
def parseInstruction (s : ParseState) (line : Int) (word : String) (args : List Token) :
    ParseM Scope := do
  let some op := Opcode.ofWord? word | throw (.unknownInstruction word)
  match s.scope with
  | .outside | .inClass _ => throw (.instructionOutside word op)
  | .inMember c m =>
    let (least, most) := op.arity
    if args.length < least || most < args.length then
      throw (.operandCount word op args.length)
    match op, args with
    | .defLabel, t :: _ =>
      if t.kind ≠ .identifier then throw (.labelKind word t.kind)
      if (m.body.label? t.text).isSome then throw (.labelTaken t.text m.describe)
      return .inMember c { m with
        body := { m.body with labels := m.body.labels ++ [(t.text, ↑m.body.code.size)] } }
    | _, _ =>
      let operands ← args.mapM operandOf
      return .inMember c { m with
        body := { m.body with code := m.body.code.push ⟨op, operands, line⟩ } }

/-! ## Rows -/

/-- Read `end`, which closes the innermost open scope. -/
def parseEnd (s : ParseState) (args : List Token) : ParseM ParseState := do
  if let t :: _ := args then throw (.afterEnd t.kind)
  match s.scope with
  | .outside => throw .endUnmatched
  | .inClass c => return { s with closed := s.closed.push c, scope := .outside }
  | .inMember c m =>
    if m.isAbstract && !m.body.code.isEmpty then throw (.abstractBody m.label m.describe)
    return { s with scope := .inClass (c.addMember m) }

/-- Read one row, given its first token and the rest. -/
def parseTokens (s : ParseState) (head : Token) (args : List Token) : ParseM ParseState :=
  let open_ (scope : ParseM Scope) : ParseM ParseState :=
    scope.map fun scope ↦ { s with scope }
  match head.kind with
  | .classKw => open_ (parseClass s head.line args)
  | .funcKw => open_ (parseFunc s head.line args)
  | .constructorKw => open_ (parseConstructor s head.line args)
  | .fieldKw => open_ (parseField s head.line args)
  | .endKw => parseEnd s args
  | .identifier => open_ (parseInstruction s head.line head.text args)
  | kind => .error (.badStart kind head.text)

/-- Read one row; an empty row changes nothing. -/
def parseRow (s : ParseState) : List Token → Except ParseError ParseState
  | [] => .ok s
  | head :: args =>
    match parseTokens s head args with
    | .ok s => .ok { s with line := head.line }
    | .error cause => .error ⟨head.line, cause⟩

/-- Read all rows. -/
def parseRows (s : ParseState) : List (List Token) → Except ParseError ParseState
  | [] => .ok s
  | row :: rest =>
    match parseRow s row with
    | .ok s => parseRows s rest
    | .error e => .error e

/-- The program, once the input has ended with no scope open. -/
def ParseState.finish (s : ParseState) : Except ParseError Program :=
  match s.scope with
  | .outside => .ok ⟨s.closed⟩
  | .inClass c => .error ⟨s.line, .classUnclosed c.name⟩
  | .inMember _ m => .error ⟨s.line, .memberUnclosed m.label m.describe⟩

/-- Parse token rows. -/
def parse (rows : List (List Token)) : Except ParseError Program :=
  match parseRows {} rows with
  | .ok s => s.finish
  | .error e => .error e

end ClassAsm.Program
