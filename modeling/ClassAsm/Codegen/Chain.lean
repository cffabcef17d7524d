import ClassAsm.Codegen.State

/-!
# Identifier chains

An identifier such as `this.items.[0].name` or `items[i].name` is a chain of segments.  `splitChain`
cuts it: dots outside brackets separate names, and a bracket group is a segment of its own that
keeps its contents, so that a chain inside brackets survives.

`resolve` walks a chain from left to right and emits the loads of every segment but the last.  The
result is a `Place` whose access is still to be made, as a read by `load` or as a write by `store`.
-/

namespace ClassAsm.Codegen

open Bytecode (Op)

/-! ## Segments -/

/-- Cut a chain into segments.  `previous` is the character before the text, `depth` the number of
open brackets and `read` what was read of the current segment, reversed. -/
def splitFrom (previous : Option Char) (depth : Nat) (read : List Char) :
    List Char → Option (List (List Char))
  | [] =>
    if depth ≠ 0 || previous = some '.' then none
    else some (if read.isEmpty then [] else [read.reverse])
  | c :: rest =>
    if c = '[' then
      if depth = 0 && !read.isEmpty then
        (splitFrom (some c) 1 [c] rest).map (read.reverse :: ·)
      else splitFrom (some c) (depth + 1) (c :: read) rest
    else if c = ']' then
      match depth with
      | 0 => none
      | 1 => (splitFrom (some c) 0 [] rest).map ((c :: read).reverse :: ·)
      | d + 2 => splitFrom (some c) (d + 1) (c :: read) rest
    else if c = '.' && depth = 0 then
      if !read.isEmpty then (splitFrom (some c) 0 [] rest).map (read.reverse :: ·)
      else if previous = some ']' then splitFrom (some c) 0 [] rest
      else none
    else splitFrom (some c) depth (c :: read) rest

/-- Cut a chain into its segments; a chain has at least one. -/
def splitChain (chain : List Char) : Option (List (List Char)) :=
  match splitFrom none 0 [] chain with
  | some [] => none
  | segments => segments

/-! ## Places -/

/-- How a place is accessed, given what is on the stack. -/
inductive Access where
  /-- A local slot; nothing is on the stack. -/
  | slot (index : Nat)
  /-- The object itself; nothing is on the stack. -/
  | this
  /-- A field of the object on the stack. -/
  | field (index : Nat)
  /-- An item of the array on the stack, at the index above it. -/
  | item
deriving DecidableEq

/-- A resolved chain whose last access is still to be made. -/
structure Place where
  access : Access
  type : Ty
  name : String
deriving DecidableEq

/-- Emit the access of a place as a read. -/
def load (p : Place) : Gen Unit := do
  match p.access with
  | .slot index => emit .pushLocal index
  | .this => emit .pushThis
  | .field index =>
    emit .loadField index
    pop 1
  | .item =>
    emit .loadItem
    pop 2
  push p.type

/-- Emit the access of a place as a write of the top of the stack, converted to its type. -/
def store (p : Place) : Gen Unit := do
  let source ← peek
  if p.access = .this then fail (.assignThis p.name)
  if !p.type.accepts source then fail (.cannotAssign p.name source p.type)
  convertTop p.type
  match p.access with
  | .slot index =>
    emit .popLocal index
    pop 1
  | .field index =>
    emit .storeField index
    pop 2
  | .item =>
    emit .storeItem
    pop 3
  | .this => pure ()

/-! ## Resolution -/

/-- A field of the object of type `owner` on the stack. -/
def member (ctx : Context) (owner : Ty) (name : String) : Gen Place :=
  match owner with
  | .object className =>
    match ctx.owner.home.class? className with
    | none => fail (.unknownOwner name className)
    | some c =>
      match c.get.fieldIndex? name with
      | none => fail (.unknownMember name owner)
      | some i =>
        match c.get.fields[i]? with
        | none => stop (.missing i c.get.fields.size)
        | some f =>
          if c.index.val ≠ ctx.owner.index.val && !f.isPublic then
            fail (.privateField name c.name)
          else pure ⟨.field i, f.type, name⟩
  | _ => fail (.unknownMember name owner)

/-- The first segment of a chain that is a name: a local in scope, or a field of the class. -/
def root (ctx : Context) (name : String) : Gen Place := do
  match (← get).local? name with
  | some l => return ⟨.slot l.slot, l.type, name⟩
  | none =>
    let c := ctx.owner.get
    match c.fieldIndex? name with
    | none => fail (.unknownIdentifier name)
    | some i =>
      match c.fields[i]? with
      | none => stop (.missing i c.fields.size)
      | some f =>
        emit .pushThis
        push (.object c.name)
        return ⟨.field i, f.type, name⟩

/-- Push the subscript inside brackets: an integer literal, or a chain that `resolve` resolves. -/
def subscript (resolve : List Char → Gen Place) (expr : List Char) : Gen Unit := do
  match Number.readInt64? expr with
  | some i =>
    emitConstant (.ofInt i)
    push .int
  | none =>
    if expr.isEmpty then fail .emptyIndex
    load (← resolve expr)
    let t ← peek
    if !t.tag.isNumeric then fail (.indexType (String.ofList expr) t)
    convertTop .int

/-- One segment of a chain, after the segment `previous` has been loaded (`none` at the start). -/
def segment (ctx : Context) (resolve : List Char → Gen Place) (chain : String)
    (previous : Option String) (seg : List Char) : Gen Place := do
  let name := String.ofList seg
  match seg, previous with
  | [], _ => stop (.missing 0 0)
  | '[' :: _, none => fail (.leadingIndex chain)
  | '[' :: inner, some before =>
    match ← peek with
    | .array elem =>
      subscript resolve inner.dropLast
      return ⟨.item, elem, name⟩
    | .bareArray => stop .absent
    | t => fail (.notArray name before t)
  | _, none =>
    if name = "this" then return ⟨.this, .object ctx.owner.name, name⟩
    root ctx name
  | _, some _ =>
    if name = "this" then fail (.misplacedThis chain)
    member ctx (← peek) name

/-- The segments after the one resolved to `p`, which is loaded first if any follow. -/
def segmentsFrom (ctx : Context) (resolve : List Char → Gen Place) (chain : String) (p : Place)
    (before : String) : List (List Char) → Gen Place
  | [] => pure p
  | seg :: rest => do
    load p
    let next ← segment ctx resolve chain (some before) seg
    segmentsFrom ctx resolve chain next (String.ofList seg) rest

/-- Resolve a chain.  Chains inside brackets are shorter, so the length of the chain bounds how
deep they nest; `fuel` is that bound. -/
def resolveWithin (ctx : Context) : Nat → List Char → Gen Place
  | 0, _ => stop .nesting
  | fuel + 1, chain => do
    let text := String.ofList chain
    match splitChain chain with
    | none | some [] => fail (.malformedChain text)
    | some (seg :: rest) =>
      let p ← segment ctx (resolveWithin ctx fuel) text none seg
      segmentsFrom ctx (resolveWithin ctx fuel) text p (String.ofList seg) rest

/-- Resolve an identifier chain. -/
def resolve (ctx : Context) (chain : String) : Gen Place :=
  resolveWithin ctx (chain.toList.length + 1) chain.toList

end ClassAsm.Codegen
