import ClassAsm.Machine.Fault

/-!
# Disassembly

The readable form of a procedure: a head line with its name, and one line per instruction with its
index, mnemonic, argument and source line.
-/

namespace ClassAsm.Machine

open Bytecode (Op Procedure Routine Word)

/-- A text filled with blanks on the left to a width. -/
def padLeft (width : Nat) (s : String) : String :=
  String.ofList (List.replicate (width - s.length) ' ') ++ s

/-- A text filled with blanks on the right to a width. -/
def padRight (width : Nat) (s : String) : String :=
  s ++ String.ofList (List.replicate (width - s.length) ' ')

/-- The argument of an instruction by number. -/
def numbered (arg : Nat) : String := "#" ++ Number.natText arg

/-- The entry of a table that an instruction refers to. -/
def tableEntry {α : Type} (xs : Array α) (i : Nat) : Except Cause α :=
  match xs[i]? with
  | some x => .ok x
  | none => .error (.outOfBounds i xs.size)

/-- The argument of an instruction, with a blank before it, or nothing. -/
def argumentText (h : Heap) (r : Routine) (op : Op) (arg : Nat) : Except Cause String :=
  match op with
  | .pushConst => do
    let v ← tableEntry r.code.consts arg
    return " " ++ Number.natText arg ++ " (" ++ h.format v ++ ")"
  | .pushLocal | .popLocal | .jump | .jumpFalse | .hostCall => .ok (" " ++ Number.natText arg)
  | .convert | .newArray => do
    let t ← tableEntry r.code.types arg
    return " " ++ t.name
  | .loadField | .storeField => .ok (" " ++ numbered arg)
  | .call =>
    let callee := r.owner.bind fun c ↦ c.get.methods[arg]?
    .ok (" " ++ (callee.map (·.name)).getD (numbered arg))
  | .new =>
    let cls := r.owner.bind fun c ↦ c.home.classes[arg]?
    .ok (" " ++ (cls.map (·.name)).getD (numbered arg))
  | .ret => .ok (if arg = 1 then " value" else " ")
  | .floatArith _ => .ok (if arg = 1 then " float" else "")
  | _ => .ok ""

/-- The line of the instruction `w` at index `ip`. -/
def instructionLine (h : Heap) (r : Routine) (ip : Nat) (w : Word) : Except Cause String := do
  let argument ← match Op.ofByte? w.opByte with
    | some op => argumentText h r op w.arg
    | none => .ok ""
  let line := r.code.lineAt ip
  return padLeft 4 (Number.natText ip) ++ "  " ++ padRight 10 (Op.mnemonicOf w.opByte) ++
    argument ++ (if 0 < line then "\t; line " ++ Number.intText line else "") ++ "\n"

/-- The lines of the instructions from index `ip` on. -/
def instructionLines (h : Heap) (r : Routine) (ip : Nat) : List Word → Except Cause String
  | [] => .ok ""
  | w :: rest => do return (← instructionLine h r ip w) ++ (← instructionLines h r (ip + 1) rest)

/-- The text of a disassembled procedure, every line ended by a newline.  A constant or a type that
does not exist has no readable form. -/
def disassemble (h : Heap) (r : Routine) : Except Cause String := do
  let head := r.fullName ++ " locals=" ++ Number.natText r.code.locals ++ " returns=" ++
    r.code.returns.name ++ "\n"
  return head ++ (← instructionLines h r 0 r.code.code.toList)

end ClassAsm.Machine
