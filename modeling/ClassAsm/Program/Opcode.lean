/-!
# Instruction words

The instructions of a code block: their names, how many operands each takes, and how an instruction
word is looked up.  A word may be written in any case and without its leading `op_`.

The lower-case form of a word only matters when it is one of the names, which are ASCII.  Besides
the ASCII capitals exactly two characters have an ASCII letter as lower-case form: the Kelvin sign
and the capital dotted I.
-/

namespace ClassAsm.Program

/-- An instruction of a code block.  `defLabel` never becomes part of a block; it names a place. -/
inductive Opcode where
  | set
  | define
  | delete
  | select
  | compare
  | add
  | sub
  | mul
  | div
  | rem
  | isTrue
  | isFalse
  | isEqual
  | isUnequal
  | isGreater
  | isLess
  | goto
  | jump
  | loop
  | repeatLoop
  | breakLoop
  | call
  | print
  | ret
  | new
  | defLabel
  | unknown (code : UInt8)
deriving DecidableEq, Repr

namespace Opcode

/-- All named instructions, in the order of their numbers. -/
def all : List Opcode :=
  [set, define, delete, select, compare, add, sub, mul, div, rem, isTrue, isFalse, isEqual,
    isUnequal, isGreater, isLess, goto, jump, loop, repeatLoop, breakLoop, call, print, ret, new,
    defLabel]

/-- The instruction with the given number. -/
def ofCode (n : UInt8) : Opcode := all[n.toNat]?.getD (unknown n)

/-- The full name of an instruction. -/
def name : Opcode → String
  | set => "op_set"
  | define => "op_define"
  | delete => "op_delete"
  | select => "op_select"
  | compare => "op_compare"
  | add => "op_add"
  | sub => "op_sub"
  | mul => "op_mul"
  | div => "op_div"
  | rem => "op_rem"
  | isTrue => "op_istrue"
  | isFalse => "op_isfalse"
  | isEqual => "op_iseqls"
  | isUnequal => "op_isneqls"
  | isGreater => "op_isgrtn"
  | isLess => "op_islstn"
  | goto => "op_goto"
  | jump => "op_jmp"
  | loop => "op_loop"
  | repeatLoop => "op_doop"
  | breakLoop => "op_break"
  | call => "op_call"
  | print => "op_print"
  | ret => "op_return"
  | new => "op_new"
  | defLabel => "def_label"
  | unknown _ => "op_unknown"

/-- The least and the greatest number of operands. -/
def arity : Opcode → Nat × Nat
  | set => (2, 2)
  | define => (3, 3)
  | delete | select | compare => (1, 1)
  | add | sub | mul | div | rem => (1, 2)
  | isTrue | isFalse => (0, 1)
  | isEqual | isUnequal | isGreater | isLess => (1, 2)
  | goto | jump => (1, 1)
  | loop | repeatLoop | breakLoop => (0, 0)
  | call | print => (1, 1)
  | ret => (0, 1)
  | new => (2, 3)
  | defLabel => (1, 1)
  | unknown _ => (0, 0)

/-- The instructions that skip the next one when they do not hold. -/
def isConditional : Opcode → Bool
  | isTrue | isFalse | isEqual | isUnequal | isGreater | isLess => true
  | _ => false

/-- The instructions that compute a number. -/
def isArithmetic : Opcode → Bool
  | add | sub | mul | div | rem => true
  | _ => false

/-- The lower-case form of a character, as far as it is an ASCII letter. -/
def lowerChar (c : Char) : Char :=
  if 'A' ≤ c ∧ c ≤ 'Z' then Char.ofNat (c.toNat + 32)
  else if c.toNat = 0x212a then 'k'
  else if c.toNat = 0x130 then 'i'
  else c

/-- The instruction that a word stands for. -/
def ofWord? (word : String) : Option Opcode :=
  let w := String.ofList (word.toList.map lowerChar)
  match all.find? fun op ↦ op.name = w with
  | some op => some op
  | none => all.find? fun op ↦ op.name = "op_" ++ w

end Opcode

end ClassAsm.Program
