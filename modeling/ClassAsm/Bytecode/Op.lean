/-!
# Machine instructions

An instruction is a 32-bit word: the operation in the high byte and an argument in the low 24 bits.
Arguments that do not fit are cut to 24 bits when the word is packed.
-/

namespace ClassAsm.Bytecode

/-- The five arithmetic operations. -/
inductive Arith where
  | add
  | sub
  | mul
  | div
  | rem
deriving DecidableEq, Repr

/-- The operations of the machine. -/
inductive Op where
  | noop
  | pushConst
  | pushLocal
  | popLocal
  | pushThis
  | dup
  | drop
  | swap
  | convert
  | loadField
  | storeField
  | loadItem
  | storeItem
  | intArith (a : Arith)
  | floatArith (a : Arith)
  | equal
  | notEqual
  | greater
  | less
  | not
  | jump
  | jumpFalse
  | call
  | ret
  | new
  | newArray
  | hostCall
deriving DecidableEq, Repr

namespace Op

/-- The byte of an operation. -/
def byte : Op → UInt8
  | noop => 0x01
  | pushConst => 0x02
  | pushLocal => 0x03
  | popLocal => 0x04
  | pushThis => 0x05
  | dup => 0x06
  | drop => 0x07
  | swap => 0x08
  | convert => 0x09
  | loadField => 0x0a
  | storeField => 0x0b
  | loadItem => 0x0c
  | storeItem => 0x0d
  | intArith .add => 0x10
  | intArith .sub => 0x11
  | intArith .mul => 0x12
  | intArith .div => 0x13
  | intArith .rem => 0x14
  | floatArith .add => 0x18
  | floatArith .sub => 0x19
  | floatArith .mul => 0x1a
  | floatArith .div => 0x1b
  | floatArith .rem => 0x1c
  | equal => 0x1d
  | notEqual => 0x1e
  | greater => 0x1f
  | less => 0x20
  | not => 0x21
  | jump => 0x28
  | jumpFalse => 0x29
  | call => 0x2a
  | ret => 0x2b
  | new => 0x30
  | newArray => 0x31
  | hostCall => 0x40

/-- The operation of a byte, if it is one. -/
def ofByte? (b : UInt8) : Option Op :=
  match b with
  | 0x01 => some noop
  | 0x02 => some pushConst
  | 0x03 => some pushLocal
  | 0x04 => some popLocal
  | 0x05 => some pushThis
  | 0x06 => some dup
  | 0x07 => some drop
  | 0x08 => some swap
  | 0x09 => some convert
  | 0x0a => some loadField
  | 0x0b => some storeField
  | 0x0c => some loadItem
  | 0x0d => some storeItem
  | 0x10 => some (intArith .add)
  | 0x11 => some (intArith .sub)
  | 0x12 => some (intArith .mul)
  | 0x13 => some (intArith .div)
  | 0x14 => some (intArith .rem)
  | 0x18 => some (floatArith .add)
  | 0x19 => some (floatArith .sub)
  | 0x1a => some (floatArith .mul)
  | 0x1b => some (floatArith .div)
  | 0x1c => some (floatArith .rem)
  | 0x1d => some equal
  | 0x1e => some notEqual
  | 0x1f => some greater
  | 0x20 => some less
  | 0x21 => some not
  | 0x28 => some jump
  | 0x29 => some jumpFalse
  | 0x2a => some call
  | 0x2b => some ret
  | 0x30 => some new
  | 0x31 => some newArray
  | 0x40 => some hostCall
  | _ => none

theorem ofByte?_byte (op : Op) : ofByte? op.byte = some op := by
  cases op with
  | intArith a => cases a <;> rfl
  | floatArith a => cases a <;> rfl
  | _ => rfl

/-- The mnemonic of an operation. -/
def mnemonic : Op → String
  | noop => "NOOP"
  | pushConst => "PUSH_C"
  | pushLocal => "PUSH_L"
  | popLocal => "POP_L"
  | pushThis => "PUSH_THIS"
  | dup => "DUP"
  | drop => "DROP"
  | swap => "SWAP"
  | convert => "CONV"
  | loadField => "LOAD_F"
  | storeField => "STORE_F"
  | loadItem => "LOAD_IDX"
  | storeItem => "STORE_IDX"
  | intArith .add => "ADD_I"
  | intArith .sub => "SUB_I"
  | intArith .mul => "MUL_I"
  | intArith .div => "DIV_I"
  | intArith .rem => "REM_I"
  | floatArith .add => "ADD_F"
  | floatArith .sub => "SUB_F"
  | floatArith .mul => "MUL_F"
  | floatArith .div => "DIV_F"
  | floatArith .rem => "REM_F"
  | equal => "EQ"
  | notEqual => "NE"
  | greater => "GT"
  | less => "LT"
  | not => "NOT"
  | jump => "JMP"
  | jumpFalse => "JMP_FALSE"
  | call => "CALL"
  | ret => "RET"
  | new => "NEW"
  | newArray => "NEW_ARR"
  | hostCall => "SYSCALL"

/-- The mnemonic of a byte, for any byte. -/
def mnemonicOf (b : UInt8) : String :=
  match ofByte? b with
  | some op => op.mnemonic
  | none => "UNKNOWN"

end Op

/-! ## Words -/

/-- A packed instruction. -/
abbrev Word := UInt32

/-- Pack an operation byte and an argument, which is cut to 24 bits. -/
def Word.pack (b : UInt8) (arg : Nat) : Word :=
  UInt32.ofNat (b.toNat * 0x1000000 + arg % 0x1000000)

/-- The operation byte of a word. -/
def Word.opByte (w : Word) : UInt8 := (w >>> 24).toUInt8

/-- The argument of a word. -/
def Word.arg (w : Word) : Nat := (w &&& 0x00ffffff).toNat

/-- The packed form of an operation with an argument. -/
def Op.word (op : Op) (arg : Nat) : Word := Word.pack op.byte arg

end ClassAsm.Bytecode
