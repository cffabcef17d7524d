/-!
# Built-in host functions

The host functions that compiled code relies on.  The place of a function in the table is the
argument of the instruction that calls it.
-/

namespace ClassAsm.Bytecode

/-- The names of the built-in host functions, in order. -/
def builtinNames : List String := ["print"]

/-- The place of a built-in host function. -/
def builtinIndex? (name : String) : Option Nat := builtinNames.findIdx? (· = name)

end ClassAsm.Bytecode
