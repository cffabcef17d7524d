import ClassAsm.Compile

/-!
# The module cache

Compiled modules by source text.  A cache that is full forgets the entry that has not been asked for
the longest.  Only successes are kept: a unit that does not compile is compiled again each time.
-/

namespace ClassAsm.Session

open Bytecode (CompiledModule)

/-- A bounded cache, with the entry asked for last first.  It stands for a library's table of the
entries used last, of which this is assumed: finding an entry and adding one make it the newest,
adding to a full cache drops the oldest, and nothing else is ever dropped. -/
structure Cache where
  capacity : Nat
  entries : List (String × CompiledModule) := []

namespace Cache

/-- The capacity used unless a positive one is asked for. -/
def defaultCapacity : Nat := 128

/-- An empty cache for at most `size` modules. -/
def ofSize (size : Int) : Cache := ⟨if size ≤ 0 then defaultCapacity else size.toNat, []⟩

/-- How many modules are cached. -/
def size (c : Cache) : Nat := c.entries.length

/-- The cached module of a source text. -/
def find? (c : Cache) (src : String) : Option CompiledModule :=
  (c.entries.find? fun e ↦ e.1 = src).map (·.2)

/-- The cache with the module of a source text as its newest entry. -/
def insert (c : Cache) (src : String) (m : CompiledModule) : Cache :=
  { c with entries := ((src, m) :: c.entries.filter fun e ↦ e.1 ≠ src).take c.capacity }

/-- Forget everything. -/
def clear (c : Cache) : Cache := { c with entries := [] }

/-- The module of a source text, compiled unless it is cached, and the cache afterwards. -/
def compile (c : Cache) (src : String) : Except CompileError CompiledModule × Cache :=
  match c.find? src with
  | some m => (.ok m, c.insert src m)
  | none =>
    match ClassAsm.compile src with
    | .ok m => (.ok m, c.insert src m)
    | .error e => (.error e, c)

end Cache

end ClassAsm.Session
