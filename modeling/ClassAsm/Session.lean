import ClassAsm.Machine.Host
import ClassAsm.Session.Cache
import ClassAsm.Session.Registry

/-!
# Sessions

A session compiles units through a cache, keeps the classes that have been loaded, and runs their
constructors and methods.  Every call from the host runs on a fresh machine; what outlives a call is
the heap and the text that was printed.
-/

namespace ClassAsm

open Bytecode (CompiledModule ClassRef)

/-- The state of a session. -/
structure Session where
  cache : Session.Cache
  registry : Session.Registry := {}
  /-- The instruction limit of every call; not positive for the default. -/
  gasLimit : Int
  heap : Heap := {}
  output : String := ""

namespace Session

/-- Why a request to a session fails. -/
inductive Error where
  | compile (e : CompileError)
  | stop (s : Machine.Stop)

/-- The text of an error. -/
def Error.text : Error → String
  | compile e => e.text
  | stop (.fault f) => f.text
  | stop (.refused d) => d.text
  | stop (.abort text) => text

/-- A request to a session. -/
abbrev Request := EStateM Error Session

/-- A new session with the given cache size and instruction limit. -/
def start (cacheSize gasLimit : Int) : Session := { cache := .ofSize cacheSize, gasLimit }

/-- Compile a unit through the cache. -/
def compile (src : String) : Request CompiledModule := fun s ↦
  match s.cache.compile src with
  | (.ok m, cache) => .ok m { s with cache }
  | (.error e, cache) => .error (.compile e) { s with cache }

/-- Load all classes of a unit that `compiling` yields, and return their names in declaration
order. -/
def loadFrom (compiling : Request CompiledModule) : Request (List String) := do
  let m ← compiling
  let s ← get
  let (loaded, registry) := s.registry.load m
  set { s with registry }
  match loaded with
  | .error d => throw (.stop (.refused d))
  | .ok () => return (Registry.classesOf m).map (·.1)

/-- Load all classes of a unit. -/
def load (src : String) : Request (List String) := loadFrom (compile src)

/-- Forget a class.  Its objects live on. -/
def unload (name : String) : Request Unit := modify fun s ↦
  { s with registry := s.registry.erase name }

/-- Empty the cache. -/
def purge : Request Unit := modify fun s ↦ { s with cache := s.cache.clear }

/-- The machine that a call runs on. -/
def machine (s : Session) : Machine.State :=
  { host := Machine.builtins, sink := .attached, gasLimit := s.gasLimit, heap := s.heap
    output := s.output }

/-- Run a call on a fresh machine. -/
def onMachine {α : Type} (act : Machine.HostCall α) : Request α := fun s ↦
  let m := s.machine
  let s := { s with heap := {}, output := "" }
  match act m with
  | .ok a m => .ok a { s with heap := m.heap, output := m.output }
  | .error stop m => .error (.stop stop) { s with heap := m.heap, output := m.output }

/-- Make an instance of a loaded class through its constructor number `ctor`. -/
def new (name : String) (ctor : Int := 0) : Request Value := do
  match (← get).registry.find? name with
  | none => throw (.stop (.refused (Machine.refusal name ("class " ++ name ++ " is not loaded"))))
  | some cls => onMachine (Machine.instantiate cls ctor)

/-- Call a public method of an object. -/
def call (obj : Option Nat) (method : String) : Request Value :=
  onMachine (Machine.callObject obj method)

/-- Read a public field of the object at an address. -/
def getField (addr : Nat) (name : String) : Request Value := do
  match (← get).heap.objects[addr]? with
  | none => return .void
  | some cell =>
    match Machine.getField cell name with
    | .ok v => return v
    | .error d => throw (.stop (.refused d))

/-- Write a public field of the object at an address. -/
def setField (addr : Nat) (name : String) (v : Value) : Request Unit := do
  let s ← get
  match Machine.setField s.heap addr name v with
  | .ok heap => set { s with heap }
  | .error d => throw (.stop (.refused d))

end Session

end ClassAsm
