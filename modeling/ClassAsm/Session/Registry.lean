import ClassAsm.Bytecode.Module
import ClassAsm.Diagnostic

/-!
# Loaded classes

The classes that a host has loaded, by name.  A unit is loaded as a whole or not at all: if one of
its class names is taken, none of its classes becomes known.
-/

namespace ClassAsm.Session

open Bytecode (CompiledModule ClassRef)

/-- The loaded classes by name.  The list stands for a map from names to classes,
used by one host at a time: the first entry of a name counts, and the order does not matter. -/
structure Registry where
  entries : List (String × ClassRef) := []

namespace Registry

/-- The loaded class with a name. -/
def find? (r : Registry) (name : String) : Option ClassRef :=
  (r.entries.find? fun e ↦ e.1 = name).map (·.2)

/-- The names of the loaded classes, in ascending order. -/
def names (r : Registry) : List String :=
  (r.entries.map (·.1)).mergeSort fun a b ↦ decide (a ≤ b)

/-- Forget a class. -/
def erase (r : Registry) (name : String) : Registry := ⟨r.entries.filter fun e ↦ e.1 ≠ name⟩

/-- The classes of a module with their names, in declaration order. -/
def classesOf (m : CompiledModule) : List (String × ClassRef) :=
  (List.finRange m.classes.size).map fun i ↦ (m.classes[i].name, ⟨m, i⟩)

/-- Add a class, unless its name is taken. -/
def add? (r : Registry) (e : String × ClassRef) : Option Registry :=
  if (r.find? e.1).isSome then none else some ⟨r.entries ++ [e]⟩

/-- The complaint that a name is taken. -/
def taken (name : String) : Diagnostic :=
  ⟨.instantiation, 0, name, "class " ++ name ++ " is already loaded"⟩

/-- Add classes one after the other.  If a name is taken, those that came before are forgotten
again; `done` holds their names. -/
def addAll (r : Registry) (done : List String) :
    List (String × ClassRef) → Except Diagnostic Unit × Registry
  | [] => (.ok (), r)
  | e :: rest =>
    match r.add? e with
    | some r => r.addAll (done ++ [e.1]) rest
    | none => (.error (taken e.1), done.foldl erase r)

/-- Load all classes of a module, once none of their names is found to be taken.  The first name
that is taken is the one complained about. -/
def load (r : Registry) (m : CompiledModule) : Except Diagnostic Unit × Registry :=
  match (classesOf m).find? fun e ↦ (r.find? e.1).isSome with
  | some e => (.error (taken e.1), r)
  | none => r.addAll [] (classesOf m)

end Registry

end ClassAsm.Session
