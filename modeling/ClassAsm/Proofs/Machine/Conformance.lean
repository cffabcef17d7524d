import ClassAsm.Proofs.Machine.Typing

/-!
# Values of their types in one unit

A host that has loaded one unit meets only values whose types are those of the unit: `Has m` and
`Orderly m` are the notions of `Machine.Typing` for the classes of one module.  Then the objects of
the heap belong to classes of the module (`orderly_iff`).

`conforming m True` allows void everywhere and is lawful for all programs; `conforming m False` does
not, and is lawful for those whose blocks begin with their defines.
-/

namespace ClassAsm.Machine

open Bytecode Codegen Reference

/-! ## Values -/

/-- The value has the type, as far as its tag and the cell that it refers to show. -/
def Has (m : CompiledModule) (h : Heap) : Ty → Value → Prop
  | .array elem, v =>
    v = .null ∨ ∃ addr c, v = .ofArray addr ∧ h.arrays[addr]? = some c ∧ c.elem = elem
  | .object name, v => v = .null ∨
      ∃ addr c, v = .ofObject addr ∧ h.objects[addr]? = some c ∧ m.class? name = some c.cls
  | .bareArray, v => v = .null
  | t, v => t.Admits v

/-- The value has the type, or it is void where that is allowed. -/
def Allowed (m : CompiledModule) (loose : Prop) (h : Heap) (t : Ty) (v : Value) : Prop :=
  Has m h t v ∨ (loose ∧ v = .void)

/-- The classes of one module. -/
def classTable (m : CompiledModule) : ClassTable := ⟨m.class?, CompiledModule.name_of_class?⟩

theorem holds_classTable (m : CompiledModule) : (classTable m).Holds m := fun hcls ↦ hcls

theorem allowed_eq (m : CompiledModule) (loose : Prop) :
    Allowed m loose = AllowedIn (classTable m) loose := rfl

/-! ## Heaps -/

/-- Everything in the heap has its type.  The objects belong to classes of the module that are not
abstract. -/
structure Orderly (m : CompiledModule) (loose : Prop) (h : Heap) : Prop where
  items : ∀ (addr : Nat) (c : ArrayCell), h.arrays[addr]? = some c →
    ∀ v ∈ c.items, Allowed m loose h c.elem v
  home : ∀ (addr : Nat) (c : ObjectCell), h.objects[addr]? = some c → c.cls.home = m
  concrete : ∀ (addr : Nat) (c : ObjectCell), h.objects[addr]? = some c →
    c.cls.get.isAbstract = false
  size : ∀ (addr : Nat) (c : ObjectCell), h.objects[addr]? = some c →
    c.fields.size = c.cls.get.fields.size
  fields : ∀ (addr : Nat) (c : ObjectCell), h.objects[addr]? = some c →
    ∀ (i : Nat) (slot : Bytecode.FieldSlot) (v : Value), c.cls.get.fields[i]? = some slot →
      c.fields[i]? = some v → Allowed m loose h slot.type v

/-! ## The disciplines -/

/-- All values have their types, or are void where that is allowed. -/
def conforming (p : Program) (m : CompiledModule) (loose : Prop) : Discipline p m where
  value := Allowed m loose
  frame := Equipped (classTable m) loose
  cells im cs := cs <+: im.cells
  heap := Orderly m loose
  fault := Benign loose

section Conforming

variable {p : Program} {m : CompiledModule} {loose : Prop} {h : Heap} {im : Image p m}
  {rs : Registers} {cs : List Ty} {f : Frame}

theorem orderly_iff (hl : Loaded p m) : Orderly m loose h ↔ Tidy (classTable m) loose h := by
  constructor
  · intro hh
    refine ⟨hh.items, fun addr c hc ↦ ?_, hh.concrete, hh.size, hh.fields⟩
    have hname := hl.class?_name (hh.home addr c hc)
    rwa [hh.home addr c hc] at hname
  · intro hh
    exact ⟨hh.items, fun addr c hc ↦ CompiledModule.class?_home (hh.known addr c hc), hh.concrete,
      hh.size, hh.fields⟩

theorem conforming_eq (hl : Loaded p m) :
    conforming p m loose = typedBy (classTable m) p m loose := by
  have hheap : Orderly m loose = Tidy (classTable m) loose := by
    funext h
    exact propext (orderly_iff hl)
  rw [conforming, typedBy, hheap, allowed_eq]

/-- **The disciplines are lawful**: the loose one for every program, the strict one if all blocks
begin with their defines. -/
theorem conforming_lawful (hl : Loaded p m)
    (hfirst : loose ∨ ∀ im : Image p m, im.member.body.DefinesFirst) :
    (conforming p m loose).Lawful := by
  rw [conforming_eq hl]
  exact typedBy_lawful hl (holds_classTable m) hfirst

end Conforming

end ClassAsm.Machine
