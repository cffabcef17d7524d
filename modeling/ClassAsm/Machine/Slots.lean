/-!
# Slot memory

A fixed number of slots used from the bottom up: the slots below `top` are in use, the others are
meant to be blank.  Popping blanks a slot, so a popped value is not kept alive and a memory that has
been emptied is as good as new.
-/

namespace ClassAsm.Machine

/-- A memory of `n` slots of which the lowest `top` are in use. -/
structure Slots (α : Type) [Inhabited α] (n : Nat) where
  cells : Vector α n := Vector.replicate n default
  top : Nat := 0
  top_le : top ≤ n := by omega

namespace Slots

variable {α : Type} [Inhabited α] {n : Nat}

/-- The memory with every slot blank. -/
def empty : Slots α n := {}

instance : Inhabited (Slots α n) := ⟨empty⟩

/-- The slots in use, lowest first. -/
def toList (s : Slots α n) : List α := s.cells.toList.take s.top

/-- Put a value into the lowest slot that is not in use. -/
def push (s : Slots α n) (v : α) (h : s.top < n) : Slots α n :=
  let { cells, top, .. } := s
  ⟨cells.set top v h, top + 1, h⟩

/-- The highest value in use. -/
def peek (s : Slots α n) (h : 0 < s.top) : α :=
  have := s.top_le
  s.cells.get ⟨s.top - 1, by omega⟩

/-- Blank the highest slot in use. -/
def pop (s : Slots α n) (h : 0 < s.top) : Slots α n :=
  let { cells, top, top_le } := s
  have h : 0 < top := h
  ⟨cells.set (top - 1) default (by omega), top - 1, by omega⟩

/-- Replace the highest value in use, if there is one. -/
def modifyTop (s : Slots α n) (f : α → α) : Slots α n :=
  if s.top = 0 then s
  else
    let { cells, top, top_le } := s
    ⟨⟨cells.toArray.modify (top - 1) f, by simp⟩, top, top_le⟩

/-- Pop `k` times, or until no slot is in use. -/
def popMany (s : Slots α n) : Nat → Slots α n
  | 0 => s
  | k + 1 => if h : 0 < s.top then (s.pop h).popMany k else s

/-- Pop until only `k` slots are in use. -/
def dropTo (s : Slots α n) (k : Nat) : Slots α n := s.popMany (s.top - k)

end Slots

end ClassAsm.Machine
