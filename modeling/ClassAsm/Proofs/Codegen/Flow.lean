import Mathlib.Algebra.GroupWithZero.Nat
import ClassAsm.Codegen.Registers

/-!
# Facts that flow

Where paths join, facts are met, and the meet keeps a type only if both sides have it.  What the
generator relies on is `Below`: a register whose type is known on one side has that type on the
other.

Facts are only lost, and `Flow.rank` counts how much there is to lose: seven for an instruction that
nothing has reached, and otherwise two for a typed register and one for a mixed one.  A join that
changes anything makes it smaller, so that the passes over a block come to an end.
-/

namespace ClassAsm.Codegen

variable {f g : Flow} {j : Nat}

/-! ## Registers and their slots -/

theorem Register.slot_lt (r : Register) : r.slot < registerCount := by
  cases r <;> decide

theorem Register.slot_inj {r q : Register} (h : r.slot = q.slot) : r = q := by
  cases r <;> cases q <;> first | rfl | cases h

/-! ## The order of facts -/

/-- What is known with its type in `a` is known with that type in `b`. -/
def Registers.Below (a b : Registers) : Prop := ∀ r t, a.get r = .typed t → b.get r = .typed t

theorem Registers.Below.refl (a : Registers) : a.Below a := fun _ _ h ↦ h

variable {a b : Registers}

theorem Registers.Below.trans {c : Registers} (h : a.Below b) (h' : b.Below c) : a.Below c :=
  fun r t ht ↦ h' r t (h r t ht)

theorem Fact.meet_eq_typed {a b : Fact} {t : Ty} (h : a.meet b = .typed t) :
    a = .typed t ∧ b = .typed t := by
  cases a <;> cases b <;> simp only [Fact.meet, reduceCtorEq] at h
  rename_i x y
  split at h
  · rename_i hxy
    exact ⟨h, hxy ▸ h⟩
  · cases h

theorem Registers.get_meet (a b : Registers) (r : Register) :
    (a.meet b).get r = (a.get r).meet (b.get r) := by
  cases r <;> rfl

theorem Registers.meet_below_left (a b : Registers) : (a.meet b).Below a := by
  intro r t h
  rw [get_meet] at h
  exact (Fact.meet_eq_typed h).1

theorem Registers.meet_below_right (a b : Registers) : (a.meet b).Below b := by
  intro r t h
  rw [get_meet] at h
  exact (Fact.meet_eq_typed h).2

theorem Registers.get_set (rs : Registers) (r r' : Register) (f : Fact) :
    (rs.set r f).get r' = if r' = r then f else rs.get r' := by
  cases r <;> cases r' <;> rfl

/-! ## Facts for each instruction -/

variable {x : Option Registers}

/-- Joining facts that are there keeps below both of them. -/
theorem merge_below_left : ∃ c, Option.merge Registers.meet (some a) x = some c ∧ c.Below a := by
  cases x with
  | none => exact ⟨a, rfl, .refl a⟩
  | some b => exact ⟨a.meet b, rfl, a.meet_below_left b⟩

theorem merge_below_right : ∃ c, Option.merge Registers.meet x (some b) = some c ∧ c.Below b := by
  cases x with
  | none => exact ⟨b, rfl, .refl b⟩
  | some a => exact ⟨a.meet b, rfl, a.meet_below_right b⟩

namespace Flow

@[simp] theorem size_add (f : Flow) (i : Nat) (rs : Registers) : (f.add i rs).size = f.size := by
  simp [add]

variable {i : Nat} {rs : Registers}

theorem at_add_of_ne (h : i ≠ j) : (f.add i rs).at j = f.at j := by
  rw [Flow.at, Flow.at, add, Array.getElem?_modify, if_neg h]

theorem at_add_self (h : i < f.size) :
    (f.add i rs).at i = Option.merge Registers.meet (f.at i) (some rs) := by
  rw [Flow.at, Flow.at, add, Array.getElem?_modify, if_pos rfl, Array.getElem?_eq_getElem h]
  rfl

theorem at_add_below (h : i < f.size) : ∃ c, (f.add i rs).at i = some c ∧ c.Below rs := by
  rw [at_add_self h]
  exact merge_below_right

theorem at_add_mono (ha : f.at j = some a) :
    ∃ c, (f.add i rs).at j = some c ∧ c.Below a := by
  by_cases hij : i = j
  · subst hij
    have hi : i < f.size := by
      refine Nat.lt_of_not_le fun hi ↦ ?_
      rw [Flow.at, Array.getElem?_eq_none hi] at ha
      cases ha
    rw [at_add_self hi, ha]
    exact merge_below_left
  · rw [at_add_of_ne hij]
    exact ⟨a, ha, .refl a⟩

theorem at_merge (h : f.size = g.size) (i : Nat) :
    (f.merge g).at i = Option.merge Registers.meet (f.at i) (g.at i) := by
  rw [Flow.at, Flow.at, Flow.at, merge, Array.getElem?_zipWith]
  by_cases hi : i < f.size
  · rw [Array.getElem?_eq_getElem hi, Array.getElem?_eq_getElem (h ▸ hi)]
    rfl
  · rw [Array.getElem?_eq_none (Nat.le_of_not_lt hi),
      Array.getElem?_eq_none (h ▸ Nat.le_of_not_lt hi)]
    rfl

/-- Facts that a join does not change are below all that was joined into them. -/
theorem below_of_merge_eq (hsize : f.size = g.size) (h : f.merge g = f)
    (hb : g.at i = some b) : ∃ a, f.at i = some a ∧ a.Below b := by
  have hi := at_merge hsize i
  rw [h, hb] at hi
  rw [hi]
  exact merge_below_right

end Flow

/-! ## How much there is to lose -/

/-- How often a fact can change. -/
def Fact.rank : Fact → Nat
  | unset => 0
  | mixed => 1
  | typed _ => 2

/-- How often the facts about all registers can change. -/
def Registers.rank (rs : Registers) : Nat := rs.selected.rank + rs.comparing.rank + rs.result.rank

/-- How often what is recorded for an instruction can change. -/
def recordRank : Option Registers → Nat
  | none => 7
  | some rs => rs.rank

/-- How often a flow can change. -/
def Flow.rank (f : Flow) : Nat := (f.toList.map recordRank).sum

theorem Fact.rank_meet (a b : Fact) : (a.meet b).rank < a.rank ∨ a.meet b = a := by
  cases a <;> cases b <;> simp only [meet, rank] <;> grind [Fact.rank]

theorem Registers.rank_meet (a b : Registers) : (a.meet b).rank < a.rank ∨ a.meet b = a := by
  obtain ⟨s, c, r⟩ := a
  obtain ⟨s', c', r'⟩ := b
  have hs := s.rank_meet s'
  have hc := c.rank_meet c'
  have hr := r.rank_meet r'
  simp only [meet, rank, mk.injEq]
  grind

theorem Registers.rank_le (a : Registers) : a.rank ≤ 6 := by
  have h (f : Fact) : f.rank ≤ 2 := by cases f <;> simp [Fact.rank]
  have := h a.selected
  have := h a.comparing
  have := h a.result
  rw [rank]
  omega

theorem recordRank_merge (a b : Option Registers) :
    recordRank (Option.merge Registers.meet a b) < recordRank a ∨
      Option.merge Registers.meet a b = a := by
  cases a with
  | none =>
    cases b with
    | none => exact .inr rfl
    | some b =>
      have := b.rank_le
      exact .inl (show b.rank < 7 by omega)
  | some a =>
    cases b with
    | none => exact .inr rfl
    | some b =>
      rcases a.rank_meet b with h | h
      · exact .inl h
      · exact .inr (congrArg some h)

theorem sum_recordRank_zipWith {xs ys : List (Option Registers)} (h : xs.length = ys.length) :
    ((xs.zipWith (Option.merge Registers.meet) ys).map recordRank).sum < (xs.map recordRank).sum ∨
      xs.zipWith (Option.merge Registers.meet) ys = xs := by
  induction xs generalizing ys with
  | nil => exact .inr rfl
  | cons x xs ih =>
    cases ys with
    | nil => cases h
    | cons y ys =>
      have hhead := recordRank_merge x y
      have htail := ih (Nat.succ.inj h)
      simp only [List.zipWith_cons_cons, List.map_cons, List.sum_cons, List.cons.injEq]
      grind

/-- **A join that changes something leaves less to lose.** -/
theorem Flow.rank_merge (h : f.size = g.size) (hne : f.merge g ≠ f) :
    (f.merge g).rank < f.rank := by
  have hlen : f.toList.length = g.toList.length := by simpa using h
  have hzip := sum_recordRank_zipWith hlen
  rw [rank, rank, merge, Array.toList_zipWith]
  refine hzip.resolve_right fun heq ↦ hne ?_
  rw [merge, ← Array.toList_inj, Array.toList_zipWith, heq]

theorem Flow.size_merge (h : f.size = g.size) : (f.merge g).size = f.size := by
  simp [merge, h]

theorem Flow.rank_empty (n : Nat) : (empty n).rank = 7 * n := by
  simp [rank, empty, recordRank, Nat.mul_comm]

end ClassAsm.Codegen
