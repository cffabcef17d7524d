import ClassAsm.Program.Decl

/-!
# Where control goes in a block

The control-flow graph of a block, read off its text.  `Block.next?` says where control goes from an
instruction, given whether its condition holds; `Block.Edge` forgets the condition.  A `Path` is a
walk along the edges from the first instruction, with the instructions on it listed from the last
one back.

Code that no instruction before it leads to is reached by a jump back, or not at all.
`Block.TextEdge` adds the step into such code from the text before it.

In a block that begins with its defines (`Block.DefinesFirst`) control only leaves the order of the
text once all of them have been executed.
-/

namespace ClassAsm.Program

namespace Block

variable (b : Block)

/-- The loops that are open before the instruction with index `i`, by the index of their first
instruction, the innermost first. -/
def openLoops : Nat → List Nat
  | 0 => []
  | i + 1 =>
    match b.code[i]?.map Instruction.op with
    | some .loop => i :: openLoops i
    | some .breakLoop => (openLoops i).tail
    | _ => openLoops i

/-- Where the instruction with index `i` jumps to: a label, or the first instruction of the
innermost open loop. -/
def target? (i : Nat) (instr : Instruction) : Option Nat :=
  match instr.op, instr.operands with
  | .goto, [.identifier name] | .jump, [.identifier name] => (b.label? name).bind Int.toNat?
  | .repeatLoop, _ => (b.openLoops i).head?
  | _, _ => none

/-- Where control goes from the instruction with index `i`: a conditional that fails skips the next
instruction, and nothing follows a return. -/
def next? (i : Nat) (holds : Bool) : Option Nat :=
  match b.code[i]? with
  | none => none
  | some instr =>
    match instr.op with
    | .isTrue | .isFalse | .isEqual | .isUnequal | .isGreater | .isLess =>
      some (if holds then i + 1 else i + 2)
    | .goto | .jump | .repeatLoop => b.target? i instr
    | .ret => none
    | _ => some (i + 1)

/-- Control may go from one instruction to another. -/
def Edge (i j : Nat) : Prop := ∃ holds, b.next? i holds = some j

instance (i j : Nat) : Decidable (b.Edge i j) :=
  inferInstanceAs (Decidable (∃ holds, b.next? i holds = some j))

/-- Control may go from one instruction to another, or no instruction leads ahead to the other,
which is the next one of the text. -/
def TextEdge (i j : Nat) : Prop := b.Edge i j ∨ (j = i + 1 ∧ ∀ k < j, ¬b.Edge k j)

end Block

/-- A walk along edges from the first instruction to the one with index `i`.  The list has the
instructions that it passes, the last one first. -/
inductive Path (edge : Nat → Nat → Prop) : List Nat → Nat → Prop where
  | start : Path edge [] 0
  | step {passed : List Nat} {i j : Nat} : Path edge passed i → edge i j →
      Path edge (i :: passed) j

theorem Block.Edge.lt {b : Block} {i j : Nat} (h : b.Edge i j) : i < b.code.size := by
  obtain ⟨holds, h⟩ := h
  refine Nat.lt_of_not_le fun hi ↦ ?_
  rw [next?, Array.getElem?_eq_none hi] at h
  cases h

/-! ## Blocks that begin with their defines -/

/-- The instruction is a conditional, a jump or the beginning of a loop. -/
def Opcode.branches : Opcode → Bool
  | isTrue | isFalse | isEqual | isUnequal | isGreater | isLess | goto | jump | loop => true
  | _ => false

namespace Block

variable {b : Block} {i j k : Nat}

/-- No define stands at the index `k` or behind it. -/
def Settled (b : Block) (k : Nat) : Prop := ∀ instr ∈ b.code.toList.drop k, instr.op ≠ .define

instance : Decidable (b.Settled k) :=
  inferInstanceAs (Decidable (∀ instr ∈ b.code.toList.drop k, instr.op ≠ .define))

/-- All defines stand before the first conditional, jump, loop and label. -/
structure DefinesFirst (b : Block) : Prop where
  code : ∀ i (_ : i < b.code.size), b.code[i].op.branches = true → b.Settled i
  labels : ∀ l ∈ b.labels, b.Settled l.2.toNat

instance : Decidable b.DefinesFirst :=
  decidable_of_iff ((∀ i (_ : i < b.code.size), b.code[i].op.branches = true → b.Settled i) ∧
    ∀ l ∈ b.labels, b.Settled l.2.toNat) ⟨fun h ↦ ⟨h.1, h.2⟩, fun h ↦ ⟨h.code, h.labels⟩⟩

theorem Settled.mono (h : b.Settled j) (hjk : j ≤ k) : b.Settled k :=
  fun instr hinstr ↦ h instr ((List.drop_sublist_drop_left _ hjk).subset hinstr)

theorem DefinesFirst.settled {instr : Instruction} (h : b.DefinesFirst)
    (hinstr : b.code[i]? = some instr) (hop : instr.op.branches = true) : b.Settled i := by
  obtain ⟨hi, rfl⟩ := Array.getElem?_eq_some_iff.1 hinstr
  exact h.code i hi hop

theorem mem_openLoops (h : j ∈ b.openLoops i) :
    j < i ∧ ∃ instr, b.code[j]? = some instr ∧ instr.op = .loop := by
  induction i with
  | zero => cases h
  | succ i ih =>
    have hrest (h : j ∈ b.openLoops i) : j < i + 1 ∧ ∃ instr, b.code[j]? = some instr ∧
      instr.op = .loop := ⟨Nat.lt_succ_of_lt (ih h).1, (ih h).2⟩
    rw [openLoops] at h
    split at h
    · rename_i hmap
      rcases List.mem_cons.1 h with rfl | h
      · exact ⟨Nat.lt_succ_self j, Option.map_eq_some_iff.1 hmap⟩
      · exact hrest h
    · exact hrest (List.mem_of_mem_tail h)
    · exact hrest h

theorem DefinesFirst.settled_of_label? (h : b.DefinesFirst) {name : String}
    (hj : (b.label? name).bind Int.toNat? = some j) : b.Settled j := by
  obtain ⟨z, hz, hj⟩ := Option.bind_eq_some_iff.1 hj
  obtain ⟨l, hl, rfl⟩ := Option.map_eq_some_iff.1 hz
  have hlabel := h.labels l (List.mem_of_find?_eq_some hl)
  cases hpos : l.2 with
  | ofNat k =>
    rw [hpos] at hj hlabel
    exact Option.some.inj hj ▸ hlabel
  | negSucc k =>
    rw [hpos] at hj
    cases hj

/-- **Control leaves the order of the text only when all defines have been passed.** -/
theorem DefinesFirst.settled_of_next? (h : b.DefinesFirst) {holds : Bool}
    (hnext : b.next? i holds = some j) : j = i + 1 ∨ (b.Settled (i + 1) ∧ b.Settled j) := by
  cases hinstr : b.code[i]? with
  | none =>
    rw [next?, hinstr] at hnext
    cases hnext
  | some instr =>
    rw [next?, hinstr] at hnext
    obtain ⟨op, ops, line⟩ := instr
    cases op with
    | isTrue | isFalse | isEqual | isUnequal | isGreater | isLess =>
      have hi : b.Settled i := h.settled hinstr rfl
      have hj : i ≤ j := by
        cases hnext
        split <;> omega
      exact .inr ⟨hi.mono (Nat.le_succ i), hi.mono hj⟩
    | goto | jump =>
      have hi : b.Settled i := h.settled hinstr rfl
      match ops, hnext with
      | [.identifier name], hnext =>
        exact .inr ⟨hi.mono (Nat.le_succ i), h.settled_of_label? hnext⟩
    | repeatLoop =>
      obtain ⟨hlt, instr, hloop, hop⟩ := mem_openLoops (List.mem_of_mem_head? hnext)
      have hj : b.Settled j := h.settled hloop (by rw [hop]; rfl)
      exact .inr ⟨hj.mono (by omega), hj⟩
    | ret => cases hnext
    | _ => exact .inl (Option.some.inj hnext).symm

end Block

/-- All blocks of the program begin with their defines. -/
def DefinesFirst (p : Program) : Prop :=
  ∀ c ∈ p.classes, (∀ m ∈ c.constructors, m.body.DefinesFirst) ∧
  ∀ m ∈ c.methods, m.body.DefinesFirst

instance (p : Program) : Decidable p.DefinesFirst :=
  inferInstanceAs (Decidable (∀ c ∈ p.classes, (∀ m ∈ c.constructors, m.body.DefinesFirst) ∧
    ∀ m ∈ c.methods, m.body.DefinesFirst))

/-- A path that has left the first instruction comes from somewhere. -/
theorem Path.exists_last {edge : Nat → Nat → Prop} {passed : List Nat} {i : Nat}
    (h : Path edge passed i) (hi : i ≠ 0) :
    ∃ k before, passed = k :: before ∧ Path edge before k ∧ edge k i := by
  cases h with
  | start => exact absurd rfl hi
  | step hpath hedge => exact ⟨_, _, rfl, hpath, hedge⟩

end ClassAsm.Program
