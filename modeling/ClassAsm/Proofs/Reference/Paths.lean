import ClassAsm.Proofs.Codegen.Block
import ClassAsm.Proofs.Program.ControlFlow

/-!
# What a path does to the registers

Which register an instruction writes can be told from the instruction, and the type of what it
writes from its operand; only `op_select ret` and `op_compare ret` copy the type of another
register, which is that of its last write on the same path.  `typeAlong` is the type with which a
path has last written a register, and `Unwritten` says that it has not.

`next?_of_statement?` and `after_of_statement?` tie the text of an instruction to what it says.
-/

namespace ClassAsm.Reference

open Bytecode Codegen Program

variable {st : Statement} {i j : Nat} {n : Names} {b : Block} {instr : Instruction}

/-! ## Control -/

/-- Where control goes from the statement with index `i`, given whether its condition holds. -/
def Statement.next? (i : Nat) (holds : Bool) : Statement → Option Nat
  | truth _ _ | compare _ _ _ => some (if holds then i + 1 else i + 2)
  | jump j => some j
  | ret _ => none
  | _ => some (i + 1)

/-- Control goes on with the next instruction, or along the branch. -/
theorem Statement.exists_next?_iff :
    (∃ holds, st.next? i holds = some j) ↔
      (st.falls = true ∧ i + 1 = j) ∨ st.branch? i = some j := by
  cases st <;> simp [next?, falls, branch?, or_comm]

theorem Scope.loops_after (isClass : String → Bool) (sc : Scope) (i : Nat) (instr : Instruction) :
    (sc.after isClass i instr).loops = match instr.op with
      | .loop => i :: sc.loops
      | .breakLoop => sc.loops.tail
      | _ => sc.loops := by
  unfold Scope.after
  split
  · rename_i hop _
    rw [hop]
    split <;> rfl
  · rename_i hop _
    rw [hop]
    rfl
  · rename_i hop
    rw [hop]
  · rename_i hop
    rw [hop]
  · rename_i hloop hbreak _ _
    split
    · rename_i hop
      exact (hloop hop).elim
    · rename_i hop
      exact (hbreak hop).elim
    · rfl

theorem Scope.loops_before (isClass : String → Bool) (b : Block) (hi : i ≤ b.code.size) :
    (Scope.before isClass b i).loops = b.openLoops i := by
  induction i with
  | zero => rfl
  | succ i ih =>
    have hinstr : b.code[i]? = some b.code[i] := Array.getElem?_eq_getElem hi
    rw [Scope.before_succ hinstr, loops_after, Block.openLoops, hinstr, Option.map_some,
      ih (Nat.le_of_succ_le hi)]
    cases b.code[i].op <;> rfl

section

variable (hinstr : b.code[i]? = some instr) (hloops : n.scope.loops = b.openLoops i)
  (h : n.statement? b instr = some st)

include hinstr hloops h

/-- **Control goes where the text says.** -/
theorem next?_of_statement? (holds : Bool) : b.next? i holds = st.next? i holds := by
  rw [Block.next?, hinstr]
  cases Names.statement?_eq_some_iff.1 h with
  | skip _ _ hop => rcases hop with rfl | rfl | rfl <;> rfl
  | @arith op _ _ _ _ _ hop | @compare op _ _ _ _ _ hop => cases op <;> cases hop <;> rfl
  | jump _ hop hj =>
    rcases hop with rfl | rfl <;> exact congrArg (Option.bind · Int.toNat?) hj
  | again _ _ hj =>
    rw [hloops] at hj
    exact hj
  | _ => rfl

theorem edge_iff_of_statement? :
    b.Edge i j ↔ (st.falls = true ∧ i + 1 = j) ∨ st.branch? i = some j := by
  rw [← Statement.exists_next?_iff, Block.Edge]
  exact exists_congr fun holds ↦ by rw [next?_of_statement? hinstr hloops h]

end

/-! ## Registers -/

/-- The result type of the method that a call names. -/
def calledType? (owner : ClassRef) : List Operand → Option Ty
  | [.identifier name] =>
    ((owner.get.methodIndex? name).bind fun k ↦ owner.get.methods[k]?).map fun callee ↦
      callee.returns
  | _ => none

/-- The register that an instruction writes.  A call writes the result of a method that has one. -/
def writes? (owner : ClassRef) (instr : Instruction) : Option Register :=
  match instr.op with
  | .select => some .selected
  | .compare => some .comparing
  | .add | .sub | .mul | .div | .rem => some .result
  | .call => if (calledType? owner instr.operands).getD .void = .void then none else some .result
  | _ => none

/-- The type of what an instruction writes to a register. -/
def Names.written? (n : Names) (instr : Instruction) : Option Ty :=
  match instr.op, instr.operands with
  | .select, [o] | .compare, [o] => (n.operand? o).map Expr.type
  | .add, _ | .sub, _ | .mul, _ | .div, _ | .rem, _ => some .float
  | .call, ops => calledType? n.owner ops
  | _, _ => none

/-- Whether a class of the module has the given name. -/
def isClassIn (owner : ClassRef) (name : String) : Bool := (owner.home.classIndex? name).isSome

/-- The type with which a path has last written a register.  The path has its last instruction
first. -/
def typeAlong (owner : ClassRef) (b : Block) : List Nat → Register → Option Ty
  | [], _ => none
  | i :: passed, r =>
    match b.code[i]? with
    | none => typeAlong owner b passed r
    | some instr =>
      if writes? owner instr = some r then
        Names.written? ⟨owner, Scope.before (isClassIn owner) b i, typeAlong owner b passed⟩ instr
      else typeAlong owner b passed r

/-- A path does not write a register. -/
def Unwritten (owner : ClassRef) (b : Block) (r : Register) (passed : List Nat) : Prop :=
  ∀ i ∈ passed, ∀ instr, b.code[i]? = some instr → writes? owner instr ≠ some r

/-- **What is known behind a statement is what its instruction writes.** -/
theorem after_of_statement? (h : n.statement? b instr = some st) :
    (writes? n.owner instr = none ∧ ∀ rs, st.after rs = rs) ∨
      ∃ r t, writes? n.owner instr = some r ∧ n.written? instr = some t ∧
        ∀ rs, st.after rs = rs.set r (.typed t) := by
  cases Names.statement?_eq_some_iff.1 h with
  | @arith op _ _ _ _ _ hop =>
    cases op <;> cases hop <;> exact .inr ⟨.result, .float, rfl, rfl, fun _ ↦ rfl⟩
  | @compare op _ _ _ _ _ hop => cases op <;> cases hop <;> exact .inl ⟨rfl, fun _ ↦ rfl⟩
  | select _ he =>
    exact .inr ⟨.selected, _, rfl, congrArg (Option.map Expr.type) he, fun _ ↦ rfl⟩
  | comparing _ he =>
    exact .inr ⟨.comparing, _, rfl, congrArg (Option.map Expr.type) he, fun _ ↦ rfl⟩
  | skip _ _ hop => rcases hop with rfl | rfl | rfl <;> exact .inl ⟨rfl, fun _ ↦ rfl⟩
  | jump _ hop => rcases hop with rfl | rfl <;> exact .inl ⟨rfl, fun _ ↦ rfl⟩
  | @call name k callee _ hk hcallee =>
    have hcalled : calledType? n.owner [.identifier name] = some callee.returns := by
      simp [calledType?, hk, hcallee]
    rw [writes?]
    dsimp only
    rw [hcalled]
    by_cases hvoid : callee.returns = .void
    · exact .inl ⟨if_pos hvoid, fun rs ↦ by rw [Statement.after, if_pos hvoid]⟩
    · exact .inr ⟨.result, callee.returns, if_neg hvoid, hcalled, fun rs ↦
        by rw [Statement.after, if_neg hvoid]⟩
  | _ => exact .inl ⟨rfl, fun _ ↦ rfl⟩

/-- The type of what is written depends on no register, or it is that of the result register. -/
theorem written?_cases {t : Ty} (h : n.written? instr = some t) :
    (∀ rs, (n.withRegisters rs).written? instr = some t) ∨ (n.registers .result = some t ∧
        ∀ rs, rs .result = some t → (n.withRegisters rs).written? instr = some t) := by
  obtain ⟨op, ops, line⟩ := instr
  cases op with
  | select | compare =>
    match ops, h with
    | [o], h =>
      obtain ⟨e, he, rfl⟩ := Option.map_eq_some_iff.1 h
      cases o with
      | identifier chain =>
        refine .inl fun rs ↦ ?_
        show ((n.withRegisters rs).resolve? chain).map Expr.type = _
        rw [Names.resolve?_withRegisters]
        exact h
      | returnValue =>
        obtain ⟨t, ht, rfl⟩ := Option.map_eq_some_iff.1 he
        refine .inr ⟨ht, fun rs hrs ↦ ?_⟩
        show ((rs .result).map (Expr.register .result)).map Expr.type = some t
        rw [hrs]
        rfl
      | _ => exact .inl fun _ ↦ h
  | _ => exact .inl fun _ ↦ h

/-! ## A further instruction on a path -/

section Along

variable {owner : ClassRef} {r : Register} {passed : List Nat}

theorem typeAlong_of_writes (hinstr : b.code[i]? = some instr) (hw : writes? owner instr = some r) :
    typeAlong owner b (i :: passed) r =
      Names.written? ⟨owner, Scope.before (isClassIn owner) b i,
        typeAlong owner b passed⟩ instr := by
  rw [typeAlong, hinstr]
  exact if_pos hw

theorem typeAlong_of_keeps (hinstr : b.code[i]? = some instr) (hw : writes? owner instr ≠ some r) :
    typeAlong owner b (i :: passed) r = typeAlong owner b passed r := by
  rw [typeAlong, hinstr]
  exact if_neg hw

theorem unwritten_nil : Unwritten owner b r [] := fun _ hi ↦ absurd hi List.not_mem_nil

theorem Unwritten.cons (hinstr : b.code[i]? = some instr) (hw : writes? owner instr ≠ some r)
    (h : Unwritten owner b r passed) : Unwritten owner b r (i :: passed) := by
  intro j hj instr' hinstr'
  rcases List.mem_cons.1 hj with rfl | hj
  · cases hinstr.symm.trans hinstr'
    exact hw
  · exact h j hj instr' hinstr'

end Along

end ClassAsm.Reference
