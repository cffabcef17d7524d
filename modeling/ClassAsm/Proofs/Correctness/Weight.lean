import ClassAsm.Proofs.Codegen.Procedure
import ClassAsm.Proofs.Reference.Interpreter

/-!
# What a step may cost

The interpreter has no limits, but the machine that it is compared with has: on the instructions it
executes and on the values on its stack.  `weight` is read off the text and bounds both for one step
of the interpreter, and `cost` bounds the instructions for a run.

The bounds rest on the length of code: that of an expression is its size, and a statement needs at
most seven instructions besides its expressions.
-/

namespace ClassAsm.Reference

/-- The number of accesses and conversions in an expression. -/
def Expr.size : Expr → Nat
  | const _ _ | register _ _ | cell _ _ | this _ => 1
  | field o _ _ => o.size + 1
  | item a i _ => a.size + i.size + 1
  | convert e _ => e.size + 1

/-- The size of the expressions in a statement. -/
def Statement.size : Statement → Nat
  | skip | define _ _ | jump _ | call _ _ | ret none => 0
  | write _ v | truth _ v | print v | ret (some v) => v.size
  | assign p v | newArray p _ v => p.size + v.size
  | arith _ l r | compare _ l r => l.size + r.size
  | newObject p _ _ => p.size

/-- The number of values to be stored for a default. -/
def Default.size : Default → Nat
  | zero => 0
  | value _ => 1
  | items _ vs => vs.length + 1

/-- The number of values to be stored for defaults. -/
def defaultsSize (ds : List Default) : Nat := (ds.map Default.size).sum

/-- What a step from here may cost. -/
def weight (p : Program) (c : Config) : Nat :=
  match c.active.position with
  | .entry => 4 * defaultsSize ((c.active.defaults? p).getD [])
  | .instruction i =>
    let stmt? :=
      c.active.member.body.code[i]?.bind ((c.active.names i).statement? c.active.member.body)
    (stmt?.map Statement.size).getD 0 + 8

/-- What the first `n` steps of a run may cost. -/
def cost (p : Program) : Nat → Config → Nat
  | 0, _ => 0
  | n + 1, c =>
    weight p c + match step p c with
      | .ok none c' => cost p n c'
      | _ => 0

/-! ## The length of code -/

theorem Expr.length_code (e : Expr) : e.code.length = e.size := by
  induction e with
  | const | register | cell | this => rfl
  | field o i t ih => rw [code, size, List.length_append, ih, List.length_singleton]
  | item a i t iha ihi =>
    rw [code, size, List.length_append, List.length_append, iha, ihi, List.length_singleton]
  | convert e t ih => rw [code, size, List.length_append, ih, List.length_singleton]

theorem Expr.length_lead_lt (e : Expr) : e.lead.length < e.size := by
  rw [← length_code, code_eq, List.length_append, List.length_singleton]
  exact Nat.lt_succ_self _

theorem Expr.length_store (e : Expr) : e.store?.toList.length ≤ 1 := by
  cases e.store? <;> simp

theorem length_conversion (source target : Ty) : (conversion source target).length ≤ 1 := by
  rw [conversion]
  split <;> simp

theorem length_promotion (left right : Ty) : (promotion left right).length ≤ 4 := by
  have hconversion := length_conversion right (Codegen.commonType left right)
  rw [promotion, List.length_append]
  split <;> simp <;> omega

/-- A statement needs few instructions besides its expressions. -/
theorem Statement.length_code (returns : Ty) (i : Nat) (st : Statement) :
    (st.code returns i).length ≤ st.size + 7 := by
  cases st with
  | skip | define | jump => simp [code, size]
  | call k t =>
    simp only [code, size, List.length_cons]
    split <;> simp
  | write r v | print v => simp [code, size, v.length_code]
  | truth negated v =>
    simp only [code, size, List.length_append, v.length_code, List.length_singleton]
    split <;> simp
  | assign p v =>
    have hlead := p.length_lead_lt
    have hconversion := length_conversion v.type p.type
    have hstore := p.length_store
    simp only [code, size, List.length_append, v.length_code]
    omega
  | arith a l r =>
    have hpromotion := length_promotion l.type r.type
    have hconversion := length_conversion (Codegen.commonType l.type r.type) .float
    simp only [code, size, List.length_append, l.length_code, r.length_code, List.length_singleton]
    omega
  | compare test l r =>
    have hpromotion := length_promotion l.type r.type
    simp only [code, size, List.length_append, l.length_code, r.length_code, List.length_cons,
      List.length_nil]
    split
    · omega
    · rw [List.length_nil]
      omega
  | ret e =>
    cases e with
    | none => simp [code]
    | some v =>
      have hconversion := length_conversion v.type returns
      simp only [code, size, List.length_append, v.length_code, List.length_singleton]
      omega
  | newArray p elem n =>
    have hlead := p.length_lead_lt
    have hconversion := length_conversion n.type .int
    have hconversion' := length_conversion (.array elem) p.type
    have hstore := p.length_store
    simp only [code, size, List.length_append, n.length_code, List.length_singleton]
    omega
  | newObject p k name =>
    have hlead := p.length_lead_lt
    have hconversion := length_conversion (.object name) p.type
    have hstore := p.length_store
    simp only [code, size, List.length_append, List.length_singleton]
    omega

theorem length_itemsCode (i : Nat) (vs : List Value) : (itemsCode i vs).length = 4 * vs.length := by
  induction vs generalizing i with
  | nil => rfl
  | cons v vs ih =>
    rw [itemsCode, List.length_append, ih, List.length_cons]
    simp only [List.length_cons, List.length_nil]
    omega

theorem Default.length_code (index : Nat) (d : Default) : (d.code index).length ≤ 4 * d.size := by
  cases d with
  | zero => exact Nat.le_refl 0
  | value v => simp [code, size]
  | items elem vs =>
    simp only [code, size, List.length_append, length_itemsCode, List.length_cons, List.length_nil]
    omega

theorem length_defaultsCode (i : Nat) (ds : List Default) :
    (defaultsCode i ds).length ≤ 4 * defaultsSize ds := by
  induction ds generalizing i with
  | nil => exact Nat.le_refl 0
  | cons d ds ih =>
    have hd := d.length_code i
    have hds := ih (i + 1)
    rw [defaultsSize] at hds ⊢
    rw [defaultsCode, List.length_append, List.map_cons, List.sum_cons]
    omega

end ClassAsm.Reference
