import ClassAsm.Proofs.Codegen.Loaded
import ClassAsm.Proofs.Machine.Course
import ClassAsm.Proofs.Reference.Paths

/-!
# Where a procedure may stand

`Image.Stands im ip s` says that the code of `im` may be executed from the offset `ip` on by whoever
has the shape `s`.  Its main property is `Image.Stands.next`: there is an instruction at `ip` that
the shape allows, perhaps after something has been forgotten, and wherever control goes from there,
the procedure may stand again.  This is all that the machine needs to know about generated code.

What may be forgotten is said by `Image.Narrows`.  Types of registers are, where paths meet.  Cells
are as many as the text before has defined, so that a jump can lead to more of them than have been
executed; but not in a block that begins with its defines.

## How it is put together

* `exists_opening` and `code_ends` take the code of a statement apart: only its last instruction
  jumps, writes a register or prints.
* `Arrives` is a place between two statements, with what flows there, and `Ahead` one inside a
  statement, with the code that is still to come.
* A statement can have no code.  So where control arrives, the next instruction can belong to a
  later statement (`Arrives.exists_ahead`).
-/

namespace ClassAsm

namespace Bytecode

/-- Control may go on behind the instruction. -/
def Instr.falls : Instr → Bool
  | .jump _ | .ret _ => false
  | _ => true

end Bytecode

namespace Machine

open Bytecode

theorem Straight.target? {x : Instr} (h : Straight x) : x.target? = none := by
  cases x with
  | jump j | jumpFalse j => exact h.elim
  | _ => rfl

end Machine

namespace Codegen

open Bytecode Machine Program Reference

variable {x : Instr} {xs : List Instr} {k : Nat} {s t : Shape}

/-! ## Mild code -/

/-- The instruction stays in its procedure, writes no register and prints nothing. -/
def Mild : Instr → Prop
  | .popLocal k => registerCount ≤ k
  | .jump _ | .jumpFalse _ | .call _ | .ret _ | .new _ | .print => False
  | _ => True

/-- The instruction enters another procedure. -/
def Enterer : Instr → Prop
  | .call _ | .new _ => True
  | _ => False

/-- The instruction neither jumps nor writes a register nor prints. -/
structure Inner (x : Instr) : Prop where
  stays : x.target? = none
  keeps : ∀ r : Register, x ≠ .popLocal r.slot
  quiet : x ≠ .print

section Mild

theorem Mild.straight (h : Mild x) : Straight x := by
  cases x with
  | jump | jumpFalse | call | ret | new => exact h.elim
  | _ => trivial

theorem Enterer.inner (h : Enterer x) : Inner x := by
  cases x with
  | call | new => exact ⟨rfl, fun _ ↦ Instr.noConfusion, Instr.noConfusion⟩
  | _ => exact h.elim

theorem Mild.inner (h : Mild x) : Inner x := by
  refine ⟨h.straight.target?, fun r hx ↦ ?_, fun hx ↦ ?_⟩
  · subst hx
    exact Nat.not_le_of_lt r.slot_lt h
  · subst hx
    exact h

variable {P : Instr → Prop} {ys : List Instr}

theorem forall_mem_append (hx : ∀ x ∈ xs, P x) (hy : ∀ y ∈ ys, P y) : ∀ z ∈ xs ++ ys, P z :=
  fun z hz ↦ (List.mem_append.1 hz).elim (hx z) (hy z)

theorem forall_mem_singleton (h : P x) : ∀ y ∈ [x], P y :=
  fun _ hy ↦ List.mem_singleton.1 hy ▸ h

theorem mild_code (e : Expr) : ∀ x ∈ e.code, Mild x := by
  induction e with
  | const | register | cell | this => exact forall_mem_singleton trivial
  | field o i t ih | convert o t ih => exact forall_mem_append ih (forall_mem_singleton trivial)
  | item a i t iha ihi =>
    exact forall_mem_append (forall_mem_append iha ihi) (forall_mem_singleton trivial)

theorem mild_lead (e : Expr) : ∀ x ∈ e.lead, Mild x := by
  intro x hx
  refine mild_code e x ?_
  rw [e.code_eq]
  exact List.mem_append_left _ hx

theorem mild_store (e : Expr) : ∀ x ∈ e.store?.toList, Mild x := by
  cases e with
  | const | register | this | convert => exact List.forall_mem_nil _
  | cell k t => exact forall_mem_singleton (Nat.le_add_left _ _)
  | field | item => exact forall_mem_singleton trivial

theorem mild_conversion (s t : Ty) : ∀ x ∈ conversion s t, Mild x := by
  rw [conversion]
  split
  · exact List.forall_mem_nil _
  · exact forall_mem_singleton trivial

theorem mild_promotion (l r : Ty) : ∀ x ∈ promotion l r, Mild x := by
  refine forall_mem_append (mild_conversion _ _) ?_
  split
  · exact List.forall_mem_nil _
  · simp [Mild]

theorem mild_computation (a : Arith) (t : Ty) : Mild (computation a t) := by
  cases t <;> trivial

theorem mild_itemsCode (i : Nat) (vs : List Value) : ∀ x ∈ itemsCode i vs, Mild x := by
  induction vs generalizing i with
  | nil => exact List.forall_mem_nil _
  | cons v vs ih => exact forall_mem_append (by simp [Mild]) (ih (i + 1))

theorem mild_defaultsCode (i : Nat) (ds : List Default) : ∀ x ∈ defaultsCode i ds, Mild x := by
  induction ds generalizing i with
  | nil => exact List.forall_mem_nil _
  | cons d ds ih =>
    refine forall_mem_append ?_ (ih (i + 1))
    cases d with
    | zero => exact List.forall_mem_nil _
    | value v => simp [Default.code, Mild]
    | items elem vs =>
      exact forall_mem_append (forall_mem_append (by simp [Mild]) (mild_itemsCode 0 vs))
        (forall_mem_singleton trivial)

end Mild

/-! ## The end of a statement -/

variable {st : Statement}

section Statements

variable {returns : Ty}

/-- The code of a comparison up to its jump. -/
theorem mild_operands (l r : Expr) :
    ∀ x ∈ l.code ++ r.code ++ (if bothNumeric l.type r.type then promotion l.type r.type else []),
      Mild x := by
  refine forall_mem_append (forall_mem_append (mild_code l) (mild_code r)) ?_
  split
  · exact mild_promotion _ _
  · exact List.forall_mem_nil _

/-- How a statement ends: it jumps, writes a register or prints. -/
def closing? (k : Nat) : Statement → Option Instr
  | .write r _ => some (.popLocal r.slot)
  | .arith _ _ _ => some (.popLocal Register.result.slot)
  | .truth _ _ | .compare _ _ _ => some (.jumpFalse (k + 2))
  | .jump j => some (.jump j)
  | .call _ t => if t = .void then none else some (.popLocal Register.result.slot)
  | .print _ => some .print
  | .ret v => some (.ret v.isSome)
  | _ => none

/-- Whether a statement enters another procedure. -/
def enters : Statement → Bool
  | .call _ _ | .newObject _ _ _ => true
  | _ => false

/-- **The code of a statement is mild** but for its end, and for the entry into another
procedure. -/
theorem exists_opening (returns : Ty) (k : Nat) (st : Statement) :
    ∃ xs, st.code returns k = xs ++ (closing? k st).toList ∧ ∀ x ∈ xs, Mild x ∨
    (Enterer x ∧ enters st = true) := by
  have hmild {code : List Instr} (h : ∀ x ∈ code, Mild x) : ∀ x ∈ code, Mild x ∨
    (Enterer x ∧ enters st = true) := fun x hx ↦ .inl (h x hx)
  cases st with
  | skip | jump => exact ⟨[], rfl, nofun⟩
  | assign p v =>
    exact ⟨_, (List.append_nil _).symm,
      hmild (forall_mem_append (forall_mem_append (forall_mem_append (mild_lead p) (mild_code v))
        (mild_conversion _ _)) (mild_store p))⟩
  | define j t => exact ⟨_, (List.append_nil _).symm, hmild (by simp [Statement.code, Mild])⟩
  | write r v | print v => exact ⟨_, rfl, hmild (mild_code v)⟩
  | arith a l r =>
    exact ⟨_, rfl, hmild (forall_mem_append (forall_mem_append (forall_mem_append
      (forall_mem_append (mild_code l) (mild_code r)) (mild_promotion _ _))
      (forall_mem_singleton (mild_computation a _))) (mild_conversion _ _))⟩
  | truth negated v =>
    refine ⟨_, rfl, hmild (forall_mem_append (mild_code v) ?_)⟩
    split
    · exact forall_mem_singleton trivial
    · exact List.forall_mem_nil _
  | compare test l r =>
    have htest : ∀ x ∈ [Instr.test test], Mild x := forall_mem_singleton trivial
    refine ⟨_, ?_, hmild (forall_mem_append (mild_operands l r) htest)⟩
    rw [List.append_assoc]
    rfl
  | call j t =>
    refine ⟨[.call j], ?_, forall_mem_singleton (.inr ⟨trivial, rfl⟩)⟩
    rw [Statement.code, closing?]
    split <;> rfl
  | ret v =>
    cases v with
    | none => exact ⟨[], rfl, nofun⟩
    | some v => exact ⟨_, rfl, hmild (forall_mem_append (mild_code v) (mild_conversion _ _))⟩
  | newArray p elem size =>
    exact ⟨_, (List.append_nil _).symm,
      hmild (forall_mem_append
        (forall_mem_append
          (forall_mem_append (forall_mem_append (forall_mem_append (mild_lead p) (mild_code size))
            (mild_conversion _ _))
      (forall_mem_singleton trivial)) (mild_conversion _ _)) (mild_store p))⟩
  | newObject p j c =>
    exact ⟨_, (List.append_nil _).symm,
      forall_mem_append
      (forall_mem_append (forall_mem_append (hmild (mild_lead p)) (forall_mem_singleton
        (.inr ⟨trivial, rfl⟩))) (hmild (mild_conversion _ _))) (hmild (mild_store p))⟩

/-- **Only the last instruction of a statement jumps, writes a register or prints**, and a jump goes
where the statement branches to. -/
theorem code_ends (returns : Ty) (k : Nat) (st : Statement) :
    (∃ xs y, st.code returns k = xs ++ [y] ∧ (∀ x ∈ xs, Inner x) ∧ y.target? = st.branch? k) ∨
      ((∀ x ∈ st.code returns k, Inner x) ∧ st.branch? k = none) := by
  obtain ⟨xs, heq, hxs⟩ := exists_opening returns k st
  have hinner (x : Instr) (hx : x ∈ xs) : Inner x := (hxs x hx).elim (·.inner) (·.1.inner)
  cases hclosing : closing? k st with
  | some y =>
    refine .inl ⟨xs, y, by rw [heq, hclosing]; rfl, hinner, ?_⟩
    cases st <;> grind [closing?, Statement.branch?, Instr.target?]
  | none =>
    rw [hclosing, Option.toList_none, List.append_nil] at heq
    refine .inr ⟨heq ▸ hinner, ?_⟩
    cases st <;> first | rfl | cases hclosing

/-- An instruction of a statement that jumps, writes a register or prints is its last one. -/
theorem last_of_not_inner {i : Nat} (hx : (st.code returns k)[i]? = some x) (hinner : ¬Inner x) :
    i + 1 = (st.code returns k).length ∧ x.target? = st.branch? k := by
  rcases code_ends returns k st with ⟨xs, y, heq, hxs, hy⟩ | ⟨hall, -⟩
  · rw [heq] at hx ⊢
    rcases Nat.lt_trichotomy i xs.length with hi | rfl | hi
    · rw [List.getElem?_append_left hi] at hx
      exact (hinner (hxs x (List.mem_of_getElem? hx))).elim
    · rw [List.getElem?_concat_length] at hx
      exact ⟨by simp, Option.some.inj hx ▸ hy⟩
    · rw [List.getElem?_eq_none (by simp; omega)] at hx
      cases hx
  · exact (hinner (hall x (List.mem_of_getElem? hx))).elim

/-- Behind a statement that ends with a jump or a return control does not go on. -/
theorem falls_of_getLast? (h : ∀ x ∈ (st.code returns k).getLast?, x.falls = true) :
    st.falls = true := by
  cases st with
  | jump j => exact h _ rfl
  | ret v =>
    cases v with
    | none => exact h _ rfl
    | some v =>
      refine h (.ret true) ?_
      rw [Statement.code, List.getLast?_concat]
      rfl
  | _ => rfl

end Statements

/-! ## Places in the code of an image -/

variable {σ : Setting}

/-- Typing an instruction that writes no register keeps what is known about the registers. -/
theorem Types.registers_eq (h : Types σ s x t) (hx : Inner x) : t.registers = s.registers := by
  cases h with
  | writeRegister => exact (hx.keeps _ rfl).elim
  | _ => rfl

variable {r : Register}

/-- Only a write of a register changes what is known about it. -/
theorem Types.get_eq (h : Types σ s x t) (hx : x ≠ .popLocal r.slot) :
    t.registers.get r = s.registers.get r := by
  cases h with
  | writeRegister =>
    rw [Registers.get_set, if_neg]
    rintro rfl
    exact hx rfl
  | _ => rfl

/-- A read of a register reads one whose type is known. -/
theorem Types.exists_typed (h : Types σ s (.pushLocal r.slot) t) :
    ∃ τ, s.registers.get r = .typed τ := by
  generalize hx : Instr.pushLocal r.slot = x at h
  cases h with
  | readRegister h =>
    cases Register.slot_inj (Instr.pushLocal.inj hx)
    exact ⟨_, h⟩
  | readCell =>
    have := r.slot_lt
    have := Instr.pushLocal.inj hx
    omega
  | _ => cases hx

theorem Typed.eq_of_nil (h : Typed σ s [] t) : s = t := by
  cases h
  rfl

theorem Types.cells_prefix (h : Types σ s x t) : s.cells <+: t.cells := by
  cases h with
  | define => exact List.prefix_append _ _
  | _ => exact List.prefix_rfl

theorem Typed.cells_prefix {code : List Instr} (h : Typed σ s code t) : s.cells <+: t.cells := by
  induction h with
  | nil => exact List.prefix_rfl
  | cons hx _ ih => exact hx.cells_prefix.trans ih

namespace Image

variable {p : Program} {m : CompiledModule} (im : Image p m)

/-- The number of instructions of the block. -/
def size : Nat := im.member.body.code.size

/-- The types of all cells of the block. -/
def cells : List Ty := im.cellsBefore im.size

theorem cellsBefore_prefix (k : Nat) : im.cellsBefore k <+: im.cells := by
  have hall : im.member.body.code.toList.take im.size = im.member.body.code.toList :=
    List.take_of_length_le (Nat.le_of_eq Array.length_toList)
  rw [cells, cellsBefore, cellsBefore, hall]
  exact (List.take_prefix k _).filterMap _

/-- Behind the last define all cells have been defined. -/
theorem cellsBefore_eq_of_settled (h : im.member.body.Settled k) : im.cellsBefore k = im.cells := by
  have hall : im.member.body.code.toList.take im.size = im.member.body.code.toList :=
    List.take_of_length_le (Nat.le_of_eq Array.length_toList)
  have hrest : defines (fun name ↦ (im.owner.home.classIndex? name).isSome)
      (im.member.body.code.toList.drop k) = [] := by
    rw [defines, List.filterMap_eq_nil_iff]
    intro instr hinstr
    have hop := h instr hinstr
    unfold defined?
    split
    · rename_i hdefine _
      exact (hop hdefine).elim
    · rfl
  rw [cells, cellsBefore, cellsBefore, hall]
  conv_rhs => rw [← List.take_append_drop k im.member.body.code.toList]
  rw [defines_append, hrest, List.append_nil]

/-- From `s` to `t` only types of registers are forgotten, and cells where there are jumps over
defines. -/
structure Narrows (s t : Shape) : Prop where
  registers : t.registers.Below s.registers
  cells : im.member.body.DefinesFirst → t.cells = s.cells
  within : t.cells <+: im.cells
  stack : t.stack = s.stack

theorem Narrows.trans {im : Image p m} {u : Shape} (h : im.Narrows s t) (h' : im.Narrows t u) :
    im.Narrows s u where
  registers := h'.registers.trans h.registers
  cells hfirst := (h'.cells hfirst).trans (h.cells hfirst)
  within := h'.within
  stack := h'.stack.trans h.stack

theorem definesFirst (h : p.DefinesFirst) : im.member.body.DefinesFirst := by
  have hdecl := h im.decl (Array.mem_of_getElem? im.declared)
  rcases im.belongs with hmember | hmember
  · rw [constructorsOf] at hmember
    split at hmember
    · -- The constructor of a class without constructors has no code.
      obtain hmember := Array.eq_of_mem_singleton hmember
      rw [hmember]
      show Block.DefinesFirst {}
      decide
    · exact hdecl.1 _ hmember
  · exact hdecl.2 _ hmember

/-- Control may come to the instruction with index `k`, or to the return at the end, with this
shape. -/
structure Arrives (k : Nat) (s : Shape) : Prop where
  index : k ≤ im.size
  facts : ∀ q, im.points[k]? = some q → q.facts.Below s.registers
  cells : im.member.body.DefinesFirst → im.cellsBefore k = s.cells
  within : s.cells <+: im.cells
  stack : s.stack = []

/-- The instruction at `ip` reads a register that is assumed to hold a value of type `t`. -/
def ReadsAs (ip : Nat) (r : Register) (t : Ty) : Prop :=
  ∃ (k : Nat) (q : Point) (off i : Nat), im.points[k]? = some q ∧ im.offsets[k]? = some off ∧
    ip = off + i ∧ (q.stmt.code im.code.returns k)[i]? = some (.pushLocal r.slot) ∧
    q.facts.get r = .typed t

/-- The instruction at `ip` writes a register with a value of type `t`. -/
def WritesAs (ip : Nat) (r : Register) (t : Ty) : Prop :=
  ∃ (k : Nat) (q : Point) (off i : Nat), im.points[k]? = some q ∧ im.offsets[k]? = some off ∧
    ip = off + i ∧ (q.stmt.code im.code.returns k)[i]? = some (.popLocal r.slot) ∧
    q.out.get r = .typed t

/-- The code `rest` stands at `ip` and leads from the shape `s` to the shape `t`. -/
structure Ahead (ip : Nat) (s : Shape) (rest : List Instr) (t : Shape) : Prop where
  segment : im.Segment ip rest s t
  within : t.cells <+: im.cells
  last : ∀ (i : Nat) (x : Instr), rest[i]? = some x → ¬Inner x → i + 1 = rest.length
  jumps : ∀ (x : Instr) (j : Nat), x ∈ rest → x.target? = some j → im.Arrives (min j im.size) t
  onward : (∀ x ∈ rest.getLast?, x.falls = true) → ∃ k, im.offsets[k]? = some (ip + rest.length) ∧
    im.Arrives k t
  reads : ∀ (i : Nat) (r : Register) (t' : Ty), rest[i]? = some (.pushLocal r.slot) →
    s.registers.get r = .typed t' → im.ReadsAs (ip + i) r t'
  writes : ∀ (i : Nat) (r : Register) (t' : Ty), rest[i]? = some (.popLocal r.slot) →
    t.registers.get r = .typed t' → im.WritesAs (ip + i) r t'

/-- The code may be executed from `ip` on with the shape `s`. -/
def Stands (ip : Nat) (s : Shape) : Prop := ∃ rest t, im.Ahead ip s rest t

variable {im} {j off ip : Nat} {q : Point}

variable (im) in
theorem length_points : im.points.length = im.size := im.translated.length

theorem cellsBefore_size : im.cellsBefore im.size = im.cells := rfl

theorem loops_names (hk : k ≤ im.size) (rs : Registers) :
    (im.names k rs).scope.loops = im.member.body.openLoops k :=
  Scope.loops_before _ im.member.body hk

theorem edge_iff (hq : im.points[k]? = some q) :
    im.member.body.Edge k j ↔ (q.stmt.falls = true ∧ k + 1 = j) ∨ q.stmt.branch? k = some j := by
  obtain ⟨instr, hinstr, hreads⟩ := im.translated.reads k q hq
  have hk : k ≤ im.size := Nat.le_of_lt (Array.getElem?_eq_some_iff.1 hinstr).1
  exact edge_iff_of_statement? hinstr (loops_names hk q.facts) hreads

/-- A jump over the text leads to where all cells have been defined, from where all cells have been
defined, if the block begins with its defines. -/
theorem cellsBefore_of_edge (hfirst : im.member.body.DefinesFirst) (hk : k < im.size)
    (hedge : im.member.body.Edge k j) :
    im.cellsBefore (min j im.size) = im.cellsBefore (k + 1) := by
  obtain ⟨holds, hnext⟩ := hedge
  rcases hfirst.settled_of_next? hnext with rfl | ⟨hnext, hj⟩
  · rw [Nat.min_eq_left hk]
  · rw [im.cellsBefore_eq_of_settled hnext]
    rcases Nat.le_total j im.size with hle | hle
    · rw [Nat.min_eq_left hle, im.cellsBefore_eq_of_settled hj]
    · rw [Nat.min_eq_right hle, cellsBefore_size]

theorem out_eq_of_branch? (h : q.stmt.branch? k = some j) : q.out = q.facts := by
  obtain ⟨facts, st⟩ := q
  cases st with
  | truth | compare | jump => rfl
  | _ => cases h

/-- **Where control may go from an instruction**, it may come with what is known behind it. -/
theorem Arrives.of_edge (hq : im.points[k]? = some q)
    (hedge : (q.stmt.falls = true ∧ k + 1 = j) ∨ q.stmt.branch? k = some j) :
    im.Arrives (min j im.size) ⟨q.out, im.cellsBefore (k + 1), []⟩ where
  index := Nat.min_le_right _ _
  facts q' hq' := by
    have hlt := (List.getElem?_eq_some_iff.1 hq').1
    rw [length_points] at hlt
    rw [Nat.min_eq_left (by omega)] at hq'
    rcases hedge with ⟨hfalls, rfl⟩ | hbranch
    · exact im.translated.enters _ q' _ hq' (.fall hq hfalls)
    · rw [out_eq_of_branch? hbranch]
      exact im.translated.branches k j q q' hq hbranch hq'
  cells hfirst := by
    have hk := (List.getElem?_eq_some_iff.1 hq).1
    rw [length_points] at hk
    exact cellsBefore_of_edge hfirst hk ((edge_iff hq).2 hedge)
  within := im.cellsBefore_prefix (k + 1)
  stack := rfl

theorem ahead_statement (h : Loaded p m) (hq : im.points[k]? = some q)
    (hoff : im.offsets[k]? = some off) :
    im.Ahead off ⟨q.facts, im.cellsBefore k, []⟩ (q.stmt.code im.code.returns k)
      ⟨q.out, im.cellsBefore (k + 1), []⟩ := by
  obtain ⟨hnext, hsegment⟩ := im.statement_segment h hq hoff
  have hk := (List.getElem?_eq_some_iff.1 hq).1
  rw [length_points] at hk
  refine ⟨hsegment, im.cellsBefore_prefix (k + 1),
    fun i x hx hinner ↦ (last_of_not_inner hx hinner).1, ?_, ?_, ?_, ?_⟩
  · intro x j hx hj
    obtain ⟨i, hi⟩ := List.getElem?_of_mem hx
    have hinner : ¬Inner x := fun hinner ↦ by
      rw [hinner.stays] at hj
      cases hj
    have hbranch := (last_of_not_inner hi hinner).2
    rw [hj] at hbranch
    exact .of_edge hq (.inr hbranch.symm)
  · intro hlast
    have harrives := Arrives.of_edge hq (.inl ⟨falls_of_getLast? hlast, rfl⟩)
    rw [Nat.min_eq_left hk] at harrives
    exact ⟨k + 1, hnext, harrives⟩
  · exact fun i r t hi ht ↦ ⟨k, q, off, i, hq, hoff, rfl, hi, ht⟩
  · exact fun i r t hi ht ↦ ⟨k, q, off, i, hq, hoff, rfl, hi, ht⟩

theorem ahead_defaults (h : Loaded p m) :
    im.Ahead 0 ⟨{}, [], []⟩ (defaultsCode 0 im.defaults) ⟨{}, [], []⟩ := by
  have hinner {i : Nat} {x : Instr} (hx : (defaultsCode 0 im.defaults)[i]? = some x) : Inner x :=
    (mild_defaultsCode 0 im.defaults x (List.mem_of_getElem? hx)).inner
  refine ⟨im.prologue_segment h, List.nil_prefix, fun i x hx hnot ↦
    (hnot (hinner hx)).elim, ?_, ?_, ?_, ?_⟩
  · intro x j hx hj
    rw [(mild_defaultsCode 0 im.defaults x hx).inner.stays] at hj
    cases hj
  · refine fun _ ↦ ⟨0, ?_, Nat.zero_le _, fun q hq ↦ im.translated.enters 0 q _ hq .start,
      fun _ ↦ rfl, List.nil_prefix, rfl⟩
    rw [Nat.zero_add]
    exact im.translated.first
  · intro i r t _ ht
    cases r <;> cases ht
  · exact fun i r t hi _ ↦ ((hinner hi).keeps r rfl).elim

variable (im) in
theorem ahead_epilogue (h : Loaded p m) (rs : Registers) (hoff : im.offsets[im.size]? = some off) :
    im.Ahead off ⟨rs, im.cells, []⟩ (epilogueCode im.code.returns) ⟨rs, im.cells, []⟩ := by
  have hcode : epilogueCode im.code.returns = [.ret false] ∨
      epilogueCode im.code.returns = [.const im.code.returns.zero, .ret true] := by
    rw [epilogueCode]
    split
    · exact .inl rfl
    · exact .inr rfl
  have hinner {x : Instr} (hx : x ∈ epilogueCode im.code.returns) : Inner x := by
    rcases hcode with hcode | hcode <;> rw [hcode] at hx
    · obtain rfl := List.mem_singleton.1 hx
      exact ⟨rfl, fun _ ↦ Instr.noConfusion, Instr.noConfusion⟩
    · simp only [List.mem_cons, List.not_mem_nil, or_false] at hx
      rcases hx with rfl | rfl <;> exact ⟨rfl, fun _ ↦ Instr.noConfusion, Instr.noConfusion⟩
  refine ⟨im.epilogue_segment h rs hoff, List.prefix_rfl,
    fun i x hx hnot ↦ (hnot (hinner (List.mem_of_getElem? hx))).elim, ?_, ?_, ?_, ?_⟩
  · intro x j hx hj
    rw [(hinner hx).stays] at hj
    cases hj
  · intro hlast
    rcases hcode with hcode | hcode <;> rw [hcode] at hlast <;> cases hlast _ rfl
  · intro i r t hi _
    rcases hcode with hcode | hcode <;> rw [hcode] at hi <;>
      simpa using List.mem_of_getElem? hi
  · exact fun i r t hi _ ↦ ((hinner (List.mem_of_getElem? hi)).keeps r rfl).elim

/-- **Where control arrives there is an instruction**, behind statements without code. -/
theorem Arrives.exists_ahead (h : Loaded p m) (hs : im.Arrives k s)
    (hoff : im.offsets[k]? = some off) :
    ∃ s₀ x xs t, im.Narrows s s₀ ∧ im.Ahead off s₀ (x :: xs) t := by
  induction hn : im.size - k generalizing k s with
  | zero =>
    obtain rfl : k = im.size := by
      have := hs.index
      omega
    have hahead := im.ahead_epilogue h s.registers hoff
    have hnarrows : im.Narrows s ⟨s.registers, im.cells, []⟩ :=
      ⟨.refl _, fun hfirst ↦ hs.cells hfirst, List.prefix_rfl, hs.stack.symm⟩
    cases hcode : epilogueCode im.code.returns with
    | nil =>
      rw [epilogueCode] at hcode
      split at hcode <;> cases hcode
    | cons x xs =>
      rw [hcode] at hahead
      exact ⟨_, x, xs, _, hnarrows, hahead⟩
  | succ n ih =>
    have hk : k < im.points.length := by
      rw [length_points]
      omega
    have hq : im.points[k]? = some im.points[k] := List.getElem?_eq_getElem hk
    have hahead := ahead_statement h hq hoff
    have hnarrows : im.Narrows s ⟨im.points[k].facts, im.cellsBefore k, []⟩ :=
      ⟨hs.facts _ hq, hs.cells, im.cellsBefore_prefix k, hs.stack.symm⟩
    cases hcode : im.points[k].stmt.code im.code.returns k with
    | cons x xs =>
      rw [hcode] at hahead
      exact ⟨_, x, xs, _, hnarrows, hahead⟩
    | nil =>
      -- A statement without code says nothing, so that control is at the next one already.
      obtain ⟨hnext, hsegment⟩ := im.statement_segment h hq hoff
      have hlast : ∀ x ∈ (im.points[k].stmt.code im.code.returns k).getLast?, x.falls = true := by
        simp [hcode]
      have hfalls : im.points[k].stmt.falls = true := falls_of_getLast? hlast
      have harrives := Arrives.of_edge hq (.inl ⟨hfalls, rfl⟩)
      rw [length_points] at hk
      rw [hcode] at hnext hsegment
      rw [Nat.min_eq_left hk, ← hsegment.typed.eq_of_nil] at harrives
      obtain ⟨s₀, x, xs, t, hs₀, hahead⟩ := ih harrives hnext (by omega)
      exact ⟨s₀, x, xs, t, hnarrows.trans hs₀, hahead⟩

theorem Ahead.tail (h : im.Ahead ip s (x :: xs) t) :
    ∃ u, Types im.setting s x u ∧ Typed im.setting u xs t ∧
    (x.falls = true → im.Ahead (ip + 1) u xs t) := by
  obtain ⟨⟨hreads, htyped⟩, hwithin, hlast, hjumps, honward, hrs, hws⟩ := h
  cases htyped with
  | @cons _ u _ _ _ hx hxs =>
  refine ⟨u, hx, hxs, fun hfalls ↦ ⟨⟨fun i y hy ↦ ?_, hxs⟩, hwithin, fun i y hy hinner ↦ ?_,
    fun y j hy ↦ hjumps y j (List.mem_cons_of_mem _ hy), fun hlast' ↦ ?_, fun i r t' hi ht' ↦ ?_,
    fun i r t' hi ht' ↦ ?_⟩⟩
  · have := hreads (i + 1) y hy
    rwa [Nat.add_comm i 1, ← Nat.add_assoc] at this
  · exact Nat.succ.inj (hlast (i + 1) y hy hinner)
  · obtain ⟨k, hk, harrives⟩ := honward (by
      cases xs with
      | nil =>
        rintro y ⟨⟩
        exact hfalls
      | cons z zs => rwa [List.getLast?_cons_cons])
    refine ⟨k, ?_, harrives⟩
    rwa [List.length_cons, Nat.add_comm xs.length 1, ← Nat.add_assoc] at hk
  · -- A register is only written by the last instruction, which is not this one.
    have hinner : Inner x := by
      by_contra hnot
      have hlength := hlast 0 x rfl hnot
      rw [List.length_cons] at hlength
      have := (List.getElem?_eq_some_iff.1 hi).1
      omega
    rw [hx.registers_eq hinner] at ht'
    have := hrs (i + 1) r t' hi ht'
    rwa [Nat.add_comm i 1, ← Nat.add_assoc] at this
  · have := hws (i + 1) r t' hi ht'
    rwa [Nat.add_comm i 1, ← Nat.add_assoc] at this

theorem Arrives.stands (h : im.Arrives k s) (hoff : im.offsets[k]? = some off) : im.Stands off s :=
  ⟨[], s, ⟨fun _ _ hx ↦ (nomatch hx), .nil⟩, h.within, fun _ _ hx ↦ (nomatch hx),
    fun _ _ hx ↦ (nomatch hx), fun _ ↦ ⟨k, hoff, h⟩, fun _ _ _ hx ↦ (nomatch hx),
    fun _ _ _ hx ↦ (nomatch hx)⟩

theorem stands_entry (h : Loaded p m) (im : Image p m) : im.Stands 0 ⟨{}, [], []⟩ :=
  ⟨_, _, ahead_defaults h⟩

/-- What an instruction at `ip` leads to: it turns the shape `s` into `t`, and wherever control
goes, the procedure may stand. -/
structure Passes (im : Image p m) (ip : Nat) (s : Shape) (x : Instr) (t : Shape) : Prop where
  reads : im.code.Reads (target im.offsets) ip x
  types : Types im.setting s x t
  within : t.cells <+: im.cells
  next : x.falls = true → im.Stands (ip + 1) t
  jump : ∀ j off, x.target? = some j → target im.offsets j off → im.Stands off t
  readsAs : ∀ r t', x = .pushLocal r.slot → s.registers.get r = .typed t' → im.ReadsAs ip r t'
  writesAs : ∀ r t', x = .popLocal r.slot → t.registers.get r = .typed t' → im.WritesAs ip r t'

theorem target_iff : target im.offsets j off ↔ im.offsets[min j im.size]? = some off := by
  have hsize : im.offsets.size = im.size + 1 := im.translated.offsets
  rw [target, hsize, Nat.add_sub_cancel]

theorem Ahead.passes (h : im.Ahead ip s (x :: xs) t) : ∃ u, im.Passes ip s x u := by
  obtain ⟨u, hx, hxs, htail⟩ := h.tail
  have hlast (hinner : ¬Inner x) : u = t := by
    have hlength := h.last 0 x rfl hinner
    obtain rfl : xs = [] := List.eq_nil_of_length_eq_zero (Nat.succ.inj hlength).symm
    exact hxs.eq_of_nil
  refine ⟨u, h.segment.reads 0 x rfl, hx, hxs.cells_prefix.trans h.within, ?_, ?_, ?_, ?_⟩
  · exact fun hfalls ↦ ⟨xs, t, htail hfalls⟩
  · intro j off hj hoff
    have hinner : ¬Inner x := fun hinner ↦ by
      rw [hinner.stays] at hj
      cases hj
    rw [hlast hinner]
    exact (h.jumps x j List.mem_cons_self hj).stands (target_iff.1 hoff)
  · rintro r t' rfl ht'
    exact h.reads 0 r t' rfl ht'
  · rintro r t' rfl ht'
    have hinner : ¬Inner (.popLocal r.slot) := fun hinner ↦ hinner.keeps r rfl
    rw [hlast hinner] at ht'
    exact h.writes 0 r t' rfl ht'

/-- **Where a procedure stands there is an instruction to execute**, behind which it stands
again. -/
theorem Stands.next (h : Loaded p m) (hs : im.Stands ip s) :
    ∃ s₀ x t, im.Narrows s s₀ ∧ im.Passes ip s₀ x t := by
  obtain ⟨rest, t, hahead⟩ := hs
  cases rest with
  | nil =>
    obtain ⟨k, hoff, harrives⟩ := hahead.onward fun _ hx ↦ nomatch hx
    rw [← hahead.segment.typed.eq_of_nil] at harrives
    obtain ⟨s₀, x, xs, t', hnarrows, hahead'⟩ := harrives.exists_ahead h hoff
    obtain ⟨u, hu⟩ := hahead'.passes
    exact ⟨s₀, x, u, hnarrows, hu⟩
  | cons x xs =>
    obtain ⟨u, hu⟩ := hahead.passes
    have hwithin : s.cells <+: im.cells := hu.types.cells_prefix.trans hu.within
    exact ⟨s, x, u, ⟨.refl _, fun _ ↦ rfl, hwithin, rfl⟩, hu⟩

end Image

end Codegen

end ClassAsm
