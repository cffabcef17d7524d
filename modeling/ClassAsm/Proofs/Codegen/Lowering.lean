import ClassAsm.Proofs.Codegen.Resolve
import ClassAsm.Proofs.Program.WellFormed

/-!
# The code of a statement

Every statement has its code, `Statement.code`, and its place in the flow of control: which
instruction it may go to (`branch?`), whether it may go on with the next one (`falls`) and what is
known about the registers behind it (`after`).  These definitions are what the proofs about the
machine take the generator to be.

`lower_ends` says that the generator, given an instruction, ends with a complaint or with exactly
that: the code of what the instruction says, and the facts that flow out of it.  A statement that
got through is `Checked`: its types fit.

## What is here

* `Lowered` is the result of one instruction, and `Lowered.of_codes` makes it from what the single
  steps have emitted.
* A lemma `Emits.x_ends` is about a step `x` that only emits code: it says which code is added to
  what has been emitted before, so that the lemmas for the parts of an instruction can be put one
  behind the other.
* A lemma `lowerX_ends` is about an instruction.  It says which statement the instruction is and
  that it has been `Lowered`.  All jumps are recorded and filled in by `jumpTo_ends`, and all
  conditionals end with `skipNext_ends`.
-/

namespace ClassAsm.Reference

open Bytecode Codegen

/-- The code that converts the two numbers on top of the stack to their common type, the right one
first. -/
def promotion (left right : Ty) : List Instr :=
  conversion right (commonType left right) ++ if left = commonType left right then []
    else [.swap, .convert (commonType left right), .swap]

/-- The computation in a numeric type. -/
def computation (a : Arith) : Ty → Instr
  | .int => .intArith a
  | .float => .floatArith a true
  | _ => .floatArith a false

/-- Both types are numeric. -/
def bothNumeric (left right : Ty) : Bool := left.tag.isNumeric && right.tag.isNumeric

/-- Whether a comparison is one of numbers only. -/
def ordered : Test → Bool
  | .greater | .less => true
  | .equal | .unequal => false

namespace Statement

/-- The code of the statement with index `i` of a procedure with the given result type. -/
def code (returns : Ty) (i : Nat) : Statement → List Instr
  | skip => []
  | assign p v => p.lead ++ v.code ++ conversion v.type p.type ++ p.store?.toList
  | define k t => [.const t.zero, .popLocal (k + registerCount)]
  | write r v => v.code ++ [.popLocal r.slot]
  | arith a l r =>
    l.code ++ r.code ++ promotion l.type r.type ++ [computation a (commonType l.type r.type)] ++
      conversion (commonType l.type r.type) .float ++ [.popLocal Register.result.slot]
  | truth negated v => v.code ++ (if negated then [.not] else []) ++ [.jumpFalse (i + 2)]
  | compare test l r =>
    l.code ++ r.code ++ (if bothNumeric l.type r.type then promotion l.type r.type else []) ++
      [.test test, .jumpFalse (i + 2)]
  | jump j => [.jump j]
  | call k t => .call k :: if t = .void then [] else [.popLocal Register.result.slot]
  | print v => v.code ++ [.print]
  | ret none => [.ret false]
  | ret (some v) => v.code ++ conversion v.type returns ++ [.ret true]
  | newArray p elem size =>
    p.lead ++ size.code ++ conversion size.type .int ++ [.newArray elem] ++
      conversion (.array elem) p.type ++ p.store?.toList
  | newObject p k c => p.lead ++ [.new k] ++ conversion (.object c) p.type ++ p.store?.toList

/-- The instruction that control may go to other than the next one. -/
def branch? (i : Nat) : Statement → Option Nat
  | truth _ _ | compare _ _ _ => some (i + 2)
  | jump j => some j
  | _ => none

/-- Whether control may go on with the next instruction. -/
def falls : Statement → Bool
  | jump _ | ret _ => false
  | _ => true

/-- What is known about the registers behind a statement. -/
def after (rs : Registers) : Statement → Registers
  | write r v => rs.set r (.typed v.type)
  | arith _ _ _ => rs.set .result (.typed .float)
  | call _ t => if t = .void then rs else rs.set .result (.typed t)
  | _ => rs

/-- The types of a statement fit, in a class of the module `home` and a procedure with the given
result type. -/
def Checked (home : CompiledModule) (returns : Ty) : Statement → Prop
  | skip | define _ _ | write _ _ | jump _ | call _ _ | print _ => True
  | assign p v => p.type.accepts v.type = true ∧ p.store?.isSome
  | arith _ l r => bothNumeric l.type r.type = true
  | truth _ v => v.type = .bool
  | compare test l r => bothNumeric l.type r.type = true ∨
      (ordered test = false ∧ canCompare l.type r.type = true)
  | ret none => returns = .void
  | ret (some v) => returns ≠ .void ∧ returns.accepts v.type = true
  | newArray p elem size => size.type.tag.isNumeric = true ∧
      p.type.accepts (.array elem) = true ∧ p.store?.isSome
  | newObject p k c => p.type.accepts (.object c) = true ∧ p.store?.isSome ∧
      ∃ cls, home.class? c = some cls ∧ cls.index.val = k ∧ cls.get.isAbstract = false

end Statement

end ClassAsm.Reference

namespace ClassAsm.Codegen

open Bytecode
open Program (Operand Opcode Instruction Block)
open Reference

variable {E : Int → Cause → Prop} {ctx : Context} {n : Names} {s t u : State} {α : Type}
  {o : Operand} {a b : Ty} {L : List Instr} {ops : List Operand} {τ : List Ty} {r : Register}
  {e : Expr} {p : Place} {k i : Nat} {sc : Scope} {negate : Bool} {typeName : String}
  {ls : List (String × Local)} {instr : Instruction} {st : Statement}

/-! ## The effect of an instruction -/

/-- The facts of a state flow to an instruction. -/
def State.flow (ctx : Context) (target : Nat) (s : State) : State :=
  if ctx.body.code.size ≤ target then s
  else if target ≤ s.current then { s with backward := s.backward.add target s.registers }
  else { s with forward := s.forward.add target s.registers }

/-- The facts of a state flow along the branch of a statement. -/
def State.branch (ctx : Context) (s : State) : Option Nat → State
  | none => s
  | some j => s.flow ctx j

/-- The generator has got from `s` to `t` by the instruction `instr` with index `i`, which says
`st`. -/
structure Lowered (ctx : Context) (n : Names) (i : Nat) (instr : Instruction) (st : Statement)
    (s t : State) : Prop extends Codes s (st.code ctx.signature.returns i) t where
  reads : n.statement? ctx.body instr = some st
  checked : st.Checked ctx.owner.home ctx.signature.returns
  scope : Scoped (n.scope.after n.isClass i instr) t
  rest : t = { s with
    code := t.code, lines := t.lines, consts := t.consts, types := t.types, patches := t.patches
    stack := [], locals := t.locals, nextLocal := t.nextLocal, loops := t.loops
    registers := st.after s.registers, reachable := s.reachable && st.falls
    forward := (s.branch ctx (st.branch? i)).forward
    backward := (s.branch ctx (st.branch? i)).backward }

theorem Codes.facts (h : Codes s L t) (rs : Registers) (b : Bool) (f g : Flow) :
    Codes s L { t with registers := rs, reachable := b, forward := f, backward := g } :=
  ⟨⟨h.grows.code, h.grows.consts, h.grows.types, h.grows.offsets, h.grows.patches⟩, h.size, h.has,
    h.lines, ⟨h.tidy.plain, h.tidy.patches, h.tidy.locals, h.tidy.loops⟩⟩

/-- Code from a state that differs in its locals and in what control can reach. -/
theorem Codes.of_locals {b : Bool}
    (h : Codes { s with nextLocal := k, locals := ls, reachable := b } L t) : Codes s L t :=
  ⟨⟨h.grows.code, h.grows.consts, h.grows.types, h.grows.offsets, h.grows.patches⟩, h.size, h.has,
    h.lines, h.tidy⟩

theorem Codes.of_scope {loops : List LoopTop} (h : s.Tidy)
    (hloops : ∀ l ∈ loops, s.offsets[l.index]? = some l.offset) :
    Codes s [] { s with locals := ls, loops := loops } := by
  have hc := Codes.refl h
  exact ⟨⟨hc.grows.code, hc.grows.consts, hc.grows.types, hc.grows.offsets, hc.grows.patches⟩,
    hc.size, hc.has, hc.lines, ⟨h.plain, h.patches, h.locals, hloops⟩⟩

theorem Scoped.of_eq (h : Scoped sc s) (hlocals : t.locals = s.locals)
    (hnext : t.nextLocal = s.nextLocal) (hloops : t.loops = s.loops) : Scoped sc t :=
  ⟨hlocals.trans h.locals, hnext.trans h.next, hloops ▸ h.loops⟩

/-- The instruction says `st`, whose types fit, and leaves the scope as it is. -/
structure Says (ctx : Context) (n : Names) (i : Nat) (instr : Instruction) (st : Statement) :
    Prop where
  reads : n.statement? ctx.body instr = some st
  checked : st.Checked ctx.owner.home ctx.signature.returns
  scope : n.scope.after n.isClass i instr = n.scope

theorem Lowered.of_write (hn : Describes n ctx s)
    (hu : Emits s (st.code ctx.signature.returns i) [] u) (h : Says ctx n i instr st)
    (hbranch : st.branch? i = none) (hfalls : st.falls = true) :
    Lowered ctx n i instr st s { u with registers := st.after s.registers } where
  toCodes := hu.toCodes.facts _ _ _ _
  reads := h.reads
  checked := h.checked
  scope := by
    rw [h.scope]
    exact hn.toScoped.of_eq hu.locals hu.nextLocal hu.loops
  rest := by
    rw [hbranch, hfalls, Bool.and_true, hu.eq]
    rfl

theorem Lowered.of_emits (hn : Describes n ctx s)
    (hu : Emits s (st.code ctx.signature.returns i) [] u) (h : Says ctx n i instr st)
    (hafter : st.after s.registers = s.registers) (hbranch : st.branch? i = none)
    (hfalls : st.falls = true) : Lowered ctx n i instr st s u := by
  have hwrite := Lowered.of_write hn hu h hbranch hfalls
  rwa [hafter, ← hu.registers] at hwrite

theorem Lowered.of_codes (hc : Codes s (st.code ctx.signature.returns i) t)
    (hreads : n.statement? ctx.body instr = some st)
    (hchecked : st.Checked ctx.owner.home ctx.signature.returns)
    (hscope : Scoped (n.scope.after n.isClass i instr) t) (ht : t = { s with
      code := t.code, lines := t.lines, consts := t.consts, types := t.types
      stack := [], locals := t.locals, nextLocal := t.nextLocal, loops := t.loops })
    (hafter : st.after s.registers = s.registers) (hbranch : st.branch? i = none)
    (hfalls : st.falls = true) : Lowered ctx n i instr st s t where
  toCodes := hc
  reads := hreads
  checked := hchecked
  scope := hscope
  rest := by
    rw [hafter, hbranch, hfalls, Bool.and_true, ht]
    rfl

/-! ## Operands that must be there -/

variable {Q : α → State → Prop}

theorem Ends.operandAt_bind {f : Operand → Gen α} (ho : ops[k]? = some o) (h : Ends E (f o) s Q) :
    Ends E (operandAt ops k >>= f) s Q := by
  rw [operandAt, ho]
  exact h

theorem Ends.nameOf_bind {op : Opcode} {f : String → Gen α} (hE : s.Permits E) (ho : o.Known)
    (h : ∀ name, o = .identifier name → Ends E (f name) s Q) : Ends E (nameOf op o >>= f) s Q := by
  have hshown : (Cause.nameOperand op o).Shown := fun o' ho' ↦ Option.some.inj ho' ▸ ho.text
  cases o with
  | identifier name => exact h name rfl
  | _ => exact .fail_bind hE hshown trivial

theorem Ends.resolveType_bind {name : String} {f : Ty → Gen α} (hE : s.Permits E)
    (h : ∀ a, Ty.ofName? ctx.isClass name = some a → Ends E (f a) s Q) :
    Ends E (resolveType ctx name >>= f) s Q := by
  rw [resolveType]
  cases ha : Ty.ofName? ctx.isClass name with
  | none => exact .fail_bind hE (Cause.shown_of_none rfl) trivial
  | some a => exact h a ha

/-- Both operands, the left one from a register when it is left out. -/
theorem Emits.operandPair_ends (ht : Emits s L τ t) (h : Ready E ctx n s) (hi : instr.WellFormed)
    (harity : instr.op.arity = (1, 2)) :
    Ends E (operandPair ctx r instr) t fun _ u ↦
      ∃ left right, n.pair? r instr.operands = some (left, right) ∧
        Emits s (L ++ left.code ++ right.code) (right.type :: left.type :: τ) u := by
  have hleast := hi.least
  have hmost := hi.most
  rw [harity] at hleast hmost
  have hops : instr.operands.length = 1 ∨ instr.operands.length = 2 := by omega
  obtain ⟨op, ops, line⟩ := instr
  unfold operandPair
  rcases hops with hops | hops
  · obtain ⟨right, rfl⟩ := List.length_eq_one_iff.1 hops
    refine (ht.readRegister_ends h).bind ?_
    rintro _ u ⟨e, he, -, hu⟩
    refine Ends.operandAt_bind rfl
      ((hu.operand_ends h (hi.known right (by simp)).ne_unknown).bind ?_)
    rintro _ v ⟨e', he', -, hv⟩
    exact ends_pure ⟨e, e', by simp [Names.pair?, he, he'], hv⟩
  · obtain ⟨left, right, rfl⟩ := List.length_eq_two.1 hops
    refine (ht.operand_ends h (hi.known left (by simp)).ne_unknown).bind ?_
    rintro _ u ⟨e, he, -, hu⟩
    refine (hu.operand_ends h (hi.known right (by simp)).ne_unknown).bind ?_
    rintro _ v ⟨e', he', -, hv⟩
    exact ends_pure ⟨e, e', by simp [Names.pair?, he, he'], hv⟩

theorem Emits.promote_ends {op : Opcode} (ht : Emits s L (b :: a :: τ) t) (hE : s.Permits E) :
    Ends E (promote op) t fun c u ↦ bothNumeric a b = true ∧ c = commonType a b ∧
      Emits s (L ++ promotion a b) (converted b (commonType a b) :: commonType a b :: τ) u := by
  unfold promote
  refine ht.peek_bind (a := a) rfl (ht.peek_bind (a := b) rfl ?_)
  refine Ends.check (ht.permits hE) rfl trivial fun hnum ↦ ?_
  replace hnum : bothNumeric a b = true := by simpa [bothNumeric] using hnum
  refine ht.convertTop_ends.bind fun _ u hu ↦ ?_
  rw [promotion]
  by_cases hc : a = commonType a b
  · rw [if_neg (not_not_intro hc), if_pos hc, List.append_nil]
    refine ends_pure ⟨hnum, rfl, ?_⟩
    rwa [← hc] at hu ⊢
  · rw [if_pos hc, if_neg hc]
    refine (hu.emit_ends (x := .swap) rfl trivial rfl).bind fun _ v hv ↦ ?_
    refine hv.typeIndex_ends.bind fun k w hw ↦ ?_
    refine (hw.1.emit_ends (x := .convert (commonType a b)) rfl hw.2 rfl).bind fun _ x hx ↦ ?_
    refine (hx.emit_ends (x := .swap) rfl trivial rfl).bind fun _ y hy ↦ ?_
    refine (hy.retype_ends (by simp)).bind fun _ z hz ↦ ends_pure ⟨hnum, rfl, ?_⟩
    simpa [List.append_assoc] using hz

/-! ## Registers and jumps -/

theorem Emits.writeRegister_ends (ht : Emits s L (b :: τ) t) :
    Ends E (writeRegister r a) t fun _ v ↦ ∃ u, Emits s (L ++ [.popLocal r.slot]) τ u ∧
      v = { u with registers := s.registers.set r (.typed a) } := by
  refine (ht.emit_ends (x := .popLocal r.slot) rfl rfl rfl).bind fun _ u hu ↦ ?_
  refine (hu.pop_ends (Nat.succ_pos _)).bind fun _ v hv ↦ ?_
  refine ends_modify ⟨v, hv, ?_⟩
  rw [hv.registers]

/-- Facts only flow into what is recorded for the edges. -/
theorem State.flow_eq (ctx : Context) (j : Nat) (s : State) : s.flow ctx j = { s with
      forward := (s.flow ctx j).forward, backward := (s.flow ctx j).backward } := by
  rw [State.flow]
  split
  · rfl
  · split <;> rfl

/-- What flows depends on the facts, not on the code. -/
theorem State.flow_congr (ctx : Context) (j : Nat) (hcur : t.current = s.current)
    (hregs : t.registers = s.registers) (hfwd : t.forward = s.forward)
    (hback : t.backward = s.backward) : (t.flow ctx j).forward = (s.flow ctx j).forward ∧
    (t.flow ctx j).backward = (s.flow ctx j).backward := by
  rw [State.flow, State.flow, hcur, hregs]
  split
  · exact ⟨hfwd, hback⟩
  · split
    · exact ⟨hfwd, by rw [hback]⟩
    · exact ⟨by rw [hfwd], hback⟩

theorem jumpTo_ends {op : Op} {j : Nat} {x : Instr} (hs : s.Tidy) (hop : x.op = op)
    (hx : x.target? = some j) (hrefers : ∀ a, x.Refers s.consts s.types anywhere a) :
    Ends E (jumpTo ctx op j) s fun _ t ↦ Codes s [x] t ∧ t = { s with
      code := t.code, lines := t.lines, patches := t.patches
      forward := (s.flow ctx j).forward, backward := (s.flow ctx j).backward } := by
  let jumped : State := { s with
    code := s.code.push (op.word 0), lines := s.lines.push s.line
    patches := s.patches.push ⟨s.code.size, j⟩ }
  have hfresh (k : Nat) : (⟨s.code.size, k⟩ : Patch) ∉ s.patches :=
    fun hp ↦ Nat.lt_irrefl _ (hs.patches _ hp)
  obtain ⟨hfwd, hback⟩ : (jumped.flow ctx j).forward = (s.flow ctx j).forward ∧
      (jumped.flow ctx j).backward = (s.flow ctx j).backward :=
    State.flow_congr ctx j rfl rfl rfl rfl
  refine ends_of_eq (a := ()) (t := jumped.flow ctx j) rfl ?_
  rw [State.flow_eq ctx j jumped, hfwd, hback]
  refine ⟨⟨⟨by simp [jumped], List.prefix_rfl, List.prefix_rfl, List.prefix_rfl, ?_⟩,
    by simp [jumped], ?_, by simp [jumped], ⟨hs.plain, ?_, hs.locals, hs.loops⟩⟩, rfl⟩
  · intro p hp
    have hne : p ≠ ⟨s.code.size, j⟩ := by
      rintro rfl
      exact Nat.lt_irrefl _ hp
    simp [jumped, Array.mem_push, hne]
  · intro k y hy
    obtain ⟨rfl, rfl⟩ : k = 0 ∧ x = y := by
      cases k with
      | zero => exact ⟨rfl, Option.some.inj hy⟩
      | succ k => cases hy
    refine ⟨0, by simp [jumped, hop], hrefers 0, .inl fun k ↦ ?_⟩
    simp [jumped, Array.mem_push, hfresh k, hx, eq_comm]
  · intro p hp
    rcases Array.mem_push.1 hp with hp | rfl
    · simpa [jumped] using Nat.lt_succ_of_lt (hs.patches p hp)
    · simp [jumped]

/-- A jump back to an instruction whose offset is known. -/
theorem emit_back_ends {top : LoopTop} (hs : s.Tidy) (htop : top ∈ s.loops) :
    Ends E (emit .jump top.offset) s fun _ t ↦ Codes s [.jump top.index] t ∧
      t = { s with code := t.code, lines := t.lines } := by
  have hfresh (k : Nat) : (⟨s.code.size, k⟩ : Patch) ∉ s.patches :=
    fun hp ↦ Nat.lt_irrefl _ (hs.patches _ hp)
  refine ends_of_eq rfl ⟨⟨⟨by simp, List.prefix_rfl, List.prefix_rfl, List.prefix_rfl,
    fun _ _ ↦ Iff.rfl⟩, by simp, ?_, by simp, ⟨hs.plain, ?_, hs.locals, hs.loops⟩⟩, rfl⟩
  · intro k y hy
    obtain ⟨rfl, rfl⟩ : k = 0 ∧ .jump top.index = y := by
      cases k with
      | zero => exact ⟨rfl, Option.some.inj hy⟩
      | succ k => cases hy
    exact ⟨top.offset, by simp [Instr.op], trivial,
      .inr ⟨hfresh, top.index, rfl, hs.loops top htop⟩⟩
  · intro p hp
    simpa using Nat.lt_succ_of_lt (hs.patches p hp)

/-! ## Instructions -/

/-- A state in which an instruction can be generated. -/
structure Poised (E : Int → Cause → Prop) (ctx : Context) (n : Names) (s : State) :
    Prop extends Ready E ctx n s where
  stack : s.stack = []

theorem Poised.start (h : Poised E ctx n s) : Emits s [] [] s := h.stack ▸ .refl h.tidy

/-- A step ends with the code of what the instruction says. -/
abbrev Lowers (E : Int → Cause → Prop) (ctx : Context) (n : Names) (i : Nat) (instr : Instruction)
    (s : State) (g : Gen Unit) : Prop :=
  Ends E g s fun _ u ↦ ∃ st, Lowered ctx n i instr st s u

section Instructions

variable {line : Int} {op : Opcode} (h : Poised E ctx n s)

include h

/-- A value of type `a` is stored behind the code that leads to its place. -/
theorem assign_ends (hp : Leads s e p t)
    (hu : Emits s (e.lead ++ L) (a :: (e.leadTypes ++ s.stack)) u) :
    Ends E (store p) u fun _ w ↦ (e.type.accepts a = true ∧ e.store?.isSome) ∧
      Emits s (e.lead ++ L ++ conversion a e.type ++ e.store?.toList) [] w := by
  refine (hu.store_ends h.permits hp.access hp.type).mono ?_
  rintro _ w ⟨haccepts, x, hx, hw⟩
  rw [hx]
  exact ⟨⟨haccepts, rfl⟩, h.stack ▸ hw⟩

theorem lowerSet_ends {target source : Operand} (htarget : target.Known) (hsource : source.Known) :
    Lowers E ctx n i ⟨.set, [target, source], line⟩ s (lowerSet ctx [target, source]) := by
  refine Ends.operandAt_bind rfl (Ends.operandAt_bind rfl (Ends.nameOf_bind h.permits htarget ?_))
  rintro name rfl
  refine (resolve_ends name s h.toReady).bind ?_
  rintro p t ⟨e, he, hp⟩
  refine (hp.emits.operand_ends h.toReady hsource.ne_unknown).bind ?_
  rintro _ u ⟨v, hv, -, hu⟩
  refine (assign_ends h hp hu).mono ?_
  rintro _ w ⟨hchecked, hw⟩
  exact ⟨.assign e v, .of_emits h.describes hw
    ⟨by simp [Names.statement?, Names.assignment?, he, hv], hchecked, rfl⟩ rfl rfl rfl⟩

omit h in
theorem zero_plain (a : Ty) : a.zero.Plain := by
  cases a with
  | string => exact .inr ⟨"", rfl⟩
  | _ => exact .inl ⟨nofun, rfl⟩

omit h in
/-- A new local gets the next slot, if a frame has one. -/
theorem declare_ends {name : String} (hE : s.Permits E) :
    Ends E (declare ctx name a) s fun l u ↦ s.nextLocal < 64 ∧ l = ⟨s.nextLocal, a⟩ ∧
      u = { s with nextLocal := s.nextLocal + 1, locals := (name, l) :: s.locals } := by
  refine Ends.get_bind (Ends.check hE rfl trivial fun hlt ↦ ?_)
  exact ends_of_eq rfl ⟨Nat.lt_of_not_le hlt, rfl, rfl⟩

theorem lowerDefine_ends {name middle typeName : Operand} (hname : name.Known)
    (htype : typeName.Known) : Lowers E ctx n i ⟨.define, [name, middle, typeName], line⟩ s
    (lowerDefine ctx [name, middle, typeName]) := by
  refine Ends.operandAt_bind rfl (Ends.nameOf_bind h.permits hname ?_)
  rintro x rfl
  refine Ends.operandAt_bind rfl (Ends.check h.permits rfl trivial fun _ ↦
    Ends.operandAt_bind rfl ?_)
  refine Ends.nameOf_bind h.permits htype ?_
  rintro y rfl
  refine Ends.check h.permits rfl trivial fun _ ↦ Ends.get_bind ?_
  refine Ends.check h.permits rfl trivial fun _ ↦ ?_
  refine Ends.resolveType_bind h.permits fun a ha ↦ (declare_ends h.permits).bind ?_
  rintro l u ⟨hlt, hlocal, hu⟩
  have hutidy : u.Tidy := by
    rw [hu]
    exact ⟨h.tidy.plain, h.tidy.patches, hlt, h.tidy.loops⟩
  refine ((Emits.refl hutidy).emitConstant_ends (zero_plain a)).bind fun _ v hv ↦ ?_
  refine (hv.emit_ends (x := .popLocal l.slot) rfl rfl rfl).mono fun _ w hcodes ↦ ?_
  have hslot : l.slot = n.scope.count + registerCount := by rw [hlocal, h.describes.next]
  have hclass := h.describes.isClass
  refine ⟨.define n.scope.count a, .of_codes ?_ ?_ trivial ?_ ?_ rfl rfl rfl⟩
  · rw [hu, hslot] at hcodes
    exact hcodes.toCodes.of_locals
  · simp [Names.statement?, Names.definition?, hclass, ha]
  · have hafter : n.scope.after n.isClass i ⟨.define,
      [.identifier x, middle, .identifier y], line⟩ =
        n.scope.define x a := by simp [Scope.after, hclass, ha]
    rw [hafter]
    refine ⟨?_, ?_, ?_⟩
    · rw [hcodes.locals, hu, h.describes.locals, hlocal, h.describes.next]
      rfl
    · rw [hcodes.nextLocal, hu, h.describes.next]
      exact Nat.add_right_comm _ _ _
    · rw [hcodes.loops, hu]
      exact h.describes.loops
  · rw [hcodes.eq, hu, h.stack]

theorem lowerDelete_ends {name : Operand} (hname : name.Known) :
    Lowers E ctx n i ⟨.delete, [name], line⟩ s (lowerDelete [name]) := by
  refine Ends.operandAt_bind rfl (Ends.nameOf_bind h.permits hname ?_)
  rintro x rfl
  refine Ends.get_bind (Ends.check h.permits rfl trivial fun _ ↦ ends_modify ⟨.skip, ?_⟩)
  refine .of_codes ?_ rfl trivial ⟨?_, h.describes.next, h.describes.loops⟩ ?_ rfl rfl rfl
  · exact .of_scope h.tidy h.tidy.loops
  · show s.locals.filter _ = _
    rw [h.describes.locals, List.filter_map]
    rfl
  · rw [← h.stack]

theorem lowerWrite_ends (ho : o.Known)
    (hreads : ∀ v, n.operand? o = some v →
      n.statement? ctx.body ⟨op, [o], line⟩ = some (.write r v))
    (hscope : n.scope.after n.isClass i ⟨op, [o], line⟩ = n.scope) :
    Lowers E ctx n i ⟨op, [o], line⟩ s (lowerWrite ctx r [o]) := by
  refine Ends.operandAt_bind rfl ((h.start.operand_ends h.toReady ho.ne_unknown).bind ?_)
  rintro _ t ⟨v, hv, rfl, ht⟩
  refine ht.writeRegister_ends.mono ?_
  rintro _ _ ⟨u, hu, rfl⟩
  exact ⟨.write r v, .of_write h.describes hu ⟨hreads v hv, trivial, hscope⟩ rfl rfl⟩

omit h in
theorem Emits.emitArith_ends {a : Arith} (ht : Emits s L τ t) :
    Ends E (emitArith a b) t fun _ u ↦ Emits s (L ++ [computation a b]) τ u := by
  cases b with
  | int => exact ht.emit_ends rfl trivial rfl
  | _ => exact ht.emit_ends rfl rfl rfl

theorem lowerArith_ends {a : Arith} (hi : instr.WellFormed) (harity : instr.op.arity = (1, 2))
    (hreads : ∀ l r, n.pair? .selected instr.operands = some (l, r) →
      n.statement? ctx.body instr = some (.arith a l r))
    (hscope : n.scope.after n.isClass i instr = n.scope) :
    Lowers E ctx n i instr s (lowerArith ctx a instr) := by
  refine (h.start.operandPair_ends h.toReady hi harity).bind ?_
  rintro _ t ⟨l, r, hlr, ht⟩
  refine (ht.promote_ends h.permits).bind ?_
  rintro _ u ⟨hnum, rfl, hu⟩
  refine hu.emitArith_ends.bind fun _ v hv ↦ ?_
  refine (hv.pop_ends (by simp)).bind fun _ w hw ↦ hw.push_ends.bind fun _ x hx ↦ ?_
  refine hx.convertTop_ends.bind fun _ y hy ↦ hy.writeRegister_ends.mono ?_
  rintro _ _ ⟨z, hz, rfl⟩
  exact ⟨.arith a l r, .of_write h.describes hz ⟨hreads l r hlr, hnum, hscope⟩ rfl rfl⟩

/-- The end of a conditional, behind code that leaves its outcome on the stack. -/
theorem skipNext_ends (ht : Emits s L [.bool] t) (hsaid : Says ctx n i instr st)
    (hcode : st.code ctx.signature.returns i = L ++ [.jumpFalse (i + 2)])
    (hafter : st.after s.registers = s.registers) (hbranch : st.branch? i = some (i + 2))
    (hfalls : st.falls = true) :
    Ends E (skipNext ctx i) t fun _ u ↦ Lowered ctx n i instr st s u := by
  refine (jumpTo_ends (x := .jumpFalse (i + 2)) ht.tidy rfl rfl fun _ ↦ trivial).bind ?_
  rintro _ u ⟨hu, hueq⟩
  have hustack : u.stack = [.bool] := by rw [hueq, ht.stack]
  refine ((Emits.refl hu.tidy).pop_ends (by simp [hustack])).mono fun _ v hv ↦ ?_
  rw [hustack] at hv
  have huline : u.line = t.line := by rw [hueq]
  obtain ⟨hfwd, hback⟩ : (t.flow ctx (i + 2)).forward = (s.flow ctx (i + 2)).forward ∧
      (t.flow ctx (i + 2)).backward = (s.flow ctx (i + 2)).backward :=
    State.flow_congr ctx (i + 2) (by rw [ht.eq]) (by rw [ht.eq]) (by rw [ht.eq]) (by rw [ht.eq])
  have hcodes := (ht.toCodes.trans ht.line hu).trans (huline.trans ht.line) hv.toCodes
  rw [hfwd, hback] at hueq
  refine ⟨?_, hsaid.reads, hsaid.checked, ?_, ?_⟩
  · rw [hcode]
    simpa using hcodes
  · rw [hsaid.scope]
    exact h.describes.toScoped.of_eq (by rw [hv.eq, hueq, ht.eq]) (by rw [hv.eq, hueq, ht.eq])
      (by rw [hv.eq, hueq, ht.eq])
  · rw [hafter, hbranch, hfalls, Bool.and_true]
    rw [hv.eq, hueq, ht.eq]
    rfl

theorem lowerTruth_ends (hi : Instruction.WellFormed ⟨op, ops, line⟩) (harity : op.arity = (0, 1)) :
    Ends E (lowerTruth ctx negate ⟨op, ops, line⟩) s fun _ u ↦
      ∃ v, n.condition? negate ops = some (.truth negate v) ∧ v.type = .bool ∧
        Emits s (v.code ++ if negate then [.not] else []) [.bool] u := by
  -- Both forms end in the same check of the value on the stack.
  have hcheck {v : Expr} {t : State} (ht : Emits s v.code [v.type] t) :
      Ends E (do
        let a ← peek
        if a ≠ .bool then fail (.notBool op a)
        if negate then emit .not) t fun _ u ↦ v.type = .bool ∧
          Emits s (v.code ++ if negate then [.not] else []) [.bool] u := by
    refine ht.peek_bind rfl (Ends.check (ht.permits h.permits) rfl trivial fun hbool ↦ ?_)
    replace hbool : v.type = .bool := by simpa using hbool
    rw [hbool] at ht
    cases negate with
    | false => exact ends_pure ⟨hbool, by simpa using ht⟩
    | true => exact (ht.emit_ends (x := .not) rfl trivial rfl).mono fun _ u hu ↦ ⟨hbool, hu⟩
  have hmost := hi.most
  rw [harity] at hmost
  unfold lowerTruth
  cases ops with
  | nil =>
    refine (h.start.readRegister_ends h.toReady).bind ?_
    rintro _ t ⟨v, hv, -, ht⟩
    exact (hcheck ht).mono fun _ u hu ↦ ⟨v, by simp [Names.condition?, hv], hu⟩
  | cons o rest =>
    obtain rfl : rest = [] :=
      List.eq_nil_of_length_eq_zero (by simp only [List.length_cons] at hmost; omega)
    refine (h.start.operand_ends h.toReady (hi.known o (by simp)).ne_unknown).bind ?_
    rintro _ t ⟨v, hv, -, ht⟩
    exact (hcheck ht).mono fun _ u hu ↦ ⟨v, by simp [Names.condition?, hv], hu⟩

theorem lowerCondition_ends (hi : Instruction.WellFormed ⟨op, ops, line⟩)
    (harity : op.arity = (0, 1))
    (hreads : n.statement? ctx.body ⟨op, ops, line⟩ = n.condition? negate ops)
    (hscope : n.scope.after n.isClass i ⟨op, ops, line⟩ = n.scope) : Lowers E ctx n i
    ⟨op, ops, line⟩ s (do lowerTruth ctx negate ⟨op, ops, line⟩; skipNext ctx i) := by
  refine (lowerTruth_ends h hi harity).bind ?_
  rintro _ t ⟨v, hv, hbool, ht⟩
  exact (skipNext_ends h ht ⟨hreads.trans hv, hbool, hscope⟩ rfl rfl rfl rfl).mono
    fun _ u hu ↦ ⟨_, hu⟩

theorem lowerComparison_ends {test : Test} (hi : instr.WellFormed)
    (harity : instr.op.arity = (1, 2)) :
    Ends E (lowerComparison ctx test.op (ordered test) instr) s fun _ u ↦
      ∃ l r, n.pair? .comparing instr.operands = some (l, r) ∧ (bothNumeric l.type r.type = true ∨
          (ordered test = false ∧ canCompare l.type r.type = true)) ∧
        Emits s (l.code ++ r.code ++
          (if bothNumeric l.type r.type then promotion l.type r.type else []) ++ [.test test])
          [.bool] u := by
  -- The comparison itself, behind whatever made the two values comparable.
  have htest {L : List Instr} {a b : Ty} {t : State} (ht : Emits s L [a, b] t) :
      Ends E (do emit test.op; pop 2; push .bool) t fun _ u ↦
      Emits s (L ++ [.test test]) [.bool] u := by
    refine (ht.emit_ends (x := .test test) rfl trivial rfl).bind fun _ u hu ↦ ?_
    exact (hu.pop_ends (Nat.le_refl 2)).bind fun _ v hv ↦ hv.push_ends
  refine (h.start.operandPair_ends h.toReady hi harity).bind ?_
  rintro _ t ⟨l, r, hlr, ht⟩
  have hE := ht.permits h.permits
  refine ht.peek_bind (a := l.type) rfl (ht.peek_bind (a := r.type) rfl ?_)
  show Ends E (if bothNumeric l.type r.type = true then _ else _) t _
  split
  · rename_i hnum
    refine (ht.promote_ends h.permits).bind fun _ u hu ↦ ?_
    refine (htest hu.2.2).mono fun _ v hv ↦ ⟨l, r, hlr, .inl hnum, ?_⟩
    rw [if_pos hnum]
    exact hv
  · rename_i hnum
    split
    · exact .fail_bind hE (Cause.shown_of_none rfl) trivial
    · rename_i hord
      refine Ends.check hE rfl trivial fun hcompare ↦ ?_
      refine (htest ht).mono fun _ v hv ↦
        ⟨l, r, hlr, .inr ⟨by simpa using hord, by simpa using hcompare⟩, ?_⟩
      rw [if_neg hnum, List.append_nil]
      exact hv

theorem lowerCompare_ends (test : Test) (hi : instr.WellFormed) (harity : instr.op.arity = (1, 2))
    (hreads : ∀ l r, n.pair? .comparing instr.operands = some (l, r) →
      n.statement? ctx.body instr = some (.compare test l r))
    (hscope : n.scope.after n.isClass i instr = n.scope) : Lowers E ctx n i instr s (do
      lowerComparison ctx test.op (ordered test) instr
      skipNext ctx i) := by
  refine (lowerComparison_ends h hi harity).bind ?_
  rintro _ t ⟨l, r, hlr, hchecked, ht⟩
  have hcode : (Statement.compare test l r).code ctx.signature.returns i = l.code ++ r.code ++
      (if bothNumeric l.type r.type then promotion l.type r.type else []) ++ [.test test] ++
        [.jumpFalse (i + 2)] := by simp [Statement.code, List.append_assoc]
  exact (skipNext_ends h ht ⟨hreads l r hlr, hchecked, hscope⟩ hcode rfl rfl rfl).mono
    fun _ u hu ↦ ⟨_, hu⟩

/-! ### Control -/

omit h in
theorem unreachable_eq (s : State) : unreachable s = .ok ((), { s with reachable := false }) := rfl

theorem lowerJump_ends (ho : o.Known) (hlabels : ∀ l ∈ ctx.body.labels, 0 ≤ l.2)
    (hreads : n.statement? ctx.body ⟨op, [o], line⟩ = Names.jump? ctx.body [o])
    (hscope : n.scope.after n.isClass i ⟨op, [o], line⟩ = n.scope) :
    Lowers E ctx n i ⟨op, [o], line⟩ s (lowerJump ctx ⟨op, [o], line⟩) := by
  refine Ends.operandAt_bind rfl (Ends.nameOf_bind h.permits ho ?_)
  rintro name rfl
  cases hlabel : ctx.body.label? name with
  | none => exact ends_fail h.permits rfl trivial
  | some target =>
    obtain ⟨l, hl, rfl⟩ := Option.map_eq_some_iff.1 hlabel
    have hpos := hlabels l (List.mem_of_find?_eq_some hl)
    cases htarget : l.2 with
    | negSucc k => omega
    | ofNat j =>
      refine (jumpTo_ends (x := .jump j) h.tidy rfl rfl fun _ ↦ trivial).bind ?_
      rintro _ t ⟨ht, hteq⟩
      refine ends_of_eq (unreachable_eq t) ⟨.jump j, ht.facts _ _ _ _, ?_, trivial, ?_, ?_⟩
      · rw [hreads, Names.jump?, hlabel, htarget]
      · rw [hscope]
        exact h.describes.toScoped.of_eq (by rw [hteq]) (by rw [hteq]) (by rw [hteq])
      · rw [hteq, h.stack, Statement.falls, Bool.and_false]
        rfl

/-- A loop starts where the code of its first instruction does. -/
theorem lowerLoop_ends (hoff : s.offsets[i]? = some s.code.size) :
    Lowers E ctx n i ⟨.loop, [], line⟩ s (lowerLoop i) := by
  refine ends_modify ⟨.skip,
    .of_codes ?_ rfl trivial ⟨h.describes.locals, h.describes.next, ?_⟩ ?_ rfl rfl rfl⟩
  · refine .of_scope h.tidy fun l hl ↦ ?_
    rcases List.mem_cons.1 hl with rfl | hl
    · exact hoff
    · exact h.tidy.loops l hl
  · show _ :: s.loops.map LoopTop.index = _
    rw [h.describes.loops]
    rfl
  · rw [← h.stack]

theorem lowerRepeat_ends : Lowers E ctx n i ⟨.repeatLoop, [], line⟩ s (lowerRepeat ctx) := by
  have hloops := h.describes.loops
  refine Ends.get_bind ?_
  cases hs : s.loops with
  | nil => exact ends_fail h.permits rfl trivial
  | cons top rest =>
    have htop : top ∈ s.loops := hs ▸ List.mem_cons_self
    rw [hs] at hloops
    refine (emit_back_ends h.tidy htop).bind ?_
    rintro _ t ⟨ht, hteq⟩
    obtain ⟨hfwd, hback⟩ : (t.flow ctx top.index).forward = (s.flow ctx top.index).forward ∧
        (t.flow ctx top.index).backward = (s.flow ctx top.index).backward :=
      State.flow_congr ctx top.index (by rw [hteq]) (by rw [hteq]) (by rw [hteq]) (by rw [hteq])
    refine ends_of_eq (a := ()) (t := { t.flow ctx top.index with reachable := false }) rfl
      ⟨.jump top.index, ?_⟩
    rw [State.flow_eq, hfwd, hback]
    refine ⟨ht.facts _ _ _ _, ?_, trivial, ?_, ?_⟩
    · simp [Names.statement?, ← hloops]
    · exact h.describes.toScoped.of_eq (by rw [hteq]) (by rw [hteq]) (by rw [hteq])
    · rw [hteq, h.stack, Statement.falls, Bool.and_false]
      rfl

theorem lowerBreak_ends : Lowers E ctx n i ⟨.breakLoop, [], line⟩ s lowerBreak := by
  have hloops := h.describes.loops
  refine Ends.get_bind ?_
  cases hs : s.loops with
  | nil => exact ends_fail h.permits rfl trivial
  | cons top rest =>
    rw [hs] at hloops
    refine ends_modify ⟨.skip,
      .of_codes ?_ rfl trivial ⟨h.describes.locals, h.describes.next, ?_⟩ ?_ rfl rfl rfl⟩
    · exact .of_scope h.tidy fun l hl ↦ h.tidy.loops l (hs ▸ List.mem_cons_of_mem _ hl)
    · show rest.map LoopTop.index = n.scope.loops.tail
      rw [← hloops]
      rfl
    · rw [← h.stack]

/-! ### Calls, output and results -/

theorem lowerCall_ends (ho : o.Known) :
    Lowers E ctx n i ⟨.call, [o], line⟩ s (lowerCall ctx [o]) := by
  refine Ends.operandAt_bind rfl (Ends.nameOf_bind h.permits ho ?_)
  rintro name rfl
  dsimp only
  cases hk : ctx.owner.get.methodIndex? name with
  | none => exact ends_fail h.permits rfl trivial
  | some k =>
    obtain ⟨callee, hcallee, -⟩ := lastIndex?_spec hk
    have hsaid : Says ctx n i ⟨.call, [.identifier name], line⟩ (.call k callee.returns) :=
      ⟨by simp [Names.statement?, Names.call?, h.describes.owner, hk, hcallee], trivial, rfl⟩
    simp only [hcallee]
    refine (h.start.emit_ends (x := .call k) rfl rfl rfl).bind fun _ t ht ↦ ?_
    by_cases hvoid : callee.returns = .void
    · rw [if_neg (not_not_intro hvoid)]
      refine ends_pure ⟨_, .of_emits h.describes ?_ hsaid ?_ rfl rfl⟩
      · rw [Statement.code, if_pos hvoid]
        exact ht
      · rw [Statement.after, if_pos hvoid]
    · rw [if_pos hvoid]
      refine ht.push_ends.bind fun _ u hu ↦ hu.writeRegister_ends.mono ?_
      rintro _ _ ⟨v, hv, rfl⟩
      have hregs : s.registers.set .result (.typed callee.returns) =
          (Statement.call k callee.returns).after s.registers := by
        rw [Statement.after, if_neg hvoid]
      rw [hregs]
      refine ⟨_, .of_write h.describes ?_ hsaid rfl rfl⟩
      rw [Statement.code, if_neg hvoid]
      exact hv

theorem lowerPrint_ends (ho : o.Known) :
    Lowers E ctx n i ⟨.print, [o], line⟩ s (lowerPrint ctx [o]) := by
  refine Ends.operandAt_bind rfl ((h.start.operand_ends h.toReady ho.ne_unknown).bind ?_)
  rintro _ t ⟨v, hv, -, ht⟩
  refine (ht.emit_ends (x := .print) rfl (show _ = 0 by decide) rfl).bind fun _ u hu ↦ ?_
  refine (hu.pop_ends (Nat.le_refl 1)).mono fun _ w hw ↦ ⟨.print v, ?_⟩
  exact .of_emits h.describes hw ⟨by simp [Names.statement?, Names.printing?, hv], trivial,
    rfl⟩ rfl rfl rfl

/-- A return whose code is emitted once nothing follows it. -/
theorem Lowered.of_return {v : Option Expr}
    (hu : Emits { s with reachable := false } ((Statement.ret v).code ctx.signature.returns i) [] u)
    (hsaid : Says ctx n i instr (.ret v)) : Lowered ctx n i instr (.ret v) s u where
  toCodes := hu.toCodes.of_locals
  reads := hsaid.reads
  checked := hsaid.checked
  scope := by
    rw [hsaid.scope]
    exact h.describes.toScoped.of_eq hu.locals hu.nextLocal hu.loops
  rest := by
    rw [Statement.falls, Bool.and_false, hu.eq]
    rfl

theorem lowerReturn_ends (hi : Instruction.WellFormed ⟨.ret, ops, line⟩) :
    Lowers E ctx n i ⟨.ret, ops, line⟩ s (lowerReturn ctx ops) := by
  have hmost : ops.length ≤ 1 := hi.most
  unfold lowerReturn
  refine Ends.modify_bind ?_
  have hready : Poised E ctx n { s with reachable := false } :=
    ⟨⟨h.proper, ⟨h.tidy.plain, h.tidy.patches, h.tidy.locals, h.tidy.loops⟩,
      ⟨⟨h.describes.locals, h.describes.next, h.describes.loops⟩, h.describes.owner,
        h.describes.registers⟩, h.permits⟩, h.stack⟩
  have hstart := hready.start
  cases ops with
  | nil =>
    refine Ends.check hready.permits rfl trivial fun hvoid ↦ ?_
    refine (hstart.emit_ends (x := .ret false) rfl rfl rfl).mono fun _ u hu ↦ ⟨.ret none, ?_⟩
    exact .of_return h hu ⟨rfl, not_not.1 hvoid, rfl⟩
  | cons o rest =>
    obtain rfl : rest = [] :=
      List.eq_nil_of_length_eq_zero (by simp only [List.length_cons] at hmost; omega)
    refine Ends.check hready.permits rfl trivial fun hvoid ↦ ?_
    refine (hstart.operand_ends hready.toReady (hi.known o (by simp)).ne_unknown).bind ?_
    rintro _ t ⟨v, hv, rfl, ht⟩
    refine Ends.check (ht.permits hready.permits) rfl trivial fun haccepts ↦ ?_
    refine ht.convertTop_ends.bind fun _ u hu ↦ ?_
    refine (hu.emit_ends (x := .ret true) rfl rfl rfl).bind fun _ w hw ↦ ?_
    refine (hw.pop_ends (Nat.le_refl 1)).mono fun _ x hx ↦ ⟨.ret (some v), ?_⟩
    exact .of_return h hx ⟨by simp [Names.statement?, Names.return?, hv],
      ⟨hvoid, by simpa using haccepts⟩, rfl⟩

/-! ### New objects and arrays -/

theorem lowerNewArray_ends {size : Operand} (hp : Leads s e p t) (hsize : size.Known) :
    Ends E (lowerNewArray ctx p typeName a size) t fun _ u ↦ ∃ v, n.operand? size = some v ∧
      (Statement.newArray e (itemType a) v).Checked ctx.owner.home ctx.signature.returns ∧
      Emits s ((Statement.newArray e (itemType a) v).code ctx.signature.returns i) [] u := by
  refine (hp.emits.operand_ends h.toReady hsize.ne_unknown).bind ?_
  rintro _ u ⟨v, hv, rfl, hu⟩
  refine Ends.check (hu.permits h.permits) rfl trivial fun hnum ↦ ?_
  refine hu.convertTop_ends.bind fun _ w hw ↦ hw.typeIndex_ends.bind fun k x hx ↦ ?_
  refine (hx.1.emit_ends (x := .newArray (itemType a)) rfl hx.2 rfl).bind fun _ y hy ↦ ?_
  refine (hy.pop_ends (Nat.succ_pos _)).bind fun _ z hz ↦ hz.push_ends.bind fun _ z' hz' ↦ ?_
  simp only [List.append_assoc] at hz'
  refine (assign_ends h hp hz').mono ?_
  rintro _ w ⟨hchecked, hw⟩
  refine ⟨v, hv, ⟨by simpa using hnum, hchecked⟩, ?_⟩
  simpa [Statement.code, List.append_assoc] using hw

theorem lowerNewObject_ends (hp : Leads s e p t) (ha : a.Proper n.isClass) :
    Ends E (lowerNewObject ctx p typeName a) t fun _ u ↦ ∃ k c, a = .object c ∧
      ctx.owner.home.classIndex? c = some k ∧
      (Statement.newObject e k c).Checked ctx.owner.home ctx.signature.returns ∧
      Emits s ((Statement.newObject e k c).code ctx.signature.returns i) [] u := by
  have hE := hp.emits.permits h.permits
  cases a with
  | object c =>
    unfold lowerNewObject
    obtain ⟨k, hk⟩ := Option.isSome_iff_exists.1 (show (n.owner.home.classIndex? c).isSome from ha)
    rw [h.describes.owner] at hk
    obtain ⟨cls, hcls, hindex⟩ := CompiledModule.class?_of_index hk
    simp only [hcls]
    refine Ends.check hE rfl trivial fun habstract ↦ ?_
    refine (hp.emits.emit_ends (x := .new k) rfl hindex rfl).bind fun _ u hu ↦ ?_
    refine hu.push_ends.bind fun _ v hv ↦ (assign_ends h hp hv).mono ?_
    rintro _ w ⟨hchecked, hw⟩
    exact ⟨k, c, rfl, hk, ⟨hchecked.1, hchecked.2, cls, hcls, hindex, by simpa using habstract⟩, hw⟩
  | _ => exact ends_fail hE rfl trivial

theorem lowerNew_ends (hi : Instruction.WellFormed ⟨.new, ops, line⟩) :
    Lowers E ctx n i ⟨.new, ops, line⟩ s (lowerNew ctx ops) := by
  have hleast : 2 ≤ ops.length := hi.least
  have hmost : ops.length ≤ 3 := hi.most
  obtain ⟨target, typeName, rest, rfl⟩ : ∃ target typeName rest,
    ops = target :: typeName :: rest := by
    obtain ⟨target, ops, rfl⟩ :=
      List.exists_cons_of_length_pos (Nat.lt_of_lt_of_le Nat.two_pos hleast)
    obtain ⟨typeName, rest, rfl⟩ := List.exists_cons_of_length_pos (Nat.le_of_succ_le_succ hleast)
    exact ⟨target, typeName, rest, rfl⟩
  refine Ends.operandAt_bind rfl (Ends.nameOf_bind h.permits (hi.known _ (by simp)) ?_)
  rintro x rfl
  refine Ends.operandAt_bind rfl (Ends.nameOf_bind h.permits (hi.known _ (by simp)) ?_)
  rintro y rfl
  refine Ends.resolveType_bind h.permits fun a ha ↦ (resolve_ends x s h.toReady).bind ?_
  rintro p t ⟨e, he, hp⟩
  rw [← h.describes.isClass] at ha
  cases rest with
  | nil =>
    refine (lowerNewObject_ends (i := i) h hp (Ty.proper_of_ofName? ha)).mono ?_
    rintro _ u ⟨k, c, hc, hk, hchecked, hu⟩
    refine ⟨.newObject e k c, .of_emits h.describes hu ⟨?_, hchecked, rfl⟩ rfl rfl rfl⟩
    simp [Names.statement?, Names.creation?, ha, he, hc, h.describes.owner, hk]
  | cons size rest =>
    obtain rfl : rest = [] :=
      List.eq_nil_of_length_eq_zero (by simp only [List.length_cons] at hmost; omega)
    refine (lowerNewArray_ends (i := i) h hp (hi.known size (by simp))).mono ?_
    rintro _ u ⟨v, hv, hchecked, hu⟩
    refine ⟨.newArray e (itemType a) v, .of_emits h.describes hu ⟨?_, hchecked, rfl⟩ rfl rfl rfl⟩
    simp [Names.statement?, Names.creation?, ha, he, hv]

/-- **An instruction becomes the code of what it says**, or the generator complains about it. -/
theorem lower_ends (hi : instr.WellFormed) (hlabels : ∀ l ∈ ctx.body.labels, 0 ≤ l.2)
    (hoff : s.offsets[i]? = some s.code.size) : Lowers E ctx n i instr s (lower ctx i instr) := by
  obtain ⟨op, ops, line⟩ := instr
  have hlength {k : Nat} (harity : op.arity = (k, k)) : ops.length = k := by
    have hleast := hi.least
    have hmost := hi.most
    rw [harity] at hleast hmost
    exact Nat.le_antisymm hmost hleast
  have hone (harity : op.arity = (1, 1)) : ∃ a, ops = [a] ∧ a.Known := by
    obtain ⟨a, rfl⟩ := List.length_eq_one_iff.1 (hlength harity)
    exact ⟨a, rfl, hi.known a (by simp)⟩
  have hnone (harity : op.arity = (0, 0)) : ops = [] :=
    List.eq_nil_of_length_eq_zero (hlength harity)
  cases op with
  | set =>
    obtain ⟨a, b, rfl⟩ := List.length_eq_two.1 (hlength rfl)
    exact lowerSet_ends h (hi.known a (by simp)) (hi.known b (by simp))
  | define =>
    obtain ⟨a, b, c, rfl⟩ := List.length_eq_three.1 (hlength rfl)
    exact lowerDefine_ends h (hi.known a (by simp)) (hi.known c (by simp))
  | delete =>
    obtain ⟨a, rfl, ha⟩ := hone rfl
    exact lowerDelete_ends h ha
  | select | compare =>
    obtain ⟨a, rfl, ha⟩ := hone rfl
    exact lowerWrite_ends h ha (fun v hv ↦ by simp [Names.statement?, Names.writing?, hv]) rfl
  | add | sub | mul | div | rem =>
    exact lowerArith_ends h hi rfl (fun l r hlr ↦ by simp only [Names.statement?, hlr]; rfl) rfl
  | isTrue | isFalse => exact lowerCondition_ends h hi rfl rfl rfl
  | isEqual =>
    exact lowerCompare_ends h .equal hi rfl
      (fun l r hlr ↦ by simp only [Names.statement?, hlr]; rfl) rfl
  | isUnequal =>
    exact lowerCompare_ends h .unequal hi rfl
      (fun l r hlr ↦ by simp only [Names.statement?, hlr]; rfl) rfl
  | isGreater =>
    exact lowerCompare_ends h .greater hi rfl
      (fun l r hlr ↦ by simp only [Names.statement?, hlr]; rfl) rfl
  | isLess =>
    exact lowerCompare_ends h .less hi rfl
      (fun l r hlr ↦ by simp only [Names.statement?, hlr]; rfl) rfl
  | goto | jump =>
    obtain ⟨a, rfl, ha⟩ := hone rfl
    exact lowerJump_ends h ha hlabels rfl rfl
  | loop =>
    obtain rfl := hnone rfl
    exact lowerLoop_ends h hoff
  | repeatLoop =>
    obtain rfl := hnone rfl
    exact lowerRepeat_ends h
  | breakLoop =>
    obtain rfl := hnone rfl
    exact lowerBreak_ends h
  | call =>
    obtain ⟨a, rfl, ha⟩ := hone rfl
    exact lowerCall_ends h ha
  | print =>
    obtain ⟨a, rfl, ha⟩ := hone rfl
    exact lowerPrint_ends h ha
  | ret => exact lowerReturn_ends h hi
  | new => exact lowerNew_ends h hi
  | defLabel => exact absurd rfl hi.code.1
  | unknown c => exact absurd rfl (hi.code.2 c)

end Instructions

end ClassAsm.Codegen
