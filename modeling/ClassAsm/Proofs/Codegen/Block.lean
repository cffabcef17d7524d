import ClassAsm.Codegen.Body
import ClassAsm.Proofs.Codegen.Flow
import ClassAsm.Proofs.Codegen.Lowering

/-!
# The code of a block

A pass over a block leaves a trace: for every instruction, what was known about the registers when
control gets there, and what the instruction says with that knowledge.  `Traced` ties the trace to
the state of the generator.  The code of each statement stands at its offset, one behind the other,
and the facts of an instruction are below what flows into it along every edge but the backward ones,
whose facts the pass has from the passes before.

`settle_ends` is about the passes: they come to an end, and in the last one the facts agree with all
that flows along backward edges too.  So the trace of the last pass is sound for every edge, which
is what `Sound` says.

`Traced.step` is the step of the induction over a block.  `pass_ends` and `settle_ends` take
something else to be kept up by each instruction (`Keeps`, `KeepsAll`) and by each pass, so that
other modules can follow what they need through all passes without going through them again.
-/

namespace ClassAsm

namespace Reference.Scope

open Program

variable {isClass : String → Bool} {sc : Scope}

theorem through_append (sc : Scope) (k : Nat) (xs : List Instruction) (x : Instruction) :
    sc.through isClass k (xs ++ [x]) =
    (sc.through isClass k xs).after isClass (k + xs.length) x := by
  induction xs generalizing sc k with
  | nil => rfl
  | cons y ys ih =>
    show through isClass (sc.after isClass k y) (k + 1) (ys ++ [x]) = _
    rw [ih, List.length_cons, Nat.add_right_comm k 1, Nat.add_assoc]
    rfl

theorem before_succ {b : Block} {i : Nat} {instr : Instruction} (h : b.code[i]? = some instr) :
    before isClass b (i + 1) = (before isClass b i).after isClass i instr := by
  rw [← Array.getElem?_toList] at h
  have hi := (List.getElem?_eq_some_iff.1 h).1
  rw [before, before, List.take_add_one, h, Option.toList_some, through_append, List.length_take,
    Nat.min_eq_left (Nat.le_of_lt hi), Nat.zero_add]

/-- All variables in scope have proper types. -/
def Proper (isClass : String → Bool) (sc : Scope) : Prop :=
  ∀ v ∈ sc.vars, v.2.type.Proper isClass

theorem Proper.after (h : sc.Proper isClass) (i : Nat) (instr : Instruction) :
    (sc.after isClass i instr).Proper isClass := by
  unfold Scope.after
  split
  · split
    · rename_i t ht
      intro v hv
      rcases List.mem_cons.1 hv with rfl | hv
      · exact Ty.proper_of_ofName? ht
      · exact h v hv
    · exact h
  · intro v hv
    exact h v (List.mem_of_mem_filter hv)
  · exact h
  · exact h
  · exact h

theorem Proper.through (h : sc.Proper isClass) (k : Nat) (xs : List Instruction) :
    (sc.through isClass k xs).Proper isClass := by
  induction xs generalizing sc k with
  | nil => exact h
  | cons x xs ih => exact ih (h.after k x) (k + 1)

theorem before_proper (isClass : String → Bool) (b : Block) (i : Nat) :
    (before isClass b i).Proper isClass := by
  have hempty : Proper isClass {} := fun _ hv ↦ absurd hv List.not_mem_nil
  exact hempty.through 0 _

end Reference.Scope

namespace Codegen

open Bytecode Program Reference

variable {E : Int → Cause → Prop} {ctx : Context} {s t start : State} {i k j : Nat} {f : Registers}
  {back : Flow}

/-! ## The trace of a pass -/

/-- An instruction as the generator sees it: what is known about the registers there, and what it
says with that knowledge. -/
structure Point where
  facts : Registers
  stmt : Statement

/-- What is known behind an instruction. -/
def Point.out (p : Point) : Registers := p.stmt.after p.facts

/-- The names at the instruction with index `k`, with some knowledge about the registers. -/
def Context.namesAt (ctx : Context) (k : Nat) (rs : Registers) : Names :=
  ⟨ctx.owner, Scope.before ctx.isClass ctx.body k, fun r ↦ (rs.get r).type?⟩

/-- The offsets of all instructions so far, and of what comes next. -/
def State.bounds (s : State) : Array Nat := s.offsets.push s.code.size

/-- The code of the instruction with index `k` is in its place. -/
structure Placed (ctx : Context) (s : State) (k : Nat) (p : Point) : Prop where
  reads : ∃ instr, ctx.body.code[k]? = some instr ∧
    (ctx.namesAt k p.facts).statement? ctx.body instr = some p.stmt
  checked : p.stmt.Checked ctx.owner.home ctx.signature.returns
  code : ∃ off, s.bounds[k]? = some off ∧
    s.bounds[k + 1]? = some (off + (p.stmt.code ctx.signature.returns k).length) ∧
    s.Has off (p.stmt.code ctx.signature.returns k)

/-- What flows into an instruction from the one before it, or at the start of the block. -/
inductive Enters (start : Registers) (ps : List Point) : Nat → Registers → Prop where
  | start : Enters start ps 0 start
  | fall {k : Nat} {p : Point} : ps[k]? = some p → p.stmt.falls = true →
      Enters start ps (k + 1) p.out

/-- The facts `rs` of an instruction that branches to `j` are known at `j`: its facts are below
them, or will be since they have been recorded for it. -/
def Arrives (ps : List Point) (s : State) (j : Nat) (rs : Registers) : Prop :=
  (∃ q, ps[j]? = some q ∧ q.facts.Below rs) ∨
  (ps.length ≤ j ∧ ∃ f, s.forward.at j = some f ∧ f.Below rs)

/-- The line of the instruction with index `k`. -/
def lineOf (b : Program.Block) (k : Nat) : Int := (b.code[k]?.map (·.line)).getD 0

/-- The line in effect behind the first `k` instructions, if `line` is in effect before them. -/
def lineBehind (b : Program.Block) (line : Int) : Nat → Int
  | 0 => line
  | k + 1 => lineOf b k

/-- The lines of the words of statements, the first of which has index `k`. -/
def statementLines (b : Program.Block) (returns : Ty) : Nat → List Point → List Int
  | _, [] => []
  | k, p :: ps =>
    List.replicate (p.stmt.code returns k).length (lineOf b k) ++
    statementLines b returns (k + 1) ps

theorem statementLines_append (b : Block) (returns : Ty) (k : Nat) (ps : List Point) (p : Point) :
    statementLines b returns k (ps ++ [p]) = statementLines b returns k ps ++
      List.replicate (p.stmt.code returns (k + ps.length)).length (lineOf b (k + ps.length)) := by
  induction ps generalizing k with
  | nil => simp [statementLines]
  | cons q ps ih =>
    rw [List.cons_append, statementLines, ih, statementLines, List.append_assoc, List.length_cons,
      Nat.add_right_comm k 1, Nat.add_assoc]

/-- All words that have been added from `start` to `s` come from the lines of their statements. -/
structure Lined (ctx : Context) (start : State) (ps : List Point) (s : State) : Prop where
  lines : s.lines.toList = start.lines.toList ++ statementLines ctx.body ctx.signature.returns 0 ps
  size : s.code.size = start.code.size + (statementLines ctx.body ctx.signature.returns 0 ps).length
  line : s.line = lineBehind ctx.body start.line ps.length

/-- A pass that started in `start` has got to `s` with the trace `ps`. -/
structure Traced (ctx : Context) (start : State) (ps : List Point) (s : State) : Prop where
  grows : start.Extends s
  first : s.bounds[0]? = some start.code.size
  tidy : s.Tidy
  lined : Lined ctx start ps s
  stack : s.stack = []
  scope : Scoped (Scope.before ctx.isClass ctx.body ps.length) s
  offsets : s.offsets.size = ps.length
  forward_size : s.forward.size = ctx.body.code.size
  backward_size : s.backward.size = ctx.body.code.size
  placed : ∀ k p, ps[k]? = some p → Placed ctx s k p
  enters : ∀ k p rs, ps[k]? = some p → Enters start.registers ps k rs → p.facts.Below rs
  here : ∀ rs, Enters start.registers ps ps.length rs → s.reachable = true ∧ s.registers = rs
  back : ∀ k p b, ps[k]? = some p → ctx.back.at k = some b → p.facts.Below b
  behind : ∀ k p j, ps[k]? = some p → p.stmt.branch? k = some j → j < ctx.body.code.size →
    j ≤ k → ∃ f, s.backward.at j = some f ∧ f.Below p.facts
  ahead : ∀ k p j, ps[k]? = some p → p.stmt.branch? k = some j → j < ctx.body.code.size →
    k < j → Arrives ps s j p.facts

/-! ## One instruction -/

/-- The facts with which an instruction is entered. -/
def entry (ctx : Context) (i : Nat) (s : State) : Registers :=
  (Option.merge Registers.meet (if s.reachable then some s.registers else none)
    (Option.merge Registers.meet (s.forward.at i) (ctx.back.at i))).getD s.registers

theorem entry_below_here (h : s.reachable = true) : (entry ctx i s).Below s.registers := by
  obtain ⟨c, hc, hbelow⟩ := merge_below_left (a := s.registers)
    (x := Option.merge Registers.meet (s.forward.at i) (ctx.back.at i))
  rw [entry, if_pos h, hc]
  exact hbelow

theorem entry_below_jumped {g : Registers}
    (h : Option.merge Registers.meet (s.forward.at i) (ctx.back.at i) = some g) (hg : g.Below f) :
    (entry ctx i s).Below f := by
  obtain ⟨c, hc, hbelow⟩ :=
    merge_below_right (b := g) (x := if s.reachable then some s.registers else none)
  rw [entry, h, hc]
  exact hbelow.trans hg

theorem entry_below_forward (h : s.forward.at i = some f) : (entry ctx i s).Below f := by
  obtain ⟨c, hc, hbelow⟩ := merge_below_left (a := f) (x := ctx.back.at i)
  exact entry_below_jumped (h ▸ hc) hbelow

theorem entry_below_back {b : Registers} (h : ctx.back.at i = some b) :
    (entry ctx i s).Below b := by
  obtain ⟨c, hc, hbelow⟩ := merge_below_right (b := b) (x := s.forward.at i)
  exact entry_below_jumped (h ▸ hc) hbelow

/-- The state in which the code of an instruction is generated. -/
def State.entered (ctx : Context) (i : Nat) (instr : Instruction) (s : State) : State :=
  { s with
    registers := entry ctx i s, current := i, reachable := true
    offsets := s.offsets.push s.code.size, line := instr.line }

theorem instruction_eq (ctx : Context) (i : Nat) (instr : Instruction) (s : State) :
    instruction ctx i instr s = (do
      lower ctx i instr
      let depth := (← get).stack.length
      if depth ≠ 0 then throw (.unbalanced instr.op depth instr.line) : Gen Unit)
        (s.entered ctx i instr) := rfl

section Step

variable {ps : List Point} {p : Point} {instr : Instruction}

theorem State.entered_extends (ctx : Context) (i : Nat) (instr : Instruction) :
    s.Extends (s.entered ctx i instr) :=
  ⟨List.prefix_rfl, List.prefix_rfl, List.prefix_rfl, by simp [State.entered], fun _ _ ↦ Iff.rfl⟩

theorem State.Tidy.entered (h : s.Tidy) (i : Nat) : (s.entered ctx i instr).Tidy :=
  ⟨h.plain, h.patches, h.locals, fun l hl ↦
    getElem?_of_prefix (State.entered_extends ctx i instr).offsets (h.loops l hl)⟩

/-- The next instruction can be generated. -/
theorem Traced.ready (h : Traced ctx start ps s) (hproper : ctx.owner.home.Proper)
    (hE : (s.entered ctx ps.length instr).Permits E) :
    Poised E ctx (ctx.namesAt ps.length (entry ctx ps.length s))
    (s.entered ctx ps.length instr) where
  proper := ⟨hproper, Scope.before_proper _ _ _⟩
  tidy := h.tidy.entered _
  describes := ⟨⟨h.scope.locals, h.scope.next, h.scope.loops⟩, rfl, fun _ ↦ rfl⟩
  permits := hE
  stack := h.stack

theorem State.bounds_extends {p : Nat} {off : Nat} (hoff : t.offsets = s.offsets.push s.code.size)
    (h : s.bounds[p]? = some off) :
    t.bounds[p]? = some off := by
  rw [bounds, hoff]
  exact getElem?_of_prefix (by simp [bounds]) h

theorem Placed.mono (h : Placed ctx s k p) (hst : s.Extends t)
    (hoff : t.offsets = s.offsets.push s.code.size) : Placed ctx t k p := by
  obtain ⟨off, hk, hk', hcode⟩ := h.code
  exact ⟨h.reads, h.checked, off, State.bounds_extends hoff hk, State.bounds_extends hoff hk',
    hcode.mono hst⟩

/-- What flows into an instruction only depends on the trace before it. -/
theorem Enters.of_append {rs₀ rs : Registers} (hk : k ≤ ps.length)
    (h : Enters rs₀ (ps ++ [p]) k rs) : Enters rs₀ ps k rs := by
  cases h with
  | start => exact .start
  | fall hq hfalls =>
    rw [List.getElem?_append_left (by omega)] at hq
    exact .fall hq hfalls

theorem getElem?_append_point {q : Point} (h : (ps ++ [p])[k]? = some q) :
    ps[k]? = some q ∨ (k = ps.length ∧ q = p) := by
  rw [List.getElem?_append] at h
  split at h
  · exact .inl h
  · rename_i hk
    obtain ⟨hlt, rfl⟩ := List.getElem?_eq_some_iff.1 h
    rw [List.length_singleton] at hlt
    exact .inr ⟨by omega, by simp⟩

theorem State.size_branch (ctx : Context) (s : State) (x : Option Nat) :
    (s.branch ctx x).forward.size = s.forward.size ∧
    (s.branch ctx x).backward.size = s.backward.size := by
  cases x with
  | none => exact ⟨rfl, rfl⟩
  | some j =>
    rw [State.branch, State.flow]
    split
    · exact ⟨rfl, rfl⟩
    · split
      · exact ⟨rfl, Flow.size_add _ _ _⟩
      · exact ⟨Flow.size_add _ _ _, rfl⟩

/-- What is recorded along edges only goes down when a branch adds to it. -/
theorem State.branch_mono (ctx : Context) (x : Option Nat) :
    (s.forward.at j = some f → ∃ c, (s.branch ctx x).forward.at j = some c ∧ c.Below f) ∧
      (s.backward.at j = some f → ∃ c, (s.branch ctx x).backward.at j = some c ∧ c.Below f) := by
  cases x with
  | none => exact ⟨fun h ↦ ⟨f, h, .refl f⟩, fun h ↦ ⟨f, h, .refl f⟩⟩
  | some i =>
    rw [State.branch, State.flow]
    split
    · exact ⟨fun h ↦ ⟨f, h, .refl f⟩, fun h ↦ ⟨f, h, .refl f⟩⟩
    · split
      · exact ⟨fun h ↦ ⟨f, h, .refl f⟩, fun h ↦ Flow.at_add_mono h⟩
      · exact ⟨fun h ↦ Flow.at_add_mono h, fun h ↦ ⟨f, h, .refl f⟩⟩

theorem State.flow_behind (hjn : j < ctx.body.code.size) (hj : j ≤ s.current)
    (hsize : s.backward.size = ctx.body.code.size) :
    ∃ f, (s.flow ctx j).backward.at j = some f ∧ f.Below s.registers := by
  rw [State.flow, if_neg (Nat.not_le_of_lt hjn), if_pos hj]
  exact Flow.at_add_below (hsize ▸ hjn)

theorem State.flow_ahead (hjn : j < ctx.body.code.size) (hj : s.current < j)
    (hsize : s.forward.size = ctx.body.code.size) :
    ∃ f, (s.flow ctx j).forward.at j = some f ∧ f.Below s.registers := by
  rw [State.flow, if_neg (Nat.not_le_of_lt hjn), if_neg (Nat.not_le_of_lt hj)]
  exact Flow.at_add_below (hsize ▸ hjn)

variable {st : Statement}

/-- The instruction with index `i` is lowered from the state before it. -/
abbrev LoweredAt (ctx : Context) (i : Nat) (instr : Instruction) (st : Statement) (s t : State) :
    Prop :=
  Lowered ctx (ctx.namesAt i (entry ctx i s)) i instr st (s.entered ctx i instr) t

theorem Lowered.placed (h : Traced ctx start ps s) (hinstr : ctx.body.code[ps.length]? = some instr)
    (hlow : LoweredAt ctx ps.length instr st s t) :
    Placed ctx t ps.length ⟨entry ctx ps.length s, st⟩ := by
  have hoff : t.offsets = s.offsets.push s.code.size := by
    rw [hlow.rest]
    rfl
  have hsize : t.offsets.size = ps.length + 1 := by rw [hoff, Array.size_push, h.offsets]
  refine ⟨⟨instr, hinstr, hlow.reads⟩, hlow.checked, s.code.size, ?_, ?_, hlow.has⟩
  · have hlast : t.offsets[ps.length]? = some s.code.size := by
      rw [hoff, ← h.offsets, Array.getElem?_push_size]
    exact getElem?_of_prefix (by simp [State.bounds]) hlast
  · rw [State.bounds, ← hsize, Array.getElem?_push_size, hlow.size]
    rfl

theorem Lowered.lined (h : Lined ctx start ps s) (hinstr : ctx.body.code[ps.length]? = some instr)
    (hlow : LoweredAt ctx ps.length instr st s t) :
    Lined ctx start (ps ++ [⟨entry ctx ps.length s, st⟩]) t := by
  have hline : lineOf ctx.body ps.length = instr.line := by rw [lineOf, hinstr]; rfl
  refine ⟨?_, ?_, ?_⟩
  · rw [hlow.lines, statementLines_append, Nat.zero_add, hline, ← List.append_assoc, ← h.lines]
    rfl
  · rw [hlow.size, statementLines_append, Nat.zero_add, List.length_append, List.length_replicate,
      ← Nat.add_assoc, ← h.size]
    rfl
  · rw [hlow.rest, List.length_append]
    exact hline.symm

/-- **One instruction extends the trace.** -/
theorem Traced.step (h : Traced ctx start ps s) (hinstr : ctx.body.code[ps.length]? = some instr)
    (hlow : LoweredAt ctx ps.length instr st s t) :
    Traced ctx start (ps ++ [⟨entry ctx ps.length s, st⟩]) t := by
  have hrest := hlow.rest
  have hoff : t.offsets = s.offsets.push s.code.size := by
    rw [hrest]
    rfl
  have hgrows : s.Extends t := (State.entered_extends ctx ps.length instr).trans hlow.grows
  have hfwd : t.forward =
    ((s.entered ctx ps.length instr).branch ctx (st.branch? ps.length)).forward := by rw [hrest]
  have hbwd : t.backward = ((s.entered ctx ps.length instr).branch ctx
      (st.branch? ps.length)).backward := by rw [hrest]
  obtain ⟨hfwd_size, hbwd_size⟩ :=
    (s.entered ctx ps.length instr).size_branch ctx (st.branch? ps.length)
  have hi : ps.length < ctx.body.code.size := (Array.getElem?_eq_some_iff.1 hinstr).1
  refine ⟨h.grows.trans hgrows, State.bounds_extends hoff h.first, hlow.tidy,
    hlow.lined h.lined hinstr, by rw [hrest], ?_, ?_, ?_, ?_, ?_, ?_, ?_, ?_, ?_, ?_⟩
  · rw [List.length_append, List.length_singleton, Scope.before_succ hinstr]
    exact hlow.scope
  · rw [hoff, Array.size_push, h.offsets, List.length_append, List.length_singleton]
  · rw [hfwd, hfwd_size]
    exact h.forward_size
  · rw [hbwd, hbwd_size]
    exact h.backward_size
  · intro k p hp
    rcases getElem?_append_point hp with hp | ⟨rfl, rfl⟩
    · exact (h.placed k p hp).mono hgrows hoff
    · exact hlow.placed h hinstr
  · intro k p rs hp hrs
    rcases getElem?_append_point hp with hp | ⟨rfl, rfl⟩
    · have hk := (List.getElem?_eq_some_iff.1 hp).1
      exact h.enters k p rs hp (hrs.of_append (Nat.le_of_lt hk))
    · obtain ⟨hreach, rfl⟩ := h.here rs (hrs.of_append (Nat.le_refl _))
      exact entry_below_here hreach
  · intro rs hrs
    rw [List.length_append, List.length_singleton] at hrs
    cases hrs with
    | fall hq hfalls =>
      rw [List.getElem?_concat_length] at hq
      cases hq
      rw [hrest]
      exact ⟨hfalls, rfl⟩
  · intro k p b hp hb
    rcases getElem?_append_point hp with hp | ⟨rfl, rfl⟩
    · exact h.back k p b hp hb
    · exact entry_below_back hb
  · intro k p j hp hj hjn hjk
    rw [hbwd]
    rcases getElem?_append_point hp with hp | ⟨rfl, rfl⟩
    · obtain ⟨f, hf, hbelow⟩ := h.behind k p j hp hj hjn hjk
      obtain ⟨c, hc, hcf⟩ :=
        (State.branch_mono (s := s.entered ctx ps.length instr) ctx (st.branch? ps.length)).2 hf
      exact ⟨c, hc, hcf.trans hbelow⟩
    · have hbranch : st.branch? ps.length = some j := hj
      rw [hbranch]
      exact State.flow_behind (s := s.entered ctx ps.length instr) hjn hjk h.backward_size
  · intro k p j hp hj hjn hkj
    rcases getElem?_append_point hp with hp | ⟨rfl, rfl⟩
    · -- An earlier branch: its target is in the trace, is this instruction, or is still ahead.
      rcases h.ahead k p j hp hj hjn hkj with ⟨q, hq, hbelow⟩ | ⟨hle, f, hf, hbelow⟩
      · have hj := (List.getElem?_eq_some_iff.1 hq).1
        exact .inl ⟨q, by rw [List.getElem?_append_left hj, hq], hbelow⟩
      · rcases Nat.eq_or_lt_of_le hle with rfl | hlt
        · exact .inl ⟨_, List.getElem?_concat_length, (entry_below_forward hf).trans hbelow⟩
        · obtain ⟨c, hc, hcf⟩ := (State.branch_mono (s := s.entered ctx ps.length instr) ctx
            (st.branch? ps.length)).1 hf
          refine .inr ⟨?_, c, hfwd ▸ hc, hcf.trans hbelow⟩
          rwa [List.length_append, List.length_singleton]
    · have hbranch : st.branch? ps.length = some j := hj
      refine .inr ⟨by rwa [List.length_append, List.length_singleton], ?_⟩
      rw [hfwd, hbranch]
      exact State.flow_ahead (s := s.entered ctx ps.length instr) hjn hkj h.forward_size

/-- An instruction becomes the code of what it says. -/
theorem instruction_lowers (h : Traced ctx start ps s) (hproper : ctx.owner.home.Proper)
    (hblock : ctx.body.WellFormed) (hinstr : ctx.body.code[ps.length]? = some instr)
    (hE : (s.entered ctx ps.length instr).Permits E) :
    Ends E (instruction ctx ps.length instr) s fun _ t ↦ ∃ st,
    LoweredAt ctx ps.length instr st s t := by
  have hoff : (s.entered ctx ps.length instr).offsets[ps.length]? =
      some (s.entered ctx ps.length instr).code.size := by
    rw [State.entered, ← h.offsets, Array.getElem?_push_size]
  have hlower := lower_ends (i := ps.length) (h.ready hproper hE)
    (hblock.code instr (Array.mem_of_getElem? hinstr)) (fun l hl ↦ (hblock.labels l hl).1) hoff
  rw [Ends, instruction_eq]
  show Ends E _ (s.entered ctx ps.length instr) fun _ t ↦ ∃ st, Lowered ctx _ _ instr st _ t
  refine hlower.bind ?_
  rintro _ t ⟨st, hlow⟩
  refine Ends.get_bind ?_
  have hstack : t.stack = [] := by rw [hlow.rest]
  rw [hstack]
  exact ends_pure ⟨st, hlow⟩

/-- What a pass from `start` keeps: every instruction preserves `I`, and `I` permits what is said
about the next one. -/
structure Keeps (E : Int → Cause → Prop) (ctx : Context) (start : State)
    (I : List Point → State → Prop) : Prop where
  permits : ∀ {ps : List Point} {s : State} {instr : Instruction}, Traced ctx start ps s → I ps s →
    ctx.body.code[ps.length]? = some instr → (s.entered ctx ps.length instr).Permits E
  step : ∀ {ps : List Point} {s t : State} {instr : Instruction} {st : Statement},
    Traced ctx start ps s → I ps s → ctx.body.code[ps.length]? = some instr →
    instruction ctx ps.length instr s = .ok ((), t) →
    Lowered ctx (ctx.namesAt ps.length (entry ctx ps.length s)) ps.length instr st
    (s.entered ctx ps.length instr) t → I (ps ++ [⟨entry ctx ps.length s, st⟩]) t

variable {I : List Point → State → Prop}

section

variable (h : Traced ctx start ps s) (hkeeps : Keeps E ctx start I) (hI : I ps s)
  (hproper : ctx.owner.home.Proper) (hblock : ctx.body.WellFormed)

include h hkeeps hI hproper hblock

theorem instruction_ends (hinstr : ctx.body.code[ps.length]? = some instr) :
    Ends E (instruction ctx ps.length instr) s fun _ t ↦ ∃ p, Traced ctx start (ps ++ [p]) t ∧
    I (ps ++ [p]) t :=
  (Concludes.and_eq (instruction_lowers h hproper hblock hinstr (hkeeps.permits h hI hinstr))).mono
    fun _ ⟨hrun, _, hlow⟩ ↦ ⟨_, h.step hinstr hlow, hkeeps.step h hI hinstr hrun hlow⟩

theorem instructionsFrom_ends {xs : List Instruction}
    (hxs : xs <+: ctx.body.code.toList.drop ps.length) :
    Ends E (instructionsFrom ctx ps.length xs) s fun _ t ↦
      ∃ qs, qs.length = ps.length + xs.length ∧ Traced ctx start qs t ∧ I qs t := by
  induction xs generalizing ps s with
  | nil => exact ends_pure ⟨ps, rfl, h, hI⟩
  | cons x xs ih =>
    obtain ⟨rest, hrest⟩ := hxs
    have hx : ctx.body.code[ps.length]? = some x := by
      rw [← Array.getElem?_toList, ← List.head?_drop, ← hrest]
      rfl
    have htail : xs <+: ctx.body.code.toList.drop (ps.length + 1) := by
      rw [← List.drop_drop, ← hrest]
      exact List.prefix_append xs rest
    refine (instruction_ends h hkeeps hI hproper hblock hx).bind fun _ t ⟨p, ht, hI⟩ ↦ ?_
    have hlen : (ps ++ [p]).length = ps.length + 1 := by simp
    rw [← hlen] at htail ⊢
    refine (ih ht hI htail).mono fun _ u ⟨qs, hqs, hu⟩ ↦ ⟨qs, ?_, hu⟩
    rw [hqs, hlen, List.length_cons, Nat.add_right_comm, Nat.add_assoc]

end

/-- **A pass generates all instructions of a block.** -/
theorem pass_ends (h : Traced ctx start [] s) (hkeeps : Keeps E ctx start I) (hI : I [] s)
    (hproper : ctx.owner.home.Proper) (hblock : ctx.body.WellFormed) :
    Ends E (pass ctx) s fun _ t ↦ ∃ qs, qs.length = ctx.body.code.size ∧ Traced ctx start qs t ∧
    I qs t :=
  (instructionsFrom_ends h hkeeps hI hproper hblock List.prefix_rfl).mono fun _ _ ⟨qs, hqs, ht⟩ ↦
    ⟨qs, by simpa using hqs, ht⟩

end Step

/-! ## All passes -/

/-- A state in which a block can be generated: nothing of it has been seen yet. -/
structure Fresh (s : State) : Prop where
  tidy : s.Tidy
  stack : s.stack = []
  locals : s.locals = []
  next : s.nextLocal = registerCount
  loops : s.loops = []
  offsets : s.offsets = #[]
  reachable : s.reachable = true
  registers : s.registers = {}

/-- A block that has been generated from `start` on.  The facts of every instruction are below what
flows into it, along every edge. -/
structure Sound (ctx : Context) (start : State) (ps : List Point) (s : State) : Prop where
  grows : start.Extends s
  first : s.bounds[0]? = some start.code.size
  tidy : s.Tidy
  lined : Lined ctx start ps s
  stack : s.stack = []
  length : ps.length = ctx.body.code.size
  offsets : s.offsets.size = ctx.body.code.size
  next : s.nextLocal = (Scope.before ctx.isClass ctx.body ctx.body.code.size).count + registerCount
  placed : ∀ k p, ps[k]? = some p → Placed ctx s k p
  enters : ∀ k p rs, ps[k]? = some p → Enters {} ps k rs → p.facts.Below rs
  branches : ∀ (k j : Nat) (p q : Point), ps[k]? = some p → p.stmt.branch? k = some j →
    ps[j]? = some q → q.facts.Below p.facts

theorem Fresh.traced (h : Fresh s) : Traced ctx s [] { s with
      forward := .empty ctx.body.code.size, backward := .empty ctx.body.code.size } where
  grows := ⟨List.prefix_rfl, List.prefix_rfl, List.prefix_rfl, List.prefix_rfl, fun _ _ ↦ Iff.rfl⟩
  first := by simp [State.bounds, h.offsets]
  tidy := ⟨h.tidy.plain, h.tidy.patches, h.tidy.locals, h.tidy.loops⟩
  lined := ⟨(List.append_nil _).symm, rfl, rfl⟩
  stack := h.stack
  scope := ⟨h.locals, by rw [h.next]; exact (Nat.zero_add _).symm, by rw [h.loops]; rfl⟩
  offsets := by rw [h.offsets]; rfl
  forward_size := by simp [Flow.empty]
  backward_size := by simp [Flow.empty]
  placed := fun _ _ hp ↦ nomatch hp
  enters := fun _ _ _ hp ↦ nomatch hp
  here := by
    intro rs hrs
    cases hrs with
    | start => exact ⟨h.reachable, rfl⟩
  back := fun _ _ _ hp ↦ nomatch hp
  behind := fun _ _ _ hp ↦ nomatch hp
  ahead := fun _ _ _ hp ↦ nomatch hp

/-- A pass that finds nothing new along backward edges is sound for them too. -/
theorem Traced.sound {ps : List Point} (h : Traced ctx start ps s) (hstart : start.registers = {})
    (hlen : ps.length = ctx.body.code.size) (hsize : ctx.back.size = ctx.body.code.size)
    (hsettled : ctx.back.merge s.backward = ctx.back) : Sound ctx start ps s where
  grows := h.grows
  first := h.first
  tidy := h.tidy
  lined := h.lined
  stack := h.stack
  length := hlen
  offsets := h.offsets.trans hlen
  next := hlen ▸ h.scope.next
  placed := h.placed
  enters := hstart ▸ h.enters
  branches := by
    intro k j p q hp hj hq
    have hjn : j < ctx.body.code.size := hlen ▸ (List.getElem?_eq_some_iff.1 hq).1
    rcases Nat.lt_or_ge k j with hkj | hjk
    · rcases h.ahead k p j hp hj hjn hkj with ⟨q', hq', hbelow⟩ | ⟨hle, -⟩
      · cases hq.symm.trans hq'
        exact hbelow
      · omega
    · obtain ⟨f, hf, hbelow⟩ := h.behind k p j hp hj hjn hjk
      obtain ⟨b, hb, hbf⟩ := Flow.below_of_merge_eq (hsize.trans h.backward_size.symm) hsettled hf
      exact ((h.back j q b hq hb).trans hbf).trans hbelow

/-- Nothing that is said about a generated block depends on the facts it was generated with. -/
theorem Sound.of_back {ps : List Point} (h : Sound { ctx with back := back } start ps s) :
    Sound ctx start ps s :=
  ⟨h.grows, h.first, h.tidy, ⟨h.lined.lines, h.lined.size, h.lined.line⟩, h.stack, h.length,
    h.offsets, h.next, fun k p hp ↦
    ⟨(h.placed k p hp).reads, (h.placed k p hp).checked, (h.placed k p hp).code⟩, h.enters,
    h.branches⟩

/-- What all passes over a block from `s` keep, where the facts that they begin with are as `P`
says. -/
structure KeepsAll (E : Int → Cause → Prop) (ctx : Context) (s : State) (P : Flow → Prop)
    (I : Flow → List Point → State → Prop) : Prop where
  keeps : ∀ {back : Flow}, P back → Keeps E { ctx with back := back } s (I back)
  first : ∀ {back : Flow}, P back → I back [] { s with
    forward := .empty ctx.body.code.size, backward := .empty ctx.body.code.size }
  next : ∀ {back : Flow} {ps : List Point} {t : State}, P back → I back ps t →
    back.size = t.backward.size → P (back.merge t.backward)

/-- A complaint about the line of any instruction is permitted. -/
theorem keepsAll_of_lines (h : ∀ x ∈ ctx.body.code, ∀ c : Cause, c.Shown → E x.line c) :
    KeepsAll E ctx s (fun _ ↦ True) fun _ _ _ ↦ True where
  keeps _ :=
    ⟨fun _ _ hinstr c hc _ ↦ h _ (Array.mem_of_getElem? hinstr) c hc, fun _ _ _ _ _ ↦ trivial⟩
  first _ := trivial
  next _ _ _ := trivial

variable {P : Flow → Prop} {I : Flow → List Point → State → Prop}

/-- **The passes over a block come to an end**: each of them but the last loses facts, and there is
more fuel than facts to lose. -/
theorem settle_ends (h : Fresh s) (hkeeps : KeepsAll E ctx s P I) (hproper : ctx.owner.home.Proper)
    (hblock : ctx.body.WellFormed) {fuel : Nat} (hP : P back)
    (hback : back.size = ctx.body.code.size) (hfuel : back.rank < fuel) :
    Concludes E (settle ctx { s with
      forward := .empty ctx.body.code.size, backward := .empty ctx.body.code.size } fuel back)
      fun t ↦ ∃ ps, Sound ctx s ps t := by
  induction fuel generalizing back with
  | zero => omega
  | succ fuel ih =>
    rw [settle]
    have htraced : Traced { ctx with back := back } s [] _ := h.traced
    have hpass := pass_ends htraced (hkeeps.keeps hP) (hkeeps.first hP) hproper hblock
    refine Concludes.bind hpass fun ⟨_, t⟩ ⟨ps, hlen, ht, hI⟩ ↦ ?_
    have hsize : back.size = t.backward.size := hback.trans ht.backward_size.symm
    dsimp only
    by_cases heq : back.merge t.backward = back
    · rw [if_pos heq]
      exact ⟨ps, (ht.sound h.registers hlen hback heq).of_back⟩
    · rw [if_neg heq]
      have hlt := Flow.rank_merge hsize heq
      exact ih (hkeeps.next hP hI hsize) ((Flow.size_merge hsize).trans hback) (by omega)

theorem strayLabel?_eq_none {b : Block} (h : b.WellFormed) : strayLabel? b = none := by
  rw [strayLabel?, Option.map_eq_none_iff, List.find?_eq_none]
  intro l hl
  have := (h.labels l hl).2
  simpa using this

/-- **A block is generated**, or the generator complains about it. -/
theorem body_ends (h : Fresh s) (hkeeps : KeepsAll E ctx s P I) (hP : P (.empty ctx.body.code.size))
    (hproper : ctx.owner.home.Proper) (hblock : ctx.body.WellFormed) :
    Ends E (body ctx) s fun _ t ↦ ∃ ps, Sound ctx s ps t := by
  have hrank : (Flow.empty ctx.body.code.size).rank < 1 + 7 * ctx.body.code.size := by
    rw [Flow.rank_empty]
    omega
  have hsettle := settle_ends h hkeeps hproper hblock hP (by simp [Flow.empty]) hrank
  rw [Ends, body, strayLabel?_eq_none hblock]
  exact hsettle.bind fun t ht ↦ ht

/-- The block of a member is generated, from whatever state it is started, or the generator
complains as `E` says. -/
def BlockEnds (E : Int → Cause → Prop) (owner : Bytecode.ClassRef) (b : Program.Block) : Prop :=
  ∀ (ctx : Context) (s : State), ctx.owner = owner → ctx.body = b → Fresh s →
    Ends E (body ctx) s fun _ t ↦ ∃ ps, Sound ctx s ps t

end Codegen

end ClassAsm
