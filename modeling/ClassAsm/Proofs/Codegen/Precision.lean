import ClassAsm.Proofs.Compile
import ClassAsm.Proofs.Reference.Paths

/-!
# Why the generator complains about a register

A fact that the generator records for an instruction is attested by paths to it: a register that is
unset is not written on some path, a type is that of the last write on some path, and where the
types are mixed there are two paths on which they differ.  `Witnessed` says so of all that a pass
knows, and every instruction and every pass keep it.

So a complaint about a register has paths to show for it.  They are paths of the text rather than of
control alone: code that nothing before it leads to is generated with the facts of the text before
it, and a pass complains about it before it knows what flows back to it.
-/

namespace ClassAsm.Codegen

open Bytecode Program Reference

variable {i j : Nat} {instr : Instruction} {r : Register} {st : Statement} {ctx : Context}
  {start s : State} {construct : String}

/-! ## Facts that paths attest -/

section Attested

variable (owner : ClassRef) (b : Block)

/-- A fact about a register is attested by paths among `paths`. -/
def Fact.Attested (paths : List Nat → Prop) (r : Register) : Fact → Prop
  | .unset => ∃ passed, paths passed ∧ Unwritten owner b r passed
  | .typed t => ∃ passed, paths passed ∧ typeAlong owner b passed r = some t
  | .mixed => ∃ passed passed' t t', paths passed ∧ paths passed' ∧
      typeAlong owner b passed r = some t ∧ typeAlong owner b passed' r = some t' ∧ t ≠ t'

/-- The facts about all registers are attested. -/
def Registers.Attested (paths : List Nat → Prop) (rs : Registers) : Prop :=
  ∀ r, (rs.get r).Attested owner b paths r

/-- The paths of the text to an instruction. -/
def arriving (i : Nat) (passed : List Nat) : Prop := Path b.TextEdge passed i

/-- The paths of the text through an instruction. -/
def through (i : Nat) (passed : List Nat) : Prop :=
  ∃ before, passed = i :: before ∧ Path b.TextEdge before i

variable {owner b} {paths paths' : List Nat → Prop} {rs rs' : Registers} {f g : Fact}

theorem Fact.Attested.mono (h : f.Attested owner b paths r) (hp : ∀ is, paths is → paths' is) :
    f.Attested owner b paths' r := by
  cases f with
  | unset =>
    obtain ⟨is, his, hr⟩ := h
    exact ⟨is, hp is his, hr⟩
  | typed t =>
    obtain ⟨is, his, hr⟩ := h
    exact ⟨is, hp is his, hr⟩
  | mixed =>
    obtain ⟨is, js, t, u, his, hjs, hr⟩ := h
    exact ⟨is, js, t, u, hp is his, hp js hjs, hr⟩

theorem Fact.Attested.exists_path (h : f.Attested owner b paths r) : ∃ is, paths is := by
  cases f with
  | unset | typed =>
    obtain ⟨is, his, -⟩ := h
    exact ⟨is, his⟩
  | mixed =>
    obtain ⟨is, _, _, _, his, -⟩ := h
    exact ⟨is, his⟩

theorem Fact.Attested.meet (hf : f.Attested owner b paths r) (hg : g.Attested owner b paths r) :
    (f.meet g).Attested owner b paths r := by
  cases f with
  | unset => exact hf
  | mixed =>
    cases g with
    | unset => exact hg
    | mixed | typed => exact hf
  | typed t =>
    cases g with
    | unset | mixed => exact hg
    | typed u =>
      rw [Fact.meet]
      split
      · exact hf
      · rename_i hne
        obtain ⟨is, his, ht⟩ := hf
        obtain ⟨js, hjs, hu⟩ := hg
        exact ⟨is, js, t, u, his, hjs, ht, hu, hne⟩

theorem Registers.Attested.meet (h : rs.Attested owner b paths) (h' : rs'.Attested owner b paths) :
    (rs.meet rs').Attested owner b paths := by
  intro r
  rw [get_meet]
  exact (h r).meet (h' r)

theorem Registers.Attested.mono (h : rs.Attested owner b paths) (hp : ∀ is, paths is → paths' is) :
    rs.Attested owner b paths' := fun r ↦ (h r).mono hp

/-- An instruction that leaves a register alone keeps what is known about it. -/
theorem Fact.Attested.pass (hinstr : b.code[i]? = some instr) (hw : writes? owner instr ≠ some r)
    (h : f.Attested owner b (arriving b i) r) : f.Attested owner b (through b i) r := by
  cases f with
  | unset =>
    obtain ⟨is, his, hr⟩ := h
    exact ⟨i :: is, ⟨is, rfl, his⟩, hr.cons hinstr hw⟩
  | typed t =>
    obtain ⟨is, his, hr⟩ := h
    exact ⟨i :: is, ⟨is, rfl, his⟩, (typeAlong_of_keeps hinstr hw).trans hr⟩
  | mixed =>
    obtain ⟨is, js, t, u, his, hjs, ht, hu, hne⟩ := h
    exact ⟨i :: is, i :: js, t, u, ⟨is, rfl, his⟩, ⟨js, rfl, hjs⟩,
      (typeAlong_of_keeps hinstr hw).trans ht, (typeAlong_of_keeps hinstr hw).trans hu, hne⟩

/-- **What is known behind a statement is attested by the paths through it.** -/
theorem Registers.Attested.after (hinstr : b.code[i]? = some instr)
    (hreads : Names.statement? ⟨owner, Scope.before (isClassIn owner) b i,
      fun r ↦ (rs.get r).type?⟩ b instr = some st) (h : rs.Attested owner b (arriving b i)) :
    (st.after rs).Attested owner b (through b i) := by
  intro r
  rcases after_of_statement? hreads with ⟨hw, hafter⟩ | ⟨r', t, hw, ht, hafter⟩
  · rw [hafter]
    exact (h r).pass hinstr (by rw [hw]; nofun)
  · rw [hafter, Registers.get_set]
    split
    · -- The type that is written is that of an operand, which may be the result register.
      rename_i hr
      subst hr
      obtain ⟨is, his, hread⟩ : ∃ is, Path b.TextEdge is i ∧ Names.written?
          ⟨owner, Scope.before (isClassIn owner) b i, typeAlong owner b is⟩ instr = some t := by
        rcases written?_cases ht with hany | ⟨hresult, hsome⟩
        · obtain ⟨is, his⟩ := (h r).exists_path
          exact ⟨is, his, hany _⟩
        · have hattested := h .result
          replace hresult : (rs.get .result).type? = some t := hresult
          cases hfact : rs.get .result with
          | typed u =>
            rw [hfact] at hattested hresult
            obtain ⟨is, his, hu⟩ := hattested
            exact ⟨is, his, hsome _ (hu.trans hresult)⟩
          | unset | mixed =>
            rw [hfact] at hresult
            cases hresult
      exact ⟨i :: is, ⟨is, rfl, his⟩, (typeAlong_of_writes hinstr hw).trans hread⟩
    · rename_i hr
      exact (h r).pass hinstr (by rw [hw]; exact fun heq ↦ hr (Option.some.inj heq).symm)

/-- The facts that flow along an edge. -/
theorem Registers.Attested.along (h : rs.Attested owner b (through b i)) (hedge : b.TextEdge i j) :
    rs.Attested owner b (arriving b j) := by
  refine h.mono ?_
  rintro _ ⟨is, rfl, his⟩
  exact .step his hedge

/-- All recorded facts are attested. -/
def Flow.Attested (owner : ClassRef) (b : Block) (f : Flow) : Prop :=
  ∀ j rs, f.at j = some rs → rs.Attested owner b (arriving b j)

theorem Flow.Attested.empty (n : Nat) : (Flow.empty n).Attested owner b := by
  intro j rs h
  rw [Flow.at, Flow.empty, Array.getElem?_replicate] at h
  split at h <;> cases h

theorem attested_merge {x y : Option Registers} (hx : ∀ rs, x = some rs → rs.Attested owner b paths)
    (hy : ∀ rs, y = some rs → rs.Attested owner b paths)
    (h : Option.merge Registers.meet x y = some rs) : rs.Attested owner b paths := by
  cases x with
  | none =>
    cases y with
    | none => cases h
    | some c => exact hy _ (by rw [← h]; rfl)
  | some a =>
    cases y with
    | none => exact hx _ (by rw [← h]; rfl)
    | some c =>
      cases h
      exact (hx a rfl).meet (hy c rfl)

theorem Flow.Attested.add {f : Flow} (h : f.Attested owner b)
    (hrs : rs.Attested owner b (arriving b i)) : (f.add i rs).Attested owner b := by
  intro j rs' hj
  by_cases hij : i = j
  · subst hij
    by_cases hi : i < f.size
    · rw [at_add_self hi] at hj
      exact attested_merge (h i) (fun _ heq ↦ Option.some.inj heq ▸ hrs) hj
    · rw [Flow.at, Array.getElem?_eq_none (by simpa using hi)] at hj
      cases hj
  · rw [at_add_of_ne hij] at hj
    exact h j rs' hj

theorem Flow.Attested.merge {f g : Flow} (hf : f.Attested owner b) (hg : g.Attested owner b)
    (hsize : f.size = g.size) : (f.merge g).Attested owner b := by
  intro j rs hj
  rw [at_merge hsize] at hj
  exact attested_merge (hf j) (hg j) hj

end Attested

/-! ## One pass -/

section Pass

variable {t : State} {ps : List Point}

/-- What a pass knows before the instruction with index `i` is attested.  An edge that leads ahead
has been recorded, unless it comes from the instruction before. -/
structure Witnessed (ctx : Context) (i : Nat) (s : State) : Prop where
  forward : s.forward.Attested ctx.owner ctx.body
  backward : s.backward.Attested ctx.owner ctx.body
  back : ctx.back.Attested ctx.owner ctx.body
  here : i < ctx.body.code.size → s.reachable = true ∨ s.forward.at i = none →
    s.registers.Attested ctx.owner ctx.body (arriving ctx.body i)
  recorded : ∀ k j, k < i → i ≤ j → j < ctx.body.code.size → ctx.body.Edge k j →
    (j = i ∧ s.reachable = true) ∨ s.forward.at j ≠ none

/-- The facts with which an instruction is generated are attested. -/
theorem Witnessed.entry (h : Witnessed ctx i s) (hi : i < ctx.body.code.size) :
    (entry ctx i s).Attested ctx.owner ctx.body (arriving ctx.body i) := by
  have hjumped (rs : Registers)
    (hrs : Option.merge Registers.meet (s.forward.at i) (ctx.back.at i) = some rs) :
      rs.Attested ctx.owner ctx.body (arriving ctx.body i) :=
    attested_merge (h.forward i) (h.back i) hrs
  have hfall (rs : Registers) (hrs : (if s.reachable then some s.registers else none) = some rs) :
      rs.Attested ctx.owner ctx.body (arriving ctx.body i) := by
    split at hrs
    · rename_i hreach
      cases hrs
      exact h.here hi (.inl hreach)
    · cases hrs
  rw [Codegen.entry]
  cases hmerge : Option.merge Registers.meet (if s.reachable then some s.registers else none)
      (Option.merge Registers.meet (s.forward.at i) (ctx.back.at i)) with
  | some rs => exact attested_merge hfall hjumped hmerge
  | none =>
    refine h.here hi (.inr ?_)
    have hnone := (Option.merge_eq_none_iff.1 (Option.merge_eq_none_iff.1 hmerge).2).1
    exact hnone

theorem Lowered.edge_iff {n : Names} (hlow : Lowered ctx n i instr st s t)
    (hinstr : ctx.body.code[i]? = some instr)
    (hscope : n.scope = Scope.before ctx.isClass ctx.body i) :
    ctx.body.Edge i j ↔ (st.falls = true ∧ i + 1 = j) ∨ st.branch? i = some j := by
  refine edge_iff_of_statement? hinstr ?_ hlow.reads
  rw [hscope]
  exact Scope.loops_before _ _ (Nat.le_of_lt (Array.getElem?_eq_some_iff.1 hinstr).1)

/-- A statement that branches writes no register. -/
theorem after_of_branch (h : st.branch? i = some j) (rs : Registers) : st.after rs = rs := by
  cases st <;> first | rfl | cases h

/-- What flows along the branch of an instruction is attested. -/
theorem State.branch_attested (hf : s.forward.Attested ctx.owner ctx.body)
    (hb : s.backward.Attested ctx.owner ctx.body) {x : Option Nat}
    (hx : ∀ j, x = some j → s.registers.Attested ctx.owner ctx.body (arriving ctx.body j)) :
    (s.branch ctx x).forward.Attested ctx.owner ctx.body ∧
    (s.branch ctx x).backward.Attested ctx.owner ctx.body := by
  cases x with
  | none => exact ⟨hf, hb⟩
  | some j =>
    rw [State.branch, State.flow]
    split
    · exact ⟨hf, hb⟩
    · split
      · exact ⟨hf, hb.add (hx j rfl)⟩
      · exact ⟨hf.add (hx j rfl), hb⟩

/-- **One instruction keeps what is known attested.** -/
theorem Witnessed.step (h : Witnessed ctx ps.length s) (htraced : Traced ctx start ps s)
    (hinstr : ctx.body.code[ps.length]? = some instr)
    (hlow : LoweredAt ctx ps.length instr st s t) : Witnessed ctx (ps.length + 1) t := by
  have hi : ps.length < ctx.body.code.size := (Array.getElem?_eq_some_iff.1 hinstr).1
  have hentry := h.entry hi
  have hedge {j : Nat} := hlow.edge_iff (j := j) hinstr rfl
  have hafter := hentry.after hinstr hlow.reads
  -- A branch carries the facts of the instruction itself.
  have hbranch (j : Nat) (hj : st.branch? ps.length = some j) :
      (Codegen.entry ctx ps.length s).Attested ctx.owner ctx.body (arriving ctx.body j) := by
    rw [after_of_branch hj] at hafter
    exact hafter.along (.inl (hedge.2 (.inr hj)))
  obtain ⟨hfwd, hbwd⟩ :=
    State.branch_attested (s := s.entered ctx ps.length instr) h.forward h.backward hbranch
  have hmono {j : Nat} (hj : s.forward.at j ≠ none) : t.forward.at j ≠ none := by
    obtain ⟨f, hf⟩ := Option.ne_none_iff_exists'.1 hj
    obtain ⟨c, hc, -⟩ :=
      (State.branch_mono (s := s.entered ctx ps.length instr) ctx (st.branch? ps.length)).1 hf
    rw [hlow.rest]
    exact fun hnone ↦ nomatch hc.symm.trans hnone
  have hrecorded (k j : Nat) (hk : k < ps.length + 1) (hj : ps.length + 1 ≤ j)
      (hjn : j < ctx.body.code.size) (hkj : ctx.body.Edge k j) :
      (j = ps.length + 1 ∧ t.reachable = true) ∨ t.forward.at j ≠ none := by
    rcases Nat.lt_succ_iff_lt_or_eq.1 hk with hlt | rfl
    · rcases h.recorded k j hlt (by omega) hjn hkj with ⟨heq, -⟩ | hne
      · omega
      · exact .inr (hmono hne)
    · rcases hedge.1 hkj with ⟨hfalls, rfl⟩ | hb
      · refine .inl ⟨rfl, ?_⟩
        rw [hlow.rest]
        exact hfalls
      · obtain ⟨c, hc, -⟩ := State.flow_ahead (s := s.entered ctx ps.length instr) hjn
          (show ps.length < j by omega) htraced.forward_size
        refine .inr ?_
        rw [hlow.rest, hb]
        exact fun hnone ↦ nomatch hc.symm.trans hnone
  refine ⟨?_, ?_, h.back, ?_, hrecorded⟩
  · rw [hlow.rest]
    exact hfwd
  · rw [hlow.rest]
    exact hbwd
  · intro hn hreach
    have hregs : t.registers = st.after (Codegen.entry ctx ps.length s) := by rw [hlow.rest]; rfl
    rw [hregs]
    refine hafter.along ?_
    -- The next instruction follows, or nothing before it leads there.
    cases hfalls : st.falls with
    | true => exact .inl (hedge.2 (.inl ⟨hfalls, rfl⟩))
    | false =>
      have hunreach : t.reachable = false := by
        rw [hlow.rest]
        exact hfalls
      rw [hunreach] at hreach
      have hnone := hreach.resolve_left nofun
      refine .inr ⟨rfl, fun k hk hkj ↦ ?_⟩
      rcases hrecorded k _ hk (Nat.le_refl _) hn hkj with ⟨-, hr⟩ | hne
      · rw [hunreach] at hr
        cases hr
      · exact hne hnone

end Pass

/-! ## Complaints with paths to show -/

/-- A complaint about a block: it is not about a register, or it is on the line of an instruction
and says of registers what paths to that instruction attest. -/
def Justified (owner : ClassRef) (b : Block) (line : Int) (c : Cause) : Prop :=
  (∀ rs : Registers, c.Blames rs) ∨ ∃ i instr rs, b.code[i]? = some instr ∧ instr.line = line ∧
    Registers.Attested owner b (arriving b i) rs ∧ c.Blames rs

theorem Cause.unset_not_impartial :
    ¬∀ rs : Registers, (Cause.registerUnset r construct).Blames rs := by
  intro h
  have := h ⟨.mixed, .mixed, .mixed⟩
  cases r <;> cases this

theorem Cause.mixed_not_impartial {line : Int} :
    ¬∀ rs : Registers, (Cause.registerMixed r construct line).Blames rs := by
  intro h
  have := h {}
  cases r <;> cases this

/-- What is attested justifies the complaints about the next instruction, which keeps it
attested. -/
theorem keeps_witnessed (ctx : Context) :
    Keeps (Justified ctx.owner ctx.body) ctx start fun ps s ↦ Witnessed ctx ps.length s where
  permits _ h hinstr _ _ hc :=
    .inr ⟨_, _, _, hinstr, rfl, h.entry (Array.getElem?_eq_some_iff.1 hinstr).1, hc⟩
  step htraced h hinstr _ hlow := by
    rw [List.length_append]
    exact h.step htraced hinstr hlow

theorem Fresh.witnessed (h : Fresh s) (hback : ctx.back.Attested ctx.owner ctx.body) :
    Witnessed ctx 0 { s with
      forward := .empty ctx.body.code.size, backward := .empty ctx.body.code.size } where
  forward := .empty _
  backward := .empty _
  back := hback
  here := by
    intro _ _ r
    have hunset : s.registers.get r = .unset := by
      rw [h.registers]
      cases r <;> rfl
    show (s.registers.get r).Attested _ _ _ r
    rw [hunset]
    exact ⟨[], .start, unwritten_nil⟩
  recorded := fun _ _ hk ↦ absurd hk (Nat.not_lt_zero _)

/-- What all passes find for backward edges is attested. -/
theorem Fresh.keepsAll_witnessed (h : Fresh s) :
    KeepsAll (Justified ctx.owner ctx.body) ctx s (·.Attested ctx.owner ctx.body) fun back ps t ↦
      Witnessed { ctx with back := back } ps.length t where
  keeps {back} _ := keeps_witnessed { ctx with back := back }
  first hback := h.witnessed hback
  next hback h hsize := hback.merge h.backward hsize

/-- **Every complaint about a program is justified** in one of its blocks, in whichever pass it
comes up. -/
theorem generate_justified {ok : Int → Prop} {p : Program} (h : p.WellFormed ok) :
    Concludes (fun line c ↦ (∀ rs : Registers, c.Blames rs) ∨
      ∃ owner b, BlockOf p owner b ∧ Justified owner b line c) (generate p) (Compiled p) := by
  refine generate_concludes (h.mono fun _ _ _ _ hc ↦ .inl hc) fun owner b hb ctx s ho hbody hs ↦ ?_
  obtain ⟨hproper, hblock, -⟩ := hb.wellFormed h
  subst ho hbody
  exact (body_ends hs hs.keepsAll_witnessed (.empty _) hproper hblock).imp fun _ _ hc ↦
    .inr ⟨_, _, hb, hc⟩

end ClassAsm.Codegen

namespace ClassAsm

open Codegen Program Reference

variable {line : Int} {c : Cause}

/-- **A complaint about a register has paths to show for it.**  A source text that is refused
because a register may not have been written has a block, and in it a path to the instruction on the
line of the complaint on which the register is not written.  Where the complaint is that the types
differ, there are two such paths, on which it was last written with different types. -/
theorem register_complaint_has_paths {src : String} {line : Int} {c : Cause}
    (h : compile src = .error (.generate (.diagnostic line c))) : ∃ p, parseSource src = .ok p ∧
      (∀ r construct, c = .registerUnset r construct →
        ∃ owner b i instr passed, BlockOf p owner b ∧ b.code[i]? = some instr ∧ instr.line = line ∧
          Path b.TextEdge passed i ∧ Unwritten owner b r passed) ∧
      ∀ r construct line', c = .registerMixed r construct line' →
        ∃ owner b i instr passed passed' t t', BlockOf p owner b ∧ b.code[i]? = some instr ∧
          instr.line = line ∧ Path b.TextEdge passed i ∧ Path b.TextEdge passed' i ∧
          typeAlong owner b passed r = some t ∧ typeAlong owner b passed' r = some t' ∧ t ≠ t' := by
  have hparse := parseSource_parses src
  rw [compile] at h
  cases hp : parseSource src with
  | error e =>
    rw [hp] at h
    cases h
  | ok p =>
    rw [hp] at h hparse
    dsimp only at h
    cases hg : generate p with
    | ok m =>
      rw [hg] at h
      cases h
    | error e =>
      rw [hg] at h
      cases h
      have hgenerate := generate_justified hparse
      rw [hg] at hgenerate
      obtain ⟨_, _, heq, hjustified⟩ := hgenerate
      cases heq
      refine ⟨p, rfl, ?_, ?_⟩
      · rintro r construct rfl
        rcases hjustified with hany | ⟨owner, b, hb, hany | ⟨i, instr, rs, hi, hl, hrs, hblames⟩⟩
        · exact absurd hany Cause.unset_not_impartial
        · exact absurd hany Cause.unset_not_impartial
        · have hattested := hrs r
          rw [show rs.get r = .unset from hblames] at hattested
          obtain ⟨passed, hpath, hr⟩ := hattested
          exact ⟨owner, b, i, instr, passed, hb, hi, hl, hpath, hr⟩
      · rintro r construct line' rfl
        rcases hjustified with hany | ⟨owner, b, hb, hany | ⟨i, instr, rs, hi, hl, hrs, hblames⟩⟩
        · exact absurd hany Cause.mixed_not_impartial
        · exact absurd hany Cause.mixed_not_impartial
        · have hattested := hrs r
          rw [show rs.get r = .mixed from hblames] at hattested
          obtain ⟨passed, passed', t, t', hpath, hpath', hr⟩ := hattested
          exact ⟨owner, b, i, instr, passed, passed', t, t', hb, hi, hl, hpath, hpath', hr⟩

/-! ### Complaints that control does not bear out -/

/-- The line and the cause of a complaint of the generator. -/
def complaint? : Except CompileError Bytecode.CompiledModule → Option (Int × Cause)
  | .error (.generate (.diagnostic line c)) => some (line, c)
  | _ => none

theorem eq_of_complaint? {r : Except CompileError Bytecode.CompiledModule}
    (h : complaint? r = some (line, c)) : r = .error (.generate (.diagnostic line c)) := by
  unfold complaint? at h
  split at h
  · cases h
    rfl
  · cases h

/-- The source text of a class with one method, whose lines are given. -/
def methodText (lines : List String) : String :=
  "\n".intercalate (["class A public", "func f public"] ++ lines ++ ["end", "end"])

/-- The program of a class with one method, whose block is given. -/
def methodProgram (b : Block) : Program :=
  ⟨#[{ name := "A", line := 1, isPublic := true
       methods := #[{ name := "f", line := 2, isPublic := true, body := b }] }]⟩

variable {i : Nat} {b : Block}

theorem BlockOf.eq_of_methodProgram {b' : Block} {owner : Bytecode.ClassRef}
    {instr : Program.Instruction} (h : BlockOf (methodProgram b) owner b')
    (hi : b'.code[i]? = some instr) : b' = b := by
  obtain ⟨cd, m, hcd, hm, rfl⟩ := h.member
  obtain ⟨hlt, rfl⟩ := Array.getElem?_eq_some_iff.1 hcd
  have hindex : owner.index.val = 0 := Nat.lt_one_iff.1 hlt
  simp only [hindex] at hm
  rcases hm with hm | hm
  · simp [methodProgram, Codegen.constructorsOf] at hm
    subst hm
    cases hi
  · simp [methodProgram] at hm
    subst hm
    rfl

/-- A source text is refused for a register that every path of control to the line writes. -/
def FalseAlarm (src : String) (line : Int) (r : Register) : Prop :=
  (∃ construct, compile src = .error (.generate (.diagnostic line (.registerUnset r construct)))) ∧
    ∃ p, parseSource src = .ok p ∧ ∀ owner b i instr passed, BlockOf p owner b →
      b.code[i]? = some instr → instr.line = line → Path b.Edge passed i →
      ¬Unwritten owner b r passed

/-- A text is refused, and only the instruction with index `i` of its one block is on the line. -/
theorem falseAlarm_of_method {lines : List String} {r : Register} {construct : String}
    (hparse : (parseSource (methodText lines)).toOption = some (methodProgram b))
    (hrefused : complaint? (compile (methodText lines)) = some (line, .registerUnset r construct))
    (hline : ∀ k < b.code.size, b.code[k]?.map (fun x ↦ x.line) = some line → k = i)
    (hpaths : ∀ owner passed, Path b.Edge passed i → ¬Unwritten owner b r passed) :
    FalseAlarm (methodText lines) line r := by
  refine ⟨⟨construct, eq_of_complaint? hrefused⟩, methodProgram b, eq_of_toOption hparse, ?_⟩
  intro owner b' k instr passed hb hk hl hpath
  obtain rfl := BlockOf.eq_of_methodProgram hb hk
  obtain rfl := hline k (Array.getElem?_eq_some_iff.1 hk).1 (by rw [hk, Option.map_some, hl])
  exact hpaths owner passed hpath

/-- A read that nothing leads to. -/
def deadRead : List String := ["goto done", "istrue", "def_label done"]

/-- The block of such a read. -/
def deadReadBlock : Block :=
  ⟨[("done", 2)], #[⟨.goto, [.identifier "done"], 3⟩, ⟨.isTrue, [], 4⟩]⟩

theorem deadRead_refused : complaint? (compile (methodText deadRead)) =
    some (4, .registerUnset .comparing "op_istrue") := by decide +kernel

/-- A read that only a jump back leads to, behind a write. -/
def jumpBack : List String :=
  ["goto start", "def_label read", "istrue", "return", "def_label start", "compare true",
    "goto read"]

theorem jumpBack_refused : complaint? (compile (methodText jumpBack)) =
    some (5, .registerUnset .comparing "op_istrue") := by decide +kernel

/-- The block of such a read. -/
def jumpBackBlock : Block :=
  ⟨[("read", 1), ("start", 3)], #[⟨.goto, [.identifier "start"], 3⟩, ⟨.isTrue, [], 5⟩,
    ⟨.ret, [], 6⟩, ⟨.compare, [.bool true], 8⟩, ⟨.goto, [.identifier "read"], 9⟩]⟩

/-- **The generator refuses reads that every path of control writes before**: one that control does
not get to, and one that it only gets to by a jump back. -/
theorem false_alarms : FalseAlarm (methodText deadRead) 4 .comparing ∧
    FalseAlarm (methodText jumpBack) 5 .comparing := by
  constructor
  · refine falseAlarm_of_method (b := deadReadBlock) (i := 1) (by decide +kernel) deadRead_refused
      (by decide) fun owner passed hpath ↦ ?_
    have hnone : ∀ k < 2, ¬deadReadBlock.Edge k 1 := by decide
    obtain ⟨k, _, -, -, hedge⟩ := hpath.exists_last Nat.one_ne_zero
    exact absurd hedge (hnone k hedge.lt)
  · refine falseAlarm_of_method (b := jumpBackBlock) (i := 1) (by decide +kernel) jumpBack_refused
      (by decide) fun owner passed hpath hunwritten ↦ ?_
    -- The read follows the jump back, which follows the write.
    have hread : ∀ k < 5, jumpBackBlock.Edge k 1 → k = 4 := by decide
    have hjump : ∀ k < 5, jumpBackBlock.Edge k 4 → k = 3 := by decide
    obtain ⟨k, before, rfl, hbefore, hedge⟩ := hpath.exists_last Nat.one_ne_zero
    obtain rfl := hread k hedge.lt hedge
    obtain ⟨k, before, rfl, -, hedge⟩ := hbefore.exists_last (Nat.succ_ne_zero 3)
    obtain rfl := hjump k hedge.lt hedge
    exact hunwritten 3 (by simp) _ rfl rfl

/-- A read that nothing leads to has a path of the text that does not write the register. -/
theorem deadRead_path : ∃ p, parseSource (methodText deadRead) = .ok p ∧
    ∃ owner b i instr passed, BlockOf p owner b ∧ b.code[i]? = some instr ∧ instr.line = 4 ∧
      Path b.TextEdge passed i ∧ Unwritten owner b .comparing passed := by
  obtain ⟨p, hp, hunset, -⟩ := register_complaint_has_paths (eq_of_complaint? deadRead_refused)
  exact ⟨p, hp, hunset .comparing "op_istrue" rfl⟩

end ClassAsm
