import ClassAsm.Proofs.Correctness.Simulation
import ClassAsm.Proofs.Machine.HostCalls

/-!
# Compiled programs do what their text says

A call from the host runs machine code.  `compiled_code_does_what_the_text_says` compares it with
the reference interpreter, which executes the text of the same procedure on the same heap: the call
has the same result or the same fault, leaves the same heap and prints the same.

The machine has limits that the interpreter does not have.  A call that comes to one of them has
printed what the interpreter has printed at some point of its run, and the limit was too low for
that run: `Means.TooLittle` says so in terms of the text.
-/

namespace ClassAsm

namespace Reference

/-- The interpreter comes from one configuration to another. -/
inductive Reaches (p : Program) : Config → Config → Prop where
  | refl {c : Config} : Reaches p c c
  | head {c c' c'' : Config} : step p c = .ok none c' → Reaches p c' c'' → Reaches p c c''

section Runs

variable {p : Program} {n : Nat} {c c' : Config}

theorem run_of_step (h : step p c = .ok none c') : run p (n + 1) c = run p n c' := by
  rw [run, h]

theorem run_of_result {v : Value} (h : step p c = .ok (some v) c') :
    run p 1 c = some (.ok v, c') := by
  rw [run, h]

theorem run_of_failure {f : Failure} (h : step p c = .error f c') :
    run p 1 c = some (.error f, c') := by
  rw [run, h]

theorem pos_of_run {r : Except Failure Value × Config} (h : run p n c = some r) : 0 < n := by
  cases n with
  | zero => cases h
  | succ n => exact Nat.succ_pos n

end Runs

end Reference

namespace Correctness

open Bytecode
open Codegen (Image Loaded constructorsOf countdown loaded_of_compile)
open Machine
open Reference (Config Evaluates Reaches cost weight)

variable {p : Program} {m : CompiledModule} {cls : ClassRef} {k : Nat}

/-! ## Runs -/

/-- What a call has used of the machine when it begins, and how many instructions it may take. -/
structure Means where
  frames : Nat
  height : Nat
  gas : Nat

/-- The means are too little for a run of the interpreter from `c` that has come to `c'`: its calls
are nested too deeply, its next step needs too many values on the stack, or, if it has an end, it
takes too long. -/
def Means.TooLittle (b : Means) (p : Program) (c c' : Config) : Cause → Prop
  | .frameOverflow => maxFrames ≤ b.frames + c'.callers.length + 1
  | .stackOverflow => stackDepth ≤ b.height + 2 * c'.callers.length + weight p c'
  | .gasExhausted => ∀ n r, Reference.run p n c = some r → b.gas < cost p n c
  | _ => False

/-- The machine has stopped with the fault that the interpreter comes to from `c`, with the same
heap and the same output; or since its means are too little, when it has printed what the
interpreter has printed at some point. -/
def Stopped (p : Program) (c : Config) (b : Means) (x : Fault) (t : State) : Prop :=
  (¬x.cause.Limit ∧ Evaluates p c (.error (.fault x.cause)) t.heap t.output) ∨
    ∃ c', Reaches p c c' ∧ c'.output = t.output ∧ b.TooLittle p c c' x.cause

/-- A run of the machine ends as the interpreter does from `c`, or for want of means. -/
def Ends (p : Program) (B : Base p m) (c : Config)
    (gas : Nat) : EStateM.Result Stop State Unit → Prop
  | .ok () t => ∃ n v c', Reference.run p n c = some (.ok v, c') ∧ Delivers B v c' t
  | .error (.fault x) t => Stopped p c ⟨B.frames.length, B.stack.length, gas⟩ x t
  | .error _ _ => False

section Runs

variable {B : Base p m} {im : Image p m} {below : List (Option Frame)} {stack : List Value}
  {c c' d : Config} {s t : State} {x : Fault} {y : Cause} {frames height gas least n : Nat}
  {r : Room} {Q : Option Value → Config → State → Prop}

section

variable (hstep : Reference.step p c = .ok none c')

include hstep

theorem cost_of_step : cost p (n + 1) c = weight p c + cost p n c' := by
  rw [cost, hstep]

/-- What is too little after a step was too little before it. -/
theorem Means.TooLittle.of_step (hn : n ≤ weight p c)
    (h : TooLittle ⟨frames, height, gas - n⟩ p c' d y) :
    TooLittle ⟨frames, height, gas⟩ p c d y := by
  cases y with
  | gasExhausted =>
    intro k r hr
    obtain ⟨k, rfl⟩ :=
      Nat.exists_eq_succ_of_ne_zero (Nat.pos_iff_ne_zero.1 (Reference.pos_of_run hr))
    have hless : gas - n < cost p k c' := h k r ((Reference.run_of_step hstep).symm.trans hr)
    show gas < cost p (k + 1) c
    rw [cost_of_step hstep]
    omega
  | _ => exact h

theorem Stopped.of_step (hn : n ≤ weight p c) (h : Stopped p c' ⟨frames, height, gas - n⟩ x t) :
    Stopped p c ⟨frames, height, gas⟩ x t := by
  rcases h with ⟨hlimit, k, d, hrun, hd⟩ | ⟨d, hd, hout, hlittle⟩
  · exact .inl ⟨hlimit, k + 1, d, (Reference.run_of_step hstep).trans hrun, hd⟩
  · exact .inr ⟨d, .head hstep hd, hout, hlittle.of_step hstep hn⟩

theorem Ends.of_step {r : EStateM.Result Stop State Unit} (hn : n ≤ weight p c)
    (h : Ends p B c' (gas - n) r) : Ends p B c gas r := by
  cases r with
  | ok u t =>
    obtain ⟨k, v, d, hrun, hd⟩ := h
    exact ⟨k + 1, v, d, (Reference.run_of_step hstep).trans hrun, hd⟩
  | error e t =>
    cases e with
    | fault x => exact Stopped.of_step hstep hn h
    | refused d => exact h.elim
    | abort text => exact h.elim

end

/-- The gas is used up during the first step of the interpreter. -/
theorem stopped_of_gas {place : Option Place} (ht : t.output = c.output) (hn : n ≤ weight p c)
    (hgas : gas < n) : Stopped p c ⟨frames, height, gas⟩ ⟨.gasExhausted, place⟩ t := by
  refine .inr ⟨c, .refl, ht.symm, fun k r hr ↦ ?_⟩
  obtain ⟨k, rfl⟩ := Nat.exists_eq_succ_of_ne_zero (Nat.pos_iff_ne_zero.1 (Reference.pos_of_run hr))
  rw [cost]
  exact Nat.lt_of_lt_of_le hgas (Nat.le_trans hn (Nat.le_add_right _ _))

theorem Behind.tooLittle (h : Behind B im c.callers below stack)
    (hy : NoRoom (roomOf p c below stack).frames (roomOf p c below stack).height y) :
    Means.TooLittle ⟨B.frames.length, B.stack.length, gas⟩ p c c y := by
  obtain ⟨hframes, hheight⟩ := h.height_le
  rcases hy with ⟨rfl, hy⟩ | ⟨rfl, hy⟩
  · have hy : stackDepth ≤ stack.length + weight p c := hy
    show stackDepth ≤ B.stack.length + 2 * c.callers.length + weight p c
    omega
  · have hy : maxFrames ≤ below.length + 1 := hy
    show maxFrames ≤ B.frames.length + c.callers.length + 1
    omega

/-- What one step of the interpreter on the machine means for a run. -/
theorem Mimics.ends (h : Mimics B.frames.length r least (weight p c) s c (Reference.step p) Q)
    (gas : Nat) (hroom : ∀ y, NoRoom r.frames r.height y →
      Means.TooLittle ⟨B.frames.length, B.stack.length, gas⟩ p c c y)
    (hnone : ∀ c' t n, Q none c' t → least ≤ n → n ≤ gas →
      Ends p B c' (gas - n) (run B.frames.length (gas - n) t))
    (hsome : ∀ v c' t, Q (some v) c' t → Delivers B v c' t) :
    Ends p B c gas (run B.frames.length gas s) := by
  rw [Mimics] at h
  cases hstep : Reference.step p c with
  | ok r c' =>
    rw [hstep] at h
    obtain ⟨n, hleast, hmost, hleads⟩ := h
    rcases run_of_leads hleads gas with
      ⟨t, ht, hle, hrun⟩ | ⟨y, place, t, hcut, hrun⟩ | ⟨hlt, place, t, ht, hrun⟩
    · rw [hrun]
      cases r with
      | none => exact (hnone c' t n ht hleast hle).of_step hstep hmost
      | some v =>
        have hdelivers := hsome v c' t ht
        have htop : t.frames.top ≤ B.frames.length := Nat.le_of_eq hdelivers.1.top_eq
        rw [run_of_le htop]
        exact ⟨1, v, c', Reference.run_of_result hstep, hdelivers⟩
    · rw [hrun]
      exact .inr ⟨c, .refl, hcut.2.symm, hroom y hcut.1⟩
    · rw [hrun]
      exact stopped_of_gas ht hmost hlt
  | error e c' =>
    rw [hstep] at h
    obtain ⟨n, hmost, hleads⟩ := h
    rcases run_of_leads hleads gas with ⟨t, ht, -⟩ | ⟨y, place, t, hfails, hrun⟩ | ⟨hlt, place, t,
      ht, hrun⟩
    · exact ht.elim
    · rw [hrun]
      rcases hfails with hcut | ⟨rfl, hlimit, hheap, hout⟩
      · exact .inr ⟨c, .refl, hcut.2.symm, hroom y hcut.1⟩
      · exact .inl ⟨hlimit, 1, c', Reference.run_of_failure hstep, hheap.symm, hout.symm⟩
    · rw [hrun]
      exact stopped_of_gas ht hmost hlt

/-- **A run of the machine ends as the interpreter does**, or for want of means. -/
theorem Simulates.ends (hl : Loaded p m) (gas : Nat) (h : Simulates B c s) :
    Ends p B c gas (Machine.run B.frames.length gas s) := by
  -- Gas gets less, or else the rank does.
  induction gas using Nat.strongRecOn generalizing c s with
  | ind gas ihGas =>
    induction hrank : rank c using Nat.strongRecOn generalizing c s with
    | ind k ihRank =>
      obtain ⟨im, f, below, stack, hmirror⟩ := h
      rcases hmirror.step hl with hstep | hstep
      · exact hstep.ends gas (fun _ hy ↦ hmirror.behind.tooLittle hy)
          (fun c' t n ht hn hle ↦ ihGas (gas - n) (by omega) ht) fun _ _ _ ht ↦ ht
      · refine hstep.ends gas (fun _ hy ↦ hmirror.behind.tooLittle hy) (fun c' t n ht _ hle ↦ ?_)
          fun v _ _ ht ↦ nomatch ht.1
        rcases Nat.eq_zero_or_pos n with rfl | hpos
        · exact ihRank (rank c') (hrank ▸ ht.2.2) ht.2.1 rfl
        · exact ihGas (gas - n) (by omega) ht.2.1

end Runs

/-! ## Calls -/

/-- The means of a call from the host. -/
def means (s : State) : Means := ⟨s.frames.top, s.stack.top, s.gas⟩

/-- A call does what the interpreter does from `c`, or stops for want of means. -/
def Faithful (p : Program) (c : Config) (b : Means) : EStateM.Result Stop State Value → Prop
  | .ok v t => Evaluates p c (.ok v) t.heap t.output
  | .error (.fault x) t => Stopped p c b x t
  | .error _ _ => False

/-- What the interpreter has when a procedure is called on the object at `addr`. -/
def calling (cls : ClassRef) (member : Program.Member) (returns : Ty) (addr : Nat) (h : Heap)
    (output : String) : Config where
  active := ⟨cls, member, returns, { self := .ofObject addr }, .entry⟩
  heap := h
  output := output

section Calls

variable {im : Image p m} {s t : State} {addr : Nat} {code : Procedure}

theorem simulates_of_enter (hhost : s.host = builtins)
    (hvoid : im.member.isConstructor = true → im.code.returns = .void)
    (henter : enter im.routine (some addr) im.member.isConstructor s = .ok () t) :
    Simulates ⟨im, s.frames.contents, s.stack.contents⟩
      (calling im.owner im.member im.code.returns addr s.heap s.output) t := by
  have hs : s.Shows ⟨s.frames.contents, s.stack.contents, s.heap, s.output⟩ :=
    ⟨rfl, rfl, rfl, rfl, hhost⟩
  have hdoes : Does (enter im.routine (some addr) im.member.isConstructor) s _ fun _ _ ↦ True :=
    enter_does hs fun _ ↦ trivial
  exact ⟨im, _, _, _, hdoes.of_ok henter, ⟨rfl, rfl, rfl, holds_entered rfl, rfl, rfl, hvoid⟩, rfl,
    rfl, .floor⟩

/-- **A call does what the interpreter does.** -/
theorem invoke_faithful (hl : Loaded p m) (hhost : s.host = builtins)
    (habs : im.code.isAbstract = false)
    (hvoid : im.member.isConstructor = true → im.code.returns = .void) (addr : Nat) :
    Faithful p (calling im.owner im.member im.code.returns addr s.heap s.output) (means s)
      (invoke im.routine (some addr) im.member.isConstructor s) := by
  by_cases htop : maxFrames ≤ s.frames.top
  · rw [invoke_full habs htop]
    exact .inr ⟨_, .refl, rfl, Nat.le_succ_of_le htop⟩
  obtain ⟨t, henter⟩ : ∃ t, enter im.routine (some addr) im.member.isConstructor s = .ok () t :=
    exists_enter (Nat.lt_of_not_le htop)
  have hgas : t.gas = s.gas := by
    rw [enter, dif_pos (Nat.lt_of_not_le htop)] at henter
    cases henter
    rfl
  have hends := (simulates_of_enter hhost hvoid henter).ends hl s.gas
  rw [Ends.eq_def, Slots.length_contents, Slots.length_contents] at hends
  rw [invoke_eq habs henter, hgas]
  cases hrun : run s.frames.top s.gas t with
  | ok _ u =>
    rw [hrun] at hends
    obtain ⟨n, v, c', hresult, hu, hnothing⟩ := hends
    by_cases hwanted : (im.member.isConstructor || im.code.returns ≠ .void) = true
    · rw [yielded, if_pos hwanted] at hu
      obtain ⟨w, hpop, hw⟩ := pop_eq hu rfl
      have hdelivered : delivered s.frames.top s.stack.top
          (im.member.isConstructor || im.routine.code.returns ≠ .void) (.ok () u) = .ok v w := by
        show delivered _ _ (im.member.isConstructor || im.code.returns ≠ .void) _ = _
        simp only [delivered, hwanted, if_true, direct, hpop]
      rw [hdelivered]
      exact ⟨n, c', hresult, hw.heap.symm, hw.output.symm⟩
    · rw [yielded, if_neg hwanted] at hu hnothing
      obtain rfl := hnothing rfl
      have hdelivered : delivered s.frames.top s.stack.top
          (im.member.isConstructor || im.routine.code.returns ≠ .void)
          (.ok () u) = .ok .void u := by
        show delivered _ _ (im.member.isConstructor || im.code.returns ≠ .void) _ = _
        simp only [delivered, hwanted]
        rfl
      rw [hdelivered]
      exact ⟨n, c', hresult, hu.heap.symm, hu.output.symm⟩
  | error e u =>
    rw [hrun] at hends
    cases e with
    | fault x => exact hends
    | refused d => exact hends.elim
    | abort text => exact hends.elim

theorem method_faithful (hl : Loaded p m) (hhost : s.host = builtins) (hhome : cls.home = m)
    (hcode : cls.get.methods[k]? = some code) (habs : code.isAbstract = false) :
    ∃ decl member, p.classes[cls.index.val]? = some decl ∧ decl.methods[k]? = some member ∧ ∀ addr,
      Faithful p (calling cls member code.returns addr s.heap s.output) (means s)
        (invoke ⟨code, some cls⟩ (some addr) false s) := by
  obtain ⟨im, rfl, rfl, hmember, hctor, -⟩ := hl.image_method hhome hcode
  refine ⟨im.decl, im.member, im.declared, hmember, fun addr ↦ ?_⟩
  have hfaithful := invoke_faithful hl hhost habs (fun h ↦ nomatch hctor.symm.trans h) addr
  rw [hctor] at hfaithful
  exact hfaithful

theorem constructor_faithful (hl : Loaded p m) (hhost : s.host = builtins) (hhome : cls.home = m)
    (hcode : cls.get.constructors[k]? = some code) :
    ∃ decl member, p.classes[cls.index.val]? = some decl ∧
    (constructorsOf decl)[k]? = some member ∧ ∀ addr,
      Faithful p (calling cls member .void addr s.heap s.output) (means s)
        (invoke ⟨code, some cls⟩ (some addr) true s) := by
  obtain ⟨im, rfl, rfl, hmember, hctor, hreturns, habs⟩ := hl.image_constructor hhome hcode
  refine ⟨im.decl, im.member, im.declared, hmember, fun addr ↦ ?_⟩
  have hfaithful := invoke_faithful hl hhost habs (fun _ ↦ hreturns) addr
  rw [hctor, hreturns] at hfaithful
  exact hfaithful

end Calls

/-- Whether a call has a result and prints a text. -/
def Answers (v : Value) (text : String) : EStateM.Result Stop State Value → Prop
  | .ok w t => w = v ∧ t.output = text
  | .error _ _ => False

instance (v : Value) (text : String) (r : EStateM.Result Stop State Value) :
    Decidable (Answers v text r) :=
  match r with
  | .ok w t => inferInstanceAs (Decidable (w = v ∧ t.output = text))
  | .error _ _ => isFalse id

theorem countdown_counts : ∃ (m : CompiledModule) (h : Heap), compile countdown = .ok m ∧
    m.Small ∧ Machine.Reached m h ∧ h.objects[0]?.isSome ∧
    Answers (.ofInt 0) "2\n1\n" (callObject (some 0) "down" { host := builtins, heap := h }) := by
  let made (c : ClassRef) : Heap := heapAfter (instantiate c 0 { host := builtins })
  obtain ⟨m, c, hm, hsmall, hc, hcall⟩ := Codegen.exists_class_of_any countdown (P := fun c ↦
    (made c).objects[0]?.isSome && decide (Answers (.ofInt 0) "2\n1\n"
      (callObject (some 0) "down" { host := builtins, heap := made c }))) (by decide +kernel)
  obtain ⟨hobject, hanswers⟩ := (Bool.and_eq_true_iff).1 hcall
  exact ⟨m, made c, hm, hsmall, .instantiate 0 .empty rfl hc, hobject, of_decide_eq_true hanswers⟩

end Correctness

end ClassAsm
