import ClassAsm.Proofs.Machine.Activations

/-!
# Registers are written before they are read

The generator assumes a type for every register that it reads.  At run time the activation that
executes such a read has written the register before, and its last write was generated with that
type (`register_reads_follow_writes`).

The last write is found in the states that the machine has passed (`lastWrite`).  The invariant
behind the theorem is `Recorded`: for every register that is known where an activation stands, the
last write of that activation has the type that is known.
-/

namespace ClassAsm.Machine

open Bytecode Codegen

variable {p : Program} {m : CompiledModule} {ip n depth k : Nat} {s : State} {v : View}
  {past : List State} {x : Instr} {a : Pose p m} {as : List (Pose p m)}

/-! ## The last write -/

/-- The instruction that the machine executes next: its offset in the code of the active procedure,
its operation and its argument. -/
def State.current? (s : State) : Option (Nat × Op × Nat) := do
  let f ← s.frames.contents.head?.join
  let w ← f.routine.code.code[f.ip]?
  let op ← Op.ofByte? w.opByte
  return (f.ip, op, w.arg)

/-- The offset of the instruction that is executed next, if it writes the local slot `k` in the
frame number `depth`. -/
def State.writes? (s : State) (depth k : Nat) : Option Nat :=
  s.current?.bind fun c ↦
    if s.frames.top = depth ∧ c.2.1 = .popLocal ∧ c.2.2 = k then some c.1 else none

/-- The offset of the last instruction that has written the local slot `k` in the frame number
`depth` since that frame was entered.  The states have the last one first. -/
def lastWrite (depth k : Nat) : List State → Option Nat
  | [] => none
  | s :: past =>
    if s.frames.top < depth then none else (s.writes? depth k).or (lastWrite depth k past)

section LastWrite

variable {f : Frame} {below : List (Option Frame)} {dest : Nat → Nat → Prop}

/-- A machine that stands at a word that it reads as `x` executes the operation of `x` next. -/
theorem current?_of_reads (hs : s.Shows v) (hv : v.frames = some f :: below)
    (hx : f.routine.code.Reads dest f.ip x) : ∃ arg, s.current? = some (f.ip, x.op, arg) ∧
    x.Refers f.routine.code.consts f.routine.code.types dest arg := by
  obtain ⟨w, hw, hop, harg⟩ := hx
  refine ⟨w.arg, ?_, harg⟩
  simp [State.current?, hs.frames, hv, hw, hop, Op.ofByte?_byte]

/-- A step of a frame further up writes nothing here. -/
theorem lastWrite_of_lt (h : depth < s.frames.top) :
    lastWrite depth k (s :: past) = lastWrite depth k past := by
  have hnone : s.writes? depth k = none := by
    rw [State.writes?]
    cases s.current? with
    | none => rfl
    | some c => exact if_neg fun hc ↦ Nat.ne_of_gt h hc.1
  rw [lastWrite, if_neg (Nat.not_lt_of_lt h), hnone, Option.none_or]

theorem lastWrite_of_writes (h : s.frames.top = depth) (hc : s.current? = some (ip, .popLocal, k)) :
    lastWrite depth k (s :: past) = some ip := by
  rw [lastWrite, if_neg (Nat.not_lt_of_le (Nat.le_of_eq h.symm)), State.writes?, hc]
  simp [h]

theorem lastWrite_of_keeps {arg : Nat} {op : Op} (h : s.frames.top = depth)
    (hc : s.current? = some (ip, op, arg)) (hother : ¬(op = .popLocal ∧ arg = k)) :
    lastWrite depth k (s :: past) = lastWrite depth k past := by
  have hnone : s.writes? depth k = none := by
    rw [State.writes?, hc]
    exact if_neg fun hc ↦ hother hc.2
  rw [lastWrite, if_neg (Nat.not_lt_of_le (Nat.le_of_eq h.symm)), hnone, Option.none_or]

end LastWrite

/-! ## Writes of what is known -/

/-- For every register that is known where an activation stands, the last write of the activation
has the type that is known.  The lowest activation has the frame number `floor + 1`. -/
def Recorded (past : List State) (floor : Nat) : List (Pose p m) → Prop
  | [] => True
  | a :: as => (∀ r t, a.shape.registers.get r = .typed t →
      ∃ ip, lastWrite (as.length + 1 + floor) r.slot past = some ip ∧ a.im.WritesAs ip r t) ∧
    Recorded past floor as

section Recorded

variable {floor : Nat} {as' : List (Pose p m)}

theorem Recorded.skip (h : Recorded past floor as) (htop : as.length + floor < s.frames.top) :
    Recorded (s :: past) floor as := by
  induction as with
  | nil => trivial
  | cons a as ih =>
    rw [List.length_cons] at htop
    refine ⟨fun r t ht ↦ ?_, ih h.2 (by omega)⟩
    obtain ⟨ip, hip, hwrites⟩ := h.1 r t ht
    exact ⟨ip, (lastWrite_of_lt htop).trans hip, hwrites⟩

/-- What the activation on top knows behind an instruction has been recorded. -/
theorem Recorded.pass (h : Recorded past floor (a :: as)) {s₀ t : Shape}
    (hn : a.im.Narrows a.shape s₀) (hp : a.im.Passes ip s₀ x t)
    (htop : s.frames.top = as.length + 1 + floor)
    (hcurrent : ∃ arg, s.current? = some (ip, x.op, arg) ∧ ∀ k, x = .popLocal k → arg = k) :
    Recorded (s :: past) floor ({ a with shape := t } :: as) := by
  obtain ⟨arg, hc, harg⟩ := hcurrent
  refine ⟨fun r τ hτ ↦ ?_, h.2.skip (by omega)⟩
  by_cases hx : x = .popLocal r.slot
  · subst hx
    rw [harg _ rfl] at hc
    exact ⟨ip, lastWrite_of_writes htop hc, hp.writesAs r τ rfl hτ⟩
  · have hknown := hn.registers r τ ((hp.types.get_eq hx).symm.trans hτ)
    obtain ⟨ip', hip', hwrites⟩ := h.1 r τ hknown
    refine ⟨ip', (lastWrite_of_keeps htop hc fun ⟨hop, heq⟩ ↦ ?_).trans hip', hwrites⟩
    cases x with
    | popLocal k => exact hx (by rw [← harg k rfl, heq])
    | test t => cases t <;> cases hop
    | _ => cases hop

/-- **One step keeps the record.** -/
theorem Recorded.move (h : Recorded past floor (a :: as)) (hmove : Move a as ip as')
    (htop : s.frames.top = as.length + 1 + floor)
    (hcurrent : ∀ x, a.im.code.Reads (target a.im.offsets) ip x →
      ∃ arg, s.current? = some (ip, x.op, arg) ∧ ∀ k, x = .popLocal k → arg = k) :
    Recorded (s :: past) floor as' := by
  cases hmove with
  | stay hn hp => exact h.pass hn hp htop (hcurrent _ hp.reads)
  | enter hn hp _ =>
    refine ⟨fun r t ht ↦ ?_, h.pass hn hp htop (hcurrent _ hp.reads)⟩
    cases r <;> cases ht
  | leave _ _ => exact h.2.skip (by omega)

end Recorded

section Runs

variable {F : Floor} {t : State} {D : Discipline p m}

/-- **All steps keep the record.** -/
theorem Active.recorded (hl : Loaded p m) (ha : Active (anything p m) F as v) (hs : s.Shows v)
    (hrecorded : Recorded [] F.frames.length as) (htrace : Trace F.frames.length s past t) :
    ∃ as' w, t.Shows w ∧ Active (anything p m) F as' w ∧ Recorded past F.frames.length as' := by
  refine ha.trace_keeps anything_lawful hl
    (I := (Recorded · F.frames.length)) ?_ hs hrecorded htrace
  intro past s v a as f own low as' hs ht hmove hrec
  refine hrec.move hmove ?_ fun x hx ↦ ?_
  · rw [hs.top_eq, ht.active.length_frames, List.length_cons]
  · have hreads : f.routine.code.Reads (target a.im.offsets) f.ip x := by
      rw [ht.attends.routine]
      exact hx
    obtain ⟨arg, hcurrent, hrefers⟩ := current?_of_reads hs ht.frames hreads
    refine ⟨arg, hcurrent, ?_⟩
    rintro k rfl
    exact hrefers

/-- The instruction that is executed next is one of the activation on top. -/
theorem Active.exists_passes (hl : Loaded p m) (ha : Active D F (a :: as) v) (hs : s.Shows v) :
    ∃ f own low s₀ x t arg, Top D F a as v f own low ∧ a.im.Narrows a.shape s₀ ∧
      a.im.Passes f.ip s₀ x t ∧ s.current? = some (f.ip, x.op, arg) ∧
      x.Refers f.routine.code.consts f.routine.code.types (target a.im.offsets) arg := by
  obtain ⟨f, own, low, ht⟩ := ha.top
  obtain ⟨s₀, x, t, hn, hp⟩ := ht.attends.stands.next hl
  obtain ⟨arg, hcurrent, hrefers⟩ := current?_of_reads hs ht.frames (ht.attends.reads hp)
  exact ⟨f, own, low, s₀, x, t, arg, ht, hn, hp, hcurrent, hrefers⟩

/-- A machine that reads a local slot executes an instruction of the activation on top. -/
theorem Active.exists_read (hl : Loaded p m) (ha : Active D F (a :: as) v) (hs : s.Shows v)
    (hcurrent : s.current? = some (ip, .pushLocal, k)) :
    ∃ f own low s₀ t, Top D F a as v f own low ∧ ip = f.ip ∧
      a.im.Narrows a.shape s₀ ∧ a.im.Passes f.ip s₀ (.pushLocal k) t := by
  obtain ⟨f, own, low, s₀, x, t, arg, ht, hn, hp, hc, hrefers⟩ := ha.exists_passes hl hs
  obtain ⟨rfl, hop, rfl⟩ : ip = f.ip ∧ Op.pushLocal = x.op ∧ k = arg := by
    simpa using hcurrent.symm.trans hc
  obtain rfl : x = .pushLocal k := by
    cases x with
    | pushLocal k => exact congrArg Instr.pushLocal hrefers.symm
    | test t => cases t <;> cases hop
    | _ => cases hop
  exact ⟨f, own, low, s₀, t, ht, rfl, hn, hp⟩

/-- A read of a register by the activation on top. -/
theorem Active.read_recorded (hl : Loaded p m) (ha : Active (anything p m) F (a :: as) v)
    (hs : s.Shows v) (hrecorded : Recorded past F.frames.length (a :: as)) {r : Register}
    (hcurrent : s.current? = some (ip, .pushLocal, r.slot)) :
    ∃ (f : Frame) (τ : Ty) (ip' : Nat), v.frames = some f :: v.frames.tail ∧
      f.routine = a.im.routine ∧ a.im.ReadsAs ip r τ ∧
      lastWrite s.frames.top r.slot past = some ip' ∧ a.im.WritesAs ip' r τ := by
  obtain ⟨f, own, low, s₀, t, ht, rfl, hn, hp⟩ := ha.exists_read hl hs hcurrent
  obtain ⟨τ, hτ⟩ := hp.types.exists_typed
  obtain ⟨ip', hip', hwrites⟩ := hrecorded.1 r τ (hn.registers r τ hτ)
  refine ⟨f, τ, ip', ht.frames, ht.attends.routine, hp.readsAs r τ rfl hτ, ?_, hwrites⟩
  rw [hs.top_eq, ha.length_frames]
  exact hip'

end Runs

/-- **Registers are written before they are read.**  Let a source text compile to a small module.
Whenever a machine with the built-in host functions has entered a procedure of the module and then
comes, by any number of steps, to an instruction that reads a register, that instruction belongs to
a procedure of the module and was generated with some type for the register; the activation that
executes it has written the register before, and its last write was generated with the same type. -/
theorem register_reads_follow_writes {src : String} {m : CompiledModule} (h : compile src = .ok m)
    (hsmall : m.Small) : ∃ p, parseSource src = .ok p ∧ Codegen.Imaged p m ∧
      ∀ (im : Image p m) (this : Option Nat) (s s₀ t : State) (past : List State) (ip : Nat)
        (r : Register), s.host = builtins →
        enter im.routine this im.member.isConstructor s = .ok () s₀ →
        Trace s.frames.top s₀ past t → s.frames.top < t.frames.top →
        t.current? = some (ip, .pushLocal, r.slot) →
        ∃ (im' : Image p m) (f : Frame) (τ : Ty) (ip' : Nat),
            t.frames.contents.head? = some (some f) ∧ f.routine = im'.routine ∧ im'.ReadsAs ip r τ ∧
            lastWrite t.frames.top r.slot past = some ip' ∧ im'.WritesAs ip' r τ := by
  obtain ⟨p, hp, hl⟩ := loaded_of_compile h hsmall
  refine ⟨p, hp, hl.imaged, fun im this s s₀ t past ip r hhost henter htrace htop hcurrent ↦ ?_⟩
  obtain ⟨v, hs₀, ha⟩ := active_of_enter hl (D := anything p m) hhost henter trivial trivial
  rw [← Slots.length_contents] at htrace htop
  have hnone : Recorded [] s.frames.contents.length [Pose.start im this im.member.isConstructor] :=
    ⟨fun r t ht ↦ (by cases r <;> cases ht), trivial⟩
  obtain ⟨as, w, hw, ha', hrecorded⟩ := ha.recorded hl hs₀ hnone htrace
  obtain ⟨a, as', rfl⟩ := ha'.exists_cons hw htop
  obtain ⟨f, τ, ip', hframes, hroutine, hreads, hlast, hwrites⟩ :=
    ha'.read_recorded hl hw hrecorded hcurrent
  refine ⟨a.im, f, τ, ip', ?_, hroutine, hreads, hlast, hwrites⟩
  rw [hw.frames, hframes]
  rfl

/-- The states that the machine passes in `n` further steps, and the state that it comes to. -/
def walk (depth : Nat) : Nat → List State → State → Option (List State × State)
  | 0, past, s => some (past, s)
  | n + 1, past, s =>
    if depth < s.frames.top then
      match step s with
      | .ok () t => walk depth n (s :: past) t
      | .error _ _ => none
    else none

theorem trace_of_walk {s₀ t : State} {past' : List State} (h : Trace depth s₀ past s)
    (hwalk : walk depth n past s = some (past', t)) : Trace depth s₀ past' t := by
  induction n generalizing past s with
  | zero =>
    cases hwalk
    exact h
  | succ n ih =>
    rw [walk] at hwalk
    split at hwalk
    · rename_i htop
      split at hwalk
      · rename_i hstep
        exact ih (h.step htop hstep) hwalk
      · cases hwalk
    · cases hwalk

/-- A machine that enters the procedure in the state `s` passes the test after `n` steps. -/
def passes (n : Nat) (r : Bytecode.Routine) (this : Option Nat) (constructs : Bool) (s : State)
    (test : List State → State → Bool) : Bool :=
  match enter r this constructs s with
  | .ok () s₀ => (walk s.frames.top n [] s₀).any fun w ↦ test w.1 w.2
  | .error _ _ => false

theorem exists_of_passes {r : Routine} {this : Option Nat} {constructs : Bool}
    {test : List State → State → Bool} (h : passes n r this constructs s test = true) :
    ∃ s₀ past t, enter r this constructs s = .ok () s₀ ∧ Trace s.frames.top s₀ past t ∧
    test past t = true := by
  rw [passes] at h
  split at h
  · rename_i s₀ henter
    obtain ⟨w, hw, htest⟩ := (Option.any_eq_true _ _).1 h
    exact ⟨s₀, w.1, w.2, henter, trace_of_walk .start hw, htest⟩
  · cases h

/-- A sample: a method that writes a register and reads it. -/
def comparison : String :=
  "class A public\nfunc f public\ncompare true\nistrue\nprint 1\nend\nend"

/-- The third instruction of the sample reads the register that the second one has written. -/
def readsThird (past : List State) (t : State) : Bool :=
  decide (t.current? = some (2, .pushLocal, Register.comparing.slot) ∧ t.frames.top = 1 ∧
    lastWrite 1 Register.comparing.slot past = some 1)

theorem comparison_compiles : ∃ (m : CompiledModule) (c : ClassRef) (code : Procedure),
    compile comparison = .ok m ∧ m.Small ∧ c.home = m ∧ c.get.methods[0]? = some code ∧
      ∀ constructs, passes 2 ⟨code, some c⟩ none constructs { host := builtins } readsThird =
      true := by
  obtain ⟨m, c, hm, hsmall, hc, hcode⟩ :=
    exists_class_of_any comparison (P := fun c ↦ c.get.methods[0]?.any fun code ↦
    decide (∀ constructs,
      passes 2 ⟨code, some c⟩ none constructs { host := builtins } readsThird = true))
    (by decide +kernel)
  obtain ⟨code, hcode, hpasses⟩ := (Option.any_eq_true _ _).1 hcode
  exact ⟨m, c, code, hm, hsmall, hc, hcode, of_decide_eq_true hpasses⟩

/-- The read of the sample has the type of the write before it. -/
theorem comparison_read_follows_write :
    ∃ (m : CompiledModule) (p : Program) (im : Image p m) (s s₀ t : State) (past : List State),
      compile comparison = .ok m ∧ m.Small ∧ s.host = builtins ∧
      enter im.routine none im.member.isConstructor s = .ok () s₀ ∧ Trace s.frames.top s₀ past t ∧
      t.current? = some (2, .pushLocal, Register.comparing.slot) ∧
      ∃ (im' : Image p m) (τ : Ty), im'.ReadsAs 2 .comparing τ ∧ im'.WritesAs 1 .comparing τ := by
  obtain ⟨m, c, code, hm, hsmall, hc, hcode, hpasses⟩ := comparison_compiles
  obtain ⟨p, -, himaged, hall⟩ := register_reads_follow_writes hm hsmall
  obtain ⟨im, howner, himcode, -⟩ := (himaged c hc).2 0 code hcode
  have hroutine : im.routine = ⟨code, some c⟩ := by rw [Image.routine, howner, himcode]
  obtain ⟨s₀, past, t, henter, htrace, htest⟩ := exists_of_passes (hpasses im.member.isConstructor)
  rw [← hroutine] at henter
  obtain ⟨hcurrent, htop, hlast⟩ := of_decide_eq_true htest
  obtain ⟨im', f, τ, ip, -, -, hreads, hlast', hwrites⟩ := hall im none _ s₀ t past 2 .comparing rfl
    henter htrace (by rw [htop]; exact Nat.one_pos) hcurrent
  rw [htop] at hlast'
  cases hlast.symm.trans hlast'
  exact ⟨m, p, im, _, s₀, t, past, hm, hsmall, rfl, henter, htrace, hcurrent, im', τ,
    hreads, hwrites⟩

end ClassAsm.Machine
