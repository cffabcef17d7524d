import ClassAsm.Proofs.Machine.Changes
import ClassAsm.Proofs.Machine.HostCalls

/-!
# Calls that do not end in a result or a fault

Inside a run every failure of an instruction becomes a fault.  The result of a call, however, is
taken from the stack when the run is over.  If the code has not left one there, the machine has
nothing to blame and gives up.  This is the only way, and it happens exactly if a procedure that has
to give a result returns without one, and the stack is empty below it.
-/

namespace ClassAsm.Machine

open Bytecode

/-! ## Returns -/

section Returns

variable {s t : State} {f : Frame}

theorem push_of_ok {v : Value} (h : push v s = .ok () t) :
    t.stack.top = s.stack.top + 1 ∧ t.frames = s.frames := by
  rw [push] at h
  split at h
  · cases h
    exact ⟨rfl, rfl⟩
  · cases h

theorem pushSelf_of_ok
    (h : (if f.constructs then push f.self else pure () : Exec Unit) s = .ok () t) :
    t.frames = s.frames ∧ t.stack.top = s.stack.top + f.constructs.toNat := by
  cases hconstructs : f.constructs with
  | true =>
    rw [hconstructs] at h
    exact (push_of_ok h).symm
  | false =>
    rw [hconstructs] at h
    cases h
    exact ⟨rfl, rfl⟩

/-- **What a return does to the heights.**  It leaves one frame, and the stack is empty behind it
only if it has nothing to push and nothing lies below. -/
theorem returnFrom_of_ok {withResult : Bool} (h : returnFrom f withResult s = .ok () t) :
    t.frames.top = s.frames.top - 1 ∧
      (t.stack.top = 0 ↔ withResult = false ∧ f.constructs = false ∧
        min s.stack.top f.base = 0) := by
  have hframes : ∀ u : State, (u.unwind (u.frames.top - 1) f.base).frames.top =
    u.frames.top - 1 := fun u ↦ (u.frames.top_dropTo _).trans (by omega)
  cases withResult with
  | false =>
    have hreturn : returnFrom f false s = (if f.constructs then push f.self else
      pure () : Exec Unit)
        (s.unwind (s.frames.top - 1) f.base) := rfl
    obtain ⟨hleft, htop⟩ := pushSelf_of_ok (hreturn ▸ h)
    have hcut : (s.unwind (s.frames.top - 1) f.base).stack.top = min s.stack.top f.base :=
      s.stack.top_dropTo _
    refine ⟨hleft ▸ hframes s, ?_⟩
    rw [htop, hcut]
    cases f.constructs <;> simp
  | true =>
    cases hpop : pop s with
    | error e u =>
      have hfail : (some <$> pop : Exec (Option Value)) s = .error e u := bind_of_error hpop
      have hreturn : returnFrom f true s = .error e u := bind_of_error hfail
      cases hreturn.symm.trans h
    | ok v u =>
      have hresult : (some <$> pop : Exec (Option Value)) s = .ok (some v) u := bind_of_ok hpop
      have hreturn : returnFrom f true s = (push v >>= fun _ ↦ if f.constructs then
        push f.self else pure ())
          (u.unwind (u.frames.top - 1) f.base) := bind_of_ok hresult
      have hsame : u.frames = s.frames := by
        rw [pop] at hpop
        split at hpop <;> cases hpop
        rfl
      rw [hreturn] at h
      cases hpush : push v (u.unwind (u.frames.top - 1) f.base) with
      | error e w =>
        rw [bind_of_error hpush] at h
        cases h
      | ok _ w =>
        rw [bind_of_ok hpush] at h
        obtain ⟨htop, hleft⟩ := push_of_ok hpush
        obtain ⟨hleft', htop'⟩ := pushSelf_of_ok h
        refine ⟨?_, fun hzero ↦ by omega, fun hall ↦ by cases hall.1⟩
        rw [hleft', hleft, hframes, hsame]

end Returns

/-! ## Runs -/

section Runs

variable {depth gas : Nat} {s s₀ t u : State} {past : List State}

/-- A run goes through every state that the machine can come to, as long as its gas lasts. -/
theorem run_of_trace (htrace : Trace depth s₀ past u) (hgas : past.length ≤ gas) :
    run depth gas s₀ = run depth (gas - past.length) u := by
  induction htrace with
  | start => rfl
  | @step past s u _ htop hstep ih =>
    have hlength : (s :: past).length = past.length + 1 := rfl
    obtain ⟨k, hk⟩ : ∃ k, gas - past.length = k + 1 := ⟨gas - past.length - 1, by omega⟩
    have hrest : gas - (s :: past).length = k := by omega
    rw [ih (by omega), hk, run_succ htop, hstep, hrest]

/-- The machine is about to leave the procedure above `depth` frames, and nothing will be on the
stack: the return has no result, no object has been constructed, and the stack is empty below the
procedure. -/
def ReturnsNothing (depth : Nat) (s : State) : Prop :=
  ∃ f w, s.frames.top = depth + 1 ∧ frame s = .ok f s ∧ f.routine.code.code[f.ip]? = some w ∧
    Op.ofByte? w.opByte = some .ret ∧ w.arg ≠ 1 ∧ f.constructs = false ∧ min s.stack.top f.base = 0

/-- The last instruction of a run leaves nothing on the stack if it returns nothing. -/
theorem top_eq_zero_iff (htop : depth < u.frames.top) (hstep : step u = .ok () t)
    (hend : t.frames.top ≤ depth) : t.stack.top = 0 ↔ ReturnsNothing depth u := by
  obtain ⟨f, w, hf, hw, hop, hreturn⟩ := ret_of_top_lt hstep (Nat.lt_of_le_of_lt hend htop)
  obtain ⟨hframes, hempty⟩ := returnFrom_of_ok hreturn
  rw [hempty, decide_eq_false_iff_not]
  constructor
  · rintro ⟨harg, hconstructs, hbase⟩
    exact ⟨f, w, by omega, hf, hw, hop, harg, hconstructs, hbase⟩
  · rintro ⟨f', w', -, hf', hw', -, harg, hconstructs, hbase⟩
    cases hf.symm.trans hf'
    cases hw.symm.trans hw'
    exact ⟨harg, hconstructs, hbase⟩

theorem ReturnsNothing.exists_step (h : ReturnsNothing depth u) :
    ∃ t, step u = .ok () t ∧ t.frames.top ≤ depth := by
  obtain ⟨f, w, htop, hf, hw, hop, harg, hconstructs, -⟩ := h
  have hreturn : returnFrom f (w.arg = 1) u = .ok () (u.unwind (u.frames.top - 1) f.base) := by
    rw [decide_eq_false harg]
    show (if f.constructs then push f.self else pure () : Exec Unit) _ = _
    rw [hconstructs]
    rfl
  refine ⟨_, (step_eq hf hw hop).trans hreturn, ?_⟩
  have hleft := (returnFrom_of_ok hreturn).1
  omega

/-- **When a run leaves an empty stack**: it comes to a return of the procedure that it began with,
there is no result, and nothing lies below. -/
theorem run_empty_iff (htop : depth < s₀.frames.top) :
    (∃ t, run depth gas s₀ = .ok () t ∧ t.stack.top = 0) ↔
      ∃ past u, Trace depth s₀ past u ∧ past.length < gas ∧ ReturnsNothing depth u := by
  constructor
  · rintro ⟨t, hrun, hempty⟩
    obtain ⟨past, u, k, htrace, hu, hlength, heq, hlast⟩ := exists_last_of_run .start htop gas
    rw [heq] at hrun
    obtain ⟨hpos, hstep, hend⟩ := step_of_run hu hrun hlast
    rw [List.length_nil] at hlength
    exact ⟨past, u, htrace, by omega, (top_eq_zero_iff hu hstep hend).1 hempty⟩
  · rintro ⟨past, u, htrace, hlength, hu⟩
    obtain ⟨t, hstep, hend⟩ := hu.exists_step
    have hutop : depth < u.frames.top := by
      obtain ⟨_, _, h, _⟩ := hu
      omega
    obtain ⟨k, hk⟩ : ∃ k, gas - past.length = k + 1 := ⟨gas - past.length - 1, by omega⟩
    refine ⟨t, ?_, (top_eq_zero_iff hutop hstep hend).2 hu⟩
    rw [run_of_trace htrace (Nat.le_of_lt hlength), hk, run_succ hutop, hstep]
    exact run_of_le hend k

end Runs

/-! ## Calls -/

/-- The call has come to a result or a fault. -/
def Concluded : EStateM.Result Stop State Value → Prop
  | .ok _ _ => True
  | .error (.fault _) _ => True
  | .error _ _ => False

/-- The machine gives up as soon as it looks for a result on an empty stack. -/
theorem concluded_pop (t : State) : (Concluded (direct pop t) ↔ t.stack.top ≠ 0) ∧
      (t.stack.top = 0 → direct pop t = .error (.abort "vm: stack underflow") t) := by
  rw [direct, pop]
  by_cases htop : 0 < t.stack.top
  · rw [dif_pos htop]
    exact ⟨iff_of_true trivial (Nat.ne_of_gt htop), fun hzero ↦ absurd hzero (Nat.ne_of_gt htop)⟩
  · rw [dif_neg htop]
    exact ⟨iff_of_false id fun hzero ↦ htop (Nat.pos_of_ne_zero hzero), fun _ ↦ rfl⟩

section Calls

variable {r : Routine} {this : Option Nat} {s t : State}

theorem enter_of_ok {constructs : Bool} (h : enter r this constructs s = .ok () t) :
    s.frames.top < t.frames.top ∧ t.gas = s.gas ∧ t.host = s.host := by
  rw [enter] at h
  split at h
  · cases h
    exact ⟨Nat.lt_succ_self _, rfl, rfl⟩
  · cases h

/-- What the host gets from a run on a machine whose host functions do not give up. -/
theorem delivered_cases (hhost : ∀ text, .abort text ∉ t.host) (depth base gas : Nat)
    (wanted : Bool) : (Concluded (delivered depth base wanted (run depth gas t)) ∧
      ¬(wanted = true ∧ ∃ u, run depth gas t = .ok () u ∧ u.stack.top = 0)) ∨
    ∃ u, delivered depth base wanted (run depth gas t) = .error (.abort "vm: stack underflow") u ∧
      wanted = true ∧ run depth gas t = .ok () u ∧ u.stack.top = 0 := by
  cases hrun : run depth gas t with
  | error e u =>
    rcases run_error hrun with ⟨f, rfl⟩ | ⟨text, rfl, htext⟩
    · exact .inl ⟨trivial, fun h ↦ nomatch h.2⟩
    · exact absurd htext (hhost text)
  | ok _ u =>
    cases wanted with
    | false => exact .inl ⟨trivial, fun h ↦ nomatch h.1⟩
    | true =>
      obtain ⟨hconcluded, hempty⟩ := concluded_pop u
      by_cases hzero : u.stack.top = 0
      · exact .inr ⟨u, hempty hzero, rfl, rfl, hzero⟩
      · refine .inl ⟨hconcluded.2 hzero, ?_⟩
        rintro ⟨-, u', hu', hzero'⟩
        cases hu'
        exact hzero hzero'

end Calls

/-- **Every call ends in a result or a fault but for one kind.**  On a machine whose host functions
do not give up, the call of a procedure with any code fails to do so exactly if the procedure has to
give a result and comes to a return without one that leaves the stack empty; the machine then gives
up with the text of a stack underflow. -/
theorem call_escapes_iff {s : State} (hhost : ∀ text, .abort text ∉ s.host) (r : Routine)
    (this : Option Nat) : (Concluded (invoke r this false s) ∨
      ∃ t, invoke r this false s = .error (.abort "vm: stack underflow") t) ∧
      (¬Concluded (invoke r this false s) ↔ r.code.isAbstract = false ∧ r.code.returns ≠ .void ∧
        ∃ s₀ past u, enter r this false s = .ok () s₀ ∧ Trace s.frames.top s₀ past u ∧
          past.length < s.gas ∧ ReturnsNothing s.frames.top u) := by
  cases habs : r.code.isAbstract with
  | true =>
    rw [invoke_abstract habs]
    exact ⟨.inl trivial, iff_of_false (not_not_intro trivial) fun h ↦ nomatch h.1⟩
  | false =>
    by_cases htop : maxFrames ≤ s.frames.top
    · rw [invoke_full habs htop]
      refine ⟨.inl trivial, iff_of_false (not_not_intro trivial) ?_⟩
      rintro ⟨-, -, s₀, past, u, henter, -⟩
      rw [enter, dif_neg (Nat.not_lt_of_le htop)] at henter
      cases henter
    · obtain ⟨t, henter⟩ : ∃ t, enter r this false s = .ok () t :=
        exists_enter (Nat.lt_of_not_le htop)
      obtain ⟨hentered, hgas, hsame⟩ := enter_of_ok henter
      have hends : (∃ s₀ past u, enter r this false s = .ok () s₀ ∧ Trace s.frames.top s₀ past u ∧
            past.length < s.gas ∧ ReturnsNothing s.frames.top u) ↔
          ∃ u, run s.frames.top t.gas t = .ok () u ∧ u.stack.top = 0 := by
        rw [run_empty_iff hentered, hgas]
        constructor
        · rintro ⟨s₀, past, u, hs₀, hu⟩
          cases henter.symm.trans hs₀
          exact ⟨past, u, hu⟩
        · rintro ⟨past, u, hu⟩
          exact ⟨t, past, u, henter, hu⟩
      rw [invoke_eq habs henter, hends, Bool.false_or]
      rcases delivered_cases (hsame ▸ hhost) s.frames.top s.stack.top t.gas
        (decide (r.code.returns ≠ .void)) with
        ⟨hconcluded, hnot⟩ | ⟨u, hescapes, hwanted, hrun, hzero⟩
      · rw [decide_eq_true_iff] at hnot
        exact ⟨.inl hconcluded, iff_of_false (not_not_intro hconcluded) fun h ↦ hnot h.2⟩
      · rw [decide_eq_true_iff] at hwanted
        rw [hescapes]
        exact ⟨.inr ⟨u, rfl⟩, iff_of_true id ⟨rfl, hwanted, u, hrun, hzero⟩⟩

/-- A sample: a procedure that has to give an integer and returns without one. -/
def forgetful : Routine :=
  { code := { name := "p", returns := .int, code := #[Op.ret.word 0], lines := #[1] } }

/-- The call of the sample ends in neither a result nor a fault. -/
theorem forgetful_escapes :
    ∃ t, invoke forgetful none false {} = .error (.abort "vm: stack underflow") t :=
  ⟨_, rfl⟩

/-- The sample comes to a return that leaves nothing. -/
theorem forgetful_returns_nothing : (∀ text, HostFunction.abort text ∉ ({} : State).host) ∧
      ∃ s₀ past u, enter forgetful none false {} = .ok () s₀ ∧ Trace 0 s₀ past u ∧
      past.length < defaultGas ∧
        ReturnsNothing 0 u := by
  have hhost : ∀ text, HostFunction.abort text ∉ ({} : State).host := fun _ ↦ Array.not_mem_empty _
  exact ⟨hhost, ((call_escapes_iff hhost forgetful none).2.1 fun h ↦ h).2.2⟩

end ClassAsm.Machine
