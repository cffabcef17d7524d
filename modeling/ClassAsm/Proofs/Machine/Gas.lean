import ClassAsm.Proofs.Machine.Changes
import ClassAsm.Proofs.Machine.Course

/-!
# More gas

No instruction can see how much gas is left, so a run with more gas does what the run with less gas
has done, and goes on only if that one was out of gas.  This holds of any code.

`passed depth gas s` lists the states of the run, in the order in which the machine comes to them.
-/

namespace ClassAsm.Machine

open Bytecode

/-- The run has used up its gas. -/
def Exhausted {α : Type} : EStateM.Result Stop State α → Prop
  | .error (.fault f) _ => f.cause = .gasExhausted
  | _ => False

instance {α : Type} : DecidablePred (@Exhausted α)
  | .error (.fault f) _ => inferInstanceAs (Decidable (f.cause = .gasExhausted))
  | .error (.refused _) _ => inferInstanceAs (Decidable False)
  | .error (.abort _) _ => inferInstanceAs (Decidable False)
  | .ok _ _ => inferInstanceAs (Decidable False)

/-- The states that a run passes, from the one in which it begins to the one in which it ends. -/
def passed (depth : Nat) : Nat → State → List State
  | 0, s => [s]
  | gas + 1, s =>
    if s.frames.top ≤ depth then [s]
    else
      s :: match step s with
        | .ok () t => passed depth gas t
        | .error _ t => [t]

section Passed

variable {depth gas : Nat} {s t : State}

theorem passed_of_le (h : s.frames.top ≤ depth) : passed depth gas s = [s] := by
  cases gas with
  | zero => rfl
  | succ gas => rw [passed, if_pos h]

theorem passed_succ (h : depth < s.frames.top) (gas : Nat) :
    passed depth (gas + 1) s = s :: match step s with
      | .ok () t => passed depth gas t
      | .error _ t => [t] := by
  rw [passed, if_neg (Nat.not_le_of_lt h)]

theorem exists_passed (depth gas : Nat) (s : State) : ∃ rest, passed depth gas s = s :: rest := by
  rcases Nat.lt_or_ge depth s.frames.top with htop | htop
  · cases gas with
    | zero => exact ⟨[], rfl⟩
    | succ gas => exact ⟨_, passed_succ htop gas⟩
  · exact ⟨[], passed_of_le htop⟩

theorem getLast?_passed (depth gas : Nat) (s : State) :
    (passed depth gas s).getLast? = some (stateAfter (run depth gas s)) := by
  induction gas generalizing s with
  | zero =>
    rw [run]
    split <;> rfl
  | succ gas ih =>
    rcases Nat.lt_or_ge depth s.frames.top with htop | htop
    · rw [passed_succ htop, run_succ htop]
      cases step s with
      | ok _ t => rw [List.getLast?_cons, ih, Option.getD_some]
      | error e t => rfl
    · rw [passed_of_le htop, run_of_le htop]
      rfl

/-- The machine comes from every state of a run to the one in which the run ends. -/
theorem changes_of_mem_passed (h : t ∈ passed depth gas s) :
    Changes True t (stateAfter (run depth gas s)) := by
  induction gas generalizing s with
  | zero =>
    obtain rfl := List.mem_singleton.1 h
    exact run_changes depth 0 t
  | succ gas ih =>
    rcases Nat.lt_or_ge depth s.frames.top with htop | htop
    · rw [passed_succ htop] at h
      rcases List.mem_cons.1 h with rfl | h
      · exact run_changes depth _ t
      · rw [run_succ htop]
        cases hstep : step s with
        | ok _ u =>
          rw [hstep] at h
          exact ih h
        | error e u =>
          rw [hstep] at h
          obtain rfl := List.mem_singleton.1 h
          exact .refl
    · rw [passed_of_le htop, List.mem_singleton] at h
      subst h
      exact run_changes depth _ t

theorem passed_of_more (depth gas more : Nat) (s : State) :
    passed depth gas s <+: passed depth (gas + more) s := by
  induction gas generalizing s with
  | zero =>
    obtain ⟨rest, hrest⟩ := exists_passed depth (0 + more) s
    rw [hrest]
    exact List.prefix_append [s] rest
  | succ gas ih =>
    rcases Nat.lt_or_ge depth s.frames.top with htop | htop
    · rw [Nat.succ_add, passed_succ htop, passed_succ htop, List.prefix_cons_inj]
      cases step s with
      | ok _ t => exact ih t
      | error e t => exact List.prefix_refl _
    · have hsame : passed depth (gas + 1 + more) s = passed depth (gas + 1) s := by
        rw [passed_of_le htop, passed_of_le htop]
      exact hsame ▸ List.prefix_refl _

theorem run_of_not_exhausted (more : Nat) (h : ¬Exhausted (run depth gas s)) :
    run depth (gas + more) s = run depth gas s := by
  induction gas generalizing s with
  | zero =>
    rcases Nat.lt_or_ge depth s.frames.top with htop | htop
    · rw [run_zero htop] at h
      exact absurd rfl h
    · rw [run_of_le htop, run_of_le htop]
  | succ gas ih =>
    rcases Nat.lt_or_ge depth s.frames.top with htop | htop
    · rw [Nat.succ_add, run_succ htop, run_succ htop]
      rw [run_succ htop] at h
      cases hstep : step s with
      | ok _ t =>
        rw [hstep] at h
        exact ih h
      | error e t => rfl
    · rw [run_of_le htop, run_of_le htop]

end Passed

/-- **More gas changes nothing that has happened.**  If a run does not use up its gas, then the run
with more gas is the same, with the same result or fault, machine, heap and output.  If it does, the
run with more gas passes the same states in the same order before it goes on, and what was printed
is the beginning of what is printed. -/
theorem more_gas_goes_on (depth : Nat) (s : State) {gas gas' : Nat} (hle : gas ≤ gas') :
    (¬Exhausted (run depth gas s) → run depth gas' s = run depth gas s) ∧
    (Exhausted (run depth gas s) →
      (stateAfter (run depth gas s)).output.toList <+:
        (stateAfter (run depth gas' s)).output.toList ∧
      passed depth gas s <+: passed depth gas' s) := by
  obtain ⟨more, rfl⟩ := Nat.exists_eq_add_of_le hle
  have hmore := passed_of_more depth gas more s
  refine ⟨run_of_not_exhausted more, fun _ ↦ ⟨?_, hmore⟩⟩
  have hlast : stateAfter (run depth gas s) ∈ passed depth gas s :=
    List.mem_of_getLast? (getLast?_passed depth gas s)
  exact (changes_of_mem_passed (hmore.subset hlast)).output

/-- A sample: a machine that is about to print twice. -/
def twice : State where
  host := builtins
  frames := Slots.empty.push (some {
    routine := { code := {
      name := "twice"
      code := #[Op.pushConst.word 0, Op.hostCall.word 0, Op.pushConst.word 0, Op.hostCall.word 0,
        Op.ret.word 0]
      consts := #[.ofInt 7] } }
    base := 0
    this := none
    constructs := false }) (by decide)

/-- Gas for two instructions is too little for the sample and gas for five is enough. -/
theorem twice_goes_on : Exhausted (run 0 2 twice) ∧ (stateAfter (run 0 2 twice)).output = "7\n" ∧
      (stateAfter (run 0 2 twice)).output.toList <+: (stateAfter (run 0 5 twice)).output.toList ∧
      passed 0 2 twice <+: passed 0 5 twice ∧
      ¬Exhausted (run 0 5 twice) ∧ run 0 9 twice = run 0 5 twice := by
  have hlittle : Exhausted (run 0 2 twice) := by decide +kernel
  have henough : ¬Exhausted (run 0 5 twice) := by decide +kernel
  obtain ⟨hprinted, hpassed⟩ := (more_gas_goes_on 0 twice (show 2 ≤ 5 by decide)).2 hlittle
  exact ⟨hlittle, by decide +kernel, hprinted, hpassed, henough,
    (more_gas_goes_on 0 twice (show 5 ≤ 9 by decide)).1 henough⟩

end ClassAsm.Machine
