import ClassAsm.Proofs.Machine.Changes
import ClassAsm.Proofs.Machine.HostCalls

/-!
# Machines that are used again

A machine that is given back is emptied only as far as its slots are in use.  That is enough:
whatever a host has done with the machine, and however that ended, the other slots are blank
(`perform_blank`).  So a machine that has been given back is a new one.
-/

namespace ClassAsm.Machine

open Bytecode

/-! ## Operations -/

/-- What a host can do with a machine.  Code is run by `invoke`, `instantiate` and `call`. -/
inductive Operation where
  | push (v : Value)
  | pop
  | register (f : HostFunction)
  | install
  | attach (sink : Sink)
  | limit (gas : Int)
  | invoke (r : Routine) (this : Option Nat)
  | instantiate (cls : ClassRef) (ctor : Int)
  | call (obj : Option Nat) (name : String)
  /-- The host changes cells of the heap by itself. -/
  | heap (h : Heap)
  | reset
  | release

/-- Do an operation.  Those without a result have the result void. -/
def Operation.run : Operation → HostCall Value
  | push v => do
    direct (Machine.push v)
    return .void
  | pop => direct Machine.pop
  | register f => change fun s ↦ s.register f
  | install => change State.install
  | attach sink => change fun s ↦ { s with sink }
  | limit gas => change fun s ↦ { s with gasLimit := gas }
  | invoke r this => Machine.invoke r this
  | instantiate cls ctor => Machine.instantiate cls ctor
  | call obj name => callObject obj name
  | heap h => change fun s ↦ { s with heap := h }
  | reset => change State.reset
  | release => change State.release
where
  change (f : State → State) : HostCall Value := fun s ↦ .ok .void (f s)

/-- How an operation ends for the host. -/
def answer : EStateM.Result Stop State Value → Except Stop Value
  | .ok v _ => .ok v
  | .error e _ => .error e

/-- Do operations one after the other, each of them however the last one has ended. -/
def perform : List Operation → State → List (Except Stop Value) × State
  | [], s => ([], s)
  | op :: ops, s =>
    let result := op.run s
    let rest := perform ops (stateAfter result)
    (answer result :: rest.1, rest.2)

/-! ## What operations leave behind -/

section Operations

variable {s : State}

theorem stateAfter_direct {α : Type} (g : Exec α) (s : State) :
    stateAfter (direct g s) = stateAfter (g s) := by
  rw [direct]
  cases g s <;> rfl

theorem delivered_changes (depth base : Nat) (wanted : Bool) (r : EStateM.Result Stop State Unit) :
    Changes True (stateAfter r) (stateAfter (delivered depth base wanted r)) := by
  cases r with
  | ok _ t =>
    rw [delivered]
    split
    · rw [stateAfter_direct]
      exact makes_pop.changes
    · exact .refl
  | error e t =>
    cases e with
    | fault f => exact changes_unwind trivial depth base t
    | refused d => exact .refl
    | abort text => exact .refl

/-- **A call of any code.** -/
theorem invoke_changes (r : Routine) (this : Option Nat) (constructs : Bool) (s : State) :
    Changes True s (stateAfter (invoke r this constructs s)) := by
  cases habs : r.code.isAbstract with
  | true =>
    rw [invoke_abstract habs]
    exact .refl
  | false =>
    rcases Nat.lt_or_ge s.frames.top maxFrames with htop | htop
    · obtain ⟨t, henter⟩ : ∃ t, enter r this constructs s = .ok () t := exists_enter htop
      have hentered := (makes_enter (P := True) (s := s) r this constructs).changes
      rw [henter] at hentered
      rw [invoke_eq habs henter]
      exact (hentered.trans (run_changes _ _ t)).trans (delivered_changes _ _ _ _)
    · rw [invoke_full habs htop]
      exact .refl

theorem instantiate_changes (cls : ClassRef) (ctor : Int) (s : State) :
    Changes True s (stateAfter (instantiate cls ctor s)) := by
  rcases instantiate_invokes cls ctor s with ⟨d, hd⟩ | ⟨code, -, -, heq⟩
  · rw [hd]
    exact .refl
  · rw [heq]
    exact .head (.heap s _) (invoke_changes _ _ _ _)

theorem callObject_changes (obj : Option Nat) (name : String) (s : State) :
    Changes True s (stateAfter (callObject obj name s)) := by
  rcases callObject_invokes obj name s with ⟨d, hd⟩ | ⟨addr, cell, k, code, -, -, -, -, -, heq⟩
  · rw [hd]
    exact .refl
  · rw [heq]
    exact invoke_changes _ _ _ s

theorem Operation.blank (op : Operation) (hs : s.stack.Blank ∧ s.frames.Blank) :
    (stateAfter (op.run s)).stack.Blank ∧ (stateAfter (op.run s)).frames.Blank := by
  cases op with
  | push v =>
    refine Changes.blank (P := True) (changes_bind ?_ fun _ _ _ ↦ .refl) hs
    rw [stateAfter_direct]
    exact (makes_push v).changes
  | pop =>
    refine Changes.blank (P := True) ?_ hs
    rw [Operation.run, stateAfter_direct]
    exact makes_pop.changes
  | invoke r this => exact (invoke_changes r this false s).blank hs
  | instantiate cls ctor => exact (instantiate_changes cls ctor s).blank hs
  | call obj name => exact (callObject_changes obj name s).blank hs
  | reset | release => exact (changes_unwind trivial 0 0 s).blank hs
  | register | install | attach | limit | heap => exact hs

theorem perform_blank (ops : List Operation) (hs : s.stack.Blank ∧ s.frames.Blank) :
    (perform ops s).2.stack.Blank ∧ (perform ops s).2.frames.Blank := by
  induction ops generalizing s with
  | nil => exact hs
  | cons op ops ih => exact ih (op.blank hs)

/-- Giving back a machine whose free slots are blank makes it new. -/
theorem release_eq (hs : s.stack.Blank ∧ s.frames.Blank) :
    s.release = { heap := s.heap, output := s.output } := by
  have hblank := (changes_unwind trivial 0 0 s).blank hs
  have hstack : s.stack.dropTo 0 = .empty :=
    hblank.1.eq_empty ((Slots.top_dropTo s.stack 0).trans (Nat.min_zero _))
  have hframes : s.frames.dropTo 0 = .empty :=
    hblank.2.eq_empty ((Slots.top_dropTo s.frames 0).trans (Nat.min_zero _))
  rw [State.release, State.reset, State.unwind, hstack, hframes]

end Operations

/-- **A machine that is given back carries nothing over.**  After any operations on a new machine,
the stack and the frames are within their bounds and hold nothing above their heights; and once it
is given back, the machine is a new one, on which all that is done later ends in the same way. -/
theorem released_machine_is_new (h : Heap) (out : String) (ops : List Operation) : let s :=
  (perform ops { heap := h, output := out }).2
    s.stack.top ≤ 256 ∧ s.frames.top ≤ 64 ∧ s.stack.Blank ∧ s.frames.Blank ∧
      s.release = { heap := s.heap, output := s.output } ∧
      ∀ later, perform later s.release = perform later { heap := s.heap, output := s.output } := by
  intro s
  have hs : s.stack.Blank ∧ s.frames.Blank :=
    perform_blank ops ⟨Slots.blank_empty, Slots.blank_empty⟩
  have hrelease := release_eq hs
  exact ⟨s.stack.top_le, s.frames.top_le, hs.1, hs.2, hrelease, fun later ↦ by rw [hrelease]⟩

/-- A host function that gives up leaves a value and a frame in use. -/
example :
    let code : Procedure := {
      name := "quits", code := #[Op.pushConst.word 0, Op.hostCall.word 0], consts := #[.ofInt 7] }
    let s := (perform [.register (.abort "gone"), .invoke ⟨code, none⟩ none] {}).2
    s.stack.top = 1 ∧ s.frames.top = 1 ∧ s.host.size = 1 := by
  decide +kernel

end ClassAsm.Machine
