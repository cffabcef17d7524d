import ClassAsm.Proofs.Machine.HostCalls

/-!
# Machine code without defects

A fault can be one of the program, such as a division by zero, a limit of the machine, or a defect
of the machine code itself: a stack that is too short, an unknown instruction, an index that no
table has.  Code that comes from the compiler has no defects.  Whatever a host does with the classes
of a module, no call ends with one, and all that it gets are values that it may write to other
fields, or void.
-/

namespace ClassAsm.Machine

open Bytecode Codegen

/-- The cause is a defect of the machine code. -/
def Cause.Defect : Cause → Prop
  | .stackUnderflow | .unknownOp | .unknownHost | .noConstructor | .abstractClass | .abstractCall |
    .outOfBounds _ _ | .missing => True
  | _ => False

/-- The host may have got the value from the heap. -/
def Obtained (h : Heap) (v : Value) : Prop := v = .void ∨ Offered h v

/-- The call has not ended with a defect, nor in a way that the machine cannot handle. -/
def Clean : EStateM.Result Stop State Value → Prop
  | .ok v t => Obtained t.heap v
  | .error (.fault x) _ => ¬x.cause.Defect
  | .error (.refused _) _ => True
  | .error (.abort _) _ => False

section Clean

variable {m : CompiledModule} {loose : Prop} {h : Heap} {τ : Ty} {v : Value}

theorem not_defect_of_benign {c : Cause} (h : c = .gasExhausted ∨ c.Overflow ∨ Benign loose c) :
    ¬c.Defect := by
  rcases h with rfl | (rfl | rfl) | h
  · exact id
  · exact id
  · exact id
  · cases c with
    | divisionByZero | nullReference | itemIndex | negativeSize | arrayTooLarge | notNumeric |
        conversion =>
      exact id
    | _ => exact h.elim

theorem Allowed.obtained (hv : Allowed m loose h τ v) : Obtained h v :=
  hv.elim (fun hv ↦ .inr hv.offered) fun hv ↦ .inl hv.2

theorem ResultOf.obtained (hv : ResultOf m loose τ h v) : Obtained h v := by
  rw [ResultOf] at hv
  split at hv
  · exact .inl hv
  · exact hv.obtained

theorem Answered.clean {P : Heap → Value → Prop} {r : EStateM.Result Stop State Value}
    (hr : Answered m loose P r) (hP : ∀ h v, P h v → Obtained h v) : Clean r := by
  cases r with
  | ok v t => exact hP _ _ hr.2
  | error e t =>
    cases e with
    | fault x => exact not_defect_of_benign hr.2
    | refused d => trivial
    | abort text => exact hr

end Clean

theorem getField_eq {cell : ObjectCell} {name : String} {i : Nat}
    (hi : publicField cell.cls name = .ok i) (hlt : i < cell.fields.size) :
    getField cell name = .ok cell.fields[i] := by
  simp only [getField, hi, bind, Except.bind, pure, Except.pure, Array.getElem?_eq_getElem hlt,
    Option.getD_some]

/-- **Calls from the host never meet a defect of the machine code**, on a heap that a host has built
and with any machine.  Public fields are there to be read and written, and what is found in fields
and arrays may have been got from the heap. -/
theorem host_calls_are_clean {src : String} {m : CompiledModule} (hm : compile src = .ok m)
    (hsmall : m.Small) {s : State} (hreached : Reached m s.heap) (hhost : s.host = builtins) :
    (∀ cls ctor, cls.home = m → Clean (instantiate cls ctor s)) ∧
    (∀ obj name, Clean (callObject obj name s)) ∧
    (∀ (addr : Nat) (cell : ObjectCell) name i, s.heap.objects[addr]? = some cell →
      publicField cell.cls name = .ok i → i < cell.cls.get.fields.size ∧ i < cell.fields.size ∧
        ∃ v, getField cell name = .ok v ∧ Obtained s.heap v) ∧
    ∀ (addr : Nat) (cell : ArrayCell) v, s.heap.arrays[addr]? = some cell → v ∈ cell.items →
      Obtained s.heap v := by
  obtain ⟨p, -, hl⟩ := loaded_of_compile hm hsmall
  have hlaw : (conforming p m True).Lawful := conforming_lawful hl (.inl trivial)
  have hh := hreached.orderly hl hlaw
  refine ⟨fun cls ctor hhome ↦ ?_, fun obj name ↦ ?_, fun addr cell name i hcell hi ↦ ?_,
    fun addr cell v hcell hv ↦ (hh.items addr cell hcell v hv).obtained⟩
  · exact (instantiate_answered hl hlaw hhome hhost hh ctor).clean fun _ _ hv ↦ hv.obtained
  · exact (callObject_answered hl hlaw hhost hh obj name).clean fun _ _ ⟨_, _, _, _, _, _, _, _,
      hv⟩ ↦ hv.obtained
  · obtain ⟨-, slot, hslot, -⟩ := publicField_spec hi
    have hlt := (Array.getElem?_eq_some_iff.1 hslot).1
    have hlt' : i < cell.fields.size := hh.size addr cell hcell ▸ hlt
    exact ⟨hlt, hlt', _, getField_eq hi hlt', (hh.fields addr cell hcell i slot _ hslot
      (Array.getElem?_eq_getElem hlt')).obtained⟩

/-- The counter is called on another machine. -/
theorem countdown_call_is_clean :
    ∃ (m : CompiledModule) (s : State), compile countdown = .ok m ∧ m.Small ∧ Reached m s.heap ∧
    s.host = builtins ∧ s.heap.objects.size = 1 ∧ Clean (callObject (some 0) "down" s) := by
  obtain ⟨m, c, hm, hsmall, hc, hsize⟩ := countdown_made
  have hreached : Reached m (heapAfter (instantiate c 0 { host := builtins })) :=
    .instantiate 0 .empty rfl hc
  refine ⟨m, { host := builtins, heap := heapAfter (instantiate c 0 { host := builtins }) },
    hm, hsmall, hreached, rfl, hsize, ?_⟩
  exact (host_calls_are_clean hm hsmall hreached rfl).2.1 (some 0) "down"

end ClassAsm.Machine
