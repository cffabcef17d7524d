import ClassAsm.Proofs.Machine.HostCalls
import ClassAsm.Proofs.Machine.RegisterReads

/-!
# Calls leave the stack as it was

A call from the host ends with the stack and the frames that it began with, however it ends.  After
a fault the machine only cuts both back to their former heights, so that this rests on generated
code: no procedure ever takes a value that belongs to another one, not even in an instruction that
fails.

`Active` is the invariant, for values of all kinds.  Every frame of the call has its own part of the
stack, as large as the code that it stands at wants it to be once the frame above has been left; and
below them all lie the frames and the values that were there before.
`calls_leave_the_stack_as_it_was` is what follows for calls.
-/

namespace ClassAsm.Machine

open Bytecode Codegen

variable {p : Program} {m : CompiledModule} {u : State} {ip j k : Nat} {b : Bool}

/-! ## Returns -/

/-- From `s₀` the machine comes to a return of the only frame above `depth`, and the frame gives `v`
back: the value on top of the stack, or void if there is no result. -/
def GivesBack (depth : Nat) (s₀ : State) (v : Value) : Prop :=
  ∃ past s ip arg, Trace depth s₀ past s ∧ s.frames.top = depth + 1 ∧
  s.current? = some (ip, .ret, arg) ∧
    ((arg = 1 ∧ s.stack.contents.head? = some v) ∨ (arg = 0 ∧ v = .void))

theorem direct_pop {t : State} {a : Value} {rest : List Value} (hhost : t.host = builtins)
    (hstack : t.stack.contents = a :: rest) :
    ∃ u, direct pop t = .ok a u ∧ u.stack.contents = rest ∧
    u.frames.contents = t.frames.contents := by
  have ht : t.Shows ⟨t.frames.contents, a :: rest, t.heap, t.output⟩ :=
    ⟨rfl, hstack, rfl, rfl, hhost⟩
  obtain ⟨u, hpop, hu⟩ := pop_eq ht rfl
  exact ⟨u, by rw [direct, hpop], hu.stack, hu.frames⟩

section Returns

variable {D : Discipline p m} {F : Floor} {a c : Pose p m} {as as' : List (Pose p m)} {v : View}
  {f : Frame} {own low : List Value} {s t : State} {s₀ t₀ : Shape}

/-- **What the host gets when the last activation is left.** -/
theorem Top.delivered (hD : D.Lawful) (ht : Top D F a [] v f own low) (hs : s.Shows v)
    (hn : a.im.Narrows a.shape s₀) (hp : a.im.Passes f.ip s₀ (.ret b) t₀)
    (hvoid : a.constructs = true → a.im.code.returns = .void) (hstep : Machine.step s = .ok () t)
    (depth base : Nat) :
    ∃ x w, delivered depth base (a.constructs || a.im.code.returns ≠ .void) (.ok () t) = .ok x w ∧
      w.frames.contents = F.frames ∧ w.stack.contents = F.stack ∧
      if a.constructs then x = f.self else ∃ arg, s.current? = some (f.ip, .ret, arg) ∧
        ((arg = 1 ∧ s.stack.contents.head? = some x) ∨ (arg = 0 ∧ x = .void)) := by
  obtain ⟨r, rfl, hb, hsome, he, -⟩ := ht.effect_ret hD hn hp
  obtain ⟨arg, hcurrent, harg⟩ := current?_of_reads hs ht.frames (ht.attends.reads hp)
  have hdone := (step_follows hs ht.frames (ht.attends.reads hp)).of_ok hstep
  rw [he] at hdone
  have hshows : t.Shows (v.leave f low r) := hdone
  have hstack := hshows.stack.trans (ht.leave_stack r)
  obtain ⟨-, hfloor, rfl⟩ := ht.below.of_nil
  have hframes : t.frames.contents = F.frames := hshows.frames.trans hfloor
  have hown := hs.stack.trans ht.stack
  cases hconstructs : a.constructs with
  | true =>
    obtain rfl : r = none := by
      rw [Bool.eq_false_iff.2 fun h ↦ hb.1 h (hvoid hconstructs)] at hsome
      exact Option.isNone_iff_eq_none.1 (Option.isSome_eq_false_iff.1 hsome)
    rw [hconstructs] at hstack
    obtain ⟨w, hpop, hstack', hframes'⟩ := direct_pop hshows.host hstack
    refine ⟨f.self, w, ?_, hframes'.trans hframes, hstack', rfl⟩
    simp only [Machine.delivered, Bool.true_or, if_true, hpop]
  | false =>
    rw [hconstructs] at hstack
    cases r with
    | some x =>
      obtain rfl := hsome
      obtain ⟨w, hpop, hstack', hframes'⟩ := direct_pop hshows.host hstack
      refine ⟨x, w, ?_, hframes'.trans hframes, hstack', arg, hcurrent,
        .inl ⟨harg, by rw [hown]; rfl⟩⟩
      simp only [Machine.delivered, decide_eq_true (hb.1 rfl), Bool.false_or, if_true, hpop]
    | none =>
      obtain rfl := hsome
      refine ⟨.void, t, ?_, hframes, hstack, arg, hcurrent, .inr ⟨harg, rfl⟩⟩
      simp only [Machine.delivered, decide_eq_false fun h ↦ Bool.false_ne_true (hb.2 h),
        Bool.false_or, Bool.false_eq_true, if_false]

/-- The lowest activation is still `a`, wherever it stands now. -/
def Pose.Lowest (a : Pose p m) : List (Pose p m) → Prop
  | [] => True
  | [c] => c = { a with shape := c.shape }
  | _ :: c :: as => Lowest a (c :: as)

theorem Pose.Lowest.relocate (h : a.Lowest (c :: as)) (shape : Shape) :
    a.Lowest ({ c with shape := shape } :: as) := by
  cases as with
  | nil => rw [Pose.Lowest, h]
  | cons d as => exact h

theorem Pose.Lowest.move (h : a.Lowest (c :: as)) (hmove : Move c as ip as') : a.Lowest as' := by
  cases hmove with
  | stay _ _ | enter _ _ _ => exact h.relocate _
  | leave _ _ =>
    cases as with
    | nil => trivial
    | cons d as => exact h

/-- **A run that ends has come to a return of the activation that it began with.** -/
theorem Active.delivered (hD : D.Lawful) (hl : Loaded p m) (ha : Active D F [a] v) (hs : s.Shows v)
    {gas : Nat} (hvoid : a.constructs = true → a.im.code.returns = .void)
    (hrun : Machine.run F.frames.length gas s = .ok () t) (depth base : Nat) :
    ∃ x w, Machine.delivered depth base (a.constructs || a.im.code.returns ≠ .void) (.ok () t) =
    .ok x w ∧
      w.frames.contents = F.frames ∧ w.stack.contents = F.stack ∧
      if a.constructs then ∀ addr, a.this = some addr → x = .ofObject addr else
        GivesBack F.frames.length s x := by
  have htop : F.frames.length < s.frames.top := by
    rw [hs.top_eq, ha.length_frames]
    exact Nat.lt_add_of_pos_left Nat.one_pos
  obtain ⟨past, u, k, htrace, hu, -, heq, hlast⟩ := exists_last_of_run .start htop gas
  obtain ⟨-, hstep, hend⟩ := step_of_run hu (heq.symm.trans hrun) hlast
  obtain ⟨as, w, hw, hactive, hlowest⟩ := ha.trace_keeps hD hl (I := fun _ as ↦ a.Lowest as)
    (fun _ _ hmove hlowest ↦ hlowest.move hmove) hs rfl htrace
  obtain ⟨c, as, rfl⟩ := hactive.exists_cons hw hu
  obtain ⟨f, own, low, ht, hdoes⟩ := hactive.step hD hl hw
  obtain ⟨as', w', hw', hmove, hactive'⟩ := hdoes.of_ok hstep
  obtain ⟨rfl, -⟩ := hactive'.landed hw' hend
  cases hmove with
  | leave hn hp =>
    obtain ⟨im, this, constructs, shape⟩ := c
    obtain ⟨rfl, rfl, rfl⟩ : im = a.im ∧ this = a.this ∧ constructs = a.constructs := by
      simpa [Pose.Lowest] using hlowest
    obtain ⟨x, t', hdelivered, hframes, hstack, hx⟩ :=
      ht.delivered hD hw hn hp hvoid hstep depth base
    refine ⟨x, t', hdelivered, hframes, hstack, ?_⟩
    dsimp only at hx
    split at hx <;> rename_i hconstructs
    · rw [if_pos hconstructs]
      intro addr haddr
      rw [hx, Frame.self, ht.attends.this, haddr]
    · rw [if_neg hconstructs]
      obtain ⟨arg, hcurrent, hx⟩ := hx
      refine ⟨past, u, f.ip, arg, htrace, ?_, hcurrent, hx⟩
      rw [hw.top_eq, hactive.length_frames, List.length_singleton, Nat.add_comm]

end Returns

/-! ## Calls -/

/-- Stack and frames are in `t` as they were in `s`: their heights, and all that is below them. -/
def State.Restored (s t : State) : Prop :=
  t.stack.contents = s.stack.contents ∧ t.frames.contents = s.frames.contents

/-- The call has ended with stack and frames as they were, whether it has a result or not. -/
def Balanced (s : State) (P : Value → Prop) : EStateM.Result Stop State Value → Prop
  | .ok v t => s.Restored t ∧ P v
  | .error (.abort _) _ => False
  | .error _ t => s.Restored t

section Host

variable {s t : State} {im : Image p m} {this : Option Nat} {constructs : Bool} {P Q : Value → Prop}

theorem Balanced.imp {r : EStateM.Result Stop State Value} (h : Balanced s P r)
    (hPQ : ∀ v, P v → Q v) : Balanced s Q r := by
  cases r with
  | ok v t => exact ⟨h.1, hPQ v h.2⟩
  | error e t => cases e <;> exact h

/-- A fault that leaves the floor is followed by a cut back to it. -/
theorem restored_unwind (hframes : s.frames.contents <:+ t.frames.contents)
    (hstack : s.stack.contents <:+ t.stack.contents) :
    s.Restored (t.unwind s.frames.top s.stack.top) := by
  refine ⟨?_, ?_⟩
  · show (t.stack.dropTo s.stack.top).contents = _
    rw [Slots.contents_dropTo, ← Slots.length_contents s.stack, ← List.suffix_iff_eq_drop.1 hstack]
  · show (t.frames.dropTo s.frames.top).contents = _
    rw [Slots.contents_dropTo, ← Slots.length_contents s.frames,
      ← List.suffix_iff_eq_drop.1 hframes]

/-- **A call from the host is balanced.**  A constructor gives its object back, and every other
procedure its result. -/
theorem invoke_balanced (hl : Loaded p m) (hhost : s.host = builtins)
    (hvoid : constructs = true → im.code.returns = .void) :
    Balanced s (fun v ↦ if constructs then ∀ addr, this = some addr → v = .ofObject addr else
      ∃ s₀, enter im.routine this constructs s = .ok () s₀ ∧ GivesBack s.frames.top s₀ v)
      (invoke im.routine this constructs s) := by
  by_cases habs : im.routine.code.isAbstract = true
  · rw [invoke_abstract habs]
    exact ⟨rfl, rfl⟩
  rw [Bool.not_eq_true] at habs
  by_cases htop : maxFrames ≤ s.frames.top
  · rw [invoke_full habs htop]
    exact ⟨rfl, rfl⟩
  obtain ⟨s₀, henter⟩ : ∃ s₀, enter im.routine this constructs s = .ok () s₀ :=
    exists_enter (Nat.lt_of_not_le htop)
  obtain ⟨v, hs₀, hactive⟩ := active_of_enter (D := anything p m) hl hhost henter trivial trivial
  have hended := hactive.run anything_lawful hl hs₀ s₀.gas
  rw [Slots.length_contents] at hended
  rw [invoke_eq habs henter]
  cases hend : run s.frames.top s₀.gas s₀ with
  | ok _ t =>
    rw [← Slots.length_contents] at hend
    obtain ⟨x, w, hdelivered, hframes, hstack, hx⟩ :=
      hactive.delivered anything_lawful hl hs₀ hvoid hend s.frames.top s.stack.top
    rw [Slots.length_contents] at hx
    refine hdelivered ▸ ⟨⟨hstack, hframes⟩, ?_⟩
    cases constructs with
    | true => exact hx
    | false => exact ⟨s₀, henter, hx⟩
  | error e t =>
    rw [hend] at hended
    cases e with
    | fault x => exact restored_unwind hended.2.2.1 hended.2.2.2
    | refused d => exact hended.elim
    | abort text => exact hended.elim

end Host

/-- **Calls leave the stack as it was.**  Let a machine with the built-in host functions have any
values on its stack and any frames, and any heap.  Whatever procedure of a module is called, and
whether the call ends with a result or a fault or is refused, stack and frames are behind it as they
were before.  The result of a procedure is the value that it returns, and that of an instantiation
is the new object. -/
theorem calls_leave_the_stack_as_it_was {src : String} {m : CompiledModule}
    (hm : compile src = .ok m) (hsmall : m.Small) {s : State} (hhost : s.host = builtins) :
    (∀ (cls : ClassRef) (code : Procedure) this, cls.home = m →
      (code ∈ cls.get.methods ∨ code ∈ cls.get.constructors) →
      Balanced s (fun v ↦ ∃ s₀, enter ⟨code, some cls⟩ this false s = .ok () s₀ ∧
        GivesBack s.frames.top s₀ v) (invoke ⟨code, some cls⟩ this false s)) ∧
    (∀ cls ctor, cls.home = m →
      Balanced s (fun v ↦ v = .ofObject s.heap.objects.size) (instantiate cls ctor s)) ∧
    ∀ obj name, (∀ (addr : Nat) (cell : ObjectCell), obj = some addr →
        s.heap.objects[addr]? = some cell → cell.cls.home = m) →
      Balanced s (fun v ↦ ∃ addr cell k code s₀, obj = some addr ∧
        s.heap.objects[addr]? = some cell ∧ cell.cls.get.methodIndex? name = some k ∧
        cell.cls.get.methods[k]? = some code ∧
        enter ⟨code, some cell.cls⟩ (some addr) false s = .ok () s₀ ∧
        GivesBack s.frames.top s₀ v) (callObject obj name s) := by
  obtain ⟨p, -, hl⟩ := loaded_of_compile hm hsmall
  have hinvoke (cls : ClassRef) (code : Procedure) (this : Option Nat) (hhome : cls.home = m)
      (hcode : code ∈ cls.get.methods ∨ code ∈ cls.get.constructors) :
      Balanced s (fun v ↦ ∃ s₀, enter ⟨code, some cls⟩ this false s = .ok () s₀ ∧
        GivesBack s.frames.top s₀ v) (invoke ⟨code, some cls⟩ this false s) := by
    obtain ⟨im, howner, rfl⟩ : ∃ im : Image p m, im.owner = cls ∧ im.code = code := by
      rcases hcode with hcode | hcode
      · obtain ⟨k, hk⟩ := Array.getElem?_of_mem hcode
        obtain ⟨im, howner, hcode, -⟩ := hl.image_method hhome hk
        exact ⟨im, howner, hcode⟩
      · obtain ⟨k, hk⟩ := Array.getElem?_of_mem hcode
        obtain ⟨im, howner, hcode, -⟩ := hl.image_constructor hhome hk
        exact ⟨im, howner, hcode⟩
    subst howner
    exact invoke_balanced hl hhost nofun
  refine ⟨hinvoke, fun cls ctor hhome ↦ ?_, fun obj name hhome ↦ ?_⟩
  · rcases instantiate_invokes cls ctor s with ⟨d, hd⟩ | ⟨code, hcode, -, heq⟩
    · rw [hd]
      exact ⟨rfl, rfl⟩
    · obtain ⟨im, rfl, rfl, -, -, hreturns, -⟩ := hl.image_constructor hhome hcode
      rw [heq]
      let s' : State := { s with heap := s.heap.addObject (Heap.freshObject im.owner) }
      have hbalanced : Balanced s' _ (invoke im.routine (some s.heap.objects.size) true s') :=
        invoke_balanced hl hhost fun _ ↦ hreturns
      exact hbalanced.imp fun v hv ↦ hv _ rfl
  · rcases callObject_invokes obj name s with
      ⟨d, hd⟩ | ⟨addr, cell, k, code, hobj, hcell, hindex, hcode, -, heq⟩
    · rw [hd]
      exact ⟨rfl, rfl⟩
    · rw [heq]
      refine (hinvoke cell.cls code (some addr) (hhome addr cell hobj hcell)
        (.inl (Array.mem_of_getElem? hcode))).imp ?_
      rintro v ⟨s₀, henter, hv⟩
      exact ⟨addr, cell, k, code, s₀, hobj, hcell, hindex, hcode, henter, hv⟩

/-- A machine in use: there is a value on its stack. -/
def busy (h : Heap) : State :=
  { host := builtins, heap := h, stack := Slots.empty.push (.ofInt 7) (by decide) }

/-- Whether a call has a result. -/
def answers : EStateM.Result Stop State Value → Bool
  | .ok _ _ => true
  | .error _ _ => false

/-- The counter of the sample is called on a machine in use, and the value on its stack is still
there. -/
theorem countdown_call_is_balanced : ∃ (m : CompiledModule) (s t : State) (v : Value),
    compile countdown = .ok m ∧ m.Small ∧ s.host = builtins ∧ s.stack.contents = [.ofInt 7] ∧
    callObject (some 0) "down" s = .ok v t ∧ t.stack.contents = [.ofInt 7] ∧
    t.frames.contents = [] := by
  obtain ⟨m, c, hm, hsmall, hc, hanswers⟩ := exists_class_of_any countdown (P := fun c ↦ answers
    (callObject (some 0) "down" (busy (heapAfter (instantiate c 0 { host := builtins }))))) (by
    decide +kernel)
  obtain ⟨p, -, hl⟩ := loaded_of_compile hm hsmall
  have hreached : Reached m (heapAfter (instantiate c 0 { host := builtins })) :=
    .instantiate 0 .empty rfl hc
  have hlaw : (conforming p m True).Lawful := conforming_lawful hl (.inl trivial)
  have hh := hreached.orderly hl hlaw
  generalize heapAfter (instantiate c 0 { host := builtins }) = h at hanswers hh
  have hbalanced :=
    (calls_leave_the_stack_as_it_was hm hsmall (s := busy h) rfl).2.2
    (some 0) "down" fun addr cell _ hcell ↦ hh.home addr cell hcell
  cases hcall : callObject (some 0) "down" (busy h) with
  | ok v t =>
    rw [hcall] at hbalanced
    exact ⟨m, busy h, t, v, hm, hsmall, rfl, rfl, hcall, hbalanced.1.1, hbalanced.1.2⟩
  | error e t =>
    rw [hcall] at hanswers
    cases hanswers

end ClassAsm.Machine
