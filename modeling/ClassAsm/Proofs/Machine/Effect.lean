import ClassAsm.Proofs.Codegen.Procedure
import ClassAsm.Proofs.Machine.View
import ClassAsm.Proofs.Reference.Access

/-!
# What an instruction does

`effect` says once what each instruction does to what a state looks like: it goes on with another
view, it branches to an instruction of the source block, or it faults.  Full memories are left out;
they are the only other way for an instruction to fail.  The proofs about generated code use
`effect` in the place of the machine's own definition.

`step_performs` ties this to the machine: a machine that stands at a word that means `x` does what
the effect of `x` says, or its stack or its frames overflow.  A fault leaves behind what `Fallen`
says.  No instruction takes more values than its arity, so that all values below its operands are
still there; and the active frame is as it was, but for two cases: a call or a construction has
moved on before it finds that there is no room for another frame, and a return has dropped its frame
before it finds that there is no room for its results.

## How it is proved

An instruction takes its operands one by one, and any of these steps can fail.  `State.Takes` is the
state in between: the machine looks as before but for values that have been taken, and it says how
many more may be taken.  `Prepares` and `Performs` say that what is still to come does what the
instruction does, without and with the step to the next one.  They go along `>>=`, with one rule for
each primitive step of the machine, so that the lemma of an operation follows its text.
-/

namespace ClassAsm

namespace Bytecode.Instr

/-- The number of values that an instruction takes from the stack. -/
def arity : Instr → Nat
  | const _ | pushLocal _ | this | jump _ | call _ | new _ | ret false => 0
  | popLocal _ | dup | convert _ | loadField _ | not | jumpFalse _ | ret true | newArray _ |
      print => 1
  | swap | storeField _ | loadItem | intArith _ | floatArith _ _ | test _ => 2
  | storeItem => 3

end Bytecode.Instr

namespace Machine

open Bytecode Reference

/-- What an instruction can do. -/
inductive Effect where
  /-- Go on with this view. -/
  | go (v : View)
  /-- Go on with this view at an instruction of the source block. -/
  | branch (target : Nat) (v : View)
  | fault (c : Cause)

/-- The frame at the next instruction. -/
def Frame.next (f : Frame) : Frame := { f with ip := f.ip + 1 }

/-- The view with another stack, in the frame `f` at the next instruction. -/
def View.onto (v : View) (f : Frame) (stack : List Value) : View :=
  { v with frames := some f.next :: v.frames.tail, stack := stack }

/-- The next instruction with a value on the stack, if there is one. -/
def View.result (v : View) (f : Frame) (stack : List Value) : Except Cause Value → Effect
  | .ok a => .go (v.onto f (a :: stack))
  | .error c => .fault c

/-- The next instruction with another heap, if there is one. -/
def View.update (v : View) (f : Frame) (stack : List Value) : Except Cause Heap → Effect
  | .ok h => .go { v.onto f stack with heap := h }
  | .error c => .fault c

/-- A procedure is entered. -/
def View.enter (v : View) (f : Frame) (routine : Routine) (this : Option Nat)
    (constructs : Bool) : View :=
  { v with
    frames := some { routine, base := v.stack.length, this, constructs } :: some f.next ::
      v.frames.tail }

/-- The active procedure is left with a result or without. -/
def View.leave (v : View) (f : Frame) (stack : List Value) (result : Option Value) : View :=
  { v with
    frames := v.frames.tail
    stack := (if f.constructs then [f.self] else []) ++ result.toList ++
      stack.drop (stack.length - f.base) }

/-- A method of the class of the active procedure is called. -/
def View.call (v : View) (f : Frame) (k : Nat) : Effect :=
  match f.routine.owner with
  | none => .fault .missing
  | some owner =>
    match owner.get.methods[k]? with
    | none => .fault (.outOfBounds k owner.get.methods.size)
    | some callee =>
      if callee.isAbstract then .fault .abstractCall
      else .go (v.enter f ⟨callee, some owner⟩ f.this false)

/-- An object of a class of the module is made. -/
def View.create (v : View) (f : Frame) (k : Nat) : Effect :=
  match f.routine.owner with
  | none => .fault .missing
  | some owner =>
    match owner.home.classAt? k with
    | none => .fault (.outOfBounds k owner.home.classes.size)
    | some cls =>
      if cls.get.isAbstract then .fault .abstractClass
      else
        match cls.get.constructors[0]? with
        | none => .fault .noConstructor
        | some code => .go { v.enter f ⟨code, some cls⟩ (some v.heap.objects.size) true with
            heap := v.heap.addObject (Heap.freshObject cls) }

/-- What an instruction does in the frame `f`. -/
def effect (v : View) (f : Frame) : Instr → Effect
  | .const a => .go (v.onto f (a :: v.stack))
  | .pushLocal k =>
    match f.locals.toArray[k]? with
    | some a => .go (v.onto f (a :: v.stack))
    | none => .fault (.outOfBounds k maxLocals)
  | .popLocal k =>
    match v.stack with
    | a :: stack =>
      if h : k < maxLocals then .go (v.onto { f with locals := f.locals.set k a h } stack)
      else .fault (.outOfBounds k maxLocals)
    | _ => .fault .stackUnderflow
  | .this => .go (v.onto f (f.self :: v.stack))
  | .dup =>
    match v.stack with
    | a :: stack => .go (v.onto f (a :: a :: stack))
    | _ => .fault .stackUnderflow
  | .swap =>
    match v.stack with
    | b :: a :: stack => .go (v.onto f (a :: b :: stack))
    | _ => .fault .stackUnderflow
  | .convert t =>
    match v.stack with
    | a :: stack => v.result f stack (converted? v.heap a t)
    | _ => .fault .stackUnderflow
  | .loadField i =>
    match v.stack with
    | o :: stack => v.result f stack (readField v.heap o i)
    | _ => .fault .stackUnderflow
  | .storeField i =>
    match v.stack with
    | a :: o :: stack => v.update f stack (writeField v.heap o i a)
    | _ => .fault .stackUnderflow
  | .loadItem =>
    match v.stack with
    | i :: a :: stack => v.result f stack (readItem v.heap a i.toInt)
    | _ => .fault .stackUnderflow
  | .storeItem =>
    match v.stack with
    | b :: i :: a :: stack => v.update f stack (writeItem v.heap a i.toInt b)
    | _ => .fault .stackUnderflow
  | .intArith op =>
    match v.stack with
    | b :: a :: stack => v.result f stack (intResult op a b)
    | _ => .fault .stackUnderflow
  | .floatArith op single =>
    match v.stack with
    | b :: a :: stack => v.result f stack (floatResult op single a b)
    | _ => .fault .stackUnderflow
  | .test t =>
    match v.stack with
    | b :: a :: stack => v.result f stack (Value.ofBool <$> testResult t a b)
    | _ => .fault .stackUnderflow
  | .not =>
    match v.stack with
    | a :: stack => .go (v.onto f (.ofBool (!a.truth) :: stack))
    | _ => .fault .stackUnderflow
  | .jump j => .branch j v
  | .jumpFalse j =>
    match v.stack with
    | a :: stack =>
      if a.truth then .go (v.onto f stack) else .branch j { v with stack := stack }
    | _ => .fault .stackUnderflow
  | .call k => v.call f k
  | .ret false => .go (v.leave f v.stack none)
  | .ret true =>
    match v.stack with
    | a :: stack => .go (v.leave f stack (some a))
    | _ => .fault .stackUnderflow
  | .new k => v.create f k
  | .newArray elem =>
    match v.stack with
    | n :: stack =>
      match makeArray v.heap elem n.toInt with
      | .ok (h, a) => .go { v.onto f (a :: stack) with heap := h }
      | .error c => .fault c
    | _ => .fault .stackUnderflow
  | .print =>
    match v.stack with
    | a :: stack => .go { v.onto f stack with output := v.output ++ (v.heap.format a ++ "\n") }
    | _ => .fault .stackUnderflow

/-! ## What the machine does -/

/-- The stack or the frames overflow. -/
def Cause.Overflow (c : Cause) : Prop := c = .stackOverflow ∨ c = .frameOverflow

/-- The stack overflows and has `height` values, or the frames do and there are `frames` of them. -/
def NoRoom (frames height : Nat) (c : Cause) : Prop :=
  (c = .stackOverflow ∧ stackDepth ≤ height) ∨ (c = .frameOverflow ∧ maxFrames ≤ frames)

variable {c : Cause} {frames height : Nat}

theorem NoRoom.overflow (h : NoRoom frames height c) : c.Overflow :=
  h.imp And.left And.left

theorem NoRoom.mono {frames' height' : Nat} (h : NoRoom frames height c)
    (hframes : frames ≤ frames') (hheight : height ≤ height') : NoRoom frames' height' c :=
  h.imp (fun ⟨hc, hle⟩ ↦ ⟨hc, Nat.le_trans hle hheight⟩) fun ⟨hc, hle⟩ ↦
  ⟨hc, Nat.le_trans hle hframes⟩

/-- There is no room left in view of `v`. -/
def View.Full (v : View) (c : Cause) : Prop := NoRoom v.frames.length v.stack.length c

theorem View.Full.overflow {v : View} (h : v.Full c) : c.Overflow := NoRoom.overflow h

/-- The view in the frame `f` at another place of its code. -/
def View.jumped (v : View) (f : Frame) (ip : Nat) : View :=
  { v with frames := some { f with ip := ip } :: v.frames.tail }

/-- A state in which the effect has taken place, where `dest` relates the targets of branches to
offsets. -/
def Effect.Done (dest : Nat → Nat → Prop) (f : Frame) (t : State) : Effect → Prop
  | go v => t.Shows v
  | branch j v => ∃ off, dest j off ∧ t.Shows (v.jumped f off)
  | fault _ => False

/-- A fault that the effect allows in view of `v`: its own, or an overflow if there is no room. -/
def Effect.Failed (v : View) (c : Cause) (t : State) (e : Effect) : Prop :=
  (e = .fault c ∧ t.heap = v.heap ∧ t.output = v.output) ∨
    (v.Full c ∧ t.output = v.output ∧ (t.heap = v.heap ∨ ∃ w, e = .go w ∧ t.heap = w.heap))

/-- What frames and stack look like when the instruction `x` has failed in the frame `f`. -/
inductive Fallen (v : View) (f : Frame) (x : Instr) (c : Cause) (t : State) : Prop where
  /-- Nothing is gone but operands. -/
  | taking (hframes : t.frames.contents = v.frames)
      (hstack : v.stack.drop x.arity <:+ t.stack.contents)
      (hc : effect v f x = .fault c ∨ c = .stackOverflow)
  /-- A call or a construction has moved on before it finds that there is no room for another
  frame. -/
  | entering (hx : (∃ k, x = .call k) ∨ ∃ k, x = .new k) (hc : c = .frameOverflow)
      (hframes : t.frames.contents = some f.next :: v.frames.tail)
      (hstack : t.stack.contents = v.stack)
  /-- A return has dropped its frame before it finds that there is no room for its results. -/
  | leaving {b top stack} (hx : x = .ret b) (hc : c = .stackOverflow)
      (hframes : t.frames.contents = v.frames.tail) (hrest : stack = v.stack.drop x.arity)
      (hstack : t.stack.contents = top ++ stack.drop (stack.length - f.base))
      (htop : top.length ≤ 1) (hfull : stackDepth ≤ t.stack.contents.length)

/-- `g` started in `s` does what the effect `e` says, in view of `v`. -/
def Follows (dest : Nat → Nat → Prop) (v : View) (f : Frame) (g : Exec Unit) (s : State)
    (e : Effect) : Prop :=
  Does g s (fun _ t ↦ e.Done dest f t) (fun c t ↦ e.Failed v c t)

/-- A fault of `x` that its effect allows, and what it leaves behind. -/
def Fails (v : View) (f : Frame) (x : Instr) (c : Cause) (t : State) : Prop :=
  (effect v f x).Failed v c t ∧ Fallen v f x c t

/-- `g` started in `s` does what the instruction `x` does. -/
def Performs (dest : Nat → Nat → Prop) (v : View) (f : Frame) (g : Exec Unit) (s : State)
    (x : Instr) : Prop :=
  Does g s (fun _ t ↦ (effect v f x).Done dest f t) (Fails v f x)

/-- The machine looks like `v` but for values that the instruction `x` has taken from the stack, of
which it may take `n` more. -/
structure State.Takes (s : State) (v : View) (x : Instr) (n : Nat) (stack : List Value) : Prop where
  shows : s.Shows { v with stack := stack }
  le : n ≤ x.arity
  rest : stack = v.stack.drop (x.arity - n)

/-- A stack that has not grown, and on which all is left that the instruction `x` does not take. -/
def View.Keeps (v : View) (x : Instr) (stack : List Value) : Prop :=
  stack.length ≤ v.stack.length ∧ v.stack.drop x.arity <:+ stack

/-- `g` started in `s` does what the instruction `x` does, but for the step to the next
instruction. -/
def Prepares (v : View) (f : Frame) (g : Exec Unit) (s : State) (x : Instr) : Prop :=
  Does g s (fun _ t ↦ ∃ w, w.frames = v.frames ∧ effect v f x = .go (w.onto f w.stack) ∧
    t.Shows w) (Fails v f x)

variable {E : Cause → State → Prop} {a : Value} {β : Type} {h : Heap} {elem : Ty} {j : Nat}
  {b : Bool}

section Execute

variable {α : Type} {s : State} {v w : View} {f : Frame} {below : List (Option Frame)}
  {dest : Nat → Nat → Prop} {x : Instr} {arg n : Nat} {stack : List Value} {Q : α → State → Prop}
  {k : β → Exec α}

attribute [local simp] effect

theorem effect_underflow (h : v.stack.length < x.arity) :
    effect v f x = .fault .stackUnderflow := by
  fun_cases Instr.arity x <;> rcases hst : v.stack with _ | ⟨c, _ | ⟨b, _ | ⟨a, rest⟩⟩⟩ <;>
    simp_all [Instr.arity]
  all_goals omega

theorem State.Shows.takes (hs : s.Shows v) : s.Takes v x x.arity v.stack :=
  ⟨hs, Nat.le_refl _, by rw [Nat.sub_self, List.drop_zero]⟩

theorem State.Takes.keeps (hs : s.Takes v x n stack) : v.Keeps x stack := by
  refine ⟨hs.rest ▸ (List.drop_suffix _ _).length_le, ?_⟩
  rw [hs.rest]
  nth_rewrite 1 [← Nat.sub_add_cancel hs.le]
  rw [← List.drop_drop]
  exact List.drop_suffix _ _

theorem fails_of_fault (hs : s.Takes v x n stack) (he : effect v f x = .fault c) :
    Fails v f x c s :=
  ⟨.inl ⟨he, hs.shows.heap, hs.shows.output⟩,
    .taking hs.shows.frames (hs.shows.stack ▸ hs.keeps.2) (.inl he)⟩

/-- A stack that has not grown overflows before anything else has changed. -/
theorem fails_of_full (hs : s.Shows { v with stack := stack }) (hkeeps : v.Keeps x stack)
    (hfull : stackDepth ≤ stack.length) : Fails v f x .stackOverflow s :=
  ⟨.inr ⟨.inl ⟨rfl, Nat.le_trans hfull hkeeps.1⟩, hs.output, .inl hs.heap⟩,
    .taking hs.frames (hs.stack ▸ hkeeps.2) (.inr rfl)⟩

theorem View.length_onto (hv : v.frames = some f :: below) :
    (v.onto f stack).frames.length = v.frames.length := by
  rw [View.onto, hv]
  rfl

theorem advance_does (hs : s.Shows v) (hv : v.frames = some f :: below) :
    Does advance s (fun _ t ↦ t.Shows (v.onto f v.stack)) E := by
  refine (modifyFrame_does hs hv).imp fun _ t ht ↦ ?_
  rw [View.onto, hv]
  exact ht

theorem Prepares.advance {g : Exec Unit} (h : Prepares v f g s x)
    (hv : v.frames = some f :: below) : Performs dest v f (g >>= fun _ ↦ advance) s x := by
  refine Does.bind h fun _ t ⟨w, hw, he, ht⟩ ↦ (advance_does ht (hw.trans hv)).imp fun _ u hu ↦ ?_
  rw [he]
  exact hu

theorem push_prepares (hs : s.Shows { v with stack := stack }) (hkeeps : v.Keeps x stack)
    (he : effect v f x = .go (v.onto f (a :: stack))) : Prepares v f (push a) s x :=
  (push_does hs (fails_of_full hs hkeeps)).imp fun _ _ ht ↦
  ⟨{ v with stack := a :: stack }, rfl, he, ht⟩

theorem State.Takes.push (hs : s.Takes v x n stack)
    (he : effect v f x = .go (v.onto f (a :: stack))) :
    Prepares v f (push a) s x := push_prepares hs.shows hs.keeps he

theorem popping_does {g : Value → Exec α} (hs : s.Takes v x (n + 1) stack)
    (hcons : ∀ (a : Value) (rest : List Value) (t : State), stack = a :: rest →
      t.Takes v x n rest → Does (g a) t Q (Fails v f x)) : Does (pop >>= g) s Q (Fails v f x) := by
  have hle := hs.le
  cases hst : stack with
  | nil =>
    refine Does.pop_nil_bind hs.shows hst (fails_of_fault hs (effect_underflow ?_))
    have hlength := List.drop_eq_nil_iff.1 (hs.rest.symm.trans hst)
    omega
  | cons a rest =>
    refine Does.pop_bind hs.shows hst fun t ht ↦ hcons a rest t hst ⟨ht, Nat.le_of_succ_le hle, ?_⟩
    have hnext : x.arity - n = x.arity - (n + 1) + 1 := by omega
    rw [hnext, ← List.drop_drop, ← hs.rest, hst, List.drop_one, List.tail_cons]

theorem popNumbers_does (hs : s.Takes v x 2 v.stack)
    (hnumbers : ∀ b a rest, v.stack = b :: a :: rest → numbers a b = .error .notNumeric →
      effect v f x = .fault .notNumeric) :
    Does popNumbers s (fun p t ↦ ∃ b a rest, v.stack = b :: a :: rest ∧ numbers a b = .ok () ∧
      p = (a, b) ∧ t.Takes v x 0 rest) (Fails v f x) := by
  refine popping_does hs fun b rest t hst ht ↦ popping_does ht fun a rest u hst' hu ↦ ?_
  rw [hst'] at hst
  by_cases hnum : a.tag.isNumeric && b.tag.isNumeric
  · have hok : numbers a b = .ok () := by rw [numbers, if_pos hnum]
    rw [hnum]
    exact does_pure ⟨b, a, rest, hst, hok, rfl, hu⟩
  · have herror : numbers a b = .error .notNumeric := by rw [numbers, if_neg hnum]
    rw [Bool.not_eq_true] at hnum
    rw [hnum]
    exact Does.fault_bind (fails_of_fault hu (hnumbers b a rest hst herror))

/-- A step that only looks at the state is followed by others. -/
theorem Does.of_eq_bind {g : Exec β} {b : β} (hg : g s = .ok b s) (h : Does (k b) s Q E) :
    Does (g >>= k) s Q E :=
  (does_of_eq (Q := fun b' t ↦ b' = b ∧ t = s) hg ⟨rfl, rfl⟩).bind fun _ _ ⟨hb, ht⟩ ↦ hb ▸ ht ▸ h

theorem Does.of_fault_bind {g : Exec β} (hg : g s = .error (.fault c) s) (h : E c s) :
    Does (g >>= k) s Q E :=
  (does_of_fault (Q := fun _ _ ↦ False) hg h).bind fun _ _ hf ↦ hf.elim

theorem object_does {o : Value} {g : Nat → ObjectCell → Exec α} (hs : s.Takes v x n stack)
    (hfault : ∀ c, objectAt v.heap o = .error c → effect v f x = .fault c)
    (hok : ∀ addr cell, objectAt v.heap o = .ok (addr, cell) →
      Does (g addr cell) s Q (Fails v f x)) :
    Does (objectOf o >>= fun addr ↦ objectCell addr >>= fun c ↦ g addr c) s Q (Fails v f x) := by
  have hheap : s.heap = v.heap := hs.shows.heap
  cases ho : o.payload with
  | object addr =>
    rw [objectOf, ho]
    show Does (objectCell addr >>= fun c ↦ g addr c) s Q _
    cases hcell : v.heap.objects[addr]? with
    | some cell =>
      have hget : objectCell addr s = .ok cell s := by
        rw [objectCell, get_bind, hheap, hcell]
        rfl
      exact Does.of_eq_bind hget (hok addr cell (by simp [objectAt, ho, hcell]))
    | none =>
      have hget : objectCell addr s = .error (.fault .nullReference) s := by
        rw [objectCell, get_bind, hheap, hcell]
        rfl
      exact Does.of_fault_bind hget (fails_of_fault hs (hfault _ (by simp [objectAt, ho, hcell])))
  | none | text _ | array _ | foreign _ _ =>
    rw [objectOf, ho]
    exact Does.fault_bind (fails_of_fault hs (hfault _ (by simp [objectAt, ho])))

theorem item_does {index : Int64} {g : Nat × Nat → Exec α} (hs : s.Takes v x n stack)
    (hfault : ∀ c, itemAt v.heap a index = .error c → effect v f x = .fault c)
    (hok : ∀ addr i, itemAt v.heap a index = .ok (addr, i) → Does (g (addr, i)) s Q (Fails v f x)) :
    Does (itemOf a index >>= g) s Q (Fails v f x) := by
  have hheap : s.heap = v.heap := hs.shows.heap
  cases ha : a.payload with
  | array addr =>
    cases hcell : v.heap.arrays[addr]? with
    | some cell =>
      by_cases hi : index < 0 || (cell.items.size : Int) ≤ index.toInt
      · have hitem : itemOf a index s = .error (.fault (.itemIndex index cell.items.size)) s := by
          simp only [itemOf, ha, get_bind, hheap, hcell, hi, if_true]
          rfl
        exact Does.of_fault_bind hitem
          (fails_of_fault hs (hfault _ (by simp [itemAt, ha, hcell, hi])))
      · have hitem : itemOf a index s = .ok (addr, index.toInt.toNat) s := by
          simp only [itemOf, ha, get_bind, hheap, hcell, hi]
          rfl
        exact Does.of_eq_bind hitem (hok _ _ (by simp [itemAt, ha, hcell, hi]))
    | none =>
      have hitem : itemOf a index s = .error (.fault .nullReference) s := by
        simp only [itemOf, ha, get_bind, hheap, hcell]
        rfl
      exact Does.of_fault_bind hitem (fails_of_fault hs (hfault _ (by simp [itemAt, ha, hcell])))
  | none | text _ | object _ | foreign _ _ =>
    have hitem : itemOf a index s = .error (.fault .nullReference) s := by
      rw [itemOf, ha]
      rfl
    exact Does.of_fault_bind hitem (fails_of_fault hs (hfault _ (by simp [itemAt, ha])))

theorem newArray_does (hs : s.Shows { v with stack := stack }) :
    Does (newArray elem n) s (fun b t ↦ b = .ofArray v.heap.arrays.size ∧
      t.Shows { v with stack := stack, heap := v.heap.addArray (Heap.freshArray elem n) }) E := by
  have hheap : s.heap = v.heap := hs.heap
  refine does_of_eq rfl ⟨by rw [hheap], hs.frames, hs.stack, ?_, hs.output, hs.host⟩
  exact congrArg (·.addArray (Heap.freshArray elem n)) hheap

theorem jumpTo_performs (hdest : dest j arg) (hs : s.Shows { v with stack := stack })
    (hv : v.frames = some f :: below) (he : effect v f x = .branch j { v with stack := stack }) :
    Performs dest v f (jumpTo arg) s x := by
  refine (modifyFrame_does hs hv).imp fun _ t ht ↦ ?_
  rw [he]
  refine ⟨arg, hdest, ?_⟩
  rw [View.jumped, hv]
  exact ht

theorem owner_does {g : ClassRef → Exec α} (hs : s.Shows v)
    (hnone : f.routine.owner = none → effect v f x = .fault .missing)
    (hsome : ∀ c, f.routine.owner = some c → Does (g c) s Q (Fails v f x)) :
    Does (ownerOf f.routine >>= g) s Q (Fails v f x) := by
  rw [ownerOf]
  cases howner : f.routine.owner with
  | none => exact Does.fault_bind (fails_of_fault hs.takes (hnone howner))
  | some c => exact hsome c howner

/-- The caller has moved on, and the callee is entered. -/
theorem enter_performs {routine : Routine} {this : Option Nat} {constructs : Bool}
    (hx : (∃ k, x = .call k) ∨ ∃ k, x = .new k) (hs : s.Shows { v.onto f v.stack with heap := h })
    (hv : v.frames = some f :: below)
    (he : effect v f x = .go { v.enter f routine this constructs with heap := h }) :
    Performs dest v f (enter routine this constructs) s x := by
  have hfull (hle : maxFrames ≤ (v.onto f v.stack).frames.length) :
      Fails v f x .frameOverflow s := by
    rw [View.length_onto hv] at hle
    exact ⟨.inr ⟨.inr ⟨rfl, hle⟩, hs.output, .inr ⟨_, he, hs.heap⟩⟩,
      .entering hx rfl hs.frames hs.stack⟩
  refine (enter_does hs hfull).imp fun _ t ht ↦ ?_
  rw [he]
  exact ht

/-- The active frame is dropped with its part of the stack, and then `g` follows. -/
theorem cut_bind {g : PUnit → Exec Unit} {Q : Unit → State → Prop}
    (hs : s.Shows { v with stack := stack }) (hv : v.frames = some f :: below)
    (hg : ∀ t, t.Shows { v with frames := below, stack := stack.drop (stack.length - f.base) } →
      Does (g ⟨⟩) t Q E) :
    Does (modify (fun s ↦ { s with stack := s.stack.dropTo f.base }) >>= fun _ ↦ leave >>= g)
      s Q E := by
  have hcut : State.Shows { s with stack := s.stack.dropTo f.base }
      { v with stack := stack.drop (stack.length - f.base) } :=
    ⟨hs.frames, by rw [Slots.contents_dropTo, hs.stack], hs.heap, hs.output, hs.host⟩
  exact Does.modify_bind ((leave_does hcut hv).bind fun _ t ht ↦ hg t ht)

/-- There is no room for a result when the frame has been dropped. -/
theorem fails_of_leaving (top : List Value) (hrest : stack = v.stack.drop (Instr.ret b).arity)
    (hs : s.Shows
      { v with frames := v.frames.tail, stack := top ++ stack.drop (stack.length - f.base) })
    (htop : top.length ≤ (Instr.ret b).arity) (hle : top.length + stack.length ≤ v.stack.length)
    (hfull : stackDepth ≤ (top ++ stack.drop (stack.length - f.base)).length) :
    Fails v f (.ret b) .stackOverflow s := by
  have hone : (Instr.ret b).arity ≤ 1 := by cases b <;> decide
  refine ⟨.inr ⟨.inl ⟨rfl, ?_⟩, hs.output, .inl hs.heap⟩,
    .leaving rfl rfl hs.frames hrest hs.stack (Nat.le_trans htop hone) (hs.stack ▸ hfull)⟩
  rw [List.length_append, List.length_drop] at hfull
  omega

/-- A constructor gives its object to the caller, after the result if there is one. -/
theorem pushSelf_performs {r : Option Value} (hrest : stack = v.stack.drop (Instr.ret b).arity)
    (hs : s.Shows
      { v with frames := v.frames.tail, stack := r.toList ++ stack.drop (stack.length - f.base) })
    (htop : r.toList.length ≤ (Instr.ret b).arity)
    (hle : r.toList.length + stack.length ≤ v.stack.length)
    (he : effect v f (.ret b) = .go (v.leave f stack r)) :
    Performs dest v f (if f.constructs then push f.self else pure ()) s (.ret b) := by
  cases hc : f.constructs with
  | true =>
    refine (push_does hs (fails_of_leaving _ hrest hs htop hle)).imp fun _ t ht ↦ ?_
    rw [he, View.leave, hc]
    exact ht
  | false =>
    refine does_pure ?_
    rw [he, View.leave, hc]
    exact hs

variable (hs : s.Shows v) (hv : v.frames = some f :: below)

include hs hv

theorem execute_dup : Performs dest v f (execute f .dup arg) s .dup := by
  refine popping_does hs.takes fun a rest t hst ht ↦ ?_
  refine Does.push_bind ht.shows (fails_of_full ht.shows ht.keeps) fun u hu ↦ ?_
  exact (push_prepares (v := v) hu ⟨by simp [hst], by simp [Instr.arity, hst]⟩
    (by simp [hst])).advance hv

theorem execute_swap : Performs dest v f (execute f .swap arg) s .swap := by
  refine popping_does hs.takes fun b rest t hst ht ↦ popping_does ht fun a rest u hst' hu ↦ ?_
  refine Does.push_bind hu.shows (fails_of_full hu.shows hu.keeps) fun w hw ↦ ?_
  have hkeeps : v.Keeps .swap (b :: rest) := ⟨by simp [hst, hst'], by simp [Instr.arity, hst, hst']⟩
  exact (push_prepares (v := v) hw hkeeps (by simp [hst, hst'])).advance hv

theorem execute_pushLocal : Performs dest v f (execute f .pushLocal arg) s (.pushLocal arg) := by
  cases hk : f.locals.toArray[arg]? with
  | some a => exact Does.entry_bind hk ((hs.takes.push (by simp [hk])).advance hv)
  | none => exact Does.entry_none_bind hk (fails_of_fault hs.takes (by simp [hk]))

theorem execute_popLocal : Performs dest v f (execute f .popLocal arg) s (.popLocal arg) := by
  refine popping_does hs.takes fun a rest t hst ht ↦ ?_
  by_cases hk : arg < maxLocals
  · rw [dif_pos hk]
    refine (modifyFrame_does ht.shows hv).imp fun _ u hu ↦ ?_
    have he : effect v f (.popLocal arg) =
        .go (v.onto { f with locals := f.locals.set arg a hk } rest) := by simp [hst, hk]
    rw [he, View.onto, hv]
    exact hu
  · rw [dif_neg hk]
    exact does_fault (fails_of_fault ht (by simp [hst, hk]))

theorem execute_convert {a : Ty} (ha : f.routine.code.types[arg]? = some a) :
    Performs dest v f (execute f .convert arg) s (.convert a) := by
  refine popping_does hs.takes fun b rest t hst ht ↦ Does.entry_bind ha (Does.get_bind ?_)
  have hheap : t.heap = v.heap := ht.shows.heap
  rw [hheap]
  cases hc : v.heap.convert? b a with
  | none => exact Does.fault_bind (fails_of_fault ht (by simp [hst, converted?, hc, View.result]))
  | some c => exact (ht.push (by simp [hst, converted?, hc, View.result])).advance hv

theorem execute_loadField : Performs dest v f (execute f .loadField arg) s (.loadField arg) := by
  refine Prepares.advance (popping_does hs.takes fun o rest t hst ht ↦ ?_) hv
  have heffect : effect v f (.loadField arg) = v.result f rest (readField v.heap o arg) := by
    simp [hst]
  refine object_does ht (fun c hc ↦ ?_) fun addr cell hcell ↦ ?_
  · rw [heffect, readField_of_error hc]
    rfl
  · cases ha : cell.fields[arg]? with
    | some a =>
      refine Does.entry_bind ha (ht.push ?_)
      rw [heffect, readField_of_field hcell ha]
      rfl
    | none =>
      refine Does.entry_none_bind ha (fails_of_fault ht ?_)
      rw [heffect, readField_of_none hcell ha]
      rfl

theorem execute_storeField : Performs dest v f (execute f .storeField arg) s (.storeField arg) := by
  refine Prepares.advance (popping_does hs.takes fun a rest t hst ht ↦
    popping_does ht fun o rest u hst' hu ↦ ?_) hv
  have heffect : effect v f (.storeField arg) = v.update f rest (writeField v.heap o arg a) := by
    simp [hst, hst']
  refine object_does hu (fun c hc ↦ ?_) fun addr cell hcell ↦ ?_
  · rw [heffect, writeField_of_error hc]
    rfl
  · by_cases hk : cell.fields.size ≤ arg
    · rw [if_pos hk]
      refine Does.fault_bind (fails_of_fault hu ?_)
      rw [heffect, writeField_of_le hcell hk]
      rfl
    · rw [if_neg hk]
      refine does_of_eq rfl ⟨{ v with stack := rest, heap := v.heap.setField addr arg a },
        rfl, ?_, ?_⟩
      · rw [heffect, writeField_of_lt hcell (Nat.lt_of_not_le hk)]
        rfl
      · exact { hu.shows with heap := congrArg (·.setField addr arg a) hu.shows.heap }

theorem execute_loadItem : Performs dest v f (execute f .loadItem arg) s .loadItem := by
  refine Prepares.advance (popping_does hs.takes fun i rest t hst ht ↦
    popping_does ht fun a rest u hst' hu ↦ ?_) hv
  have heffect : effect v f .loadItem = v.result f rest (readItem v.heap a i.toInt) := by
    simp [hst, hst']
  refine item_does hu (fun c hc ↦ by rw [heffect, readItem_of_error hc]; rfl) fun addr k hk ↦
    Does.get_bind ?_
  have hheap : u.heap = v.heap := hu.shows.heap
  rw [hheap]
  cases hb : v.heap.arrays[addr]?.bind (·.items[k]?) with
  | some b =>
    refine hu.push ?_
    rw [heffect, readItem_of_item hk hb]
    rfl
  | none =>
    refine does_fault (fails_of_fault hu ?_)
    rw [heffect, readItem_of_none hk hb]
    rfl

theorem execute_storeItem : Performs dest v f (execute f .storeItem arg) s .storeItem := by
  refine Prepares.advance (popping_does hs.takes fun b rest t hst ht ↦
    popping_does ht fun i rest u hst' hu ↦ popping_does hu fun a rest w hst'' hw ↦ ?_) hv
  have heffect : effect v f .storeItem = v.update f rest (writeItem v.heap a i.toInt b) := by
    simp [hst, hst', hst'']
  refine item_does hw (fun c hc ↦ by rw [heffect, writeItem_of_error hc]; rfl) fun addr k hk ↦ ?_
  refine does_of_eq rfl ⟨{ v with stack := rest, heap := v.heap.setItem addr k b }, rfl, ?_, ?_⟩
  · rw [heffect, writeItem_of_ok hk]
    rfl
  · exact { hw.shows with heap := congrArg (·.setItem addr k b) hw.shows.heap }

theorem execute_newArray (ha : f.routine.code.types[arg]? = some (.array elem)) :
    Performs dest v f (execute f .newArray arg) s (.newArray elem) := by
  refine Prepares.advance (popping_does hs.takes fun n rest t hst ht ↦ ?_) hv
  by_cases hneg : n.toInt.toInt < 0
  · rw [if_pos hneg]
    exact Does.fault_bind (fails_of_fault ht (by simp [hst, makeArray, hneg]))
  rw [if_neg hneg]
  by_cases hbig : (maxArrayLength : Int) < n.toInt.toInt
  · rw [if_pos hbig]
    exact Does.fault_bind (fails_of_fault ht (by simp [hst, makeArray, hneg, hbig]))
  rw [if_neg hbig]
  refine Does.entry_bind ha ?_
  have hmade : makeArray v.heap elem n.toInt =
      .ok (v.heap.addArray (Heap.freshArray elem n.toInt.toInt.toNat),
        .ofArray v.heap.arrays.size) := by
    rw [makeArray, if_neg hneg, if_neg hbig]
  have heffect : effect v f (.newArray elem) =
      .go { v.onto f (.ofArray v.heap.arrays.size :: rest) with
        heap := v.heap.addArray (Heap.freshArray elem n.toInt.toInt.toNat) } := by
    simp [hst, hmade]
  refine Does.bind (newArray_does ht.shows) fun b u ⟨hb, hu⟩ ↦ ?_
  rw [hb]
  have hkeeps : v.Keeps (.newArray elem) rest := ht.keeps
  have hfull (hfull : stackDepth ≤ rest.length) : Fails v f (.newArray elem) .stackOverflow u :=
    ⟨.inr ⟨.inl ⟨rfl, Nat.le_trans hfull hkeeps.1⟩, hu.output, .inr ⟨_, heffect, hu.heap⟩⟩,
      .taking hu.frames (hu.stack ▸ hkeeps.2) (.inr rfl)⟩
  let w : View := { v with
    stack := .ofArray v.heap.arrays.size :: rest
    heap := v.heap.addArray (Heap.freshArray elem n.toInt.toInt.toNat) }
  exact (push_does hu hfull).imp fun _ t ht ↦ ⟨w, rfl, heffect, ht⟩

theorem execute_intArith {op : Arith} :
    Performs dest v f (execute f (.intArith op) arg) s (.intArith op) := by
  refine (popNumbers_does hs.takes fun b a rest hst hnum ↦ ?_).bind fun _ t ⟨b, a, rest, hst, hnum,
    hp, ht⟩ ↦ ?_
  · simp [hst, intResult, hnum, View.result, bind, Except.bind]
  · rw [hp]
    dsimp only
    cases hr : intArith op a.toInt b.toInt with
    | none =>
      refine Does.fault_bind (fails_of_fault ht ?_)
      simp [hst, intResult, hnum, hr, View.result, bind, Except.bind, throw, throwThe,
        MonadExceptOf.throw]
    | some r =>
      refine (ht.push ?_).advance hv
      simp [hst, intResult, hnum, hr, View.result, bind, Except.bind, pure, Except.pure]

theorem execute_floatArith {op : Arith} {single : Bool} (harg : arg = if single then 1 else 0) :
    Performs dest v f (execute f (.floatArith op) arg) s (.floatArith op single) := by
  refine (popNumbers_does hs.takes fun b a rest hst hnum ↦ ?_).bind fun _ t ⟨b, a, rest, hst, hnum,
    hp, ht⟩ ↦ ?_
  · simp [hst, floatResult, hnum, View.result, bind, Except.bind]
  · rw [hp]
    refine (ht.push ?_).advance hv
    cases single <;>
      simp [hst, floatResult, hnum, View.result, bind, Except.bind, pure, Except.pure, harg]

theorem execute_test {test : Test} : Performs dest v f (execute f test.op arg) s (.test test) := by
  cases test with
  | equal | unequal =>
    refine popping_does hs.takes fun b rest t hst ht ↦ popping_does ht fun a rest u hst' hu ↦
      (hu.push ?_).advance hv
    simp [hst, hst', testResult, View.result, Functor.map, Except.map]
  | greater | less =>
    refine (popNumbers_does hs.takes fun b a rest hst hnum ↦ ?_).bind fun _ t ⟨b, a, rest, hst,
      hnum, hp, ht⟩ ↦ ?_
    · simp [hst, testResult, hnum, View.result, bind, Except.bind, Functor.map, Except.map]
    · rw [hp]
      refine (ht.push ?_).advance hv
      simp [hst, testResult, hnum, View.result, bind, Except.bind, pure, Except.pure, Functor.map,
        Except.map]

theorem execute_not : Performs dest v f (execute f .not arg) s .not :=
  popping_does hs.takes fun a rest t hst ht ↦ (ht.push (by simp [hst])).advance hv

/-! ### Control -/

theorem execute_jumpFalse (hdest : dest j arg) :
    Performs dest v f (execute f .jumpFalse arg) s (.jumpFalse j) := by
  refine popping_does hs.takes fun a rest t hst ht ↦ ?_
  by_cases ha : a.truth = true
  · rw [if_pos ha]
    refine (advance_does ht.shows hv).imp fun _ u hu ↦ ?_
    have he : effect v f (.jumpFalse j) = .go (v.onto f rest) := by simp [hst, ha]
    rw [he]
    exact hu
  · rw [if_neg ha]
    exact jumpTo_performs hdest ht.shows hv (by simp [hst, ha])

theorem execute_print : Performs dest v f (execute f .hostCall 0) s .print := by
  have hhost : s.host[0]? = some .print := by rw [hs.host]; rfl
  refine Does.get_bind ?_
  rw [hhost]
  refine Prepares.advance (popping_does hs.takes fun a rest t hst ht ↦ Does.get_bind ?_) hv
  have hheap : t.heap = v.heap := ht.shows.heap
  have houtput : t.output = v.output := ht.shows.output
  refine does_of_eq rfl
    ⟨{ v with stack := rest, output := v.output ++ (v.heap.format a ++ "\n") }, rfl, ?_,
      { ht.shows with output := ?_ }⟩
  · simp [hst, View.onto]
  · show t.output ++ (t.heap.format a ++ "\n") = _
    rw [hheap, houtput]

theorem execute_call : Performs dest v f (execute f .call arg) s (.call arg) := by
  refine owner_does hs (fun h ↦ by simp [View.call, h]) fun owner howner ↦ ?_
  cases hcallee : owner.get.methods[arg]? with
  | none =>
    exact Does.entry_none_bind hcallee
      (fails_of_fault hs.takes (by simp [View.call, howner, hcallee]))
  | some callee =>
    refine Does.entry_bind hcallee ?_
    by_cases habs : callee.isAbstract = true
    · rw [if_pos habs]
      exact Does.fault_bind (fails_of_fault hs.takes (by simp [View.call, howner, hcallee, habs]))
    · rw [if_neg habs]
      refine (advance_does hs hv).bind fun _ t ht ↦ ?_
      exact enter_performs (.inl ⟨arg, rfl⟩) ht hv (by simp [View.call, howner, hcallee, habs]; rfl)

theorem execute_new : Performs dest v f (execute f .new arg) s (.new arg) := by
  refine owner_does hs (fun h ↦ by simp [View.create, h]) fun owner howner ↦ ?_
  dsimp only
  cases hcls : owner.home.classAt? arg with
  | none =>
    exact does_fault (fails_of_fault hs.takes (by simp [View.create, howner, hcls]))
  | some cls =>
    dsimp only
    by_cases habs : cls.get.isAbstract = true
    · rw [if_pos habs]
      exact Does.fault_bind (fails_of_fault hs.takes (by simp [View.create, howner, hcls, habs]))
    rw [if_neg habs]
    cases hcode : cls.get.constructors[0]? with
    | none =>
      exact does_fault (fails_of_fault hs.takes (by simp [View.create, howner, hcls, habs, hcode]))
    | some code =>
      have heffect : effect v f (.new arg) =
          .go { v.enter f ⟨code, some cls⟩ (some v.heap.objects.size) true with
            heap := v.heap.addObject (Heap.freshObject cls) } := by
        simp [View.create, howner, hcls, habs, hcode]
      refine (advance_does hs hv).bind fun _ t ht ↦ ?_
      have hheap : t.heap = v.heap := ht.heap
      have hnew : newObject cls t = .ok v.heap.objects.size
          { t with heap := v.heap.addObject (Heap.freshObject cls) } := by
        rw [newObject, hheap]
      refine Does.bind (P := fun b u ↦ b = v.heap.objects.size ∧ u.Shows
          { v.onto f v.stack with heap := v.heap.addObject (Heap.freshObject cls) })
        (does_of_eq hnew ⟨rfl, { ht with heap := rfl }⟩) ?_
      rintro _ u ⟨rfl, hu⟩
      exact enter_performs (.inr ⟨arg, rfl⟩) hu hv heffect

theorem execute_ret (withResult : Bool) :
    Performs dest v f (execute f .ret (if withResult then 1 else 0)) s (.ret withResult) := by
  obtain rfl : below = v.frames.tail := by rw [hv, List.tail_cons]
  cases withResult with
  | false =>
    refine Does.bind (P := fun r t ↦ r = none ∧ t = s) (does_pure ⟨rfl, rfl⟩) ?_
    rintro _ _ ⟨rfl, rfl⟩
    have hrest : v.stack = v.stack.drop (Instr.ret false).arity := rfl
    exact cut_bind hs hv fun t ht ↦
      pushSelf_performs (r := none) hrest ht (Nat.zero_le _) (by simp) rfl
  | true =>
    refine Does.bind (P := fun r t ↦ ∃ a rest, v.stack = a :: rest ∧ r = some a ∧
      t.Takes v (.ret true) 0 rest) ?_ ?_
    · exact popping_does (g := fun a ↦ pure (some a)) hs.takes fun a rest t hst ht ↦
        does_pure ⟨a, rest, hst, rfl, ht⟩
    rintro _ t ⟨a, rest, hst, rfl, ht⟩
    refine cut_bind ht.shows hv fun u hu ↦ ?_
    refine Does.push_bind hu (fails_of_leaving [] ht.rest hu (Nat.zero_le _) (by simp [hst]))
      fun w hw ↦ ?_
    exact pushSelf_performs (r := some a) ht.rest hw (Nat.le_refl 1) (by simp [hst, Nat.add_comm])
      (by simp [hst])

/-- **What an instruction does.**  Executing the operation of `x` with an argument that refers to
what `x` names does what the effect of `x` says. -/
theorem execute_performs (hx : x.Refers f.routine.code.consts f.routine.code.types dest arg) :
    Performs dest v f (execute f x.op arg) s x := by
  cases x with
  | const a => exact Does.entry_bind hx ((hs.takes.push rfl).advance hv)
  | pushLocal k => exact hx ▸ execute_pushLocal hs hv
  | popLocal k => exact hx ▸ execute_popLocal hs hv
  | this => exact (hs.takes.push rfl).advance hv
  | dup => exact execute_dup hs hv
  | swap => exact execute_swap hs hv
  | convert t => exact execute_convert hs hv hx
  | loadField i => exact hx ▸ execute_loadField hs hv
  | storeField i => exact hx ▸ execute_storeField hs hv
  | loadItem => exact execute_loadItem hs hv
  | storeItem => exact execute_storeItem hs hv
  | intArith op => exact execute_intArith hs hv
  | floatArith op single => exact execute_floatArith hs hv hx
  | test t => exact execute_test hs hv
  | not => exact execute_not hs hv
  | jump j => exact jumpTo_performs hx hs hv rfl
  | jumpFalse j => exact execute_jumpFalse hs hv hx
  | call k => exact hx ▸ execute_call hs hv
  | ret withResult => exact hx ▸ execute_ret hs hv withResult
  | new k => exact hx ▸ execute_new hs hv
  | newArray t => exact execute_newArray hs hv hx
  | print => exact hx ▸ execute_print hs hv

/-- **What a step does.**  A machine that stands at a word that it reads as `x` does what `x`
does. -/
theorem step_performs (hx : f.routine.code.Reads dest f.ip x) : Performs dest v f step s x := by
  obtain ⟨w, hw, hop, harg⟩ := hx
  refine Does.frame_bind hs hv (Does.entry_bind hw ?_)
  rw [hop, Op.ofByte?_byte]
  exact execute_performs hs hv harg

/-- A step does what the effect says. -/
theorem step_follows (hx : f.routine.code.Reads dest f.ip x) :
    Follows dest v f step s (effect v f x) :=
  (step_performs hs hv hx).mono (fun _ _ h ↦ h) fun _ _ h ↦ h.1

omit hs hv in
/-- What lies below the operands is still there behind a fault, and so are the frames below. -/
theorem Fallen.suffix {t : State} {own low : List Value} (h : Fallen v f x c t)
    (hstack : v.stack = own ++ low) (harity : x.arity ≤ own.length) (hbase : low.length = f.base) :
    low <:+ t.stack.contents ∧ v.frames.tail <:+ t.frames.contents := by
  have hdrop : v.stack.drop x.arity = own.drop x.arity ++ low := by
    rw [hstack, List.drop_append_of_le_length harity]
  cases h with
  | taking hframes ht =>
    rw [hdrop] at ht
    exact ⟨(List.suffix_append _ _).trans ht, hframes ▸ List.tail_suffix _⟩
  | entering _ _ hframes ht =>
    rw [ht, hframes, hstack]
    exact ⟨List.suffix_append _ _, List.suffix_cons _ _⟩
  | leaving _ _ hframes hrest ht =>
    rw [ht, hframes, hrest, hdrop, List.length_append, hbase, Nat.add_sub_cancel, List.drop_left]
    exact ⟨List.suffix_append _ _, List.suffix_rfl⟩

end Execute

end Machine

end ClassAsm
