import ClassAsm.Proofs.Codegen.Stands

/-!
# Active procedures

While generated code runs, the machine's frames are activations of procedures of one module, each of
which stands at a place of its code (`Image.Stands`) and has its own part of the stack.  The
activation on top goes on, and every other one waits for the results of the one above it.

What the values are like is left open.  A `Discipline` says what a value of a type is, what holds of
a frame with a shape and of the heap, and which faults it does not exclude; it is `Lawful` if all
instructions preserve it.  So what is said here about steps and runs is proved once, and serves the
typing of values as well as statements that need no types, for which there is `anything`.

## How it is put together

* `Discipline.Lawful.straight` is about the instructions that stay in their frame.  It has one case
  for each rule of `Types`, and each case is one of the laws.
* `Resting` describes the activations that wait, down to a `Floor` of frames that nothing is known
  about; `Active` is the machine that has the values they wait for.  The floor is what lets a call
  from the host be followed on a machine that is already in use.
* `Top` takes the activation on top apart.  Each kind of instruction has its lemma, from
  `Top.moves_straight` to `Top.moves_ret`, which says what the effect of the instruction makes of
  the activations.
* `Active.step` puts these together: the activations make a `Move`, or the machine faults in a way
  that is not excluded, and then what lies on the floor is still there.
* `Active.trace_keeps` goes on to many steps.  A property that all moves preserve is kept up too, so
  that other modules only look at `Move` when they add something to what is known.  `Active.run` is
  about a run to its end.
-/

namespace ClassAsm

/-! ## Heaps that grow -/

namespace Heap

/-- All arrays and objects of `h` are there in `h'`, with the same element types and classes. -/
structure Extends (h h' : Heap) : Prop where
  arrays : ∀ (addr : Nat) (c : ArrayCell), h.arrays[addr]? = some c →
    ∃ c', h'.arrays[addr]? = some c' ∧ c'.elem = c.elem
  objects : ∀ (addr : Nat) (c : ObjectCell), h.objects[addr]? = some c →
    ∃ c', h'.objects[addr]? = some c' ∧ c'.cls = c.cls

theorem Extends.refl (h : Heap) : h.Extends h :=
  ⟨fun _ c hc ↦ ⟨c, hc, rfl⟩, fun _ c hc ↦ ⟨c, hc, rfl⟩⟩

theorem extends_addArray (h : Heap) (c : ArrayCell) : h.Extends (h.addArray c) where
  arrays addr c' hc' := by
    have hlt := (Array.getElem?_eq_some_iff.1 hc').1
    refine ⟨c', ?_, rfl⟩
    rw [addArray, Array.getElem?_push_lt hlt, ← Array.getElem?_eq_getElem hlt, hc']
  objects _ c' hc' := ⟨c', hc', rfl⟩

theorem extends_addObject (h : Heap) (c : ObjectCell) : h.Extends (h.addObject c) where
  arrays _ c' hc' := ⟨c', hc', rfl⟩
  objects addr c' hc' := by
    have hlt := (Array.getElem?_eq_some_iff.1 hc').1
    refine ⟨c', ?_, rfl⟩
    rw [addObject, Array.getElem?_push_lt hlt, ← Array.getElem?_eq_getElem hlt, hc']

theorem extends_setItem (h : Heap) (addr i : Nat) (v : Value) : h.Extends (h.setItem addr i v) where
  arrays a c hc := by
    rw [setItem, Array.getElem?_modify, hc]
    split
    · exact ⟨_, rfl, rfl⟩
    · exact ⟨c, rfl, rfl⟩
  objects _ c hc := ⟨c, hc, rfl⟩

theorem extends_setField (h : Heap) (addr i : Nat) (v : Value) :
    h.Extends (h.setField addr i v) where
  arrays _ c hc := ⟨c, hc, rfl⟩
  objects a c hc := by
    rw [setField, Array.getElem?_modify, hc]
    split
    · exact ⟨_, rfl, rfl⟩
    · exact ⟨c, rfl, rfl⟩

end Heap

namespace Machine

open Bytecode Codegen Reference

variable {p : Program} {m : CompiledModule} {k j : Nat} {b : Value} {α : Type}
  {r : Except Cause Value} {elem : Ty} {τ : List Ty} {this : Option Nat}
  {callee : Bytecode.Procedure} {c : String} {cls : ClassRef}

section Effects

variable {v w : View} {f : Frame} {x : Instr} {stack : List Value} {h h' : Heap} {a : Value}

theorem writeField_extends {o : Value} {i : Nat} (hw : writeField h o i a = .ok h') :
    h.Extends h' := by
  rw [writeField] at hw
  cases ho : objectAt h o with
  | error c =>
    rw [ho] at hw
    cases hw
  | ok r =>
    rw [ho] at hw
    simp only [bind, Except.bind] at hw
    split at hw
    · cases hw
    · cases hw
      exact h.extends_setField _ _ _

theorem writeItem_extends {i : Int64} (hw : writeItem h a i b = .ok h') : h.Extends h' := by
  rw [writeItem] at hw
  cases ha : itemAt h a i with
  | error c =>
    rw [ha] at hw
    cases hw
  | ok r =>
    rw [ha] at hw
    cases hw
    exact h.extends_setItem _ _ _

theorem makeArray_extends {n : Int64} (hm : makeArray h elem n = .ok (h', a)) : h.Extends h' := by
  rw [makeArray] at hm
  split at hm
  · cases hm
  · split at hm
    · cases hm
    · cases hm
      exact h.extends_addArray _

/-- **The heap only grows.** -/
theorem effect_extends (h : effect v f x = .go w) : v.heap.Extends w.heap := by
  have hheap := (moved_of_go h).heap
  generalize w.heap = h at hheap ⊢
  cases hheap with
  | same => exact .refl _
  | field _ _ hw => exact writeField_extends hw
  | item _ hw => exact writeItem_extends hw
  | array hmake => exact makeArray_extends hmake
  | object cls => exact v.heap.extends_addObject _

end Effects

/-! ## Disciplines -/

/-- What is kept up while generated code runs. -/
structure Discipline (p : Program) (m : CompiledModule) where
  /-- What a value of a type is. -/
  value : Heap → Ty → Value → Prop
  /-- What holds of a frame in which something is known about registers and cells. -/
  frame : Heap → Image p m → Registers → List Ty → Frame → Prop
  /-- Which cells of a procedure may be known. -/
  cells : Image p m → List Ty → Prop
  /-- What holds of the heap. -/
  heap : Heap → Prop
  /-- The faults that are not excluded. -/
  fault : Cause → Prop

/-- A frame that has just been entered. -/
def Frame.entered (im : Image p m) (base : Nat) (this : Option Nat) (constructs : Bool) : Frame :=
  { routine := im.routine, base, this, constructs }

/-- What is kept up is so behind the effect of a straight instruction in the frame `f`, with `t`
known there and `stack` below. -/
def Effect.Upholds (D : Discipline p m) (im : Image p m) (t : Shape) (f : Frame)
    (below : List (Option Frame)) (stack : List Value) : Effect → Prop
  | go w =>
    D.heap w.heap ∧ (∃ own, List.Forall₂ (D.value w.heap) t.stack own ∧ w.stack = own ++ stack) ∧
      ∃ g, w.frames = some g :: below ∧ f.After g 1 ∧ D.frame w.heap im t.registers t.cells g
  | branch _ _ => False
  | fault c => D.fault c

/-- A result is as required, or the fault is one of those allowed. -/
def Outcome {α : Type} (P : α → Prop) (E : Cause → Prop) : Except Cause α → Prop
  | .ok a => P a
  | .error c => E c

namespace Discipline

/-- Every instruction keeps up the discipline. -/
structure Lawful (D : Discipline p m) : Prop where
  value_mono : ∀ {h h' t a}, h.Extends h' → D.value h t a → D.value h' t a
  frame_mono : ∀ {h h' im rs cs f}, h.Extends h' → D.frame h im rs cs f → D.frame h' im rs cs f
  moves : ∀ {h im rs cs f} (ip : Nat), D.frame h im rs cs f → D.frame h im rs cs { f with ip := ip }
  narrows : ∀ {h im s t f}, im.Narrows s t → D.frame h im s.registers s.cells f →
    D.frame h im t.registers t.cells f
  within : ∀ {im cs}, cs <+: im.cells → D.cells im cs
  slot : ∀ {im cs k t}, D.cells im cs → cs[k]? = some t →
    k + registerCount < maxLocals ∨ D.fault (.outOfBounds (k + registerCount) maxLocals)
  suits : ∀ {h s t a}, suits s t = true → D.value h s a → D.value h t a
  self : ∀ {h im rs cs f}, D.frame h im rs cs f → D.value h (.object im.owner.name) f.self
  const : ∀ {h t a}, t.Admits a → D.value h t a
  readRegister : ∀ {h im rs cs f r t a}, D.frame h im rs cs f → rs.get r = .typed t →
    f.locals.toArray[r.slot]? = some a → D.value h t a
  readCell : ∀ {h im rs cs f k t a}, D.frame h im rs cs f → cs[k]? = some t →
    f.locals.toArray[k + registerCount]? = some a → D.value h t a
  writeRegister : ∀ {h im rs cs f r t a}, D.frame h im rs cs f → D.value h t a →
    ∀ hr : r.slot < maxLocals, D.frame h im (rs.set r (.typed t)) cs (setLocal f r.slot a hr)
  writeCell : ∀ {h im rs cs cs' f k t a}, D.frame h im rs cs f → D.cells im cs' → cs'[k]? = some t →
    (∀ (j : Nat) t', cs'[j]? = some t' → j ≠ k → cs[j]? = some t') → D.value h t a →
    ∀ hk : k + registerCount < maxLocals, D.frame h im rs cs' (setLocal f (k + registerCount) a hk)
  converted : ∀ {h s t a}, t.accepts s = true → D.value h s a →
    Outcome (D.value h t) D.fault (converted? h a t)
  readField : ∀ {h} {im : Image p m} {c i t o}, D.heap h → HasField im.owner c i t →
    D.value h (.object c) o → Outcome (D.value h t) D.fault (readField h o i)
  writeField : ∀ {h} {im : Image p m} {c i t o a}, D.heap h → HasField im.owner c i t →
    D.value h (.object c) o → D.value h t a → Outcome D.heap D.fault (writeField h o i a)
  readItem : ∀ {h t a}, D.heap h → D.value h (.array t) a → ∀ i,
    Outcome (D.value h t) D.fault (readItem h a i)
  writeItem : ∀ {h t a b}, D.heap h → D.value h (.array t) a → D.value h t b → ∀ i,
    Outcome D.heap D.fault (writeItem h a i b)
  makeArray : ∀ {h t isClass}, D.heap h → t.Proper isClass → ∀ n,
    Outcome (fun r ↦ D.heap r.1 ∧ D.value r.1 (.array t) r.2) D.fault (makeArray h t n)
  intResult : ∀ {h a b}, D.value h .int a → D.value h .int b → ∀ x,
    Outcome (D.value h .int) D.fault (intResult x a b)
  floatResult : ∀ {h s t a b}, bothNumeric s t = true → D.value h s a → D.value h t b → ∀ x single,
    Outcome (D.value h (if single then .float else .double)) D.fault (floatResult x single a b)
  testResult : ∀ {h s t x a b}, (ordered x = true → bothNumeric s t = true) → D.value h s a →
    D.value h t b → Outcome (D.value h .bool) D.fault (Value.ofBool <$> testResult x a b)
  abstractCall : ∀ {h im rs cs f} {k : Nat} {code : Bytecode.Procedure}, D.frame h im rs cs f →
    im.owner.get.methods[k]? = some code → code.isAbstract = true → D.fault .abstractCall
  call : ∀ {h im im' rs cs f} (base : Nat) (constructs : Bool), D.frame h im rs cs f →
    im'.owner = im.owner → D.frame h im' {} [] (.entered im' base f.this constructs)
  new : ∀ {h im} (base : Nat) (constructs : Bool), D.heap h →
    im.owner.get.isAbstract = false → D.heap (h.addObject (Heap.freshObject im.owner)) ∧
      D.frame (h.addObject (Heap.freshObject im.owner)) im {} []
        (.entered im base (some h.objects.size) constructs)

end Discipline

section Upholds

variable {D : Discipline p m} {im : Image p m} {t : Shape} {v : View} {f : Frame}
  {own stack : List Value} (hD : D.Lawful) (hheap : D.heap v.heap)
  (hframe : D.frame v.heap im t.registers t.cells f)

include hD

theorem upholds_update {r : Except Cause Heap} (hframe : D.frame v.heap im t.registers t.cells f)
    (hown : List.Forall₂ (D.value v.heap) t.stack own)
    (hextends : ∀ h, r = .ok h → v.heap.Extends h) (hr : Outcome D.heap D.fault r) :
    (v.update f (own ++ stack) r).Upholds D im t f v.frames.tail stack := by
  cases r with
  | ok heap =>
    have hh := hextends heap rfl
    exact ⟨hr, ⟨own, hown.imp fun _ _ ↦ hD.value_mono hh, rfl⟩, f.next, rfl, rfl,
      hD.frame_mono hh (hD.moves _ hframe)⟩
  | error c => exact hr

theorem upholds_newArray (hframe : D.frame v.heap im t.registers t.cells f)
    (ht : t.stack = .array elem :: τ) (hstack : v.stack = b :: own ++ stack)
    (hown : List.Forall₂ (D.value v.heap) τ own) (hr : Outcome (fun r ↦ D.heap r.1 ∧
      D.value r.1 (.array elem) r.2) D.fault (makeArray v.heap elem b.toInt)) :
    (effect v f (.newArray elem)).Upholds D im t f v.frames.tail stack := by
  simp only [effect, hstack, List.cons_append]
  cases hmake : makeArray v.heap elem b.toInt with
  | ok r =>
    rw [hmake] at hr
    have hh := makeArray_extends hmake
    exact ⟨hr.1, ⟨r.2 :: own, ht ▸ .cons hr.2 (hown.imp fun _ _ ↦ hD.value_mono hh), rfl⟩, f.next,
      rfl, rfl, hD.frame_mono hh (hD.moves _ hframe)⟩
  | error c =>
    rw [hmake] at hr
    exact hr

include hheap

theorem upholds_popLocal (hk : k < maxLocals) (hstack : v.stack = b :: own ++ stack)
    (hframe : D.frame v.heap im t.registers t.cells (setLocal f k b hk))
    (hown : List.Forall₂ (D.value v.heap) t.stack own) :
    (effect v f (.popLocal k)).Upholds D im t f v.frames.tail stack := by
  simp only [effect, hstack, List.cons_append, dif_pos hk]
  exact ⟨hheap, ⟨own, hown, rfl⟩, _, rfl, rfl, hD.moves _ hframe⟩

/-- The effect goes on with a value in a cell, or fails if there is no slot for it. -/
theorem upholds_popCell {cs : List Ty} {s : Ty} (hframe : D.frame v.heap im t.registers cs f)
    (hcells : D.cells im t.cells) (hk : t.cells[k]? = some s)
    (hcs : ∀ (j : Nat) t', t.cells[j]? = some t' → j ≠ k → cs[j]? = some t')
    (hb : D.value v.heap s b) (hstack : v.stack = b :: own ++ stack)
    (hown : List.Forall₂ (D.value v.heap) t.stack own) :
    (effect v f (.popLocal (k + registerCount))).Upholds D im t f v.frames.tail stack := by
  by_cases hlt : k + registerCount < maxLocals
  · exact upholds_popLocal hD hheap hlt hstack (hD.writeCell hframe hcells hk hcs hb hlt) hown
  · simp only [effect, hstack, List.cons_append, dif_neg hlt]
    exact (hD.slot hcells hk).resolve_left hlt

include hframe

theorem upholds_onto (hown : List.Forall₂ (D.value v.heap) t.stack own) :
    (Effect.go (v.onto f (own ++ stack))).Upholds D im t f v.frames.tail stack :=
  ⟨hheap, ⟨own, hown, rfl⟩, f.next, rfl, rfl, hD.moves _ hframe⟩

theorem upholds_result {b : Ty} (ht : t.stack = b :: τ) (hown : List.Forall₂ (D.value v.heap) τ own)
    (hr : Outcome (D.value v.heap b) D.fault r) :
    (v.result f (own ++ stack) r).Upholds D im t f v.frames.tail stack := by
  cases r with
  | ok a =>
    have hall : List.Forall₂ (D.value v.heap) t.stack (a :: own) := ht ▸ .cons hr hown
    exact upholds_onto hD hheap hframe hall
  | error c => exact hr

theorem upholds_pushLocal {b : Ty} (ht : t.stack = b :: τ)
    (hown : List.Forall₂ (D.value v.heap) τ own) (hstack : v.stack = own ++ stack)
    (hread : ∀ a, f.locals.toArray[k]? = some a → D.value v.heap b a)
    (hlt : k < maxLocals ∨ D.fault (.outOfBounds k maxLocals)) :
    (effect v f (.pushLocal k)).Upholds D im t f v.frames.tail stack := by
  simp only [effect, hstack]
  cases ha : f.locals.toArray[k]? with
  | some a =>
    have hall : List.Forall₂ (D.value v.heap) t.stack (a :: own) := ht ▸ .cons (hread a ha) hown
    exact upholds_onto hD hheap hframe hall
  | none => exact hlt.resolve_left fun hk ↦ nomatch (getElem?_locals hk).symm.trans ha

omit hframe

/-- **Straight code keeps up the discipline.** -/
theorem Discipline.Lawful.straight {s : Shape} {x : Instr}
    (hframe : D.frame v.heap im s.registers s.cells f)
    (hown : List.Forall₂ (D.value v.heap) s.stack own) (hstack : v.stack = own ++ stack)
    (htypes : Types im.setting s x t) (hcells : D.cells im t.cells) (hx : Straight x) :
    (effect v f x).Upholds D im t f v.frames.tail stack := by
  have honto {own : List Value} := @upholds_onto p m D im t v f own stack hD hheap
  have hresult {own : List Value} {τ : List Ty} {r : Except Cause Value} :=
    @upholds_result p m r τ D im t v f own stack hD hheap
  have hupdate {own : List Value} := @upholds_update p m D im t v f own stack hD
  cases htypes with
  | jump | jumpFalse | call | new | ret | result => exact hx.elim
  | const hadmits =>
    rw [effect, hstack]
    exact honto hframe (.cons (hD.const hadmits) hown)
  | this =>
    rw [effect, hstack]
    exact honto hframe (.cons (hD.self hframe) hown)
  | @readRegister _ _ _ _ r hr =>
    exact upholds_pushLocal hD hheap hframe rfl hown hstack (fun _ ↦ hD.readRegister hframe hr)
      (.inl (Nat.lt_trans r.slot_lt (by decide)))
  | readCell hk =>
    exact upholds_pushLocal hD hheap hframe rfl hown hstack (fun _ ↦ hD.readCell hframe hk)
      (hD.slot hcells hk)
  | @writeRegister _ _ _ _ r =>
    rcases hown with _ | ⟨hb, hown⟩
    have hlt : r.slot < maxLocals := Nat.lt_trans r.slot_lt (by decide)
    exact upholds_popLocal hD hheap hlt hstack (hD.writeRegister hframe hb hlt) hown
  | writeCell hk hsuits =>
    rcases hown with _ | ⟨hb, hown⟩
    exact upholds_popCell hD hheap hframe hcells hk (fun _ _ hj _ ↦ hj)
      (hD.suits hsuits hb) hstack hown
  | define =>
    rcases hown with _ | ⟨hb, hown⟩
    refine upholds_popCell hD hheap hframe hcells List.getElem?_concat_length
      (fun j τ' hj hne ↦ ?_) hb hstack hown
    have hlt := (List.getElem?_eq_some_iff.1 hj).1
    rw [List.length_append, List.length_singleton] at hlt
    rwa [List.getElem?_append_left (by omega)] at hj
  | dup =>
    rcases hown with _ | ⟨hb, hown⟩
    simp only [effect, hstack, List.cons_append]
    exact honto hframe (.cons hb (.cons hb hown))
  | not =>
    rcases hown with _ | ⟨hb, hown⟩
    simp only [effect, hstack, List.cons_append]
    exact honto hframe (.cons (hD.const ⟨rfl, rfl⟩) hown)
  | print =>
    rcases hown with _ | ⟨hb, hown⟩
    simp only [effect, hstack, List.cons_append]
    exact ⟨hheap, ⟨_, hown, rfl⟩, f.next, rfl, rfl, hD.moves _ hframe⟩
  | convert haccepts =>
    rcases hown with _ | ⟨hb, hown⟩
    simp only [effect, hstack, List.cons_append]
    exact hresult hframe rfl hown (hD.converted haccepts hb)
  | loadField hfield =>
    rcases hown with _ | ⟨ho, hown⟩
    simp only [effect, hstack, List.cons_append]
    exact hresult hframe rfl hown (hD.readField hheap hfield ho)
  | newArray hproper =>
    rcases hown with _ | ⟨-, hown⟩
    exact upholds_newArray hD hframe rfl hstack hown (hD.makeArray hheap hproper _)
  | swap =>
    rcases hown with _ | ⟨hb, _ | ⟨ha, hown⟩⟩
    simp only [effect, hstack, List.cons_append]
    exact honto hframe (.cons ha (.cons hb hown))
  | loadItem =>
    rcases hown with _ | ⟨-, _ | ⟨ha, hown⟩⟩
    simp only [effect, hstack, List.cons_append]
    exact hresult hframe rfl hown (hD.readItem hheap ha _)
  | intArith =>
    rcases hown with _ | ⟨hb, _ | ⟨ha, hown⟩⟩
    simp only [effect, hstack, List.cons_append]
    exact hresult hframe rfl hown (hD.intResult ha hb _)
  | floatArith hnum =>
    rcases hown with _ | ⟨hb, _ | ⟨ha, hown⟩⟩
    simp only [effect, hstack, List.cons_append]
    exact hresult hframe rfl hown (hD.floatResult hnum ha hb _ _)
  | test hnum =>
    rcases hown with _ | ⟨hb, _ | ⟨ha, hown⟩⟩
    simp only [effect, hstack, List.cons_append]
    exact hresult hframe rfl hown (hD.testResult hnum ha hb)
  | storeField hfield hsuits =>
    rcases hown with _ | ⟨hb, _ | ⟨ho, hown⟩⟩
    simp only [effect, hstack, List.cons_append]
    exact hupdate hframe hown (fun _ ↦ writeField_extends)
      (hD.writeField hheap hfield ho (hD.suits hsuits hb))
  | storeItem hsuits =>
    rcases hown with _ | ⟨hb, _ | ⟨-, _ | ⟨ha, hown⟩⟩⟩
    simp only [effect, hstack, List.cons_append]
    exact hupdate hframe hown (fun _ ↦ writeItem_extends)
      (hD.writeItem hheap ha (hD.suits hsuits hb) _)

end Upholds

/-! ## Activations -/

/-- An activation of a procedure: how it was entered, and what is known where it stands. -/
structure Pose (p : Program) (m : CompiledModule) where
  im : Image p m
  this : Option Nat
  constructs : Bool
  shape : Shape

namespace Pose

/-- A procedure that has just been entered. -/
def start (im : Image p m) (this : Option Nat) (constructs : Bool) : Pose p m :=
  ⟨im, this, constructs, ⟨{}, [], []⟩⟩

/-- The types of the values that an activation leaves on the stack of its caller, top first. -/
def results (a : Pose p m) : List Ty :=
  (if a.constructs then [.object a.im.owner.name] else []) ++
    if a.im.code.returns = .void then [] else [a.im.code.returns]

/-- The frame is that of the activation. -/
structure Attends (a : Pose p m) (f : Frame) : Prop where
  routine : f.routine = a.im.routine
  this : f.this = a.this
  constructs : f.constructs = a.constructs
  stands : a.im.Stands f.ip a.shape

end Pose

/-- What lies below all activations: frames and a stack, which wait for values of the types
`awaited`. -/
structure Floor where
  awaited : List Ty
  frames : List (Option Frame)
  stack : List Value

/-- The activations wait for values of the given types, which will come on top of the stack.  No
procedure has more than two values of its own on the stack while it waits for another one. -/
inductive Resting (D : Discipline p m) (h : Heap) (F : Floor) :
    List Ty → List (Pose p m) → List (Option Frame) → List Value → Prop where
  | floor : Resting D h F F.awaited [] F.frames F.stack
  | frame : ∀ {awaited τ a as f frames own stack}, a.Attends f →
      D.frame h a.im a.shape.registers a.shape.cells f → a.shape.stack = awaited ++ τ →
      τ.length ≤ 2 → List.Forall₂ (D.value h) τ own → stack.length = f.base →
      Resting D h F a.results as frames stack →
      Resting D h F awaited (a :: as) (some f :: frames) (own ++ stack)

/-- The activations go on: the values that they wait for are there. -/
structure Active (D : Discipline p m) (F : Floor) (as : List (Pose p m)) (v : View) : Prop where
  heap : D.heap v.heap
  rests : ∃ awaited own low, Resting D v.heap F awaited as v.frames low ∧
    List.Forall₂ (D.value v.heap) awaited own ∧ v.stack = own ++ low

/-- The activation on top: its frame, its part of the stack and what is below. -/
structure Top (D : Discipline p m) (F : Floor) (a : Pose p m) (as : List (Pose p m)) (v : View)
    (f : Frame) (own low : List Value) : Prop where
  heap : D.heap v.heap
  frames : v.frames = some f :: v.frames.tail
  stack : v.stack = own ++ low
  attends : a.Attends f
  frame : D.frame v.heap a.im a.shape.registers a.shape.cells f
  values : List.Forall₂ (D.value v.heap) a.shape.stack own
  base : low.length = f.base
  below : Resting D v.heap F a.results as v.frames.tail low

variable {D : Discipline p m} {F : Floor} {a : Pose p m} {as as' : List (Pose p m)} {v w : View}
  {s : State} {f g : Frame} {own low : List Value}

section Active

variable {h h' : Heap} {awaited : List Ty} {frames : List (Option Frame)} {stack : List Value}

theorem Resting.mono (hD : D.Lawful) (hh : h.Extends h')
    (hr : Resting D h F awaited as frames stack) : Resting D h' F awaited as frames stack := by
  induction hr with
  | floor => exact .floor
  | frame ha hf hτ htwo hown hbase _ ih =>
    exact .frame ha (hD.frame_mono hh hf) hτ htwo (hown.imp fun _ _ ↦ hD.value_mono hh) hbase ih

theorem Resting.length_frames (hr : Resting D h F awaited as frames stack) :
    frames.length = as.length + F.frames.length := by
  induction hr with
  | floor => simp
  | frame _ _ _ _ _ _ _ ih =>
    rw [List.length_cons, List.length_cons, ih]
    omega

theorem Resting.suffix (hr : Resting D h F awaited as frames stack) :
    F.frames <:+ frames ∧ F.stack <:+ stack := by
  induction hr with
  | floor => exact ⟨List.suffix_rfl, List.suffix_rfl⟩
  | frame _ _ _ _ _ _ _ ih =>
    exact ⟨ih.1.trans (List.suffix_cons _ _), ih.2.trans (List.suffix_append _ _)⟩

theorem Resting.of_nil (hr : Resting D h F awaited [] frames stack) :
    awaited = F.awaited ∧ frames = F.frames ∧ stack = F.stack := by
  cases hr
  exact ⟨rfl, rfl, rfl⟩

theorem Active.length_frames (ha : Active D F as v) :
    v.frames.length = as.length + F.frames.length := by
  obtain ⟨_, _, _, hr, _⟩ := ha.rests
  exact hr.length_frames

theorem Active.suffix (ha : Active D F as v) : F.frames <:+ v.frames ∧ F.stack <:+ v.stack := by
  obtain ⟨_, own, _, hr, _, hstack⟩ := ha.rests
  rw [hstack]
  exact ⟨hr.suffix.1, hr.suffix.2.trans (List.suffix_append _ _)⟩

theorem Active.top (ha : Active D F (a :: as) v) : ∃ f own low, Top D F a as v f own low := by
  obtain ⟨awaited, own, low, hr, hown, hstack⟩ := ha.rests
  generalize hframes : v.frames = frames at hr
  cases hr with
  | @frame _ τ _ _ f frames own' stack hf hframe hτ _ hown' hbase hr =>
    refine ⟨f, own ++ own', stack, ha.heap, ?_, ?_, hf, hframe, ?_, hbase, ?_⟩
    · rw [hframes, List.tail_cons]
    · rw [hstack, List.append_assoc]
    · rw [hτ]
      exact List.rel_append hown hown'
    · rw [hframes, List.tail_cons]
      exact hr

theorem Top.active (ht : Top D F a as v f own low) : Active D F (a :: as) v := by
  refine ⟨ht.heap, a.shape.stack, own, low, ?_, ht.values, ht.stack⟩
  have hnil : List.Forall₂ (D.value v.heap) [] [] := .nil
  rw [ht.frames]
  exact .frame ht.attends ht.frame (List.append_nil _).symm (Nat.zero_le 2) hnil ht.base ht.below

end Active

/-! ## One step -/

/-- What a step of the activation `a`, which stands at `ip` above the activations `as`, makes of
them. -/
inductive Move (a : Pose p m) (as : List (Pose p m)) (ip : Nat) : List (Pose p m) → Prop where
  | stay : ∀ {s₀ t x}, a.im.Narrows a.shape s₀ → a.im.Passes ip s₀ x t →
      Move a as ip ({ a with shape := t } :: as)
  | enter : ∀ {s₀ t x im this constructs}, a.im.Narrows a.shape s₀ → a.im.Passes ip s₀ x t →
      Inner x → Move a as ip (.start im this constructs :: { a with shape := t } :: as)
  | leave : ∀ {s₀ t withResult}, a.im.Narrows a.shape s₀ → a.im.Passes ip s₀ (.ret withResult) t →
      Move a as ip as

/-- The step ends with the activations moved and all kept up. -/
def Steps (D : Discipline p m) (F : Floor) (a : Pose p m) (as : List (Pose p m)) (ip : Nat)
    (t : State) : Prop :=
  ∃ as' w, t.Shows w ∧ Move a as ip as' ∧ Active D F as' w

/-- The step faults with an overflow, or as is not excluded.  What lies on the floor is still
there. -/
def Stops (D : Discipline p m) (F : Floor) (c : Cause) (t : State) : Prop :=
  (c.Overflow ∨ D.fault c) ∧ D.heap t.heap ∧ F.frames <:+ t.frames.contents ∧
  F.stack <:+ t.stack.contents

/-- What an instruction of the frame `f` makes of the activations. -/
def Effect.Moves (D : Discipline p m) (F : Floor) (a : Pose p m) (as : List (Pose p m))
    (f : Frame) : Effect → Prop
  | go w => ∃ as', Move a as f.ip as' ∧ Active D F as' w
  | branch j w => ∀ off, Codegen.target a.im.offsets j off →
      ∃ as', Move a as f.ip as' ∧ Active D F as' (w.jumped f off)
  | fault c => D.fault c

theorem arity_le_of_types {σ : Setting} {s t : Shape} {x : Instr} (h : Types σ s x t) :
    x.arity ≤ s.stack.length := by
  cases h <;> simp [Instr.arity]

section Step

variable {im : Image p m} {s₀ t : Shape} {x : Instr} {constructs : Bool} {im' : Image p m}

theorem Pose.Attends.after (ha : a.Attends f) (hg : f.After g 1) (hs : a.im.Stands g.ip t) :
    Attends { a with shape := t } g := by
  rw [Frame.After] at hg
  exact ⟨by rw [hg]; exact ha.routine, by rw [hg]; exact ha.this,
    by rw [hg]; exact ha.constructs, hs⟩

theorem Pose.Attends.reads (ha : a.Attends f) (hp : a.im.Passes f.ip s₀ x t) :
    f.routine.code.Reads (target a.im.offsets) f.ip x := by
  rw [ha.routine]
  exact hp.reads

/-- A step does what the effect of its instruction says. -/
theorem Top.step (ht : Top D F a as v f own low) (hs : s.Shows v) (hn : a.im.Narrows a.shape s₀)
    (hp : a.im.Passes f.ip s₀ x t) (hmoves : (effect v f x).Moves D F a as f) :
    Does step s (fun _ t ↦ Steps D F a as f.ip t) (Stops D F) := by
  refine (step_performs hs ht.frames (ht.attends.reads hp)).mono (fun _ u hu ↦ ?_)
    fun c u ⟨hfailed, hfallen⟩ ↦ ?_
  · cases he : effect v f x with
    | go w =>
      rw [he] at hu hmoves
      obtain ⟨as', hmove, hw⟩ := hmoves
      exact ⟨as', w, hu, hmove, hw⟩
    | branch j w =>
      rw [he] at hu hmoves
      obtain ⟨off, hoff, hu⟩ := hu
      obtain ⟨as', hmove, hw⟩ := hmoves off hoff
      exact ⟨as', _, hu, hmove, hw⟩
    | fault c =>
      rw [he] at hu
      exact hu.elim
  · have harity : x.arity ≤ own.length := by
      rw [← ht.values.length_eq, ← hn.stack]
      exact arity_le_of_types hp.types
    obtain ⟨hstack, hframes⟩ := hfallen.suffix ht.stack harity ht.base
    have hfloor := And.intro (ht.below.suffix.1.trans hframes) (ht.below.suffix.2.trans hstack)
    rcases hfailed with ⟨he, hheap, -⟩ | ⟨hfull, -, hheap | ⟨w, he, hheap⟩⟩
    · rw [he] at hmoves
      exact ⟨.inr hmoves, hheap ▸ ht.heap, hfloor⟩
    · exact ⟨.inl hfull.overflow, hheap ▸ ht.heap, hfloor⟩
    · rw [he] at hmoves
      obtain ⟨as', -, hw⟩ := hmoves
      exact ⟨.inl hfull.overflow, hheap ▸ hw.heap, hfloor⟩

theorem Resting.active_entered (hl : Loaded p m) {heap : Heap}
    (hr : Resting D heap F (Pose.start im this constructs).results as
      (some f.next :: v.frames.tail) v.stack)
    (hheap : D.heap heap)
    (hframe : D.frame heap im {} [] (.entered im v.stack.length this constructs)) :
    Active D F (.start im this constructs :: as)
    { v.enter f im.routine this constructs with heap := heap } := by
  have htop : Top D F (.start im this constructs) as
      { v.enter f im.routine this constructs with heap := heap }
      (.entered im v.stack.length this constructs) [] v.stack :=
    ⟨hheap, rfl, rfl, ⟨rfl, rfl, rfl, Image.stands_entry hl im⟩, hframe, .nil, rfl, hr⟩
  exact htop.active

/-- What a call does, with the image of the method. -/
theorem effect_call_eq (howner : f.routine.owner = some im.owner)
    (hcallee : im.owner.get.methods[k]? = some callee) (hown' : im'.owner = im.owner)
    (hcode' : im'.code = callee) : effect v f (.call k) =
      if callee.isAbstract then .fault .abstractCall else
        .go (v.enter f im'.routine f.this false) := by
  rw [Image.routine, hown', hcode']
  simp only [effect, View.call, howner, hcallee]

/-- What a construction does, with the image of the first constructor. -/
theorem effect_new_eq {code : Procedure} (howner : f.routine.owner = some im.owner)
    (hcls : im.owner.home.class? c = some cls) (habs : cls.get.isAbstract = false)
    (hcode : cls.get.constructors[0]? = some code) (hown' : im'.owner = cls)
    (hcode' : im'.code = code) : effect v f (.new cls.index.val) =
      .go { v.enter f im'.routine (some v.heap.objects.size) true with
        heap := v.heap.addObject (Heap.freshObject cls) } := by
  rw [Image.routine, hown', hcode']
  simp [effect, View.create, howner, CompiledModule.classAt?_of_class? hcls, habs, hcode]

/-- A call enters the image of the method, unless that is abstract. -/
theorem effect_call (hl : Loaded p m) (howner : f.routine.owner = some im.owner)
    (hcallee : im.owner.get.methods[k]? = some callee) :
    (callee.isAbstract = true ∧ effect v f (.call k) = .fault .abstractCall) ∨
      ∃ im' : Image p m, im'.owner = im.owner ∧
        (Pose.start im' f.this false).results = (if callee.returns = .void then [] else
          [callee.returns]) ∧
        effect v f (.call k) = .go (v.enter f im'.routine f.this false) := by
  obtain ⟨im', hown', hcode, -⟩ := hl.image_method im.home hcallee
  have heffect := effect_call_eq (v := v) howner hcallee hown' hcode
  by_cases habs : callee.isAbstract = true
  · exact .inl ⟨habs, by rw [heffect, if_pos habs]⟩
  · refine .inr ⟨im', hown', ?_, ?_⟩
    · rw [← hcode]
      rfl
    · rw [heffect, if_neg habs]

/-- A construction enters the image of the first constructor on a new object. -/
theorem effect_new (hl : Loaded p m) (howner : f.routine.owner = some im.owner)
    (hcls : im.owner.home.class? c = some cls) (habs : cls.get.isAbstract = false) :
    ∃ im' : Image p m, im'.owner = cls ∧ (Pose.start im' (some v.heap.objects.size) true).results =
    [.object c] ∧
      effect v f (.new cls.index.val) =
        .go { v.enter f im'.routine (some v.heap.objects.size) true with
          heap := v.heap.addObject (Heap.freshObject cls) } := by
  have hhome : cls.home = m := (CompiledModule.class?_home hcls).trans im.home
  obtain ⟨code, hcode⟩ := hl.exists_constructor hhome
  obtain ⟨im', hown', hcode', -, -, hreturns, -⟩ := hl.image_constructor hhome hcode
  refine ⟨im', hown', ?_, effect_new_eq howner hcls habs hcode hown' hcode'⟩
  simp [Pose.results, Pose.start, hcode', hreturns, hown', CompiledModule.name_of_class? hcls]

variable (hD : D.Lawful) (ht : Top D F a as v f own low) (hn : a.im.Narrows a.shape s₀)
  {withResult : Bool}

include ht

theorem Top.leave_stack (r : Option Value) :
    (v.leave f low r).stack = (if a.constructs then [f.self] else []) ++ r.toList ++ low := by
  rw [View.leave, ht.base, Nat.sub_self, List.drop_zero, ht.attends.constructs]

include hn in
theorem Top.narrowed : List.Forall₂ (D.value v.heap) s₀.stack own := hn.stack ▸ ht.values

include hD

/-- A procedure is left with what it gives to its caller. -/
theorem Top.active_leave {r : Option Value} (hr : List.Forall₂ (D.value v.heap)
      (if a.im.code.returns = .void then [] else [a.im.code.returns]) r.toList) :
    Active D F as (v.leave f low r) := by
  refine ⟨ht.heap, a.results, _, low, ht.below, List.rel_append ?_ hr, ht.leave_stack r⟩
  split
  · exact .cons (hD.self ht.frame) .nil
  · exact .nil

include hn

theorem Top.moves_straight (hp : a.im.Passes f.ip s₀ x t) (hx : Straight x) :
    (effect v f x).Moves D F a as f := by
  have hvalues := ht.narrowed hn
  have hup :=
    hD.straight ht.heap (hD.narrows hn ht.frame) hvalues ht.stack hp.types (hD.within hp.within) hx
  have hfalls : x.falls = true := by
    cases x with
    | jump | ret => exact hx.elim
    | _ => rfl
  cases he : effect v f x with
  | go w =>
    rw [he] at hup
    obtain ⟨hheap, ⟨own', hown', hstack⟩, g, hframes, hg, hframe⟩ := hup
    have hip : g.ip = f.ip + 1 := by rw [hg]
    have hbase : g.base = f.base := by rw [hg]
    have htop : Top D F { a with shape := t } as w g own' low := by
      refine ⟨hheap, ?_, hstack, ht.attends.after hg (hip ▸ hp.next hfalls), hframe, hown',
        hbase ▸ ht.base, ?_⟩
      · rw [hframes, List.tail_cons]
      · rw [hframes, List.tail_cons]
        exact ht.below.mono hD (effect_extends he)
    exact ⟨_, .stay hn hp, htop.active⟩
  | branch j w =>
    rw [he] at hup
    exact hup.elim
  | fault c =>
    rw [he] at hup
    exact hup

/-- The activation on top goes on elsewhere in its code, with other values on its part of the
stack. -/
theorem Top.relocate {ip : Nat} (hstands : a.im.Stands ip t)
    (hregisters : t.registers = s₀.registers) (hcells : t.cells = s₀.cells) {own' : List Value}
    (hvalues : List.Forall₂ (D.value v.heap) t.stack own') :
    Active D F ({ a with shape := t } :: as)
      { v with frames := some { f with ip := ip } :: v.frames.tail, stack := own' ++ low } := by
  have hframe : D.frame v.heap a.im t.registers t.cells f := by
    rw [hregisters, hcells]
    exact hD.narrows hn ht.frame
  exact Top.active (f := { f with ip := ip }) ⟨ht.heap, rfl, rfl,
    ⟨ht.attends.routine, ht.attends.this, ht.attends.constructs, hstands⟩, hD.moves ip hframe,
    hvalues, ht.base, ht.below⟩

theorem Top.moves_jump (hp : a.im.Passes f.ip s₀ (.jump j) t) :
    (effect v f (.jump j)).Moves D F a as f := by
  refine fun off hoff ↦ ⟨_, .stay hn hp, ?_⟩
  have hstands := hp.jump j off rfl hoff
  have hvalues := ht.narrowed hn
  cases hp.types with
  | jump =>
    cases hvalues
    have hactive := ht.relocate hD hn hstands rfl rfl .nil
    rw [← ht.stack] at hactive
    exact hactive

theorem Top.moves_jumpFalse (hp : a.im.Passes f.ip s₀ (.jumpFalse j) t) :
    (effect v f (.jumpFalse j)).Moves D F a as f := by
  have hvalues := ht.narrowed hn
  have hnext := hp.next rfl
  have hjump := hp.jump j
  have hmove : Move a as f.ip ({ a with shape := t } :: as) := .stay hn hp
  have hstack := ht.stack
  cases hp.types with
  | jumpFalse =>
    obtain ⟨b, rfl⟩ : ∃ b, own = [b] := by
      cases hvalues with
      | cons _ hnil =>
        cases hnil
        exact ⟨_, rfl⟩
    by_cases hb : b.truth = true
    · have he : effect v f (.jumpFalse j) = .go (v.onto f low) := by simp [effect, hstack, hb]
      rw [he]
      exact ⟨_, hmove, ht.relocate hD hn hnext rfl rfl .nil⟩
    · have he : effect v f (.jumpFalse j) = .branch j { v with stack := low } := by
        simp [effect, hstack, hb]
      rw [he]
      exact fun off hoff ↦ ⟨_, hmove, ht.relocate hD hn (hjump off rfl hoff) rfl rfl .nil⟩

/-- The activation on top waits for the results of another one. -/
theorem Top.rest (awaited : List Ty) (hstands : a.im.Stands (f.ip + 1) t)
    (hregisters : t.registers = s₀.registers) (hcells : t.cells = s₀.cells)
    (hstack : t.stack = awaited ++ s₀.stack) (htwo : s₀.stack.length ≤ 2) :
    Resting D v.heap F awaited ({ a with shape := t } :: as)
    (some f.next :: v.frames.tail) v.stack := by
  have hframe : D.frame v.heap a.im t.registers t.cells f := by
    rw [hregisters, hcells]
    exact hD.narrows hn ht.frame
  rw [ht.stack]
  exact .frame ⟨ht.attends.routine, ht.attends.this, ht.attends.constructs, hstands⟩
    (hD.moves _ hframe) hstack htwo (ht.narrowed hn) ht.base ht.below

theorem Top.moves_call (hl : Loaded p m) (hp : a.im.Passes f.ip s₀ (.call k) t) :
    (effect v f (.call k)).Moves D F a as f := by
  have hframe := hD.narrows hn ht.frame
  have howner : f.routine.owner = some a.im.owner := by rw [ht.attends.routine]; rfl
  have hnext := hp.next rfl
  have hmove (im' : Image p m) :
      Move a as f.ip (.start im' f.this false :: { a with shape := t } :: as) :=
    .enter hn hp ⟨rfl, nofun, nofun⟩
  cases hp.types with
  | @call _ _ _ callee hcallee =>
    have hcallee : a.im.owner.get.methods[k]? = some callee := hcallee
    rcases effect_call hl howner hcallee with ⟨habs, he⟩ | ⟨im', hown', hresults, he⟩
    · rw [he]
      exact hD.abstractCall hframe hcallee habs
    · rw [he]
      have hr := ht.rest hD hn (Pose.start im' f.this false).results hnext rfl rfl
        (by rw [hresults, List.append_nil]) (Nat.zero_le 2)
      exact ⟨_, hmove im', hr.active_entered hl ht.heap (hD.call _ _ hframe hown')⟩

theorem Top.moves_new (hl : Loaded p m) (hp : a.im.Passes f.ip s₀ (.new k) t) :
    (effect v f (.new k)).Moves D F a as f := by
  have howner : f.routine.owner = some a.im.owner := by rw [ht.attends.routine]; rfl
  have hnext := hp.next rfl
  have hmove (im' : Image p m) (this : Option Nat) :
      Move a as f.ip (.start im' this true :: { a with shape := t } :: as) :=
      .enter hn hp ⟨rfl, nofun, nofun⟩
  cases hp.types with
  | @new _ _ _ c cls hcls habs htwo =>
    obtain ⟨im', rfl, hresults, he⟩ := effect_new hl howner hcls habs
    rw [he]
    have hr :=
      ht.rest hD hn (Pose.start im' _ true).results hnext rfl rfl (by rw [hresults]; rfl) htwo
    obtain ⟨hheap, hframe⟩ := hD.new v.stack.length true ht.heap habs
    exact ⟨_, hmove im' _, (hr.mono hD (v.heap.extends_addObject _)).active_entered hl hheap hframe⟩

/-- At a return a procedure has its result on its part of the stack, if it has one, and nothing
else. -/
theorem Top.effect_ret (hp : a.im.Passes f.ip s₀ (.ret withResult) t) :
    ∃ r : Option Value, own = r.toList ∧ (withResult = true ↔ a.im.code.returns ≠ .void) ∧
    r.isSome = withResult ∧
      effect v f (.ret withResult) = .go (v.leave f low r) ∧
      List.Forall₂ (D.value v.heap) (if a.im.code.returns = .void then [] else
        [a.im.code.returns]) r.toList := by
  have hvalues := ht.narrowed hn
  have hstack := ht.stack
  cases hp.types with
  | ret hvoid =>
    have hvoid : a.im.code.returns = .void := hvoid
    cases hvalues
    refine ⟨none, rfl, by simp [hvoid], rfl, ?_, by rw [if_pos hvoid]; exact .nil⟩
    rw [effect, hstack]
    rfl
  | @result _ _ τ hne hsuits =>
    have hne : a.im.code.returns ≠ .void := hne
    cases hvalues with
    | @cons _ b _ _ hb hnil =>
      cases hnil
      refine ⟨some b, rfl, by simp [hne], rfl, by simp [effect, hstack], ?_⟩
      rw [if_neg hne]
      exact .cons (hD.suits hsuits hb) .nil

theorem Top.moves_ret (hp : a.im.Passes f.ip s₀ (.ret withResult) t) :
    (effect v f (.ret withResult)).Moves D F a as f := by
  obtain ⟨r, -, -, -, he, hr⟩ := ht.effect_ret hD hn hp
  rw [he]
  exact ⟨_, .leave hn hp, ht.active_leave hD hr⟩

omit hD ht hn

/-- **What one step does.**  The activation on top takes a step, and the discipline is kept up, or
it faults in a way that is not excluded. -/
theorem Active.step (hD : D.Lawful) (hl : Loaded p m) (ha : Active D F (a :: as) v)
    (hs : s.Shows v) : ∃ f own low, Top D F a as v f own low ∧ Does step s
    (fun _ t ↦ Steps D F a as f.ip t) (Stops D F) := by
  obtain ⟨f, own, low, ht⟩ := ha.top
  refine ⟨f, own, low, ht, ?_⟩
  obtain ⟨s₀, x, t, hn, hp⟩ := ht.attends.stands.next hl
  refine ht.step hs hn hp ?_
  cases x with
  | jump j => exact ht.moves_jump hD hn hp
  | jumpFalse j => exact ht.moves_jumpFalse hD hn hp
  | call k => exact ht.moves_call hD hn hl hp
  | ret withResult => exact ht.moves_ret hD hn hp
  | new k => exact ht.moves_new hD hn hl hp
  | _ => exact ht.moves_straight hD hn hp trivial

/-- The host has entered a procedure: what was there before is the floor. -/
theorem active_of_enter (hl : Loaded p m) {t : State} (hhost : s.host = builtins)
    (henter : enter im.routine this constructs s = .ok () t) (hheap : D.heap s.heap)
    (hframe : D.frame s.heap im {} [] (.entered im s.stack.top this constructs)) :
    ∃ v, t.Shows v ∧
    Active D ⟨(Pose.start im this constructs).results, s.frames.contents, s.stack.contents⟩
      [.start im this constructs] v := by
  have hs : s.Shows ⟨s.frames.contents, s.stack.contents, s.heap, s.output⟩ :=
    ⟨rfl, rfl, rfl, rfl, hhost⟩
  have hdoes : Does (enter im.routine this constructs) s _ fun c _ ↦ c.Overflow :=
    enter_does hs fun _ ↦ .inr rfl
  rw [Does, henter] at hdoes
  rw [Slots.length_contents] at hdoes
  exact ⟨_, hdoes, Top.active ⟨hheap, rfl, rfl, ⟨rfl, rfl, rfl, Image.stands_entry hl im⟩,
    hframe, .nil, Slots.length_contents _, .floor⟩⟩

end Step

/-! ## Many steps -/

/-- From `s₀` the machine has come to `s` with more than `depth` frames active before each step.
The list has the states on the way, the last one first. -/
inductive Trace (depth : Nat) (s₀ : State) : List State → State → Prop where
  | start : Trace depth s₀ [] s₀
  | step {past : List State} {s t : State} : Trace depth s₀ past s → depth < s.frames.top →
      step s = .ok () t → Trace depth s₀ (s :: past) t

section Runs

variable {t : State} {past : List State}

theorem Does.of_ok {g : Exec α} {Q : α → State → Prop} {E : Cause → State → Prop} {a : α}
    (h : Does g s Q E) (hg : g s = .ok a t) : Q a t := by
  rw [Does, hg] at h
  exact h

/-- **A run comes to its last step**, with `k` left of its gas. -/
theorem exists_last_of_run {depth : Nat} {s₀ : State} (htrace : Trace depth s₀ past s)
    (htop : depth < s.frames.top) (gas : Nat) : ∃ past' u k, Trace depth s₀ past' u ∧
    depth < u.frames.top ∧ past'.length + k = past.length + gas ∧
      run depth gas s = run depth k u ∧
      (k = 0 ∨ ∀ t, step u = .ok () t → t.frames.top ≤ depth) := by
  induction gas generalizing past s with
  | zero => exact ⟨past, s, 0, htrace, htop, rfl, rfl, .inl rfl⟩
  | succ gas ih =>
    by_cases hlast : ∀ t, step s = .ok () t → t.frames.top ≤ depth
    · exact ⟨past, s, gas + 1, htrace, htop, rfl, rfl, .inr hlast⟩
    · push Not at hlast
      obtain ⟨t, hstep, hlt⟩ := hlast
      obtain ⟨past', u, k, htrace', hu, hlength, hrun, hcases⟩ := ih (htrace.step htop hstep) hlt
      rw [List.length_cons, Nat.succ_add_eq_add_succ] at hlength
      refine ⟨past', u, k, htrace', hu, hlength, ?_, hcases⟩
      rw [run_succ htop, hstep]
      exact hrun

theorem step_of_run {depth : Nat} (htop : depth < s.frames.top) (hrun : run depth k s = .ok () t)
    (hlast : k = 0 ∨ ∀ t, step s = .ok () t → t.frames.top ≤ depth) :
    0 < k ∧ step s = .ok () t ∧ t.frames.top ≤ depth := by
  cases k with
  | zero => cases (run_zero htop).symm.trans hrun
  | succ k =>
    rw [run_succ htop] at hrun
    cases hstep : step s with
    | ok _ u =>
      rw [hstep] at hrun
      have hle := hlast.resolve_left (Nat.succ_ne_zero k) u hstep
      cases (run_of_le hle k).symm.trans hrun
      exact ⟨Nat.succ_pos k, rfl, hle⟩
    | error e u =>
      rw [hstep] at hrun
      cases hrun

/-- More frames than those of the floor are frames of activations. -/
theorem Active.exists_cons (ha : Active D F as v) (hs : s.Shows v)
    (htop : F.frames.length < s.frames.top) : ∃ a as', as = a :: as' := by
  cases as with
  | nil =>
    have := ha.length_frames
    rw [hs.top_eq, this, List.length_nil, Nat.zero_add] at htop
    exact (Nat.lt_irrefl _ htop).elim
  | cons a as => exact ⟨a, as, rfl⟩

/-- **What is kept up by a step is kept up by all that follow**, and so is all else that moves
preserve. -/
theorem Active.trace_keeps (hD : D.Lawful) (hl : Loaded p m)
    {I : List State → List (Pose p m) → Prop} (hI : ∀ {past s v a as f own low as'}, s.Shows v →
      Top D F a as v f own low → Move a as f.ip as' → I past (a :: as) → I (s :: past) as')
    (ha : Active D F as v) (hs : s.Shows v) (hstart : I [] as)
    (htrace : Trace F.frames.length s past t) :
    ∃ as' w, t.Shows w ∧ Active D F as' w ∧ I past as' := by
  induction htrace with
  | start => exact ⟨as, v, hs, ha, hstart⟩
  | step _ htop hstep ih =>
    obtain ⟨as', w, hw, ha', hkept⟩ := ih
    obtain ⟨a, as'', rfl⟩ := ha'.exists_cons hw htop
    obtain ⟨f, own, low, ht, hdoes⟩ := ha'.step hD hl hw
    obtain ⟨as', w', hw', hmove, ha'⟩ := hdoes.of_ok hstep
    exact ⟨as', w', hw', ha', hI hw ht hmove hkept⟩

theorem Active.trace (hD : D.Lawful) (hl : Loaded p m) (ha : Active D F as v) (hs : s.Shows v)
    (htrace : Trace F.frames.length s past t) : ∃ as' w, t.Shows w ∧ Active D F as' w := by
  obtain ⟨as', w, hw, ha', -⟩ :=
    ha.trace_keeps hD hl (I := fun _ _ ↦ True) (fun _ _ _ _ ↦ trivial) hs trivial htrace
  exact ⟨as', w, hw, ha'⟩

/-- How a run ends: with the results on top of what was there, or with a fault. -/
def Ended (D : Discipline p m) (F : Floor) : EStateM.Result Stop State Unit → Prop
  | .ok () t =>
    ∃ w own, t.Shows w ∧ D.heap w.heap ∧ w.frames = F.frames ∧ w.stack = own ++ F.stack ∧
      List.Forall₂ (D.value w.heap) F.awaited own
  | .error (.fault x) t =>
    (x.cause = .gasExhausted ∨ x.cause.Overflow ∨ D.fault x.cause) ∧ D.heap t.heap ∧
      F.frames <:+ t.frames.contents ∧ F.stack <:+ t.stack.contents
  | .error _ _ => False

theorem Active.landed (ha : Active D F as v) (hs : s.Shows v)
    (htop : s.frames.top ≤ F.frames.length) :
    as = [] ∧ v.frames = F.frames ∧ ∃ own, v.stack = own ++ F.stack ∧
      List.Forall₂ (D.value v.heap) F.awaited own := by
  have hnil : as = [] := by
    rw [hs.top_eq, ha.length_frames] at htop
    exact List.eq_nil_of_length_eq_zero (by omega)
  subst hnil
  obtain ⟨awaited, own, low, hr, hown, hstack⟩ := ha.rests
  obtain ⟨rfl, hframes, rfl⟩ := hr.of_nil
  exact ⟨rfl, hframes, own, hstack, hown⟩

theorem Active.ended (ha : Active D F as v) (hs : s.Shows v) (htop : s.frames.top ≤ F.frames.length)
    (gas : Nat) : Ended D F (run F.frames.length gas s) := by
  obtain ⟨-, hframes, own, hstack, hown⟩ := ha.landed hs htop
  rw [run_of_le htop]
  exact ⟨v, own, hs, ha.heap, hframes, hstack, hown⟩

/-- **A run keeps up the discipline to its end.** -/
theorem Active.run (hD : D.Lawful) (hl : Loaded p m) (ha : Active D F as v) (hs : s.Shows v)
    (gas : Nat) : Ended D F (run F.frames.length gas s) := by
  induction gas generalizing s as v with
  | zero =>
    by_cases htop : F.frames.length < s.frames.top
    · rw [run_zero htop]
      exact ⟨.inl rfl, hs.heap ▸ ha.heap, hs.frames ▸ ha.suffix.1, hs.stack ▸ ha.suffix.2⟩
    · exact ha.ended hs (Nat.le_of_not_lt htop) 0
  | succ gas ih =>
    by_cases htop : F.frames.length < s.frames.top
    · rw [run_succ htop]
      obtain ⟨a, as', rfl⟩ := ha.exists_cons hs htop
      obtain ⟨f, own, low, -, hdoes⟩ := ha.step hD hl hs
      rw [Does] at hdoes
      cases hstep : Machine.step s with
      | ok u t =>
        rw [hstep] at hdoes
        obtain ⟨as', w, hw, -, ha'⟩ := hdoes
        exact ih ha' hw
      | error e t =>
        rw [hstep] at hdoes
        cases e with
        | fault c => exact ⟨.inr hdoes.1, hdoes.2⟩
        | abort text => exact hdoes.elim
    · exact ha.ended hs (Nat.le_of_not_lt htop) (gas + 1)

end Runs

/-! ## No discipline -/

/-- Values of all kinds are allowed everywhere.  What is left is that every activation has its own
part of the stack. -/
def anything (p : Program) (m : CompiledModule) : Discipline p m where
  value _ _ _ := True
  frame _ _ _ _ _ := True
  cells _ _ := True
  heap _ := True
  fault _ := True

theorem forall₂_anything (h : own.length = τ.length) (heap : Heap) :
    List.Forall₂ ((anything p m).value heap) τ own :=
  List.forall₂_iff_get.2 ⟨h.symm, fun _ _ _ ↦ trivial⟩

theorem outcome_anything {P : α → Prop} (hP : ∀ a, P a) (r : Except Cause α) :
    Outcome P (anything p m).fault r := by
  cases r with
  | ok a => exact hP a
  | error c => trivial

theorem anything_lawful : (anything p m).Lawful where
  value_mono _ _ := trivial
  frame_mono _ _ := trivial
  moves _ _ := trivial
  narrows _ _ := trivial
  within _ := trivial
  slot _ _ := .inr trivial
  suits _ _ := trivial
  self _ := trivial
  const _ := trivial
  readRegister _ _ _ := trivial
  readCell _ _ _ := trivial
  writeRegister _ _ _ := trivial
  writeCell _ _ _ _ _ _ := trivial
  converted _ _ := outcome_anything (fun _ ↦ trivial) _
  readField _ _ _ := outcome_anything (fun _ ↦ trivial) _
  writeField _ _ _ _ := outcome_anything (fun _ ↦ trivial) _
  readItem _ _ _ := outcome_anything (fun _ ↦ trivial) _
  writeItem _ _ _ _ := outcome_anything (fun _ ↦ trivial) _
  makeArray _ _ _ := outcome_anything (fun _ ↦ ⟨trivial, trivial⟩) _
  intResult _ _ _ := outcome_anything (fun _ ↦ trivial) _
  floatResult _ _ _ _ _ := outcome_anything (fun _ ↦ trivial) _
  testResult _ _ _ := outcome_anything (fun _ ↦ trivial) _
  abstractCall _ _ _ := trivial
  call _ _ _ _ := trivial
  new _ _ _ _ := ⟨trivial, trivial⟩

end Machine

end ClassAsm
