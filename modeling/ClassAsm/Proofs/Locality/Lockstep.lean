import ClassAsm.Proofs.Codegen.Loaded
import ClassAsm.Proofs.Locality.Likeness
import ClassAsm.Proofs.Machine.View

/-!
# Machines in lockstep

Two machines that are alike, with values, frames and heaps that differ in paired addresses only,
stay alike as they execute: `step_coupled` for one instruction and `run_coupled` for a run.  They
come to the same fault at the same place, print the same, and touch no cell that is in no pair.

Little is asked of the code, only that it is `Tame`: its constants refer to no cells.  It need not
make sense otherwise.

## How it is proved

`Lockstep S P g g'` says that two steps, started in states that are related by `S`, end in such
states with results that are related by `P`, or with the same failure.  It goes along `>>=`, with
one lemma for each primitive step of the machine, so that `execute_lockstep` follows the text of the
operations.  All that the machine does with a reference is to follow it or to compare it with
another one, and a pairing of cells in which no cell occurs twice is respected by both.
-/

namespace ClassAsm

/-- The constants of the code refer to no cells. -/
def Bytecode.Procedure.Tame (p : Bytecode.Procedure) : Prop := ∀ v ∈ p.consts, v.Plain

/-- All code of the module is tame. -/
def Bytecode.CompiledModule.Tame (m : Bytecode.CompiledModule) : Prop :=
  ∀ c : Bytecode.ClassRef, c.home = m → ∀ p, p ∈ c.get.constructors ∨ p ∈ c.get.methods → p.Tame

/-- The code is tame, and so is the code that it can call. -/
structure Bytecode.Routine.Tame (r : Bytecode.Routine) : Prop where
  code : r.code.Tame
  owner : ∀ c, r.owner = some c → c.home.Tame

theorem Bytecode.CompiledModule.Tame.routine {c : ClassRef} {p : Procedure} (h : c.home.Tame)
    (hp : p ∈ c.get.constructors ∨ p ∈ c.get.methods) :
    Routine.Tame ⟨p, some c⟩ where
  code := h c rfl p hp
  owner _ hd := Option.some.inj hd ▸ h

/-- **Compiled code is tame.** -/
theorem Codegen.tame_of_compile {src : String} {m : Bytecode.CompiledModule}
    (h : compile src = .ok m) : m.Tame := by
  obtain ⟨p, -, -, hcompiled⟩ := compiled_of_compile h
  intro c hc q hq
  obtain ⟨decl, hdecl, -⟩ := hcompiled.layoutOf hc
  have hcoded := hcompiled.code c decl hc hdecl
  have himplements : ∃ member, Implements c decl member q := by
    rcases hq with hq | hq
    · obtain ⟨i, hi⟩ := List.mem_iff_getElem?.1 (Array.mem_toList_iff.2 hq)
      obtain ⟨member, -, hmember⟩ := exists_left_of_forall₂ hcoded.constructors hi
      exact ⟨member, hmember⟩
    · obtain ⟨i, hi⟩ := List.mem_iff_getElem?.1 (Array.mem_toList_iff.2 hq)
      obtain ⟨member, -, hmember⟩ := exists_left_of_forall₂ hcoded.methods hi
      exact ⟨member, hmember⟩
  obtain ⟨member, ds, ps, offs, -, htranslated, -⟩ := himplements
  exact htranslated.plain

namespace Locality

open Bytecode Machine

variable {α γ : Type} {s t : State} {b₁ b₂ : Heap} {β : Bond b₁ b₂} {depth : Nat} {v w : Value}

/-! ## Steps of two machines -/

variable {c : Prop}

section Lockstep

variable {ε : Type} {S : State → State → Prop} {P : α → α → Prop} {R : γ → γ → Prop}
  {k k' : α → EStateM ε State γ} {g g' : EStateM ε State α}

/-- Both machines have ended with results that are related, or with the same failure. -/
def Coupled {α : Type} (S : State → State → Prop) (R : α → α → Prop) :
    EStateM.Result ε State α → EStateM.Result ε State α → Prop
  | .ok a s, .ok b t => R a b ∧ S s t
  | .error e s, .error e' t => e = e' ∧ S s t
  | _, _ => False

/-- Two steps keep machines related, and have related results. -/
def Lockstep {α : Type} (S : State → State → Prop) (R : α → α → Prop) (g g' : EStateM ε State α) :
    Prop :=
  ∀ s t, S s t → Coupled S R (g s) (g' t)

theorem Coupled.ends {x y : EStateM.Result ε State α} (h : Coupled S P x y) :
    (∃ a b s t, x = .ok a s ∧ y = .ok b t ∧ P a b ∧ S s t) ∨ ∃ e s t, x = .error e s ∧
    y = .error e t ∧ S s t := by
  cases x with
  | ok a s =>
    cases y with
    | ok b t => exact .inl ⟨a, b, s, t, rfl, rfl, h⟩
    | error e t => exact h.elim
  | error e s =>
    cases y with
    | ok b t => exact h.elim
    | error e' t =>
      obtain ⟨rfl, hs⟩ := h
      exact .inr ⟨e, s, t, rfl, rfl, hs⟩

theorem Coupled.bind (h : Coupled S P (g s) (g' t))
    (hk : ∀ a b, P a b → Lockstep S R (k a) (k' b)) :
    Coupled S R ((g >>= k) s) ((g' >>= k') t) := by
  rcases h.ends with ⟨a, b, s', t', hx, hy, hab, hs⟩ | ⟨e, s', t', hx, hy, hs⟩
  · rw [bind_of_ok hx, bind_of_ok hy]
    exact hk a b hab s' t' hs
  · rw [bind_of_error hx, bind_of_error hy]
    exact ⟨rfl, hs⟩

theorem Lockstep.bind (h : Lockstep S P g g') (hk : ∀ a b, P a b → Lockstep S R (k a) (k' b)) :
    Lockstep S R (g >>= k) (g' >>= k') :=
  fun s t hs ↦ (h s t hs).bind hk

theorem lockstep_pure {a b : α} (h : P a b) : Lockstep S P (pure a : EStateM ε State α) (pure b) :=
  fun _ _ hs ↦ ⟨h, hs⟩

theorem lockstep_fault (c : Cause) : Lockstep S P (fault c : Exec α) (fault c) :=
  fun _ _ hs ↦ ⟨rfl, hs⟩

theorem lockstep_throw (e : ε) : Lockstep S P (throw e : EStateM ε State α) (throw e) :=
  fun _ _ hs ↦ ⟨rfl, hs⟩

theorem lockstep_get {k k' : State → EStateM ε State γ}
    (h : ∀ s t, S s t → Lockstep S R (k s) (k' t)) : Lockstep S R (get >>= k) (get >>= k') :=
  fun s t hs ↦ h s t hs s t hs

theorem lockstep_modify {f f' : State → State} (h : ∀ s t, S s t → S (f s) (f' t)) :
    Lockstep S (fun _ _ ↦ True) (modify f : EStateM ε State PUnit) (modify f') :=
  fun s t hs ↦ ⟨trivial, h s t hs⟩

theorem lockstep_ite [Decidable c] {g g' k k' : EStateM ε State γ} (hg : Lockstep S R g g')
    (hk : Lockstep S R k k') : Lockstep S R (if c then g else k) (if c then g' else k') := by
  split
  · exact hg
  · exact hk

theorem lockstep_check [Decidable c] {x x' : EStateM ε State PUnit} {g g' : EStateM ε State γ}
    (hx : Lockstep S (fun _ _ ↦ True) x x') (hg : Lockstep S R g g') :
    Lockstep S R (if c then x >>= fun _ ↦ g else g) (if c then x' >>= fun _ ↦ g' else g') :=
  lockstep_ite (hx.bind fun _ _ _ ↦ hg) hg

theorem lockstep_entry {xs ys : Array α} (h : Pointwise P xs ys) (i : Nat) :
    Lockstep S P (entry xs i) (entry ys i) := by
  intro s t hs
  rw [entry, entry, h.size]
  rcases rel_cases (h.rel i) with ⟨hx, hy⟩ | ⟨a, b, hx, hy, hab⟩
  · rw [hx, hy]
    exact ⟨rfl, hs⟩
  · rw [hx, hy]
    exact ⟨hab, hs⟩

theorem lockstep_entry_same (xs : Array α) (i : Nat) :
    Lockstep S (fun a b ↦ a = b ∧ a ∈ xs) (entry xs i) (entry xs i) :=
  lockstep_entry (.of_eq fun _ ha ↦ ⟨rfl, ha⟩) i

end Lockstep

/-! ## Slots -/

/-- Slots in use are related, and the others are the same.  The others matter since a fault can be
located at a frame that has been left. -/
structure SlotsLike {α : Type} [Inhabited α] {n : Nat} (R : Nat → α → α → Prop) (x y : Slots α n) :
    Prop where
  top : x.top = y.top
  used : ∀ {i : Nat} {a b : α}, i < x.top → x.cells.toArray[i]? = some a →
    y.cells.toArray[i]? = some b → R i a b
  free : ∀ {i : Nat}, x.top ≤ i → x.cells.toArray[i]? = y.cells.toArray[i]?

variable {i : Nat}

section Slots

variable [Inhabited α] {n : Nat} {R : Nat → α → α → Prop} {x y : Slots α n} {a b : α}

theorem mem_contents (hi : i < x.top) (ha : x.cells.toArray[i]? = some a) : a ∈ x.contents := by
  have hget : x.toList[i]? = some a := by
    rw [Slots.toList, List.getElem?_take_of_lt hi]
    exact Array.getElem?_toList.trans ha
  exact List.mem_reverse.2 (List.mem_of_getElem? hget)

theorem slotsLike_refl (h : ∀ i a, i < x.top → a ∈ x.contents → R i a a) : SlotsLike R x x where
  top := rfl
  used hi ha hb := by
    cases ha.symm.trans hb
    exact h _ _ hi (mem_contents hi ha)
  free _ := rfl

section

variable (h : SlotsLike R x y)

include h

theorem SlotsLike.rel (hi : i < x.top) :
    Option.Rel (R i) x.cells.toArray[i]? y.cells.toArray[i]? := by
  have hn : i < n := Nat.lt_of_lt_of_le hi x.top_le
  have hx := Array.getElem?_eq_getElem (Nat.lt_of_lt_of_eq hn x.cells.size_toArray.symm)
  have hy := Array.getElem?_eq_getElem (Nat.lt_of_lt_of_eq hn y.cells.size_toArray.symm)
  rw [hx, hy]
  exact .some (h.used hi hx hy)

theorem SlotsLike.push (hx : x.top < n) (hy : y.top < n) (hab : R x.top a b) :
    SlotsLike R (x.push a hx) (y.push b hy) where
  top := congrArg (· + 1) h.top
  used {i c d} hi hc hd := by
    have hi : i < x.top + 1 := hi
    rw [Slots.getElem?_push] at hc hd
    rw [← h.top] at hd
    by_cases heq : x.top = i
    · rw [if_pos heq] at hc hd
      cases hc
      cases hd
      exact heq ▸ hab
    · rw [if_neg heq] at hc hd
      exact h.used (by omega) hc hd
  free {i} hi := by
    have hi : x.top + 1 ≤ i := hi
    rw [Slots.getElem?_push, Slots.getElem?_push, ← h.top, if_neg (by omega), if_neg (by omega)]
    exact h.free (by omega)

theorem SlotsLike.peek (hx : 0 < x.top) (hy : 0 < y.top) :
    R (x.top - 1) (x.peek hx) (y.peek hy) := by
  refine h.used (by omega) (Slots.getElem?_peek x hx) ?_
  rw [h.top]
  exact Slots.getElem?_peek y hy

theorem SlotsLike.pop (hx : 0 < x.top) (hy : 0 < y.top) : SlotsLike R (x.pop hx) (y.pop hy) where
  top := congrArg (· - 1) h.top
  used {i c d} hi hc hd := by
    have hi : i < x.top - 1 := hi
    rw [Slots.getElem?_pop, if_neg (by omega)] at hc
    rw [Slots.getElem?_pop, ← h.top, if_neg (by omega)] at hd
    exact h.used (by omega) hc hd
  free {i} hi := by
    have hi : x.top - 1 ≤ i := hi
    rw [Slots.getElem?_pop, Slots.getElem?_pop, ← h.top]
    split
    · rfl
    · exact h.free (by omega)

theorem SlotsLike.popMany (k : Nat) : SlotsLike R (x.popMany k) (y.popMany k) := by
  induction k generalizing x y with
  | zero => exact h
  | succ k ih =>
    rw [Slots.popMany, Slots.popMany]
    by_cases hx : 0 < x.top
    · have hy : 0 < y.top := h.top ▸ hx
      rw [dif_pos hx, dif_pos hy]
      exact ih (h.pop hx hy)
    · have hy : ¬0 < y.top := h.top ▸ hx
      rw [dif_neg hx, dif_neg hy]
      exact h

theorem SlotsLike.dropTo (k : Nat) : SlotsLike R (x.dropTo k) (y.dropTo k) := by
  rw [Slots.dropTo, Slots.dropTo, h.top]
  exact h.popMany _

theorem SlotsLike.modifyTop {f g : α → α} (hR : ∀ i a b, R i a b → R i (f a) (g b)) :
    SlotsLike R (x.modifyTop f) (y.modifyTop g) := by
  by_cases hx : x.top = 0
  · rw [Slots.modifyTop, Slots.modifyTop, if_pos hx, if_pos (h.top ▸ hx)]
    exact h
  · have hy : ¬y.top = 0 := h.top ▸ hx
    have htop := x.top_modifyTop f
    refine ⟨htop.trans (h.top.trans (y.top_modifyTop g).symm), fun {i c d} hi hc hd ↦ ?_,
      fun {i} hi ↦ ?_⟩
    · rw [htop] at hi
      rw [Slots.getElem?_modifyTop _ hx] at hc
      rw [Slots.getElem?_modifyTop _ hy, ← h.top] at hd
      by_cases heq : x.top - 1 = i
      · rw [if_pos heq] at hc hd
        obtain ⟨c', hc', rfl⟩ := Option.map_eq_some_iff.1 hc
        obtain ⟨d', hd', rfl⟩ := Option.map_eq_some_iff.1 hd
        exact hR i c' d' (h.used hi hc' hd')
      · rw [if_neg heq] at hc hd
        exact h.used hi hc hd
    · rw [htop] at hi
      rw [Slots.getElem?_modifyTop _ hx, Slots.getElem?_modifyTop _ hy, ← h.top, if_neg (by omega),
        if_neg (by omega)]
      exact h.free hi

end

end Slots

/-! ## States -/

/-- Frames of the same procedure at the same place, whose variables are alike. -/
structure FrameLike (ρ : Ref → Ref → Prop) (f g : Frame) : Prop where
  routine : f.routine = g.routine
  ip : f.ip = g.ip
  base : f.base = g.base
  this : Option.Rel (fun a b ↦ ρ (.object a) (.object b)) f.this g.this
  constructs : f.constructs = g.constructs
  locals : Pointwise (ValueLike ρ) f.locals.toArray g.locals.toArray

/-- Two machines are alike, and all code above `depth` frames is tame.  The first one has touched no
cell that is in no pair. -/
structure StateLike {b₁ b₂ : Heap} (β : Bond b₁ b₂) (depth : Nat) (s t : State) : Prop where
  stack : SlotsLike (fun _ ↦ ValueLike β.pairs) s.stack t.stack
  frames : SlotsLike (fun i ↦ Option.Rel fun f g ↦ FrameLike β.pairs f g ∧
    (depth ≤ i → f.routine.Tame)) s.frames t.frames
  host : s.host = t.host
  gasLimit : s.gasLimit = t.gasLimit
  output : s.output = t.output
  heap : HeapLike β s.heap t.heap
  untouched : Untouched β.pairs b₁ s.heap

/-- Two steps keep machines alike, whatever their results are. -/
abbrev Abreast {ε α : Type} {b₁ b₂ : Heap} (β : Bond b₁ b₂) (depth : Nat)
    (g g' : EStateM ε State α) : Prop :=
  Lockstep (StateLike β depth) (fun _ _ ↦ True) g g'

variable {ρ : Ref → Ref → Prop}

section States

variable {f g : Frame}

theorem valueLike_of_plain (h : v.Plain) : ValueLike ρ v v := by
  rcases h with ⟨-, hpayload⟩ | ⟨s, rfl⟩
  · exact valueLike_of_none hpayload
  · exact valueLike_ofString s

theorem FrameLike.self (h : FrameLike ρ f g) : ValueLike ρ f.self g.self := by
  rw [Frame.self, Frame.self]
  rcases rel_cases h.this with ⟨hf, hg⟩ | ⟨a, b, hf, hg, hab⟩
  · rw [hf, hg]
    exact valueLike_of_none rfl
  · rw [hf, hg]
    exact ⟨rfl, rfl, .object hab⟩

theorem push_lockstep (h : ValueLike β.pairs v w) : Abreast β depth (push v) (push w) := by
  intro s t hs
  rw [push, push]
  by_cases hx : s.stack.top < stackDepth
  · have hy : t.stack.top < stackDepth := hs.stack.top ▸ hx
    rw [dif_pos hx, dif_pos hy]
    exact ⟨trivial, { hs with stack := hs.stack.push hx hy h }⟩
  · have hy : ¬t.stack.top < stackDepth := hs.stack.top ▸ hx
    rw [dif_neg hx, dif_neg hy]
    exact ⟨rfl, hs⟩

theorem pop_lockstep : Lockstep (StateLike β depth) (ValueLike β.pairs) pop pop := by
  intro s t hs
  rw [pop, pop]
  by_cases hx : 0 < s.stack.top
  · have hy : 0 < t.stack.top := hs.stack.top ▸ hx
    rw [dif_pos hx, dif_pos hy]
    exact ⟨hs.stack.peek hx hy, { hs with stack := hs.stack.pop hx hy }⟩
  · have hy : ¬0 < t.stack.top := hs.stack.top ▸ hx
    rw [dif_neg hx, dif_neg hy]
    exact ⟨rfl, hs⟩

theorem write_lockstep (text : String) : Abreast β depth (write text) (write text) :=
  lockstep_modify fun _ _ hs ↦ { hs with output := congrArg (· ++ text) hs.output }

theorem frame_coupled (hs : StateLike β depth s t) (hdepth : depth < s.frames.top) :
    Coupled (StateLike β depth) (fun f g ↦ FrameLike β.pairs f g ∧ f.routine.Tame) (frame s)
    (frame t) := by
  have hx : 0 < s.frames.top := Nat.zero_lt_of_lt hdepth
  have hy : 0 < t.frames.top := hs.frames.top ▸ hx
  rw [frame, frame, dif_pos hx, dif_pos hy]
  rcases rel_cases (hs.frames.peek hx hy) with ⟨hf, hg⟩ | ⟨f, g, hf, hg, hlike, htame⟩
  · rw [hf, hg]
    exact ⟨rfl, hs⟩
  · rw [hf, hg]
    exact ⟨⟨hlike, htame (by omega)⟩, hs⟩

/-- A change of the active frame, other than of its procedure. -/
theorem modifyFrame_lockstep {F G : Frame → Frame} (hroutine : ∀ f, (F f).routine = f.routine)
    (h : ∀ f g, FrameLike β.pairs f g → FrameLike β.pairs (F f) (G g)) :
    Abreast β depth (modifyFrame F) (modifyFrame G) := by
  refine lockstep_modify fun s t hs ↦ { hs with frames := hs.frames.modifyTop fun i f? g? hfg ↦ ?_ }
  cases hfg with
  | none => exact .none
  | some hfg =>
    refine .some ⟨h _ _ hfg.1, fun hi ↦ ?_⟩
    rw [hroutine]
    exact hfg.2 hi

theorem advance_lockstep : Abreast β depth advance advance :=
  modifyFrame_lockstep (fun _ ↦ rfl) fun _ _ h ↦ { h with ip := congrArg (· + 1) h.ip }

theorem jumpTo_lockstep (ip : Nat) : Abreast β depth (jumpTo ip) (jumpTo ip) :=
  modifyFrame_lockstep (fun _ ↦ rfl) fun _ _ h ↦ { h with ip := rfl }

theorem enter_lockstep {r : Routine} (hr : r.Tame) {this this' : Option Nat} (constructs : Bool)
    (hthis : Option.Rel (fun a b ↦ β.pairs (.object a) (.object b)) this this') :
    Abreast β depth (enter r this constructs) (enter r this' constructs) := by
  intro s t hs
  rw [enter, enter]
  by_cases hx : s.frames.top < maxFrames
  · have hy : t.frames.top < maxFrames := hs.frames.top ▸ hx
    rw [dif_pos hx, dif_pos hy]
    refine ⟨trivial, { hs with
      frames := hs.frames.push hx hy
        (.some ⟨⟨rfl, rfl, hs.stack.top, hthis, rfl, ?_⟩, fun _ ↦ hr⟩) }⟩
    refine .of_eq fun v hv ↦ ?_
    rw [Vector.toArray_replicate] at hv
    obtain rfl := Array.eq_of_mem_replicate hv
    exact valueLike_of_none rfl
  · have hy : ¬t.frames.top < maxFrames := hs.frames.top ▸ hx
    rw [dif_neg hx, dif_neg hy]
    exact ⟨rfl, hs⟩

theorem leave_lockstep : Abreast β depth leave leave :=
  lockstep_modify fun s t hs ↦ { hs with
    frames := by
      show SlotsLike _ (s.frames.dropTo (s.frames.top - 1)) (t.frames.dropTo (t.frames.top - 1))
      rw [hs.frames.top]
      exact hs.frames.dropTo _ }

theorem newObject_lockstep (cls : ClassRef) :
    Lockstep (StateLike β depth) (fun a b ↦ β.pairs (.object a) (.object b)) (newObject cls)
    (newObject cls) :=
  fun _ _ hs ↦ ⟨hs.heap.nextObject, { hs with
    heap := hs.heap.addObject (freshObject_like cls)
    untouched := hs.untouched.addObject hs.heap.nextObject _ }⟩

theorem newArray_lockstep (elem : Ty) (n : Nat) :
    Lockstep (StateLike β depth) (ValueLike β.pairs) (newArray elem n) (newArray elem n) :=
  fun _ _ hs ↦ ⟨⟨rfl, rfl, .array hs.heap.nextArray⟩, { hs with
    heap := hs.heap.addArray (freshArray_like elem n)
    untouched := hs.untouched.addArray hs.heap.nextArray _ }⟩

end States

/-! ## Instructions -/

section Instructions

variable {arg : Nat} {f g : Frame}

theorem push_advance_lockstep (h : ValueLike β.pairs v w) :
    Abreast β depth (push v >>= fun _ ↦ advance) (push w >>= fun _ ↦ advance) :=
  (push_lockstep h).bind fun _ _ _ ↦ advance_lockstep

theorem popNumbers_lockstep : Lockstep (StateLike β depth)
    (fun p q ↦ ValueLike β.pairs p.1 q.1 ∧ ValueLike β.pairs p.2 q.2) popNumbers popNumbers := by
  refine pop_lockstep.bind fun y y' hy ↦ pop_lockstep.bind fun x x' hx ↦ ?_
  rw [hx.tag, hy.tag]
  exact lockstep_check (lockstep_fault _) (lockstep_pure ⟨hx, hy⟩)

theorem popNumbers_bind_lockstep {R : γ → γ → Prop} {k k' : Value × Value → Exec γ}
    (h : ∀ x y x' y', ValueLike β.pairs x x' → ValueLike β.pairs y y' →
      Lockstep (StateLike β depth) R (k (x, y)) (k' (x', y'))) :
    Lockstep (StateLike β depth) R (popNumbers >>= k) (popNumbers >>= k') :=
  popNumbers_lockstep.bind fun _ _ hp ↦ h _ _ _ _ hp.1 hp.2

theorem objectOf_lockstep (h : ValueLike β.pairs v w) :
    Lockstep (StateLike β depth) (fun a b ↦ β.pairs (.object a) (.object b)) (objectOf v)
    (objectOf w) := by
  have hpayload := h.payload
  rw [objectOf, objectOf]
  generalize v.payload = p, w.payload = q at hpayload
  cases hpayload with
  | object hab => exact lockstep_pure hab
  | _ => exact lockstep_fault _

theorem objectCell_lockstep {a b : Nat} (h : β.pairs (.object a) (.object b)) :
    Lockstep (StateLike β depth) (ObjectLike β.pairs) (objectCell a) (objectCell b) := by
  refine lockstep_get fun s t hs ↦ ?_
  rcases rel_cases (hs.heap.objects h) with ⟨hc, hd⟩ | ⟨c, d, hc, hd, hcell⟩
  · rw [hc, hd]
    exact lockstep_fault _
  · rw [hc, hd]
    exact lockstep_pure hcell

theorem itemOf_lockstep (h : ValueLike β.pairs v w) (index : Int64) :
    Lockstep (StateLike β depth) (fun p q ↦ β.pairs (.array p.1) (.array q.1) ∧ p.2 = q.2)
      (itemOf v index) (itemOf w index) := by
  have hpayload := h.payload
  rw [itemOf, itemOf]
  generalize v.payload = p, w.payload = q at hpayload
  cases hpayload with
  | array hab =>
    refine lockstep_get fun s t hs ↦ ?_
    rcases rel_cases (hs.heap.arrays hab) with ⟨hc, hd⟩ | ⟨c, d, hc, hd, hcell⟩
    · simp only [hc, hd]
      exact lockstep_fault _
    · simp only [hc, hd, hcell.items.size]
      exact lockstep_check (lockstep_fault _) (lockstep_pure ⟨hab, rfl⟩)
  | _ => exact lockstep_fault _

theorem loadField_lockstep : Abreast β depth (loadField arg) (loadField arg) :=
  pop_lockstep.bind fun _ _ ho ↦ (objectOf_lockstep ho).bind fun _ _ hab ↦
    (objectCell_lockstep hab).bind fun _ _ hcell ↦ (lockstep_entry hcell.fields arg).bind
    fun _ _ hv ↦
      push_lockstep hv

theorem storeField_lockstep : Abreast β depth (storeField arg) (storeField arg) := by
  refine pop_lockstep.bind fun v w hv ↦ pop_lockstep.bind fun o o' ho ↦
    (objectOf_lockstep ho).bind fun a b hab ↦ (objectCell_lockstep hab).bind fun c d hcell ↦ ?_
  rw [hcell.fields.size]
  exact lockstep_check (lockstep_fault _) (lockstep_modify fun s t hs ↦ { hs with
    heap := hs.heap.setField hab arg hv
    untouched := hs.untouched.setField hab arg v })

theorem loadItem_lockstep : Abreast β depth loadItem loadItem := by
  refine pop_lockstep.bind fun i i' hi ↦ pop_lockstep.bind fun v w hv ↦ ?_
  rw [hi.toInt]
  refine (itemOf_lockstep hv _).bind ?_
  rintro ⟨a, k⟩ ⟨b, k'⟩ ⟨hab, hk⟩
  obtain rfl : k = k' := hk
  refine lockstep_get fun s t hs ↦ ?_
  have hitem : Option.Rel (ValueLike β.pairs) (s.heap.arrays[a]?.bind (·.items[k]?))
      (t.heap.arrays[b]?.bind (·.items[k]?)) := by
    rcases rel_cases (hs.heap.arrays hab) with ⟨hc, hd⟩ | ⟨c, d, hc, hd, hcell⟩
    · rw [hc, hd]
      exact .none
    · rw [hc, hd]
      exact hcell.items.rel k
  rcases rel_cases hitem with ⟨hx, hy⟩ | ⟨x, y, hx, hy, hxy⟩
  · simp only [hx, hy]
    exact lockstep_fault _
  · simp only [hx, hy]
    exact push_lockstep hxy

theorem storeItem_lockstep : Abreast β depth storeItem storeItem := by
  refine pop_lockstep.bind fun v w hv ↦ pop_lockstep.bind fun i i' hi ↦
    pop_lockstep.bind fun x y hx ↦ ?_
  rw [hi.toInt]
  refine (itemOf_lockstep hx _).bind ?_
  rintro ⟨a, k⟩ ⟨b, k'⟩ ⟨hab, hk⟩
  obtain rfl : k = k' := hk
  exact lockstep_modify fun s t hs ↦ { hs with
    heap := hs.heap.setItem hab k hv
    untouched := hs.untouched.setItem hab k v }

theorem allocateArray_lockstep (types : Array Ty) :
    Abreast β depth (allocateArray types arg) (allocateArray types arg) := by
  refine pop_lockstep.bind fun n n' hn ↦ ?_
  rw [hn.toInt]
  refine lockstep_check (lockstep_fault _) (lockstep_check (lockstep_fault _) ?_)
  refine (lockstep_entry_same types arg).bind ?_
  rintro t _ ⟨rfl, -⟩
  cases t with
  | array elem => exact (newArray_lockstep elem _).bind fun _ _ hv ↦ push_lockstep hv
  | _ => exact lockstep_fault _

theorem callHost_lockstep (h : HostFunction) : Abreast β depth (callHost h) (callHost h) := by
  cases h with
  | print | echo =>
    refine pop_lockstep.bind fun v w hv ↦ lockstep_get fun s t hs ↦ ?_
    rw [format_like hs.heap hv]
    exact write_lockstep _
  | fail text => exact lockstep_fault _
  | abort text => exact lockstep_throw _
  | absent => exact lockstep_fault _

theorem ownerOf_lockstep (r : Routine) :
    Lockstep (StateLike β depth) (fun c d ↦ c = d ∧ r.owner = some c) (ownerOf r) (ownerOf r) := by
  rw [ownerOf]
  cases howner : r.owner with
  | none => exact lockstep_fault _
  | some c => exact lockstep_pure ⟨rfl, rfl⟩

theorem callMethod_lockstep (hf : FrameLike β.pairs f g) (htame : f.routine.Tame) :
    Abreast β depth (callMethod f arg) (callMethod g arg) := by
  rw [callMethod, callMethod, ← hf.routine]
  refine (ownerOf_lockstep _).bind ?_
  rintro c _ ⟨rfl, howner⟩
  refine (lockstep_entry_same _ arg).bind ?_
  rintro callee _ ⟨rfl, hcallee⟩
  have hcode := (htame.owner c howner).routine (.inr hcallee)
  exact lockstep_check (lockstep_fault _) (advance_lockstep.bind fun _ _ _ ↦
    enter_lockstep hcode false hf.this)

theorem construct_lockstep (hf : FrameLike β.pairs f g) (htame : f.routine.Tame) :
    Abreast β depth (construct f arg) (construct g arg) := by
  rw [construct, construct, ← hf.routine]
  refine (ownerOf_lockstep _).bind ?_
  rintro c _ ⟨rfl, howner⟩
  dsimp only
  cases hcls : c.home.classAt? arg with
  | none => exact lockstep_fault _
  | some cls =>
    dsimp only
    have hhome : cls.home.Tame := by
      rw [CompiledModule.home_of_classAt? hcls]
      exact htame.owner c howner
    cases hcode : cls.get.constructors[0]? with
    | none => exact lockstep_check (lockstep_fault _) (lockstep_fault _)
    | some code =>
      have hroutine := hhome.routine (.inl (Array.mem_of_getElem? hcode))
      exact lockstep_check (lockstep_fault _) (advance_lockstep.bind fun _ _ _ ↦
        (newObject_lockstep cls).bind fun _ _ hab ↦ enter_lockstep hroutine true (.some hab))

theorem returnFrom_lockstep (hf : FrameLike β.pairs f g) (withResult : Bool) :
    Abreast β depth (returnFrom f withResult) (returnFrom g withResult) := by
  have hself : Abreast β depth
      (if f.constructs then push f.self else pure ())
      (if g.constructs then push g.self else pure ()) := by
    rw [hf.constructs]
    exact lockstep_ite (push_lockstep hf.self) (lockstep_pure trivial)
  have hcut : Abreast β depth
      (modify fun s ↦ { s with stack := s.stack.dropTo f.base } : Exec PUnit)
      (modify fun s ↦ { s with stack := s.stack.dropTo g.base }) := by
    rw [hf.base]
    exact lockstep_modify fun s t hs ↦ { hs with stack := hs.stack.dropTo _ }
  cases withResult with
  | false => exact hcut.bind fun _ _ _ ↦ leave_lockstep.bind fun _ _ _ ↦ hself
  | true =>
    have hresult : Lockstep (StateLike β depth) (Option.Rel (ValueLike β.pairs)) (some <$> pop)
      (some <$> pop) := pop_lockstep.bind fun _ _ h ↦ lockstep_pure (.some h)
    refine hresult.bind fun r r' hr ↦ hcut.bind fun _ _ _ ↦ leave_lockstep.bind fun _ _ _ ↦ ?_
    cases hr with
    | none => exact hself
    | some hv => exact (push_lockstep hv).bind fun _ _ _ ↦ hself

/-- **Two machines execute the same operation in lockstep.** -/
theorem execute_lockstep (hf : FrameLike β.pairs f g) (htame : f.routine.Tame) (op : Op) :
    Abreast β depth (execute f op arg) (execute g op arg) := by
  cases op with
  | noop => exact advance_lockstep
  | pushConst =>
    rw [execute, execute, ← hf.routine]
    refine (lockstep_entry_same _ arg).bind ?_
    rintro c _ ⟨rfl, hc⟩
    exact push_advance_lockstep (valueLike_of_plain (htame.code c hc))
  | pushLocal => exact (lockstep_entry hf.locals arg).bind fun _ _ hv ↦ push_advance_lockstep hv
  | popLocal =>
    refine pop_lockstep.bind fun v w hv ↦ ?_
    by_cases harg : arg < maxLocals
    · rw [dif_pos harg, dif_pos harg]
      refine modifyFrame_lockstep (fun _ ↦ rfl) fun _ _ h ↦ { h with
        ip := congrArg (· + 1) h.ip
        locals := ?_ }
      have hset := h.locals.set arg hv
      rw [Vector.toArray_set, Vector.toArray_set]
      simpa [Array.setIfInBounds, harg] using hset
    · rw [dif_neg harg, dif_neg harg]
      exact lockstep_fault _
  | pushThis => exact push_advance_lockstep hf.self
  | dup =>
    exact pop_lockstep.bind fun _ _ hv ↦ (push_lockstep hv).bind fun _ _ _ ↦
      push_advance_lockstep hv
  | drop => exact pop_lockstep.bind fun _ _ _ ↦ advance_lockstep
  | swap =>
    exact pop_lockstep.bind fun _ _ hy ↦ pop_lockstep.bind fun _ _ hx ↦
      (push_lockstep hy).bind fun _ _ _ ↦ push_advance_lockstep hx
  | convert =>
    rw [execute, execute, ← hf.routine]
    refine pop_lockstep.bind fun v w hv ↦ (lockstep_entry_same _ arg).bind ?_
    rintro t _ ⟨rfl, -⟩
    refine lockstep_get fun s s' hs ↦ ?_
    rcases rel_cases (convert?_like hs.heap hv t) with ⟨hx, hy⟩ | ⟨x, y, hx, hy, hxy⟩
    · rw [hx, hy, hv.tag]
      exact (lockstep_fault _).bind fun _ _ (_ : True) ↦ advance_lockstep
    · rw [hx, hy]
      exact push_advance_lockstep hxy
  | loadField => exact loadField_lockstep.bind fun _ _ _ ↦ advance_lockstep
  | storeField => exact storeField_lockstep.bind fun _ _ _ ↦ advance_lockstep
  | loadItem => exact loadItem_lockstep.bind fun _ _ _ ↦ advance_lockstep
  | storeItem => exact storeItem_lockstep.bind fun _ _ _ ↦ advance_lockstep
  | intArith a =>
    refine popNumbers_bind_lockstep fun x y x' y' hx hy ↦ ?_
    dsimp only
    rw [hx.toInt, hy.toInt]
    cases intArith a x'.toInt y'.toInt with
    | none => exact (lockstep_fault _).bind fun _ _ (_ : True) ↦ advance_lockstep
    | some r => exact push_advance_lockstep (valueLike_of_none rfl)
  | floatArith a =>
    refine popNumbers_bind_lockstep fun x y x' y' hx hy ↦ ?_
    dsimp only
    rw [hx.toFloat, hy.toFloat]
    refine push_advance_lockstep ?_
    split
    · exact valueLike_of_none rfl
    · exact valueLike_of_none rfl
  | equal | notEqual =>
    refine pop_lockstep.bind fun y y' hy ↦ pop_lockstep.bind fun x x' hx ↦ ?_
    rw [same_like β.unique hx hy]
    exact push_advance_lockstep (valueLike_of_none rfl)
  | greater =>
    refine popNumbers_bind_lockstep fun x y x' y' hx hy ↦ ?_
    dsimp only
    rw [hy.less hx]
    exact push_advance_lockstep (valueLike_of_none rfl)
  | less =>
    refine popNumbers_bind_lockstep fun x y x' y' hx hy ↦ ?_
    dsimp only
    rw [hx.less hy]
    exact push_advance_lockstep (valueLike_of_none rfl)
  | not =>
    refine pop_lockstep.bind fun v w hv ↦ ?_
    rw [hv.truth]
    exact push_advance_lockstep (valueLike_of_none rfl)
  | jump => exact jumpTo_lockstep arg
  | jumpFalse =>
    refine pop_lockstep.bind fun v w hv ↦ ?_
    rw [hv.truth]
    exact lockstep_ite advance_lockstep (jumpTo_lockstep arg)
  | call => exact callMethod_lockstep hf htame
  | ret => exact returnFrom_lockstep hf _
  | new => exact construct_lockstep hf htame
  | newArray =>
    rw [execute, execute, ← hf.routine]
    exact (allocateArray_lockstep _).bind fun _ _ _ ↦ advance_lockstep
  | hostCall =>
    refine lockstep_get fun s t hs ↦ ?_
    rw [hs.host]
    cases t.host[arg]? with
    | none => exact (lockstep_fault _).bind fun _ _ (_ : True) ↦ advance_lockstep
    | some h => exact (callHost_lockstep h).bind fun _ _ _ ↦ advance_lockstep

end Instructions

/-! ## Runs -/

/-- **One instruction on two machines.** -/
theorem step_coupled (hs : StateLike β depth s t) (hdepth : depth < s.frames.top) :
    Coupled (StateLike β depth) (fun _ _ ↦ True) (step s) (step t) := by
  refine (frame_coupled hs hdepth).bind ?_
  rintro f g ⟨hf, htame⟩
  rw [← hf.routine, ← hf.ip]
  refine (lockstep_entry_same _ f.ip).bind ?_
  rintro w _ ⟨rfl, -⟩
  cases Op.ofByte? w.opByte with
  | none => exact lockstep_fault _
  | some op => exact execute_lockstep hf htame op

theorem locate_eq (hs : StateLike β depth s t) (i : Nat) (c : Cause) :
    locate i c s = locate i c t := by
  have hplace : (s.frames.cells[i]?.join).map Frame.place =
    (t.frames.cells[i]?.join).map Frame.place := by
    rw [← Vector.getElem?_toArray, ← Vector.getElem?_toArray]
    rcases Nat.lt_or_ge i s.frames.top with hi | hi
    · rcases rel_cases (hs.frames.rel hi) with ⟨hx, hy⟩ | ⟨f?, g?, hx, hy, hfg⟩
      · rw [hx, hy]
      · rw [hx, hy]
        cases hfg with
        | none => rfl
        | some hfg =>
          show some (Frame.place _) = some (Frame.place _)
          rw [Frame.place, Frame.place, hfg.1.routine, hfg.1.ip]
    · rw [hs.frames.free hi]
  rw [locate, locate, hplace]

/-- **Two machines run in lockstep.** -/
theorem run_coupled {floor : Nat} (hfloor : depth ≤ floor) (gas : Nat)
    (hs : StateLike β depth s t) :
    Coupled (StateLike β depth) (fun _ _ ↦ True) (run floor gas s) (run floor gas t) := by
  induction gas generalizing s t with
  | zero =>
    rw [run, run, ← hs.frames.top]
    split
    · exact ⟨trivial, hs⟩
    · exact ⟨congrArg Stop.fault (locate_eq hs _ _), hs⟩
  | succ gas ih =>
    rw [run, run, ← hs.frames.top]
    split
    · exact ⟨trivial, hs⟩
    · rename_i htop
      rcases (step_coupled hs (Nat.lt_of_le_of_lt hfloor (Nat.lt_of_not_le htop))).ends with
        ⟨_, _, s', t', hx, hy, -, hs'⟩ | ⟨e, s', t', hx, hy, hs'⟩
      · rw [hx, hy]
        exact ih hs'
      · rw [hx, hy]
        refine ⟨?_, hs'⟩
        cases e with
        | fault c => exact congrArg Stop.fault (locate_eq hs' _ _)
        | abort text => rfl

end Locality

end ClassAsm
