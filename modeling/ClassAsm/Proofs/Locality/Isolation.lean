import ClassAsm.Proofs.Locality.Lockstep
import ClassAsm.Proofs.Machine.HostCalls

/-!
# Calls are local

A call sees and changes only what it can reach: the cells that its object leads to through fields
and items (`Reachable`), and the cells that it makes.  It leaves all others as they are, and it does
the same whatever they hold.  A constructor starts from nothing.  `Confined` says so of a call.

Both parts follow from one fact (`confined_of_coupled`), that machines run in lockstep on heaps that
agree on what can be reached.  For the first part both machines have the same heap, and the pairs
leave out what cannot be reached; then no address changes its name, also if it is the address of no
cell.
-/

namespace ClassAsm

open Bytecode Machine

/-! ## What can be reached -/

/-- The cells that can be reached from values through the items of arrays and the fields of
objects. -/
inductive Reachable (h : Heap) (roots : List Value) : Ref → Prop where
  | root {v : Value} {r : Ref} : v ∈ roots → v.ref? = some r → Reachable h roots r
  | item {a : Nat} {c : ArrayCell} {v : Value} {r : Ref} : Reachable h roots (.array a) →
      h.arrays[a]? = some c → v ∈ c.items → v.ref? = some r → Reachable h roots r
  | field {a : Nat} {c : ObjectCell} {v : Value} {r : Ref} : Reachable h roots (.object a) →
      h.objects[a]? = some c → v ∈ c.fields → v.ref? = some r → Reachable h roots r

theorem not_reachable_nil {h : Heap} {r : Ref} : ¬Reachable h [] r := by
  intro hr
  induction hr with
  | root hv _ => cases hv
  | item _ _ _ _ ih => exact ih
  | field _ _ _ _ ih => exact ih

/-- The values of a frame: its object and its variables. -/
def Machine.Frame.values (f : Frame) : List Value := f.self :: f.locals.toList

/-- The values that a machine holds, on its stack and in its frames.  A machine at rest holds
none. -/
def Machine.State.held (s : State) : List Value :=
  s.stack.contents ++ (s.frames.contents.filterMap id).flatMap Frame.values

theorem Machine.State.held_eq_nil {s : State} (hstack : s.stack.top = 0)
    (hframes : s.frames.top = 0) : s.held = [] := by
  have hstack : s.stack.contents = [] := by
    rw [← List.length_eq_zero_iff, Slots.length_contents, hstack]
  have hframes : s.frames.contents = [] := by
    rw [← List.length_eq_zero_iff, Slots.length_contents, hframes]
  rw [State.held, hstack, hframes]
  rfl

namespace Locality

variable {h h₁ h₂ : Heap} {a : Nat} {P : Ref → Prop} {roots : List Value} {s : State}

section Sharing

variable {r : Ref}

/-- The cells of `P` are the same in both heaps. -/
structure Agree (P : Ref → Prop) (h₁ h₂ : Heap) : Prop where
  arrays : ∀ {a : Nat}, P (.array a) → h₁.arrays[a]? = h₂.arrays[a]?
  objects : ∀ {a : Nat}, P (.object a) → h₁.objects[a]? = h₂.objects[a]?

/-- Both heaps have the cells of `P`, and they are the same. -/
structure Shared (P : Ref → Prop) (h₁ h₂ : Heap) : Prop extends Agree P h₁ h₂ where
  array_lt : ∀ {a : Nat}, P (.array a) → a < h₁.arrays.size
  object_lt : ∀ {a : Nat}, P (.object a) → a < h₁.objects.size

/-- A cell of `P` keeps its name, and a new cell is named by its number among the new ones. -/
inductive Renamed (P : Ref → Prop) (h₁ h₂ : Heap) : Ref → Ref → Prop where
  | shared {r : Ref} : P r → Renamed P h₁ h₂ r r
  | array (k : Nat) : Renamed P h₁ h₂ (.array (h₁.arrays.size + k)) (.array (h₂.arrays.size + k))
  | object (k : Nat) : Renamed P h₁ h₂ (.object (h₁.objects.size + k))
      (.object (h₂.objects.size + k))

theorem Shared.array_lt_right (h : Shared P h₁ h₂) (ha : P (.array a)) : a < h₂.arrays.size := by
  have heq := h.arrays ha
  rw [Array.getElem?_eq_getElem (h.array_lt ha)] at heq
  exact (Array.getElem?_eq_some_iff.1 heq.symm).1

theorem Shared.object_lt_right (h : Shared P h₁ h₂) (ha : P (.object a)) : a < h₂.objects.size := by
  have heq := h.objects ha
  rw [Array.getElem?_eq_getElem (h.object_lt ha)] at heq
  exact (Array.getElem?_eq_some_iff.1 heq.symm).1

theorem Shared.ne_array (h : Shared P h₁ h₂) (hr : P r) (k : Nat) :
    r ≠ .array (h₁.arrays.size + k) ∧ r ≠ .array (h₂.arrays.size + k) := by
  constructor
  · rintro rfl
    have := h.array_lt hr
    omega
  · rintro rfl
    have := h.array_lt_right hr
    omega

theorem Shared.ne_object (h : Shared P h₁ h₂) (hr : P r) (k : Nat) :
    r ≠ .object (h₁.objects.size + k) ∧ r ≠ .object (h₂.objects.size + k) := by
  constructor
  · rintro rfl
    have := h.object_lt hr
    omega
  · rintro rfl
    have := h.object_lt_right hr
    omega

/-- The bond of two heaps that share the cells of `P`. -/
def Bond.sharing (h : Shared P h₁ h₂) : Bond h₁ h₂ where
  pairs := Renamed P h₁ h₂
  unique {r₁ r₂ q₁ q₂} hr hq := by
    cases hr with
    | shared hr =>
      cases hq with
      | shared hq => exact Iff.rfl
      | array k => exact iff_of_false (h.ne_array hr k).1 (h.ne_array hr k).2
      | object k => exact iff_of_false (h.ne_object hr k).1 (h.ne_object hr k).2
    | array k =>
      cases hq with
      | shared hq => exact iff_of_false (h.ne_array hq k).1.symm (h.ne_array hq k).2.symm
      | array k' => simp
      | object k' => simp
    | object k =>
      cases hq with
      | shared hq => exact iff_of_false (h.ne_object hq k).1.symm (h.ne_object hq k).2.symm
      | array k' => simp
      | object k' => simp
  array := .array
  object := .object

/-- In one heap no cell gets another name, also if cells of `P` do not exist. -/
theorem Renamed.eq {q : Ref} (hr : Renamed P h h r q) : r = q := by
  cases hr <;> rfl

/-- The bond of a heap with itself. -/
def Bond.same (P : Ref → Prop) (h : Heap) : Bond h h where
  pairs := Renamed P h h
  unique hr hq := by rw [hr.eq, hq.eq]
  array := .array
  object := .object

/-- A value that leads to reachable cells only is like itself. -/
theorem valueLike_of_reachable {v : Value} (hv : ∀ r, v.ref? = some r → Reachable h₁ roots r) :
    ValueLike (Renamed (Reachable h₁ roots) h₁ h₂) v v :=
  valueLike_refl fun r hr ↦ .shared (hv r hr)

/-- **Heaps that agree on what can be reached are alike.** -/
theorem heapLike_of_agree {β : Bond h₁ h₂} (hβ : β.pairs = Renamed (Reachable h₁ roots) h₁ h₂)
    (hagree : Agree (Reachable h₁ roots) h₁ h₂) : HeapLike β h₁ h₂ where
  arrays {a b} hab := by
    rw [hβ] at hab ⊢
    cases hab with
    | shared hreach =>
      rw [← hagree.arrays hreach]
      cases hc : h₁.arrays[a]? with
      | none => exact .none
      | some c =>
        exact .some ⟨rfl, .of_eq fun v hv ↦ valueLike_of_reachable fun r hr ↦ .item hreach hc hv hr⟩
    | array k =>
      rw [Array.getElem?_eq_none (Nat.le_add_right _ _),
        Array.getElem?_eq_none (Nat.le_add_right _ _)]
      exact .none
  objects {a b} hab := by
    rw [hβ] at hab ⊢
    cases hab with
    | shared hreach =>
      rw [← hagree.objects hreach]
      cases hc : h₁.objects[a]? with
      | none => exact .none
      | some c =>
        exact .some ⟨rfl, .of_eq fun v hv ↦ valueLike_of_reachable fun r hr ↦
          .field hreach hc hv hr⟩
    | object k =>
      rw [Array.getElem?_eq_none (Nat.le_add_right _ _),
        Array.getElem?_eq_none (Nat.le_add_right _ _)]
      exact .none
  newArrays := ⟨0, rfl, rfl⟩
  newObjects := ⟨0, rfl, rfl⟩

/-- **A machine is like itself on another heap** that agrees on what it can reach. -/
theorem stateLike_of_agree {β : Bond s.heap h₂}
    (hβ : β.pairs = Renamed (Reachable s.heap roots) s.heap h₂)
    (hagree : Agree (Reachable s.heap roots) s.heap h₂) (hheld : ∀ v ∈ s.held, v ∈ roots) :
    StateLike β s.frames.top s { s with heap := h₂ } where
  stack := by
    rw [hβ]
    exact slotsLike_refl fun i v _ hv ↦
      valueLike_of_reachable fun r hr ↦ .root (hheld v (List.mem_append_left _ hv)) hr
  frames := by
    refine slotsLike_refl fun i f? hi hf? ↦ ?_
    cases f? with
    | none => exact .none
    | some f =>
      have hroots (v : Value) (hv : v ∈ f.values) : v ∈ roots :=
        hheld v (List.mem_append_right _
          (List.mem_flatMap.2 ⟨f, List.mem_filterMap.2 ⟨_, hf?, rfl⟩, hv⟩))
      refine .some ⟨⟨rfl, rfl, rfl, ?_, rfl, ?_⟩, fun hle ↦ absurd hi (Nat.not_lt_of_le hle)⟩
      · cases hthis : f.this with
        | none => exact .none
        | some a =>
          have hself : f.self = .ofObject a := by rw [Frame.self, hthis]
          refine .some ?_
          rw [hβ]
          exact .shared (.root (hroots _ (List.mem_cons_self ..)) (by rw [hself]; rfl))
      · rw [hβ]
        refine .of_eq fun v hv ↦ valueLike_of_reachable fun r hr ↦ .root (hroots v ?_) hr
        exact List.mem_cons_of_mem _ (by simpa using hv)
  host := rfl
  gasLimit := rfl
  output := rfl
  heap := heapLike_of_agree hβ hagree
  untouched := .refl _ _

end Sharing

/-! ## Calls in lockstep -/

variable {S : State → State → Prop}

section Calls

variable {β : Bond h₁ h₂} {depth : Nat} {t : State} {r : Routine} {cls : ClassRef}

theorem direct_lockstep {α : Type} {R : α → α → Prop} {g g' : Exec α} (h : Lockstep S R g g') :
    Lockstep S R (direct g) (direct g') := by
  intro s t hs
  rw [direct, direct]
  rcases (h s t hs).ends with ⟨a, b, s', t', hx, hy, hab, hs'⟩ | ⟨e, s', t', hx, hy, hs'⟩
  · rw [hx, hy]
    exact ⟨hab, hs'⟩
  · rw [hx, hy]
    exact ⟨rfl, hs'⟩

/-- The host cuts both machines back after a fault. -/
theorem runEntered_lockstep {floor base : Nat} (hfloor : depth ≤ floor) :
    Abreast β depth (runEntered floor base) (runEntered floor base) := by
  intro s t hs
  have hgas : s.gas = t.gas := by rw [State.gas, State.gas, hs.gasLimit]
  rw [runEntered, runEntered, ← hgas]
  rcases (run_coupled hfloor s.gas hs).ends with ⟨_, _, s', t', hx, hy, -, hs'⟩ | ⟨e, s', t',
    hx, hy, hs'⟩
  · rw [hx, hy]
    exact ⟨trivial, hs'⟩
  · rw [hx, hy]
    cases e with
    | fault f =>
      exact ⟨rfl, { hs' with frames := hs'.frames.dropTo floor, stack := hs'.stack.dropTo base }⟩
    | _ => exact ⟨rfl, hs'⟩

/-- **A procedure is called on both machines.** -/
theorem invoke_coupled (hs : StateLike β depth s t) (hdepth : depth ≤ s.frames.top) (hr : r.Tame)
    {this this' : Option Nat} (constructs : Bool)
    (hthis : Option.Rel (fun a b ↦ β.pairs (.object a) (.object b)) this this') :
    Coupled (StateLike β depth) (ValueLike β.pairs) (invoke r this constructs s)
    (invoke r this' constructs t) := by
  cases habs : r.code.isAbstract with
  | true =>
    simp only [invoke, habs, if_true]
    exact ⟨rfl, hs⟩
  | false =>
    simp only [invoke, habs, Bool.false_eq_true, if_false, get_bind, ← hs.frames.top,
      ← hs.stack.top]
    split
    · exact ⟨rfl, hs⟩
    · refine Coupled.bind (direct_lockstep (enter_lockstep hr constructs hthis) s t hs)
        fun _ _ _ ↦ ?_
      refine (runEntered_lockstep hdepth).bind fun _ _ _ ↦ ?_
      exact lockstep_ite (direct_lockstep pop_lockstep) (lockstep_pure (valueLike_of_none rfl))

theorem publicMethod_lockstep (htame : cls.home.Tame) (name : String) :
    Lockstep S (fun r r' ↦ r = r' ∧ r.Tame) (publicMethod cls name) (publicMethod cls name) := by
  have hrefuse {α : Type} {R : α → α → Prop} (message : String) :
      Lockstep S R (refuse name message) (refuse name message) := lockstep_throw _
  simp only [publicMethod]
  cases hcode : (cls.get.methodIndex? name).bind (cls.get.methods[·]?) with
  | none => exact hrefuse _
  | some code =>
    obtain ⟨k, -, hk⟩ := Option.bind_eq_some_iff.1 hcode
    have hroutine := htame.routine (.inr (Array.mem_of_getElem? hk))
    exact lockstep_check (hrefuse _) (lockstep_check (hrefuse _) (lockstep_pure ⟨rfl, hroutine⟩))

/-- **A method is called on both machines.** -/
theorem callObject_coupled (hs : StateLike β depth s t) (hdepth : depth ≤ s.frames.top) {b : Nat}
    (hab : β.pairs (.object a) (.object b))
    (htame : ∀ c, s.heap.objects[a]? = some c → c.cls.home.Tame) (name : String) :
    Coupled (StateLike β depth) (ValueLike β.pairs) (callObject (some a) name s)
      (callObject (some b) name t) := by
  simp only [callObject, get_bind, Option.bind_some]
  rcases rel_cases (hs.heap.objects hab) with ⟨hc, hd⟩ | ⟨c, d, hc, hd, hcell⟩
  · simp only [hc, hd]
    exact ⟨rfl, hs⟩
  · simp only [hc, hd, Option.map_some, ← hcell.cls]
    have hmethod : Coupled (fun s' t' ↦ s' = s ∧ t' = t) _ _ _ :=
      publicMethod_lockstep (htame c hc) name s t ⟨rfl, rfl⟩
    rcases hmethod.ends with ⟨r, _, _, _, hx, hy, ⟨rfl, hr⟩, rfl, rfl⟩ | ⟨e, _, _, hx, hy, rfl, rfl⟩
    · rw [bind_of_ok hx, bind_of_ok hy]
      exact invoke_coupled hs hdepth hr false (.some hab)
    · rw [bind_of_error hx, bind_of_error hy]
      exact ⟨rfl, hs⟩

/-- **A constructor is called on both machines.** -/
theorem instantiate_coupled (hs : StateLike β depth s t) (hdepth : depth ≤ s.frames.top)
    (htame : cls.home.Tame) (ctor : Int) :
    Coupled (StateLike β depth) (ValueLike β.pairs) (instantiate cls ctor s)
      (instantiate cls ctor t) := by
  simp only [instantiate]
  split
  · exact ⟨rfl, hs⟩
  · split
    · exact ⟨rfl, hs⟩
    · split
      · exact ⟨rfl, hs⟩
      · cases hcode : cls.get.constructors[ctor.toNat]? with
        | none => exact ⟨rfl, hs⟩
        | some code =>
          have hroutine := htame.routine (.inl (Array.mem_of_getElem? hcode))
          have hnew := newObject_lockstep cls s t hs
          dsimp only
          split
          · exact ⟨rfl, hs⟩
          · exact invoke_coupled hnew.2 hdepth hroutine true (.some hnew.1)

end Calls

/-! ## Locality -/

/-- The cells of the first heap that are not in `P` are the same in the second one. -/
structure KeepsOutside (P : Ref → Prop) (h h' : Heap) : Prop where
  arrays : ∀ a c, h.arrays[a]? = some c → ¬P (.array a) → h'.arrays[a]? = some c
  objects : ∀ a c, h.objects[a]? = some c → ¬P (.object a) → h'.objects[a]? = some c

/-- What a host sees of two machines is alike: the text that they have printed, and their heaps. -/
structure SeenAlike {h₁ h₂ : Heap} (β : Bond h₁ h₂) (s t : State) : Prop where
  output : s.output = t.output
  heap : HeapLike β s.heap t.heap

/-- A call is confined to the cells of `P` and those that it makes.  It changes no other cell that
was there, and it does the same in every heap that has the cells of `P`: it fails in the same way or
has the same result, it prints the same, and it does the same to the cells of `P`, up to the
identity of cells that it makes. -/
structure Confined (P : Ref → Prop) (s : State) (call : HostCall Value) : Prop where
  keeps : KeepsOutside P s.heap (heapAfter (call s))
  same : ∀ (h : Heap) (hP : Shared P s.heap h),
    Coupled (SeenAlike (.sharing hP)) (ValueLike (Renamed P s.heap h)) (call s)
    (call { s with heap := h })

/-- A heap that is untouched outside of the pairs has its old cells outside of `P`. -/
theorem Untouched.keepsOutside {h' : Heap} (hu : Untouched (Renamed P h h) h h') :
    KeepsOutside P h h' where
  arrays a c hc hP := by
    rw [hu.arrays a ?_, hc]
    intro q hq
    cases hq with
    | shared ha => exact hP ha
    | array k => exact absurd (Array.getElem?_eq_some_iff.1 hc).1 (by omega)
  objects a c hc hP := by
    rw [hu.objects a ?_, hc]
    intro q hq
    cases hq with
    | shared ha => exact hP ha
    | object k => exact absurd (Array.getElem?_eq_some_iff.1 hc).1 (by omega)

/-- **A call that runs in lockstep is confined.** -/
theorem confined_of_coupled {call : HostCall Value} (hheld : ∀ v ∈ s.held, v ∈ roots)
    (h : ∀ {h₂ : Heap} {β : Bond s.heap h₂}, β.pairs = Renamed (Reachable s.heap roots) s.heap h₂ →
      StateLike β s.frames.top s { s with heap := h₂ } →
      Coupled (StateLike β s.frames.top) (ValueLike β.pairs) (call s)
      (call { s with heap := h₂ })) :
    Confined (Reachable s.heap roots) s call where
  keeps := by
    have hstart := stateLike_of_agree (β := .same _ s.heap) rfl ⟨fun _ ↦ rfl, fun _ ↦ rfl⟩ hheld
    rcases (h rfl hstart).ends with ⟨_, _, s', t', hx, -, -, hs'⟩ | ⟨_, s', t', hx, -, hs'⟩
    · rw [hx]
      exact hs'.untouched.keepsOutside
    · rw [hx]
      exact hs'.untouched.keepsOutside
  same h₂ hP := by
    have hstart := stateLike_of_agree (β := .sharing hP) rfl hP.toAgree hheld
    rcases (h rfl hstart).ends with ⟨v, w, s', t', hx, hy, hvw, hs'⟩ | ⟨e, s', t', hx, hy, hs'⟩
    · rw [hx, hy]
      exact ⟨hvw, hs'.output, hs'.heap⟩
    · rw [hx, hy]
      exact ⟨rfl, hs'.output, hs'.heap⟩

/-- **Calls are local.**  A method of compiled code is confined to what its object leads to, and a
constructor to nothing that was there, except for what the machine holds already: nothing, if it is
at rest. -/
theorem calls_are_local {src : String} {m : CompiledModule} (hm : compile src = .ok m) (s : State) :
    (∀ (addr : Nat) (cell : ObjectCell) (name : String), s.heap.objects[addr]? = some cell →
      cell.cls.home = m →
      Confined (Reachable s.heap (.ofObject addr :: s.held)) s (callObject (some addr) name)) ∧
    (∀ (cls : ClassRef) (ctor : Int), cls.home = m →
      Confined (Reachable s.heap s.held) s (instantiate cls ctor)) ∧
    (s.stack.top = 0 → s.frames.top = 0 → s.held = [] ∧ ∀ r, ¬Reachable s.heap s.held r) := by
  have htame := Codegen.tame_of_compile hm
  refine ⟨fun addr cell name hcell hhome ↦ ?_, fun cls ctor hhome ↦ ?_, fun hstack hframes ↦ ?_⟩
  · refine confined_of_coupled (fun v hv ↦ List.mem_cons_of_mem _ hv) fun {h₂ β} hβ hs ↦ ?_
    have hpair : β.pairs (.object addr) (.object addr) := by
      rw [hβ]
      exact .shared (.root (List.mem_cons_self ..) rfl)
    refine callObject_coupled hs (Nat.le_refl _) hpair (fun c hc ↦ ?_) name
    cases hcell.symm.trans hc
    exact hhome ▸ htame
  · exact confined_of_coupled (fun v hv ↦ hv) fun _ hs ↦
      instantiate_coupled hs (Nat.le_refl _) (hhome ▸ htame) ctor
  · have hheld := State.held_eq_nil hstack hframes
    exact ⟨hheld, fun r ↦ hheld ▸ not_reachable_nil⟩

/-- A sample: a method that writes a field of its object. -/
def tally : String :=
  "class Tally public\nfield n : int public = 1\nfunc bump public\nadd n 1\nset n ret\nend\nend"

/-- A machine at rest with a number of fresh objects. -/
def withFresh (c : ClassRef) (n : Nat) : State :=
  { host := builtins, heap := { objects := Array.replicate n (Heap.freshObject c) } }

/-- Nothing but the object itself can be reached from an object whose fields refer to nothing. -/
theorem eq_of_reachable {addr : Nat} {cell : ObjectCell} {r : Ref}
    (hcell : h.objects[addr]? = some cell) (hfields : ∀ v ∈ cell.fields, v.ref? = none)
    (hr : Reachable h [.ofObject addr] r) : r = .object addr := by
  induction hr with
  | root hv hr =>
    obtain rfl := List.mem_singleton.1 hv
    exact (Option.some.inj hr).symm
  | item _ _ _ _ ih => cases ih
  | field _ hc hv hr ih =>
    cases ih
    cases hcell.symm.trans hc
    rw [hfields _ hv] at hr
    cases hr

theorem tally_bumps : ∃ (m : CompiledModule) (c : ClassRef), compile tally = .ok m ∧ c.home = m ∧
    (∀ v ∈ (Heap.freshObject c).fields, v.ref? = none) ∧
    ((heapAfter (callObject (some 0) "bump" (withFresh c 2))).objects[0]?.any fun cell ↦
      cell.fields = #[.ofInt 1]) = true := by
  have h : ((compile tally).toOption.any fun m ↦ (m.classAt? 0).any fun c ↦
      (Heap.freshObject c).fields.all (·.ref?.isNone) &&
      (heapAfter (callObject (some 0) "bump" (withFresh c 2))).objects[0]?.any fun cell ↦
        cell.fields = #[.ofInt 1]) = true := by
    decide +kernel
  obtain ⟨m, hm, hclass⟩ := (Option.any_eq_true _ _).1 h
  obtain ⟨c, hc, hall⟩ := (Option.any_eq_true _ _).1 hclass
  obtain ⟨hfields, hbumps⟩ := (Bool.and_eq_true_iff).1 hall
  refine ⟨m, c, eq_of_toOption hm, CompiledModule.home_of_classAt? hc, fun v hv ↦ ?_, hbumps⟩
  exact Option.isNone_iff_eq_none.1 (Array.all_eq_true_iff_forall_mem.1 hfields v hv)

/-- Of two objects of the sample, a method that changes one leaves the other as it is, and does the
same if there is no other.  A third one does not change the two. -/
theorem tallies_are_apart :
    ∃ (m : CompiledModule) (c : ClassRef), compile tally = .ok m ∧ c.home = m ∧
    ((heapAfter (callObject (some 0) "bump" (withFresh c 2))).objects[0]?.any fun cell ↦
      cell.fields = #[.ofInt 1]) = true ∧
    (heapAfter (callObject (some 0) "bump" (withFresh c 2))).objects[1]? =
      some (Heap.freshObject c) ∧
    (heapAfter (instantiate c 0 (withFresh c 2))).objects[1]? = some (Heap.freshObject c) ∧
    ∃ hP : Shared (Reachable (withFresh c 2).heap [.ofObject 0]) (withFresh c 2).heap
        (withFresh c 1).heap,
      Coupled (SeenAlike (.sharing hP)) (ValueLike (Bond.sharing hP).pairs)
        (callObject (some 0) "bump" (withFresh c 2))
        (callObject (some 0) "bump" (withFresh c 1)) := by
  obtain ⟨m, c, hm, hhome, hfields, hbumps⟩ := tally_bumps
  obtain ⟨hcalls, hinstances, hrest⟩ := calls_are_local hm (withFresh c 2)
  obtain ⟨hheld, hnone⟩ := hrest rfl rfl
  have hreach {r : Ref} (hr : Reachable (withFresh c 2).heap [.ofObject 0] r) : r = .object 0 :=
    eq_of_reachable rfl hfields hr
  rw [hheld] at hcalls
  have hcall := hcalls 0 (Heap.freshObject c) "bump" rfl hhome
  have hshared : Shared (Reachable (withFresh c 2).heap [.ofObject 0]) (withFresh c 2).heap
    (withFresh c 1).heap := by
    refine ⟨⟨fun ha ↦ ?_, fun ha ↦ ?_⟩, fun ha ↦ ?_, fun ha ↦ ?_⟩
    · cases hreach ha
    · cases hreach ha
      rfl
    · cases hreach ha
    · cases hreach ha
      exact Nat.two_pos
  have hother : ¬Reachable (withFresh c 2).heap [.ofObject 0] (.object 1) :=
    fun hr ↦ nomatch hreach hr
  exact ⟨m, c, hm, hhome, hbumps, hcall.keeps.objects 1 _ rfl hother,
    (hinstances c 0 hhome).keeps.objects 1 _ rfl (hnone _), hshared, hcall.same _ hshared⟩

end Locality

end ClassAsm
