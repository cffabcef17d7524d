import ClassAsm.Machine.Host
import ClassAsm.Proofs.Machine.Conformance

/-!
# Calls from the host

A call from the host enters a procedure of a module, lets the machine run until that procedure is
left, and takes its result.  `invoke_eq` says so, and `invoke_kept` what is kept up by a call if the
instructions keep it up.

`Reached m h` says that a host can build the heap `h` from the classes of `m` through the interface:
it makes instances, calls methods and writes fields, on any machines and in any order.
-/

namespace ClassAsm.Machine

open Bytecode Codegen

variable {p : Program} {m : CompiledModule} {addr k : Nat} {s₀ s s' : State} {α : Type}
  {D : Discipline p m} {τ : Ty} {past : List State} {cls : ClassRef} {name : String} {h h' : Heap}
  {v : Value} {cell : ObjectCell} {P : Heap → α → Prop}

/-! ## One call -/

section Calls

variable {im : Image p m} {r : Routine} {this : Option Nat} {constructs : Bool} {t : State}

/-- What the host gets from a run that has begun at the given heights. -/
def delivered (depth base : Nat) (wanted : Bool) :
    EStateM.Result Stop State Unit → EStateM.Result Stop State Value
  | .ok () t => if wanted then direct pop t else .ok .void t
  | .error (.fault x) t => .error (.fault x) (t.unwind depth base)
  | .error e t => .error e t

theorem invoke_abstract (habs : r.code.isAbstract = true) :
    invoke r this constructs s = .error (.fault ⟨.abstractCall, some ⟨r.fullName, 0⟩⟩) s := by
  simp only [invoke, habs, if_true]
  rfl

theorem invoke_full (habs : r.code.isAbstract = false) (htop : maxFrames ≤ s.frames.top) :
    invoke r this constructs s = .error (.fault ⟨.frameOverflow, some ⟨r.fullName, 0⟩⟩) s := by
  simp only [invoke, habs, Bool.false_eq_true, if_false, get_bind, htop, if_true]
  rfl

theorem exists_enter (htop : s.frames.top < maxFrames) :
    ∃ t, enter r this constructs s = .ok () t :=
  ⟨_, by rw [enter, dif_pos htop]⟩

/-- **A call runs the procedure that has been entered.** -/
theorem invoke_eq (habs : r.code.isAbstract = false)
    (henter : enter r this constructs s = .ok () t) :
    invoke r this constructs s = delivered s.frames.top s.stack.top
      (constructs || r.code.returns ≠ .void) (run s.frames.top t.gas t) := by
  have htop : ¬maxFrames ≤ s.frames.top := by
    intro htop
    rw [enter, dif_neg (Nat.not_lt_of_le htop)] at henter
    cases henter
  have hdirect : direct (enter r this constructs) s = .ok () t := by rw [direct, henter]
  simp only [invoke, habs, Bool.false_eq_true, if_false, get_bind, htop]
  rw [bind_of_ok hdirect]
  simp only [bind, EStateM.bind, runEntered]
  cases run s.frames.top t.gas t with
  | ok _ u =>
    dsimp only [delivered]
    split <;> rfl
  | error e u => cases e <;> rfl

/-- How a call ends: with a result of the type, where void is that of none, or with a fault. -/
def Kept (D : Discipline p m) (τ : Ty) : EStateM.Result Stop State Value → Prop
  | .ok a t =>
    D.heap t.heap ∧ t.host = builtins ∧ if τ = .void then a = .void else D.value t.heap τ a
  | .error (.fault x) t =>
    (x.cause = .gasExhausted ∨ x.cause.Overflow ∨ D.fault x.cause) ∧ D.heap t.heap
  | .error _ _ => False

theorem wanted_iff (hτ : (Pose.start im this constructs).results = if τ = .void then [] else [τ]) :
    (constructs || im.code.returns ≠ .void) = true ↔ τ ≠ .void := by
  rw [Pose.results, Pose.start] at hτ
  cases constructs <;> by_cases hreturns : im.code.returns = .void <;>
    by_cases hvoid : τ = .void <;> simp_all

/-- **A call keeps up the discipline.** -/
theorem invoke_kept (hD : D.Lawful) (hl : Loaded p m) (habs : im.code.isAbstract = false)
    (hhost : s.host = builtins) (hheap : D.heap s.heap)
    (hframe : D.frame s.heap im {} [] (.entered im s.stack.top this constructs))
    (hτ : (Pose.start im this constructs).results = if τ = .void then [] else [τ]) :
    Kept D τ (invoke im.routine this constructs s) := by
  by_cases htop : maxFrames ≤ s.frames.top
  · rw [invoke_full habs htop]
    exact ⟨.inr (.inl (.inr rfl)), hheap⟩
  · obtain ⟨t, henter⟩ := exists_enter (Nat.lt_of_not_le htop)
    obtain ⟨v, hv, hactive⟩ := active_of_enter hl hhost henter hheap hframe
    have hended := hactive.run hD hl hv t.gas
    rw [Slots.length_contents] at hended
    rw [invoke_eq habs henter]
    cases hrun : run s.frames.top t.gas t with
    | error e u =>
      rw [hrun] at hended
      cases e with
      | fault x => exact ⟨hended.1, hended.2.1⟩
      | refused d => exact hended.elim
      | abort text => exact hended.elim
    | ok _ u =>
      rw [hrun] at hended
      obtain ⟨w, own, hw, hheap', -, hstack, hown⟩ := hended
      have hown : List.Forall₂ (D.value w.heap) (if τ = .void then [] else [τ]) own := hτ ▸ hown
      have hwanted := wanted_iff hτ
      by_cases hvoid : τ = .void
      · have hnone : delivered s.frames.top s.stack.top (constructs || im.code.returns ≠ .void)
          (.ok () u) =
            .ok .void u := by
          rw [eq_false_of_ne_true fun h ↦ hwanted.1 h hvoid]
          rfl
        refine hnone ▸ ⟨hw.heap ▸ hheap', hw.host, ?_⟩
        rw [if_pos hvoid]
      · rw [if_neg hvoid] at hown
        obtain ⟨a, own', ha, -, rfl⟩ := List.forall₂_cons_left_iff.1 hown
        obtain ⟨t', hpop, ht'⟩ := pop_eq hw hstack
        have hsome : delivered s.frames.top s.stack.top (constructs || im.code.returns ≠ .void)
          (.ok () u) =
            .ok a t' := by
          rw [hwanted.2 hvoid]
          simp only [delivered, if_true, direct, hpop]
        refine hsome ▸ ⟨ht'.heap ▸ hheap', ht'.host, ?_⟩
        rw [if_neg hvoid, ht'.heap]
        exact ha

/-- All is kept up in the machine `t`, and with more than `depth` frames it executes a procedure of
the module. -/
def Underway (D : Discipline p m) (depth : Nat) (t : State) : Prop :=
  D.heap t.heap ∧ (depth < t.frames.top → ∃ F a as v, t.Shows v ∧ Active D F (a :: as) v)

/-- **A procedure that the host has entered keeps up the discipline at every step.** -/
theorem underway_of_enter (hD : D.Lawful) (hl : Loaded p m) (hhost : s.host = builtins)
    (henter : enter im.routine this constructs s = .ok () s₀) (hheap : D.heap s.heap)
    (hframe : D.frame s.heap im {} [] (.entered im s.stack.top this constructs))
    (htrace : Trace s.frames.top s₀ past t) : Underway D s.frames.top t := by
  obtain ⟨v, hv, hactive⟩ := active_of_enter hl hhost henter hheap hframe
  rw [← Slots.length_contents] at htrace ⊢
  obtain ⟨as, w, hw, hactive⟩ := hactive.trace hD hl hv htrace
  refine ⟨hw.heap ▸ hactive.heap, fun htop ↦ ?_⟩
  obtain ⟨a, as, rfl⟩ := hactive.exists_cons hw htop
  exact ⟨_, a, as, w, hw, hactive⟩

end Calls

/-! ## The interface -/

/-- **An instance** is refused, or made and handed to a constructor. -/
theorem instantiate_invokes (cls : ClassRef) (ctor : Int) (s : State) :
    (∃ d, instantiate cls ctor s = .error (.refused d) s) ∨
      ∃ code, cls.get.constructors[ctor.toNat]? = some code ∧ cls.get.isAbstract = false ∧
        instantiate cls ctor s = invoke ⟨code, some cls⟩ (some s.heap.objects.size) true
          { s with heap := s.heap.addObject (Heap.freshObject cls) } := by
  simp only [instantiate]
  split
  · exact .inl ⟨_, rfl⟩
  · split
    · exact .inl ⟨_, rfl⟩
    · rename_i habs
      split
      · exact .inl ⟨_, rfl⟩
      · cases hcode : cls.get.constructors[ctor.toNat]? with
        | none => exact .inl ⟨_, rfl⟩
        | some code =>
          dsimp only
          split
          · exact .inl ⟨_, rfl⟩
          · exact .inr ⟨code, rfl, Bool.eq_false_iff.2 habs, rfl⟩

theorem publicField_spec (h : publicField cls name = .ok k) :
    cls.get.fieldIndex? name = some k ∧ ∃ slot, cls.get.fields[k]? = some slot ∧
    slot.isPublic = true := by
  rw [publicField] at h
  split at h
  · cases h
  · rename_i i hi
    split at h
    · rename_i hany
      cases h
      exact ⟨hi, (Option.any_eq_true _ _).1 hany⟩
    · cases h

/-- What the host writes goes to a public field, as what it has been converted to. -/
theorem setField_spec (hcell : h.objects[addr]? = some cell)
    (hset : setField h addr name v = .ok h') :
    ∃ k slot c, cell.cls.get.fieldIndex? name = some k ∧ cell.cls.get.fields[k]? = some slot ∧
    slot.isPublic = true ∧
      h.convert? v slot.type = some c ∧ h' = h.setField addr k c := by
  rw [setField, hcell] at hset
  cases hfield : publicField cell.cls name with
  | error d =>
    simp only [fieldValue, hfield, bind, Except.bind] at hset
    cases hset
  | ok k =>
    obtain ⟨hindex, slot, hslot, hpublic⟩ := publicField_spec hfield
    simp only [fieldValue, hfield, hslot, bind, Except.bind, Option.map_some,
      Option.getD_some] at hset
    cases hc : h.convert? v slot.type with
    | none =>
      rw [hc] at hset
      cases hset
    | some c =>
      rw [hc] at hset
      cases hset
      exact ⟨k, slot, c, hindex, hslot, hpublic, hc, rfl⟩

theorem publicMethod_cases (cls : ClassRef) (name : String) (s : State) :
    (∃ d, publicMethod cls name s = .error (.refused d) s) ∨
      ∃ (k : Nat) (code : Procedure), cls.get.methodIndex? name = some k ∧
        cls.get.methods[k]? = some code ∧ code.isAbstract = false ∧
        publicMethod cls name s = .ok ⟨code, some cls⟩ s := by
  simp only [publicMethod]
  cases hcode : (cls.get.methodIndex? name).bind (cls.get.methods[·]?) with
  | none => exact .inl ⟨_, rfl⟩
  | some code =>
    obtain ⟨k, hindex, hk⟩ := Option.bind_eq_some_iff.1 hcode
    dsimp only
    split
    · exact .inl ⟨_, rfl⟩
    · split
      · exact .inl ⟨_, rfl⟩
      · rename_i habs
        exact .inr ⟨k, code, hindex, hk, Bool.eq_false_iff.2 habs, rfl⟩

/-- **A call of a method** is refused, or the method runs on the object. -/
theorem callObject_invokes (obj : Option Nat) (name : String) (s : State) :
    (∃ d, callObject obj name s = .error (.refused d) s) ∨
      ∃ (addr : Nat) (cell : ObjectCell) (k : Nat) (code : Procedure), obj = some addr ∧
        s.heap.objects[addr]? = some cell ∧ cell.cls.get.methodIndex? name = some k ∧
        cell.cls.get.methods[k]? = some code ∧ code.isAbstract = false ∧
        callObject obj name s = invoke ⟨code, some cell.cls⟩ (some addr) false s := by
  have hget : (get : HostCall State) s = .ok s s := rfl
  cases hobj : obj.bind fun addr ↦ s.heap.objects[addr]?.map fun c ↦ (addr, c.cls) with
  | none =>
    refine .inl ⟨refusal name ("call of " ++ name ++ " on a nil object"), ?_⟩
    rw [callObject, bind_of_ok hget]
    simp only [hobj]
    rfl
  | some found =>
    obtain ⟨addr, rfl, hfound⟩ := Option.bind_eq_some_iff.1 hobj
    obtain ⟨cell, hcell, rfl⟩ := Option.map_eq_some_iff.1 hfound
    have hcall : callObject (some addr) name s =
      (publicMethod cell.cls name >>= fun r ↦ invoke r (some addr)) s := by
      rw [callObject, bind_of_ok hget]
      simp only [hobj]
    rw [hcall]
    rcases publicMethod_cases cell.cls name s with ⟨d, hd⟩ | ⟨k, code, hindex, hcode, habs, hmethod⟩
    · exact .inl ⟨d, bind_of_error hd⟩
    · exact .inr ⟨addr, cell, k, code, rfl, hcell, hindex, hcode, habs, bind_of_ok hmethod⟩

/-! ## Heaps that a host can build -/

/-- The values that a host has for a heap: scalars, strings, null, and references to its cells. -/
inductive Offered (h : Heap) : Value → Prop where
  | scalar {v : Value} : v.tag = .bool ∨ v.tag.isNumeric = true → v.payload = .none → Offered h v
  | string (text : String) : Offered h (.ofString text)
  | null : Offered h .null
  | array {addr : Nat} : addr < h.arrays.size → Offered h (.ofArray addr)
  | object {addr : Nat} : addr < h.objects.size → Offered h (.ofObject addr)

/-- The heap behind a call. -/
def heapAfter {α : Type} : EStateM.Result Stop State α → Heap
  | .ok _ t => t.heap
  | .error _ t => t.heap

/-- A host can build the heap from classes of the module.  Each call may be made on another
machine. -/
inductive Reached (m : CompiledModule) : Heap → Prop where
  | empty : Reached m {}
  | instantiate : ∀ {s cls} (ctor : Int), Reached m s.heap → s.host = builtins → cls.home = m →
      Reached m (heapAfter (instantiate cls ctor s))
  | call : ∀ {s} (obj : Option Nat) (name : String), Reached m s.heap → s.host = builtins →
      Reached m (heapAfter (callObject obj name s))
  | set : ∀ {h h' addr name v}, Reached m h → Offered h v → setField h addr name v = .ok h' →
      Reached m h'

/-- The host has entered a constructor on a new object, or a method on an object of the heap. -/
inductive Entered (m : CompiledModule) (s : State) : State → Prop where
  | constructor : ∀ {cls} {k : Nat} {code s₀}, cls.home = m →
      cls.get.isAbstract = false → cls.get.constructors[k]? = some code →
      enter ⟨code, some cls⟩ (some s.heap.objects.size) true
        { s with heap := s.heap.addObject (Heap.freshObject cls) } = .ok () s₀ → Entered m s s₀
  | method : ∀ {addr} {k : Nat} {cell code s₀}, s.heap.objects[addr]? = some cell →
      cell.cls.get.methods[k]? = some code →
      enter ⟨code, some cell.cls⟩ (some addr) false s = .ok () s₀ → Entered m s s₀

section Reached

variable {T : ClassTable} {loose : Prop} {t : Ty} {c : Value} {r : EStateM.Result Stop State Value}

theorem Has.offered (hv : Has m h t v) : Offered h v := by
  cases t with
  | bool => exact .scalar (.inl hv.1) hv.2
  | byte | int | float | double => exact .scalar (.inr (by rw [hv.1]; rfl)) hv.2
  | string =>
    rcases hv with ⟨text, rfl⟩ | rfl
    · exact .string text
    · exact .null
  | null | bareArray =>
    obtain rfl : v = .null := hv
    exact .null
  | array elem =>
    rcases hv with rfl | ⟨addr, cell, rfl, hcell, -⟩
    · exact .null
    · exact .array (Array.getElem?_eq_some_iff.1 hcell).1
  | object name =>
    rcases hv with rfl | ⟨addr, cell, rfl, hcell, -⟩
    · exact .null
    · exact .object (Array.getElem?_eq_some_iff.1 hcell).1
  | void | other => exact hv.elim

/-- What is converted to a class is null, or an object whose class has the name. -/
theorem Offered.object_of_convert (hv : Offered h v) (hc : h.convert? v (.object name) = some c) :
    c = .null ∨ ∃ addr cell, c = .ofObject addr ∧
    h.objects[addr]? = some cell ∧ cell.cls.name = name := by
  cases Heap.conversion_of_convert? hc with
  | number _ _ _ _ hnumber => cases hnumber
  | null => exact .inl rfl
  | object _ hname =>
    cases hv with
    | scalar _ hpayload => simp [Heap.className?, hpayload] at hname
    | @object addr _ =>
      obtain ⟨cell, hcell, rfl⟩ := Option.map_eq_some_iff.1 hname
      exact .inr ⟨addr, cell, rfl, hcell, rfl⟩
    | _ => cases hname

/-- **What is offered has the type that it is converted to.** -/
theorem Offered.hasIn_of_convert (hh : Tidy T loose h) (hv : Offered h v)
    (hc : h.convert? v t = some c) : HasIn T h t c := by
  cases Heap.conversion_of_convert? hc with
  | number _ htag hpayload _ hnumber =>
    cases t with
    | byte | int | float | double => exact ⟨htag, hpayload⟩
    | _ => cases hnumber
  | bool htag =>
    cases hv with
    | scalar _ hpayload => exact ⟨htag, hpayload⟩
    | _ => cases htag
  | text htext =>
    cases hv with
    | scalar htag _ =>
      rw [Value.isNull] at htext
      rcases htext with htext | htext
      · rw [htext] at htag
        rcases htag with htag | htag <;> cases htag
      · split at htext <;> simp_all [Tag.isNumeric]
    | string text => exact .inl ⟨text, rfl⟩
    | null => exact .inr rfl
    | _ => rcases htext with htext | htext <;> cases htext
  | printed => exact .inl ⟨_, rfl⟩
  | null _ htag => exact hasIn_null (by rcases htag with htag | htag <;> rw [htag] <;> rfl)
  | array _ hcell =>
    cases hv with
    | scalar _ hpayload => simp [Heap.array?, hpayload] at hcell
    | array => exact .inr ⟨_, _, rfl, hcell, rfl⟩
    | _ => cases hcell
  | object =>
    refine (hv.object_of_convert hc).imp_right ?_
    rintro ⟨addr, cell, rfl, hcell, rfl⟩
    exact ⟨addr, cell, rfl, hcell, hh.known addr cell hcell⟩

/-- A field is written in a tidy heap, by a value that has the type that it is converted to. -/
theorem setField_tidy (hh : Tidy T loose h)
    (hv : ∀ t c, h.convert? v t = some c → AllowedIn T loose h t c)
    (hset : setField h addr name v = .ok h') : Tidy T loose h' := by
  cases hcell : h.objects[addr]? with
  | none =>
    rw [setField, hcell] at hset
    cases hset
    exact hh
  | some cell =>
    obtain ⟨k, slot, c, -, hslot, -, hconvert, rfl⟩ := setField_spec hcell hset
    exact hh.setField hcell hslot (hv _ _ hconvert)

/-- **An instance** is refused, or made under the discipline. -/
theorem instantiate_kept (hD : D.Lawful) (hl : Loaded p m) (hhome : cls.home = m)
    (hhost : s.host = builtins) (hh : D.heap s.heap) (ctor : Int) :
    (∃ d, instantiate cls ctor s = .error (.refused d) s) ∨ Kept D (.object cls.name)
    (instantiate cls ctor s) := by
  refine (instantiate_invokes cls ctor s).imp_right ?_
  rintro ⟨code, hcode, hconcrete, heq⟩
  obtain ⟨im, rfl, rfl, -, -, hreturns, habs⟩ := hl.image_constructor hhome hcode
  obtain ⟨hheap, hframe⟩ := hD.new s.stack.top true hh hconcrete
  rw [heq]
  refine invoke_kept (s := { s with heap := s.heap.addObject (Heap.freshObject im.owner) }) hD hl
    habs hhost hheap hframe ?_
  simp [Pose.results, Pose.start, hreturns]

/-- **A method** is refused, or called with its values in their types. -/
theorem callObject_kept (hl : Loaded p m) (hlaw : (typedBy T p m loose).Lawful)
    (hhost : s.host = builtins) (hh : Tidy T loose s.heap) (obj : Option Nat)
    (hhome : ∀ (addr : Nat) (c : ObjectCell), obj = some addr → s.heap.objects[addr]? = some c →
      c.cls.home = m)
    (name : String) : (∃ d, callObject obj name s = .error (.refused d) s) ∨
      ∃ (addr : Nat) (cell : ObjectCell) (k : Nat) (code : Procedure), obj = some addr ∧
        s.heap.objects[addr]? = some cell ∧ cell.cls.get.methodIndex? name = some k ∧
        cell.cls.get.methods[k]? = some code ∧
        Kept (typedBy T p m loose) code.returns (callObject obj name s) := by
  refine (callObject_invokes obj name s).imp_right ?_
  rintro ⟨addr, cell, k, code, hobj, hcell, hindex, hcode, habs, heq⟩
  obtain ⟨im, howner, rfl, -⟩ := hl.image_method (hhome addr cell hobj hcell) hcode
  refine ⟨addr, cell, k, im.code, hobj, hcell, hindex, hcode, ?_⟩
  rw [heq, ← howner]
  exact invoke_kept hlaw hl habs hhost hh
    (equipped_entered hcell howner.symm (howner ▸ hh.concrete addr cell hcell) _ _) rfl

theorem Kept.heapAfter (h : Kept D τ r) : D.heap (heapAfter r) := by
  cases r with
  | ok a t => exact h.1
  | error e t =>
    cases e with
    | fault x => exact h.2
    | refused d => exact h.elim
    | abort text => exact h.elim

section Entered

variable (htrace : Trace s.frames.top s₀ past s') (hhost : s.host = builtins) {code : Procedure}
include htrace hhost

theorem underway_of_constructor (hD : D.Lawful) (hl : Loaded p m) (hhome : cls.home = m)
    (habs : cls.get.isAbstract = false) (hcode : cls.get.constructors[k]? = some code)
    (henter : enter ⟨code, some cls⟩ (some s.heap.objects.size) true
      { s with heap := s.heap.addObject (Heap.freshObject cls) } = .ok () s₀) (hh : D.heap s.heap) :
    Underway D s.frames.top s' := by
  obtain ⟨im, rfl, rfl, -⟩ := hl.image_constructor hhome hcode
  obtain ⟨hheap, hframe⟩ := hD.new s.stack.top true hh habs
  exact underway_of_enter (s := { s with heap := s.heap.addObject (Heap.freshObject im.owner) }) hD
    hl hhost henter hheap hframe htrace

theorem underway_of_method (hlaw : (typedBy T p m loose).Lawful) (hl : Loaded p m)
    (hcell : s.heap.objects[addr]? = some cell) (hhome : cell.cls.home = m)
    (hcode : cell.cls.get.methods[k]? = some code)
    (henter : enter ⟨code, some cell.cls⟩ (some addr) false s = .ok () s₀)
    (hh : Tidy T loose s.heap) : Underway (typedBy T p m loose) s.frames.top s' := by
  obtain ⟨im, howner, rfl, -⟩ := hl.image_method hhome hcode
  rw [← howner] at henter
  exact underway_of_enter hlaw hl hhost henter hh
    (equipped_entered hcell howner.symm (howner ▸ hh.concrete addr cell hcell) _ _) htrace

end Entered

/-- How a call ends in an orderly heap: with a result as required, with a fault that is not
excluded, or refused. -/
def Answered {α : Type} (m : CompiledModule) (loose : Prop) (P : Heap → α → Prop) :
    EStateM.Result Stop State α → Prop
  | .ok a t => Orderly m loose t.heap ∧ P t.heap a
  | .error (.fault x) t => Orderly m loose t.heap ∧
      (x.cause = .gasExhausted ∨ x.cause.Overflow ∨ Benign loose x.cause)
  | .error (.refused _) t => Orderly m loose t.heap
  | .error (.abort _) _ => False

theorem Answered.imp {Q : Heap → α → Prop} {r : EStateM.Result Stop State α}
    (h : Answered m loose P r) (hPQ : ∀ h a, P h a → Q h a) : Answered m loose Q r := by
  cases r with
  | ok a t => exact ⟨h.1, hPQ _ _ h.2⟩
  | error e t => cases e <;> exact h

theorem Answered.heapAfter {r : EStateM.Result Stop State α} (h : Answered m loose P r) :
    Orderly m loose (heapAfter r) := by
  cases r with
  | ok a t => exact h.1
  | error e t =>
    cases e with
    | fault x => exact h.1
    | refused d => exact h
    | abort text => exact h.elim

/-- The type of a result, where void is that of none. -/
def ResultOf (m : CompiledModule) (loose : Prop) (τ : Ty) (h : Heap) (a : Value) : Prop :=
  if τ = .void then a = .void else Allowed m loose h τ a

theorem Kept.answered (h : Kept (conforming p m loose) τ r) :
    Answered m loose (ResultOf m loose τ) r := by
  cases r with
  | ok a t => exact ⟨h.1, h.2.2⟩
  | error e t =>
    cases e with
    | fault x => exact ⟨h.2, h.1⟩
    | refused d => exact h.elim
    | abort text => exact h.elim

section Conforming

variable (hl : Loaded p m) (hlaw : (conforming p m loose).Lawful)
include hl hlaw

/-- **An instance is made in an orderly heap.** -/
theorem instantiate_answered (hhome : cls.home = m) (hhost : s.host = builtins)
    (hh : Orderly m loose s.heap) (ctor : Int) :
    Answered m loose (ResultOf m loose (.object cls.name)) (instantiate cls ctor s) := by
  rcases instantiate_kept hlaw hl hhome hhost hh ctor with ⟨d, hd⟩ | hkept
  · rw [hd]
    exact hh
  · exact hkept.answered

/-- **A method is called in an orderly heap.** -/
theorem callObject_answered (hhost : s.host = builtins) (hh : Orderly m loose s.heap)
    (obj : Option Nat) (name : String) :
    Answered m loose (fun h a ↦ ∃ addr cell k code, obj = some addr ∧
      s.heap.objects[addr]? = some cell ∧ cell.cls.get.methodIndex? name = some k ∧
      cell.cls.get.methods[k]? = some code ∧ ResultOf m loose code.returns h a)
      (callObject obj name s) := by
  rcases callObject_kept hl (conforming_eq hl ▸ hlaw) hhost ((orderly_iff hl).1 hh) obj
      (fun addr cell _ ↦ hh.home addr cell) name with
    ⟨d, hd⟩ | ⟨addr, cell, k, code, hobj, hcell, hindex, hcode, hkept⟩
  · rw [hd]
    exact hh
  · rw [← conforming_eq hl] at hkept
    exact hkept.answered.imp fun _ _ ha ↦ ⟨addr, cell, k, code, hobj, hcell, hindex, hcode, ha⟩

omit hlaw in
/-- **A field is written in an orderly heap.** -/
theorem setField_orderly (hh : Orderly m loose h) (hv : Offered h v)
    (hset : setField h addr name v = .ok h') : Orderly m loose h' := by
  have htidy := (orderly_iff hl).1 hh
  exact (orderly_iff hl).2
    (setField_tidy htidy (fun _ _ hc ↦ .inl (hv.hasIn_of_convert htidy hc)) hset)

/-- **Every heap that a host can build is orderly.** -/
theorem Reached.orderly (hr : Reached m h) : Orderly m loose h := by
  induction hr with
  | empty => exact (orderly_iff hl).2 tidy_empty
  | instantiate ctor _ hhost hhome ih =>
    exact (instantiate_answered hl hlaw hhome hhost ih ctor).heapAfter
  | call obj name _ hhost ih => exact (callObject_answered hl hlaw hhost ih obj name).heapAfter
  | set _ hv hset ih => exact setField_orderly hl ih hv hset

/-- **A procedure that the host has entered keeps the heap orderly.** -/
theorem Entered.underway (he : Entered m s s₀) (hhost : s.host = builtins)
    (hh : Orderly m loose s.heap) (htrace : Trace s.frames.top s₀ past s') :
    Underway (conforming p m loose) s.frames.top s' := by
  cases he with
  | constructor hhome habs hcode henter =>
    exact underway_of_constructor htrace hhost hlaw hl hhome habs hcode henter hh
  | method hcell hcode henter =>
    rw [conforming_eq hl] at hlaw ⊢
    exact underway_of_method htrace hhost hlaw hl hcell (hh.home _ _ hcell) hcode henter
      ((orderly_iff hl).1 hh)

end Conforming

end Reached

/-- A counter has been made on a new machine. -/
theorem countdown_made :
    ∃ (m : CompiledModule) (c : ClassRef), compile countdown = .ok m ∧ m.Small ∧ c.home = m ∧
    (heapAfter (instantiate c 0 { host := builtins })).objects.size = 1 := by
  obtain ⟨m, c, hm, hsmall, hc, hsize⟩ := exists_class_of_any countdown
    (P := fun c ↦ (heapAfter (instantiate c 0 { host := builtins })).objects.size = 1)
    (by decide +kernel)
  exact ⟨m, c, hm, hsmall, hc, of_decide_eq_true hsize⟩

end ClassAsm.Machine
