import ClassAsm.Proofs.Machine.HostCalls
import ClassAsm.Proofs.Machine.RegisterReads

/-!
# Values keep their types

In a program whose blocks begin with their defines, every value that is found anywhere conforms to
the type that was declared for it, and no instruction ever fails because of the kind of a value
(`values_keep_their_types`).

Other programs can read a variable whose define has been passed over.  What they read is void, or a
value of the type of the variable (`local_reads_are_void_or_typed`).
-/

namespace ClassAsm.Machine

open Bytecode Codegen

variable {m : CompiledModule} {h : Heap} {src : String} {p : Program} {s : State} {ip k : Nat}

/-! ## Conforming values -/

/-- The value conforms to the type: it has the tag of a scalar type, it is a string, an array with
items that conform to the element type or an object of the class, or null instead of one of
these. -/
def Conforms (m : CompiledModule) (h : Heap) (t : Ty) (v : Value) : Prop :=
  match t with
  | .bool | .byte | .int | .float | .double => v.tag = t.tag
  | .string => v.tag = .string ∨ v = .null
  | .array elem =>
    v = .null ∨ ∃ addr c, v = .ofArray addr ∧ h.arrays[addr]? = some c ∧ c.elem = elem ∧
      ∀ x ∈ c.items, Conforms m h elem x
  | .object name => v = .null ∨
      ∃ addr c, v = .ofObject addr ∧ h.objects[addr]? = some c ∧ m.class? name = some c.cls
  | .null | .bareArray => v = .null
  | .void | .other _ => False

/-- Every item conforms to the element type of its array, and every field to its declared type. -/
structure WellTyped (m : CompiledModule) (h : Heap) : Prop where
  items : ∀ (addr : Nat) (c : ArrayCell), h.arrays[addr]? = some c →
    ∀ v ∈ c.items, Conforms m h c.elem v
  fields : ∀ (addr : Nat) (c : ObjectCell), h.objects[addr]? = some c →
    List.Forall₂ (fun slot v ↦ Conforms m h slot.type v) c.cls.get.fields.toList c.fields.toList

section Conforms

variable {t : Ty} {v : Value}

theorem Allowed.has (hv : Allowed m False h t v) : Has m h t v := hv.resolve_right fun hv ↦ hv.1

theorem Has.conforms (hh : Orderly m False h) (hv : Has m h t v) : Conforms m h t v := by
  induction t generalizing v with
  | bool | byte | int | float | double => exact hv.1
  | string =>
    rcases hv with ⟨text, rfl⟩ | rfl
    · exact .inl rfl
    · exact .inr rfl
  | array elem ih =>
    rcases hv with rfl | ⟨addr, c, rfl, hc, rfl⟩
    · exact .inl rfl
    · exact .inr ⟨addr, c, rfl, hc, rfl, fun x hx ↦ ih (hh.items addr c hc x hx).has⟩
  | object | null | bareArray | void | other => exact hv

theorem Orderly.wellTyped (hh : Orderly m False h) : WellTyped m h where
  items addr c hc v hv := (hh.items addr c hc v hv).has.conforms hh
  fields addr c hc := by
    refine List.forall₂_iff_get.2 ⟨?_, fun i hi hi' ↦ ?_⟩
    · rw [Array.length_toList, Array.length_toList, hh.size addr c hc]
    · rw [Array.length_toList] at hi hi'
      exact (hh.fields addr c hc i _ _ (Array.getElem?_eq_getElem hi)
        (Array.getElem?_eq_getElem hi')).has.conforms hh

end Conforms

/-! ## Calls -/

/-- The fault is because of the kind of a value. -/
def Cause.Mistyped : Cause → Prop
  | .notNumeric | .conversion _ _ => True
  | _ => False

theorem not_mistyped_of_benign {c : Cause} (h : c = .gasExhausted ∨ c.Overflow ∨ Benign False c) :
    ¬c.Mistyped := by
  rcases h with rfl | (rfl | rfl) | h
  · exact id
  · exact id
  · exact id
  · cases c with
    | divisionByZero | nullReference | itemIndex | negativeSize | arrayTooLarge => exact id
    | _ => exact h.elim

/-- The call leaves conforming values behind, and does not end with a fault because of the kind of a
value. -/
def TypeSafe (m : CompiledModule) (P : Heap → Value → Prop) : EStateM.Result Stop State Value → Prop
  | .ok v t => WellTyped m t.heap ∧ P t.heap v
  | .error (.fault x) t => WellTyped m t.heap ∧ ¬x.cause.Mistyped
  | .error _ t => WellTyped m t.heap

theorem Answered.typeSafe {P Q : Heap → Value → Prop} {r : EStateM.Result Stop State Value}
    (hr : Answered m False P r) (hPQ : ∀ h v, Orderly m False h → P h v → Q h v) :
    TypeSafe m Q r := by
  cases r with
  | ok v t => exact ⟨hr.1.wellTyped, hPQ _ _ hr.1 hr.2⟩
  | error e t =>
    cases e with
    | fault x => exact ⟨hr.1.wellTyped, not_mistyped_of_benign hr.2⟩
    | refused d => exact hr.wellTyped
    | abort text => exact hr.elim

theorem ResultOf.conforms {τ : Ty} {v : Value} (hh : Orderly m False h)
    (hv : ResultOf m False τ h v) (hτ : τ ≠ .void) : Conforms m h τ v := by
  rw [ResultOf, if_neg hτ] at hv
  exact hv.has.conforms hh

/-- **Values keep their types.**  Let all blocks of a program begin with their defines.  On every
heap that a host has built all values conform to their types, and so do the results of all calls.
This is so at every step on the way, and no call fails because of the kind of a value. -/
theorem values_keep_their_types {src : String} {m : CompiledModule} (hm : compile src = .ok m)
    (hsmall : m.Small) {p : Program} (hp : parseSource src = .ok p) (hfirst : p.DefinesFirst)
    {s : State} (hreached : Reached m s.heap) (hhost : s.host = builtins) :
    WellTyped m s.heap ∧ (∀ cls ctor, cls.home = m →
      TypeSafe m (fun h v ↦ Conforms m h (.object cls.name) v) (instantiate cls ctor s)) ∧
    (∀ (addr : Nat) (cell : ObjectCell) name k code, s.heap.objects[addr]? = some cell →
      cell.cls.get.methodIndex? name = some k → cell.cls.get.methods[k]? = some code →
      TypeSafe m (fun h v ↦ code.returns ≠ .void → Conforms m h code.returns v)
        (callObject (some addr) name s)) ∧
    ∀ s₀ past t, Entered m s s₀ → Trace s.frames.top s₀ past t → WellTyped m t.heap := by
  obtain ⟨p', hp', hl⟩ := loaded_of_compile hm hsmall
  obtain rfl : p = p' := Except.ok.inj (hp.symm.trans hp')
  have hlaw : (conforming p m False).Lawful :=
    conforming_lawful hl (.inr fun im ↦ im.definesFirst hfirst)
  have hh := hreached.orderly hl hlaw
  refine ⟨hh.wellTyped, fun cls ctor hhome ↦ ?_, fun addr cell name k code hcell hindex hcode ↦ ?_,
    fun s₀ past t he htrace ↦ ?_⟩
  · exact (instantiate_answered hl hlaw hhome hhost hh ctor).typeSafe fun h v hh hv ↦
      hv.conforms hh nofun
  · refine (callObject_answered hl hlaw hhost hh (some addr) name).typeSafe ?_
    rintro h v hh ⟨addr', cell', k', code', haddr, hcell', hindex', hcode', hv⟩
    cases haddr
    cases hcell.symm.trans hcell'
    cases hindex.symm.trans hindex'
    cases hcode.symm.trans hcode'
    exact fun hvoid ↦ hv.conforms hh hvoid
  · have hheap : Orderly m False t.heap := (he.underway hl hlaw hhost hh htrace).1
    exact hheap.wellTyped

/-- The counter of the sample keeps its types. -/
theorem countdown_keeps_its_types : ∃ (m : CompiledModule) (p : Program) (c : ClassRef) (s : State),
    compile countdown = .ok m ∧ m.Small ∧ parseSource countdown = .ok p ∧ p.DefinesFirst ∧
    c.home = m ∧ Reached m s.heap ∧ s.host = builtins ∧ s.heap.objects.size = 1 ∧
    WellTyped m s.heap := by
  obtain ⟨m, c, hm, hsmall, hc, hsize⟩ := countdown_made
  obtain ⟨p, hp, -⟩ := loaded_of_compile hm hsmall
  have hfirst : p.DefinesFirst := by
    have h : ((parseSource countdown).toOption.any fun p ↦ decide p.DefinesFirst) = true := by
      decide +kernel
    rw [hp] at h
    exact of_decide_eq_true h
  have hreached : Reached m (heapAfter (instantiate c 0 { host := builtins })) :=
    .instantiate 0 .empty rfl hc
  exact ⟨m, p, c, { host := builtins, heap := heapAfter (instantiate c 0 { host := builtins }) },
    hm, hsmall, hp, hfirst, hc, hreached, rfl, hsize,
    (values_keep_their_types hm hsmall hp hfirst hreached rfl).1⟩

/-! ## Variables -/

section Variables

variable {loose : Prop} {F : Floor} {as : List (Pose p m)} {v : View}

/-- A read of a variable by the activation on top: a cell that is known has a value of its type, and
every other one a value of its type or void. -/
theorem Active.read_cell (hl : Loaded p m) {a : Pose p m} (hlaw : (conforming p m loose).Lawful)
    (ha : Active (conforming p m loose) F (a :: as) v) (hs : s.Shows v)
    (hcurrent : s.current? = some (ip, .pushLocal, k + registerCount)) :
    ∃ (f : Frame) (τ : Ty) (b : Value), s.frames.contents.head? = some (some f) ∧
      f.routine = a.im.routine ∧ a.im.cells[k]? = some τ ∧
      f.locals.toArray[k + registerCount]? = some b ∧ Allowed m loose s.heap τ b := by
  obtain ⟨f, own, low, s₀, t, ht, rfl, hn, hp⟩ := ha.exists_read hl hs hcurrent
  obtain ⟨τ, hτ⟩ : ∃ τ, s₀.cells[k]? = some τ := by
    generalize hj : k + registerCount = j at hp
    cases hp.types with
    | @readRegister _ _ _ _ r _ =>
      have := r.slot_lt
      omega
    | @readCell _ _ _ τ k' hk =>
      obtain rfl : k = k' := by omega
      exact ⟨τ, hk⟩
  have hframe : Equipped (classTable m) loose v.heap a.im s₀.registers s₀.cells f :=
    hlaw.narrows hn ht.frame
  obtain ⟨b, hb, hallowed⟩ := hframe.cells k τ hτ
  refine ⟨f, τ, b, ?_, ht.attends.routine, getElem?_of_within hn.within hτ, hb, hs.heap ▸ hallowed⟩
  rw [hs.frames, ht.frames]
  rfl

/-- A read of a variable at some step of a call. -/
theorem Entered.read_cell (hl : Loaded p m) (hlaw : (conforming p m loose).Lawful) {s₀ t : State}
    {past : List State} (he : Entered m s s₀) (hhost : s.host = builtins)
    (hh : Orderly m loose s.heap) (htrace : Trace s.frames.top s₀ past t)
    (htop : s.frames.top < t.frames.top)
    (hcurrent : t.current? = some (ip, .pushLocal, k + registerCount)) :
    Orderly m loose t.heap ∧ ∃ (im : Image p m) (f : Frame) (τ : Ty) (b : Value),
      t.frames.contents.head? = some (some f) ∧ f.routine = im.routine ∧ im.cells[k]? = some τ ∧
      f.locals.toArray[k + registerCount]? = some b ∧ Allowed m loose t.heap τ b := by
  obtain ⟨hheap, hactive⟩ := he.underway hl hlaw hhost hh htrace
  obtain ⟨F, a, as, v, hv, hactive⟩ := hactive htop
  exact ⟨hheap, a.im, hactive.read_cell hl hlaw hv hcurrent⟩

end Variables

/-- **A variable that is read is void or has a value of its type.**  Whenever a machine comes to an
instruction that reads the slot of a variable, on a heap that a host has built, the instruction
belongs to a procedure of the module, and the slot to one of its defines.  It holds void or a value
of the type that is defined there.  If all blocks begin with their defines, the value conforms to
the type. -/
theorem local_reads_are_void_or_typed {src : String} {m : CompiledModule} (hm : compile src = .ok m)
    (hsmall : m.Small) {s : State} (hreached : Reached m s.heap) (hhost : s.host = builtins) :
    ∃ p, parseSource src = .ok p ∧
      ∀ s₀ past t ip k, Entered m s s₀ → Trace s.frames.top s₀ past t →
        s.frames.top < t.frames.top → t.current? = some (ip, .pushLocal, k + registerCount) →
        ∃ (im : Image p m) (f : Frame) (τ : Ty) (v : Value),
          t.frames.contents.head? = some (some f) ∧ f.routine = im.routine ∧ im.cells[k]? = some τ ∧
          f.locals.toArray[k + registerCount]? = some v ∧ (v = .void ∨ Has m t.heap τ v) ∧
          (p.DefinesFirst → Conforms m t.heap τ v) := by
  obtain ⟨p, hp, hl⟩ := loaded_of_compile hm hsmall
  refine ⟨p, hp, fun s₀ past t ip k he htrace htop hcurrent ↦ ?_⟩
  by_cases hfirst : p.DefinesFirst
  · have hlaw : (conforming p m False).Lawful :=
      conforming_lawful hl (.inr fun im ↦ im.definesFirst hfirst)
    obtain ⟨hh, im, f, τ, v, hf, hroutine, hτ, hv, hallowed⟩ :=
      he.read_cell hl hlaw hhost (hreached.orderly hl hlaw) htrace htop hcurrent
    exact ⟨im, f, τ, v, hf, hroutine, hτ, hv, .inr hallowed.has, fun _ ↦ hallowed.has.conforms hh⟩
  · have hlaw : (conforming p m True).Lawful := conforming_lawful hl (.inl trivial)
    obtain ⟨-, im, f, τ, v, hf, hroutine, hτ, hv, hallowed⟩ :=
      he.read_cell hl hlaw hhost (hreached.orderly hl hlaw) htrace htop hcurrent
    exact ⟨im, f, τ, v, hf, hroutine, hτ, hv, hallowed.symm.imp_left And.right, fun h ↦
      (hfirst h).elim⟩

/-- A sample: a method that passes over a define and reads its variable. -/
def passedOver : String :=
  "class A public\nfunc f public\nistrue false\ndefine x as int\nprint x\nend\nend"

/-- The variable of the first define is read, and is void. -/
def readsVoid (t : State) : Bool :=
  decide (t.current? = some (4, .pushLocal, 0 + registerCount) ∧ 0 < t.frames.top ∧
    (t.frames.contents.head?.join.bind fun f ↦ f.locals.toArray[0 + registerCount]?) = some .void)

/-- The machine of the sample has made an object of the class. -/
def holding (c : ClassRef) : State :=
  { host := builtins, heap := heapAfter (instantiate c 0 { host := builtins }) }

/-- What can be decided about two steps of the first method of a new object. -/
theorem exists_method_of_any (src : String) {P : List State → State → Bool}
    (h : ((compile src).toOption.any fun m ↦ decide m.Small && (m.classAt? 0).any fun c ↦
      (holding c).heap.objects[0]?.any fun cell ↦ cell.cls.get.methods[0]?.any fun code ↦
        passes 2 ⟨code, some cell.cls⟩ (some 0) false (holding c) P) = true) :
    ∃ (m : CompiledModule) (c : ClassRef) (s₀ t : State) (past : List State), compile src = .ok m ∧
    m.Small ∧
      c.home = m ∧ Entered m (holding c) s₀ ∧ Trace 0 s₀ past t ∧ P past t = true := by
  obtain ⟨m, c, hm, hsmall, hc, hcell⟩ := exists_class_of_any src h
  obtain ⟨cell, hcell, hcode⟩ := (Option.any_eq_true _ _).1 hcell
  obtain ⟨code, hcode, hpasses⟩ := (Option.any_eq_true _ _).1 hcode
  obtain ⟨s₀, past, t, henter, htrace, htest⟩ := exists_of_passes hpasses
  exact ⟨m, c, s₀, t, past, hm, hsmall, hc, .method hcell hcode henter, htrace, htest⟩

/-- The variable of the sample is read before its define has been executed, and is void. -/
theorem passedOver_reads_void :
    ∃ (m : CompiledModule) (p : Program) (s s₀ t : State) (past : List State),
    compile passedOver = .ok m ∧ m.Small ∧ Reached m s.heap ∧ s.host = builtins ∧ Entered m s s₀ ∧
    Trace s.frames.top s₀ past t ∧ t.current? = some (4, .pushLocal, 0 + registerCount) ∧
    ∃ (im : Image p m) (f : Frame) (τ : Ty), t.frames.contents.head? = some (some f) ∧
      f.routine = im.routine ∧ im.cells[0]? = some τ ∧
      f.locals.toArray[0 + registerCount]? = some .void := by
  obtain ⟨m, c, s₀, t, past, hm, hsmall, hc, he, htrace, htest⟩ :=
    exists_method_of_any passedOver (P := fun _ ↦ readsVoid) (by decide +kernel)
  obtain ⟨hcurrent, htop, hvoid⟩ := of_decide_eq_true htest
  have hreached : Reached m (holding c).heap := .instantiate 0 .empty rfl hc
  obtain ⟨p, -, hall⟩ := local_reads_are_void_or_typed hm hsmall hreached rfl
  obtain ⟨im, f, τ, v, hf, hroutine, hτ, hv, -⟩ := hall s₀ past t 4 0 he htrace htop hcurrent
  rw [hf] at hvoid
  exact ⟨m, p, _, s₀, t, past, hm, hsmall, hreached, rfl, he, htrace, hcurrent, im, f, τ, hf,
    hroutine, hτ, hvoid⟩

end ClassAsm.Machine
