import ClassAsm.Proofs.Machine.Safety
import ClassAsm.Proofs.Machine.Soundness

/-!
# Private fields

Visibility is checked by the compiler, on the types of what a program names.  At run time the class
of an object is the one that its type names, so that the check holds for the objects themselves: an
instruction that reads or writes a field belongs to the class of the object, or the field is public.
A host reads and writes public fields only.

The heaps are those of `Built`.  In contrast to `Reached`, the host may also write back the void
values that it has found in fields.
-/

namespace ClassAsm.Machine

open Bytecode Codegen Reference

variable {p : Program} {m : CompiledModule} {h : Heap} {addr : Nat} {cls : ClassRef} {s : State}

/-! ## Heaps -/

/-- A host can build the heap from classes of the module, and may write whatever it has got from
it. -/
inductive Built (m : CompiledModule) : Heap → Prop where
  | empty : Built m {}
  | instantiate : ∀ {s cls} (ctor : Int), Built m s.heap → s.host = builtins → cls.home = m →
      Built m (heapAfter (instantiate cls ctor s))
  | call : ∀ {s} (obj : Option Nat) (name : String), Built m s.heap → s.host = builtins →
      Built m (heapAfter (callObject obj name s))
  | set : ∀ {h h' addr name v}, Built m h → Obtained h v → setField h addr name v = .ok h' →
      Built m h'

/-- The class `owner` may use the field with index `k` of the class `cls`: it is its own, or
public. -/
def MayUse (owner cls : ClassRef) (k : Nat) : Prop :=
  cls = owner ∨ ∃ slot, cls.get.fields[k]? = some slot ∧ slot.isPublic = true

variable {k : Nat} {cell : ObjectCell} {c : Value} {T : ClassTable}

section Heaps

variable {h' : Heap} {v : Value} {name : String}

/-- What the host has got becomes null or an object of the name when it is converted to a class. -/
theorem Obtained.object_of_convert {className : String} (hv : Obtained h v)
    (hc : h.convert? v (.object className) = some c) :
    c = .null ∨ ∃ addr cell, c = .ofObject addr ∧ h.objects[addr]? = some cell ∧
    cell.cls.name = className := by
  rcases hv with rfl | hv
  · exact .inl (Option.some.inj hc).symm
  · exact hv.object_of_convert hc

/-- What the host has got has the type that it is converted to, or is void. -/
theorem Obtained.allowedIn_of_convert {t : Ty} (hh : Tidy T True h) (hv : Obtained h v)
    (hc : h.convert? v t = some c) : AllowedIn T True h t c := by
  rcases hv with rfl | hv
  · exact convert?_void trivial hc
  · exact .inl (hv.hasIn_of_convert hh hc)

/-- A host that writes back what it has got keeps the heap in order. -/
theorem setField_orderly_of_obtained (hl : Loaded p m) (hh : Orderly m True h) (hv : Obtained h v)
    (hset : setField h addr name v = .ok h') : Orderly m True h' := by
  have htidy := (orderly_iff hl).1 hh
  exact (orderly_iff hl).2
    (setField_tidy htidy (fun _ _ hc ↦ hv.allowedIn_of_convert htidy hc) hset)

theorem Built.orderly (hl : Loaded p m) (hlaw : (conforming p m True).Lawful) (hb : Built m h) :
    Orderly m True h := by
  induction hb with
  | empty => exact (orderly_iff hl).2 tidy_empty
  | instantiate ctor _ hhost hhome ih =>
    exact (instantiate_answered hl hlaw hhome hhost ih ctor).heapAfter
  | call obj name _ hhost ih => exact (callObject_answered hl hlaw hhost ih obj name).heapAfter
  | set _ hv hset ih => exact setField_orderly_of_obtained hl ih hv hset

end Heaps

/-! ## Instructions -/

/-- The instruction that is executed next reads or writes the field with index `k` of the object
`cell`. -/
def State.Reaches (s : State) (cell : ObjectCell) (k : Nat) : Prop :=
  ∃ ip addr o, objectAt s.heap o = .ok (addr, cell) ∧
    ((s.current? = some (ip, .loadField, k) ∧ s.stack.contents[0]? = some o) ∨
      (s.current? = some (ip, .storeField, k) ∧ s.stack.contents[1]? = some o))

variable {τ : Ty} {x : Instr} {cell' : ObjectCell}

section Instructions

variable {F : Floor} {a : Pose p m} {as : List (Pose p m)} {v w : View} {t : State} {f : Frame}
  {D : Discipline p m} {owner : ClassRef}

theorem eq_of_index {c d : ClassRef} (hhome : c.home = d.home)
    (hindex : c.index.val = d.index.val) : c = d := by
  obtain ⟨m, i⟩ := c
  obtain ⟨m', j⟩ := d
  obtain rfl : m = m' := hhome
  obtain rfl : i = j := Fin.ext hindex
  rfl

/-- **The object whose field is used is one of the class that the compiler has looked the field up
in.** -/
theorem HasField.class_of_objectAt {c : String} {o : Value} (hfield : HasField owner c k τ)
    (hT : T.Holds owner.home) (ho : AllowedIn T True h (.object c) o)
    (hcell : objectAt h o = .ok (addr, cell)) :
    h.objects[addr]? = some cell ∧ owner.home.class? c = some cell.cls := by
  obtain ⟨cls, -, hcls, -⟩ := hfield
  rcases objectAt_cases ho with herror | ⟨addr', cell', hok, hget, hclass⟩
  · cases herror.symm.trans hcell
  · obtain ⟨rfl, rfl⟩ : addr' = addr ∧ cell' = cell := by simpa using hok.symm.trans hcell
    rw [hT hcls] at hclass
    exact ⟨hget, hclass ▸ hcls⟩

/-- A field that the compiler lets a class use may be used by it at run time. -/
theorem HasField.mayUse {c : String} (hfield : HasField owner c k τ)
    (hcls : owner.home.class? c = some cls) : MayUse owner cls k := by
  obtain ⟨cls', slot, hcls', hslot, -, hvisible⟩ := hfield
  cases hcls.symm.trans hcls'
  rcases hvisible with hindex | hpublic
  · exact .inl (eq_of_index (CompiledModule.class?_home hcls) hindex)
  · exact .inr ⟨slot, hslot, hpublic⟩

/-- **The field that is reached is one that the compiler has found**, in a class that is the type of
the object. -/
theorem Active.reaches_field (hl : Loaded p m) (ha : Active D F (a :: as) v) (hs : s.Shows v)
    (hreaches : s.Reaches cell k) :
    ∃ c τ o addr, HasField a.im.owner c k τ ∧ D.value v.heap (.object c) o ∧
      objectAt v.heap o = .ok (addr, cell) := by
  obtain ⟨f, own, low, s₀, x, t, arg, ht, hn, hp, hcurrent, hrefers⟩ := ha.exists_passes hl hs
  obtain ⟨ip, addr, o, ho, hnext⟩ := hreaches
  have hvalues : List.Forall₂ (D.value v.heap) s₀.stack own := hn.stack ▸ ht.values
  rw [hs.heap] at ho
  rw [hs.stack, ht.stack] at hnext
  have htypes := hp.types
  rcases hnext with ⟨hop, hget⟩ | ⟨hop, hget⟩
  · obtain ⟨hop, rfl⟩ : x.op = .loadField ∧ arg = k := by
      have := hcurrent.symm.trans hop
      simp_all
    cases htypes with
    | @loadField _ _ τ c i t hfield =>
      obtain rfl : i = arg := hrefers.symm
      cases hvalues with
      | cons hb _ =>
        cases hget
        exact ⟨c, _, _, addr, hfield, hb, ho⟩
    | test => rename_i x _ _ _; cases x <;> cases hop
    | _ => cases hop
  · obtain ⟨hop, rfl⟩ : x.op = .storeField ∧ arg = k := by
      have := hcurrent.symm.trans hop
      simp_all
    cases htypes with
    | @storeField _ _ τ c i _ t hfield _ =>
      obtain rfl : i = arg := hrefers.symm
      cases hvalues with
      | cons _ hrest =>
        cases hrest with
        | cons hb _ =>
          cases hget
          exact ⟨c, _, _, addr, hfield, hb, ho⟩
    | test => rename_i x _ _ _; cases x <;> cases hop
    | _ => cases hop

/-- **The class of the activation on top may use the field that is reached.** -/
theorem Active.reaches_mayUse (hl : Loaded p m) (ha : Active (conforming p m True) F (a :: as) v)
    (hs : s.Shows v) (hreaches : s.Reaches cell k) : MayUse a.im.owner cell.cls k := by
  obtain ⟨c, τ, o, addr, hfield, ho, hcell⟩ := ha.reaches_field hl hs hreaches
  have hT : (classTable m).Holds a.im.owner.home := by
    rw [a.im.home]
    exact holds_classTable m
  exact HasField.mayUse hfield (HasField.class_of_objectAt hfield hT ho hcell).2

/-- **A field of an object that is there only changes by a write to it.** -/
theorem effect_fields (he : effect v f x = .go w) (hcell : v.heap.objects[addr]? = some cell)
    (hcell' : w.heap.objects[addr]? = some cell') (hne : cell'.fields[k]? ≠ cell.fields[k]?) :
    x = .storeField k ∧ ∃ a o rest, v.stack = a :: o :: rest ∧
    objectAt v.heap o = .ok (addr, cell) := by
  have hsame (heq : w.heap.objects[addr]? = v.heap.objects[addr]?) : False := by
    rw [hcell, hcell'] at heq
    exact hne (by rw [Option.some.inj heq])
  have hheap := (moved_of_go he).heap
  generalize w.heap = h at hheap hcell' hsame
  cases hheap with
  | same => exact (hsame rfl).elim
  | @field j a o rest _ hx hstack hw =>
    subst hx
    cases ho : objectAt v.heap o with
    | error c => cases (writeField_of_error ho).symm.trans hw
    | ok r =>
      obtain ⟨addr', cell₀⟩ := r
      by_cases hj : cell₀.fields.size ≤ j
      · cases (writeField_of_le ho hj).symm.trans hw
      · have hset := Except.ok.inj ((writeField_of_lt ho (Nat.lt_of_not_le hj)).symm.trans hw)
        by_cases haddr : addr' = addr
        · subst haddr
          obtain rfl : cell₀ = cell := by
            rw [objectAt] at ho
            split at ho
            · split at ho
              · rename_i hfound
                cases ho
                exact Option.some.inj (hfound.symm.trans hcell)
              · cases ho
            · cases ho
          by_cases hjk : j = k
          · exact ⟨by rw [hjk], a, o, rest, hstack, ho⟩
          · rw [← hset, Heap.setField, Array.getElem?_modify, if_pos rfl, hcell] at hcell'
            cases hcell'
            exact (hne (Array.getElem?_setIfInBounds_ne hjk)).elim
        · refine (hsame ?_).elim
          rw [← hset, Heap.setField, Array.getElem?_modify, if_neg haddr]
  | @item b i a rest _ _ hw =>
    refine (hsame ?_).elim
    cases hi : itemAt v.heap a i.toInt with
    | error c => cases (writeItem_of_error hi).symm.trans hw
    | ok r => rw [← Except.ok.inj ((writeItem_of_ok hi).symm.trans hw)]; rfl
  | array hmake =>
    refine (hsame ?_).elim
    rw [makeArray] at hmake
    split at hmake
    · cases hmake
    · split at hmake
      · cases hmake
      · rw [← (Prod.mk.inj (Except.ok.inj hmake)).1]
        rfl
  | object cls =>
    refine (hsame ?_).elim
    have hlt := (Array.getElem?_eq_some_iff.1 hcell).1
    rw [Heap.addObject, Array.getElem?_push_lt hlt, ← Array.getElem?_eq_getElem hlt]

/-- A step that changes a field of an object reaches it. -/
theorem Active.reaches_of_step (hl : Loaded p m) (ha : Active D F (a :: as) v) (hs : s.Shows v)
    (hstep : Machine.step s = .ok () t) (hcell : s.heap.objects[addr]? = some cell)
    (hcell' : t.heap.objects[addr]? = some cell') (hne : cell'.fields[k]? ≠ cell.fields[k]?) :
    s.Reaches cell k := by
  obtain ⟨f, own, low, s₀, x, u, arg, ht, -, hp, hcurrent, hrefers⟩ := ha.exists_passes hl hs
  have hdone := (step_follows hs ht.frames (ht.attends.reads hp)).of_ok hstep
  rw [hs.heap] at hcell
  cases he : effect v f x with
  | fault c =>
    rw [he] at hdone
    exact hdone.elim
  | branch j w =>
    rw [he] at hdone
    obtain ⟨off, -, hw⟩ := hdone
    have husual := effect_usual v f x
    rw [he] at husual
    rw [hw.heap.trans husual.2, hcell] at hcell'
    exact (hne (by rw [Option.some.inj hcell'])).elim
  | go w =>
    rw [he] at hdone
    have hw : t.Shows w := hdone
    rw [hw.heap] at hcell'
    obtain ⟨rfl, b, o, rest, hstack, ho⟩ := effect_fields he hcell hcell' hne
    obtain rfl : arg = k := hrefers
    refine ⟨f.ip, addr, o, by rw [hs.heap, ho], .inr ⟨hcurrent, ?_⟩⟩
    rw [hs.stack, hstack]
    rfl

end Instructions

/-! ## Runs -/

/-- **Private fields are used by their own class only.**  On a heap that a host has built, and with
any machine, let a procedure be entered and run for any number of steps.  The procedure that is
active then belongs to a class of the module, and this class may use the field that the next
instruction reads or writes.  No step changes a field that the class may not use.  The host only
reads and writes public fields. -/
theorem private_fields_stay_in_their_class {src : String} {m : CompiledModule}
    (hm : compile src = .ok m) (hsmall : m.Small) {s : State} (hbuilt : Built m s.heap)
    (hhost : s.host = builtins) :
    (∀ s₀ past t, Entered m s s₀ → Trace s.frames.top s₀ past t → s.frames.top < t.frames.top →
      ∃ (f : Frame) (owner : ClassRef), t.frames.contents.head? = some (some f) ∧
        f.routine.owner = some owner ∧ owner.home = m ∧
        (∀ cell k, t.Reaches cell k → MayUse owner cell.cls k) ∧
        ∀ t' (addr : Nat) (cell cell' : ObjectCell) (k : Nat), step t = .ok () t' →
          t.heap.objects[addr]? = some cell → t'.heap.objects[addr]? = some cell' →
          cell'.fields[k]? ≠ cell.fields[k]? → t.Reaches cell k ∧ MayUse owner cell.cls k) ∧
    (∀ cell name v, getField cell name = .ok v → ∃ k slot, cell.cls.get.fieldIndex? name = some k ∧
      cell.cls.get.fields[k]? = some slot ∧ slot.isPublic = true ∧ v = cell.fields[k]?.getD .void) ∧
    ∀ (addr : Nat) cell name v h', s.heap.objects[addr]? = some cell →
      setField s.heap addr name v = .ok h' → ∃ k slot c, cell.cls.get.fieldIndex? name = some k ∧
        cell.cls.get.fields[k]? = some slot ∧ slot.isPublic = true ∧
        h' = s.heap.setField addr k c := by
  obtain ⟨p, -, hl⟩ := loaded_of_compile hm hsmall
  have hlaw : (conforming p m True).Lawful := conforming_lawful hl (.inl trivial)
  have hh := hbuilt.orderly hl hlaw
  refine ⟨fun s₀ past t he htrace htop ↦ ?_, fun cell name v hget ↦ ?_,
    fun addr cell name v h' hcell hset ↦ ?_⟩
  · obtain ⟨F, a, as, w, hw, hactive⟩ := (he.underway hl hlaw hhost hh htrace).2 htop
    obtain ⟨f, own, low, hf⟩ := hactive.top
    refine ⟨f, a.im.owner, ?_, by rw [hf.attends.routine]; rfl, a.im.home,
      fun cell k hreaches ↦ hactive.reaches_mayUse hl hw hreaches,
      fun t' addr cell cell' k hstep hcell hcell' hne ↦ ?_⟩
    · rw [hw.frames, hf.frames]
      rfl
    · have hreaches := hactive.reaches_of_step hl hw hstep hcell hcell' hne
      exact ⟨hreaches, hactive.reaches_mayUse hl hw hreaches⟩
  · cases hk : publicField cell.cls name with
    | error d =>
      rw [getField, hk] at hget
      cases hget
    | ok k =>
      obtain ⟨hindex, slot, hslot, hpublic⟩ := publicField_spec hk
      rw [getField, hk] at hget
      exact ⟨k, slot, hindex, hslot, hpublic, (Except.ok.inj hget).symm⟩
  · obtain ⟨k, slot, c, hindex, hslot, hpublic, -, heq⟩ := setField_spec hcell hset
    exact ⟨k, slot, c, hindex, hslot, hpublic, heq⟩

/-- A sample: a method that writes a private field. -/
def purse : String :=
  "class Purse public\nfield coins : int private = 3\nfunc spend public\nset coins 2\nend\nend"

/-- The object whose first field is written next, if the field is private. -/
def writtenObject? (t : State) : Option ObjectCell :=
  if t.current? = some (2, .storeField, 0) ∧ t.frames.top = 1 then
    t.stack.contents[1]?.bind fun o ↦ ((objectAt t.heap o).toOption.map Prod.snd).filter fun cell ↦
      cell.cls.get.fields[0]?.any fun slot ↦ !slot.isPublic
  else none

/-- The private field of the sample is written by a procedure of the class of its object. -/
theorem purse_is_written_by_its_class : ∃ (m : CompiledModule) (s s₀ t : State) (past : List State)
    (cell : ObjectCell) (f : Frame), compile purse = .ok m ∧ m.Small ∧ Built m s.heap ∧
    s.host = builtins ∧ Entered m s s₀ ∧ Trace s.frames.top s₀ past t ∧
    s.frames.top < t.frames.top ∧ t.Reaches cell 0 ∧
    (∃ slot, cell.cls.get.fields[0]? = some slot ∧ slot.isPublic = false) ∧
    t.frames.contents.head? = some (some f) ∧ f.routine.owner = some cell.cls := by
  obtain ⟨m, c, s₀, t, past, hm, hsmall, hc, he, htrace, htest⟩ :=
    exists_method_of_any purse (P := fun _ t ↦ (writtenObject? t).isSome) (by decide +kernel)
  have hbuilt : Built m (holding c).heap := .instantiate 0 .empty rfl hc
  obtain ⟨cell, hcell⟩ := Option.isSome_iff_exists.1 htest
  rw [writtenObject?] at hcell
  split at hcell
  · rename_i hnext
    obtain ⟨o, ho, hfound⟩ := Option.bind_eq_some_iff.1 hcell
    obtain ⟨hmap, hprivate⟩ := Option.filter_eq_some_iff.1 hfound
    obtain ⟨⟨addr, cell'⟩, hobject, rfl⟩ := Option.map_eq_some_iff.1 hmap
    obtain ⟨slot, hslot, hprivate⟩ := (Option.any_eq_true _ _).1 hprivate
    have hreaches : t.Reaches cell' 0 := ⟨2, addr, o, eq_of_toOption hobject, .inr ⟨hnext.1, ho⟩⟩
    have htop : 0 < t.frames.top := by
      rw [hnext.2]
      exact Nat.one_pos
    obtain ⟨f, owner, hf, howner, -, hall, -⟩ :=
      (private_fields_stay_in_their_class hm hsmall hbuilt rfl).1 s₀ past t he htrace htop
    rw [Bool.not_eq_true'] at hprivate
    rcases hall cell' 0 hreaches with rfl | ⟨slot', hslot', hpublic⟩
    · exact ⟨m, _, s₀, t, past, cell', f, hm, hsmall, hbuilt, rfl, he, htrace, htop, hreaches,
        ⟨slot, hslot, hprivate⟩, hf, howner⟩
    · cases hslot.symm.trans hslot'
      cases hprivate.symm.trans hpublic
  · cases hcell

end ClassAsm.Machine
