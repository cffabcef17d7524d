import ClassAsm.Proofs.Machine.Activations

/-!
# Values of their types

`HasIn T h t v` says that `v` is a value of type `t` in the heap `h`, as far as its tag and the cell
that it refers to show.  The names of classes in types are looked up in the table `T`, which holds
the classes of the unit whose code runs, and perhaps those of others.  Generated code only meets
such values, with one exception: a cell of a procedure is void until its define is executed, and
control can go past the define.  A void value is passed on as any other, so that it can turn up
wherever one is expected.

Both facts are disciplines.  `typedBy T p m True` allows void everywhere and is lawful for all
programs; `typedBy T p m False` does not, and is lawful for those whose blocks begin with their
defines.

Whether void is allowed is a proposition, `loose`, so that the laws of both are proved at once.
-/

namespace ClassAsm.Machine

open Bytecode Codegen Reference

variable {p : Program} {m : CompiledModule} {loose : Prop} {h h' : Heap} {v a : Value}
  {isClass : String → Bool} {i : Nat}

/-! ## Class tables -/

/-- Classes by name. -/
structure ClassTable where
  find? : String → Option ClassRef
  name_of_find? : ∀ {name : String} {cls : ClassRef}, find? name = some cls → cls.name = name

/-- The table has the classes of the module. -/
def ClassTable.Holds (T : ClassTable) (m : CompiledModule) : Prop :=
  ∀ {name : String} {cls : ClassRef}, m.class? name = some cls → T.find? name = some cls

variable {cls : ClassRef}

theorem ClassTable.Holds.find?_name {T : ClassTable} (hT : T.Holds m) (hl : Loaded p m)
    (hhome : cls.home = m) : T.find? cls.name = some cls := by
  have hname := hl.class?_name hhome
  rw [hhome] at hname
  exact hT hname

/-! ## Values -/

/-- The value has the type, as far as its tag and the cell that it refers to show, if classes are
found in the table. -/
def HasIn (T : ClassTable) (h : Heap) : Ty → Value → Prop
  | .array elem, v =>
    v = .null ∨ ∃ addr c, v = .ofArray addr ∧ h.arrays[addr]? = some c ∧ c.elem = elem
  | .object name, v => v = .null ∨
      ∃ addr c, v = .ofObject addr ∧ h.objects[addr]? = some c ∧ T.find? name = some c.cls
  | .bareArray, v => v = .null
  | t, v => t.Admits v

/-- The value has the type, or it is void where that is allowed. -/
def AllowedIn (T : ClassTable) (loose : Prop) (h : Heap) (t : Ty) (v : Value) : Prop :=
  HasIn T h t v ∨ (loose ∧ v = .void)

section Values

variable {T : ClassTable} {s t : Ty}

theorem hasIn_of_admits (hv : t.Admits v) : HasIn T h t v := by
  cases t with
  | array | object => exact .inl hv
  | bareArray => exact hv.elim
  | _ => exact hv

theorem HasIn.mono (hh : h.Extends h') (hv : HasIn T h t v) : HasIn T h' t v := by
  cases t with
  | array elem =>
    rcases hv with rfl | ⟨addr, c, rfl, hc, helem⟩
    · exact .inl rfl
    · obtain ⟨c', hc', helem'⟩ := hh.arrays addr c hc
      exact .inr ⟨addr, c', rfl, hc', helem'.trans helem⟩
  | object name =>
    rcases hv with rfl | ⟨addr, c, rfl, hc, hcls⟩
    · exact .inl rfl
    · obtain ⟨c', hc', hcls'⟩ := hh.objects addr c hc
      exact .inr ⟨addr, c', rfl, hc', hcls' ▸ hcls⟩
  | _ => exact hv

theorem AllowedIn.mono (hh : h.Extends h') (hv : AllowedIn T loose h t v) :
    AllowedIn T loose h' t v :=
  hv.imp_left (.mono hh)

theorem AllowedIn.loosen (hv : AllowedIn T loose h t v) : AllowedIn T True h t v :=
  hv.imp_right fun hvoid ↦ ⟨trivial, hvoid.2⟩

theorem hasIn_null (ht : t.tag.isReference = true) : HasIn T h t .null := by
  cases t with
  | array | object => exact .inl rfl
  | string => exact .inr rfl
  | bareArray | null => rfl
  | _ => cases ht

theorem HasIn.suits (hsuits : suits s t = true) (hv : HasIn T h s v) : HasIn T h t v := by
  rw [Reference.suits, Bool.or_eq_true, Bool.and_eq_true, decide_eq_true_eq,
    decide_eq_true_eq] at hsuits
  rcases hsuits with rfl | ⟨rfl, href⟩
  · exact hv
  · obtain rfl : v = .null := hv
    exact hasIn_null href

theorem AllowedIn.suits (hsuits : suits s t = true) (hv : AllowedIn T loose h s v) :
    AllowedIn T loose h t v :=
  hv.imp_left (.suits hsuits)

/-- Numbers have the tag of their type. -/
theorem HasIn.isNumeric (ht : t.tag.isNumeric = true) (hv : HasIn T h t v) :
    v.tag.isNumeric = true := by
  cases t with
  | byte | int | float | double =>
    rw [hv.1]
    exact ht
  | _ => cases ht

theorem HasIn.eq_null (hv : HasIn T h t v) (hnull : v.isNull = true) : v = .null := by
  cases t with
  | bool | byte | int | float | double =>
    rw [Value.isNull, hv.1] at hnull
    cases hnull
  | string =>
    rcases hv with ⟨text, rfl⟩ | rfl
    · cases hnull
    · rfl
  | null | bareArray => exact hv
  | array elem =>
    rcases hv with rfl | ⟨addr, c, rfl, -⟩
    · rfl
    · cases hnull
  | object name =>
    rcases hv with rfl | ⟨addr, c, rfl, -⟩
    · rfl
    · cases hnull
  | void | other => exact hv.elim

theorem HasIn.exists_text (hv : HasIn T h t v) (htag : v.tag = .string) :
    ∃ text, v = .ofString text := by
  cases t with
  | bool | byte | int | float | double =>
    rw [hv.1] at htag
    cases htag
  | string =>
    rcases hv with hv | rfl
    · exact hv
    · cases htag
  | null | bareArray =>
    obtain rfl : v = .null := hv
    cases htag
  | array elem =>
    rcases hv with rfl | ⟨addr, c, rfl, -⟩ <;> cases htag
  | object name =>
    rcases hv with rfl | ⟨addr, c, rfl, -⟩ <;> cases htag
  | void | other => exact hv.elim

theorem hasIn_zero (ht : t.Proper isClass) : HasIn T h t t.zero := by
  cases t with
  | bool | byte | int | float | double => exact ⟨rfl, rfl⟩
  | string => exact .inl ⟨"", rfl⟩
  | array | object => exact .inl rfl
  | void | null | bareArray | other => exact ht.elim

/-- What an array or an object type accepts is null or has the type itself. -/
theorem eq_of_accepts (ht : t.tag = .array ∨ t.tag = .object) (haccepts : t.accepts s = true)
    (hv : HasIn T h s v) : v = .null ∨ t = s := by
  refine ((Ty.accepts_reference ht).1 haccepts).imp_left fun hs ↦ ?_
  cases s with
  | null => exact hv
  | _ => cases hs

/-- **A conversion that the code generator allows has a value of the type.** -/
theorem HasIn.convert (haccepts : t.accepts s = true) (hv : HasIn T h s v) :
    ∃ c, h.convert? v t = some c ∧ HasIn T h t c := by
  cases t with
  | byte | int | float | double =>
    have hnum : v.tag.isNumeric = true := hv.isNumeric haccepts
    exact ⟨_, if_pos hnum, rfl, rfl⟩
  | bool =>
    have hbool : s.tag = .bool := of_decide_eq_true haccepts
    cases s with
    | bool => exact ⟨v, if_pos hv.1, hv⟩
    | _ => cases hbool
  | string =>
    by_cases hstring : v.tag = .string || v.isNull
    · refine ⟨v, if_pos hstring, ?_⟩
      rw [Bool.or_eq_true, decide_eq_true_eq] at hstring
      exact hstring.imp hv.exists_text hv.eq_null
    · exact ⟨_, if_neg hstring, .inl ⟨_, rfl⟩⟩
  | array elem =>
    rcases eq_of_accepts (.inl rfl) haccepts hv with rfl | rfl
    · exact ⟨.null, rfl, .inl rfl⟩
    · rcases hv with rfl | ⟨addr, c, rfl, hc, helem⟩
      · exact ⟨.null, rfl, .inl rfl⟩
      · refine ⟨.ofArray addr, ?_, .inr ⟨addr, c, rfl, hc, helem⟩⟩
        have harray : h.array? (.ofArray addr) = some c := hc
        have hnull : ¬(Value.ofArray addr).isNull = true := Bool.false_ne_true
        rw [Heap.convert?, if_neg hnull, if_pos]
        rw [harray, Option.any_some, helem, decide_eq_true rfl]
  | bareArray =>
    rcases eq_of_accepts (.inl rfl) haccepts hv with rfl | rfl
    · exact ⟨.null, rfl, rfl⟩
    · obtain rfl : v = .null := hv
      exact ⟨.null, rfl, rfl⟩
  | object name =>
    rcases eq_of_accepts (.inr rfl) haccepts hv with rfl | rfl
    · exact ⟨.null, rfl, .inl rfl⟩
    · rcases hv with rfl | ⟨addr, c, rfl, hc, hcls⟩
      · exact ⟨.null, rfl, .inl rfl⟩
      · refine ⟨.ofObject addr, ?_, .inr ⟨addr, c, rfl, hc, hcls⟩⟩
        have hname : h.className? (.ofObject addr) = some name := by
          rw [← T.name_of_find? hcls]
          exact Option.map_eq_some_iff.2 ⟨c, hc, rfl⟩
        have hnull : ¬(Value.ofObject addr).isNull = true := Bool.false_ne_true
        rw [Heap.convert?, if_neg hnull, if_pos hname]
  | void | null | other => cases haccepts

/-- A void value has no conversion, or a void one, or null. -/
theorem convert?_void (hloose : loose) {c : Value} (hc : h.convert? .void t = some c) :
    AllowedIn T loose h t c := by
  cases t with
  | string => exact .inr ⟨hloose, (Option.some.inj hc).symm⟩
  | array | object => exact .inl (.inl (Option.some.inj hc).symm)
  | bareArray => exact .inl (Option.some.inj hc).symm
  | _ => cases hc

end Values

/-! ## Heaps -/

/-- Everything in the heap has its type.  The objects belong to classes of the table that are not
abstract. -/
structure Tidy (T : ClassTable) (loose : Prop) (h : Heap) : Prop where
  items : ∀ (addr : Nat) (c : ArrayCell), h.arrays[addr]? = some c →
    ∀ v ∈ c.items, AllowedIn T loose h c.elem v
  known : ∀ (addr : Nat) (c : ObjectCell), h.objects[addr]? = some c →
    T.find? c.cls.name = some c.cls
  concrete : ∀ (addr : Nat) (c : ObjectCell), h.objects[addr]? = some c →
    c.cls.get.isAbstract = false
  size : ∀ (addr : Nat) (c : ObjectCell), h.objects[addr]? = some c →
    c.fields.size = c.cls.get.fields.size
  fields : ∀ (addr : Nat) (c : ObjectCell), h.objects[addr]? = some c →
    ∀ (i : Nat) (slot : Bytecode.FieldSlot) (v : Value), c.cls.get.fields[i]? = some slot →
      c.fields[i]? = some v → AllowedIn T loose h slot.type v

variable {addr : Nat} {cell : ObjectCell}

section Heaps

variable {T : ClassTable} {t : Ty}

theorem tidy_empty : Tidy T loose {} where
  items _ _ hc := by simp at hc
  known _ _ hc := by simp at hc
  concrete _ _ hc := by simp at hc
  size _ _ hc := by simp at hc
  fields _ _ hc := by simp at hc

theorem Tidy.addArray (hh : Tidy T loose h) (ht : t.Proper isClass) (n : Nat) :
    Tidy T loose (h.addArray (Heap.freshArray t n)) where
  items addr c hc v hv := by
    rw [Heap.addArray, Array.getElem?_push] at hc
    split at hc
    · cases hc
      obtain ⟨-, rfl⟩ := Array.mem_replicate.1 hv
      exact .inl (hasIn_zero ht)
    · exact (hh.items addr c hc v hv).mono (h.extends_addArray _)
  known := hh.known
  concrete := hh.concrete
  size := hh.size
  fields addr c hc i slot v hslot hv :=
    (hh.fields addr c hc i slot v hslot hv).mono (h.extends_addArray _)

theorem Tidy.addObject (hl : Loaded p m) (hT : T.Holds m) (hh : Tidy T loose h)
    (hhome : cls.home = m) (habs : cls.get.isAbstract = false) :
    Tidy T loose (h.addObject (Heap.freshObject cls)) where
  items addr c hc v hv := (hh.items addr c hc v hv).mono (h.extends_addObject _)
  known addr c hc := by
    rw [Heap.addObject, Array.getElem?_push] at hc
    split at hc
    · exact Option.some.inj hc ▸ hT.find?_name hl hhome
    · exact hh.known addr c hc
  concrete addr c hc := by
    rw [Heap.addObject, Array.getElem?_push] at hc
    split at hc
    · exact Option.some.inj hc ▸ habs
    · exact hh.concrete addr c hc
  size addr c hc := by
    rw [Heap.addObject, Array.getElem?_push] at hc
    split at hc
    · cases hc
      exact Array.size_map
    · exact hh.size addr c hc
  fields addr c hc i slot v hslot hv := by
    rw [Heap.addObject, Array.getElem?_push] at hc
    split at hc
    · cases hc
      have hslot : cls.get.fields[i]? = some slot := hslot
      rw [Heap.freshObject, Array.getElem?_map, hslot] at hv
      cases hv
      exact .inl
        (hasIn_zero ((hl.proper hhome).fields _ cls.get_mem slot (Array.mem_of_getElem? hslot)))
    · exact (hh.fields addr c hc i slot v hslot hv).mono (h.extends_addObject _)

theorem Tidy.setItem (hh : Tidy T loose h) {cell : ArrayCell} (hcell : h.arrays[addr]? = some cell)
    (hv : AllowedIn T loose h cell.elem v) (i : Nat) : Tidy T loose (h.setItem addr i v) where
  items a c hc w hw := by
    refine AllowedIn.mono (h.extends_setItem addr i v) ?_
    rw [Heap.setItem, Array.getElem?_modify] at hc
    split at hc
    · rename_i ha
      subst ha
      rw [hcell] at hc
      cases hc
      rcases Array.mem_or_eq_of_mem_setIfInBounds hw with hw | rfl
      · exact hh.items addr cell hcell w hw
      · exact hv
    · exact hh.items a c hc w hw
  known := hh.known
  concrete := hh.concrete
  size := hh.size
  fields a c hc i slot w hslot hw :=
    (hh.fields a c hc i slot w hslot hw).mono (h.extends_setItem _ _ _)

theorem Tidy.setField (hh : Tidy T loose h) {slot : FieldSlot}
    (hcell : h.objects[addr]? = some cell) (hslot : cell.cls.get.fields[i]? = some slot)
    (hv : AllowedIn T loose h slot.type v) : Tidy T loose (h.setField addr i v) := by
  -- An object of the new heap is one of the old heap, perhaps with this field replaced.
  have hold {a : Nat} {c : ObjectCell} (hc : (h.setField addr i v).objects[a]? = some c) :
      ∃ c₀, h.objects[a]? = some c₀ ∧ (c = c₀ ∨
        (c₀ = cell ∧ c = { cell with fields := cell.fields.setIfInBounds i v })) := by
    rw [Heap.setField, Array.getElem?_modify] at hc
    split at hc
    · rename_i ha
      subst ha
      rw [hcell] at hc
      exact ⟨cell, hcell, .inr ⟨rfl, (Option.some.inj hc).symm⟩⟩
    · exact ⟨c, hc, .inl rfl⟩
  refine ⟨fun a c hc w hw ↦ (hh.items a c hc w hw).mono (h.extends_setField _ _ _), ?_, ?_, ?_, ?_⟩
  · intro a c hc
    obtain ⟨c₀, hc₀, rfl | ⟨rfl, rfl⟩⟩ := hold hc
    · exact hh.known a _ hc₀
    · exact hh.known a c₀ hc₀
  · intro a c hc
    obtain ⟨c₀, hc₀, rfl | ⟨rfl, rfl⟩⟩ := hold hc
    · exact hh.concrete a _ hc₀
    · exact hh.concrete a c₀ hc₀
  · intro a c hc
    obtain ⟨c₀, hc₀, rfl | ⟨rfl, rfl⟩⟩ := hold hc
    · exact hh.size a _ hc₀
    · exact Array.size_setIfInBounds.trans (hh.size a _ hc₀)
  · intro a c hc j slot' w hslot' hw
    refine AllowedIn.mono (h.extends_setField addr i v) ?_
    obtain ⟨c₀, hc₀, rfl | ⟨rfl, rfl⟩⟩ := hold hc
    · exact hh.fields a _ hc₀ j slot' w hslot' hw
    · rw [Array.getElem?_setIfInBounds] at hw
      split at hw
      · rename_i hij
        subst hij
        cases hslot.symm.trans hslot'
        split at hw
        · exact Option.some.inj hw ▸ hv
        · cases hw
      · exact hh.fields a _ hc₀ j slot' w hslot' hw

end Heaps

/-! ## Operations -/

/-- The faults that generated code can end with: those of the program, and those of void values
where they are allowed. -/
def Benign (loose : Prop) : Cause → Prop
  | .divisionByZero | .nullReference | .itemIndex _ _ | .negativeSize | .arrayTooLarge => True
  | .notNumeric | .conversion _ _ => loose
  | _ => False

section Operations

variable {T : ClassTable} {s t : Ty} {b o : Value} {owner : ClassRef} {c : String}

theorem converted_outcome (haccepts : t.accepts s = true) (hv : AllowedIn T loose h s v) :
    Outcome (AllowedIn T loose h t) (Benign loose) (converted? h v t) := by
  rcases hv with hv | ⟨hloose, rfl⟩
  · obtain ⟨c, hc, hhas⟩ := hv.convert haccepts
    rw [converted?, hc]
    exact .inl hhas
  · cases hc : h.convert? .void t with
    | some c =>
      rw [converted?, hc]
      exact convert?_void hloose hc
    | none =>
      rw [converted?, hc]
      exact hloose

theorem objectAt_cases (ho : AllowedIn T loose h (.object c) o) :
    objectAt h o = .error .nullReference ∨ ∃ addr cell, objectAt h o = .ok (addr, cell) ∧
      h.objects[addr]? = some cell ∧ T.find? c = some cell.cls := by
  rcases ho with (rfl | ⟨addr, cell, rfl, hcell, hcls⟩) | ⟨-, rfl⟩
  · exact .inl rfl
  · refine .inr ⟨addr, cell, ?_, hcell, hcls⟩
    simp only [objectAt, Value.ofObject, hcell]
  · exact .inl rfl

theorem HasField.slot (hfield : HasField owner c i t) (hT : T.Holds owner.home)
    (hcls : T.find? c = some cls) : ∃ slot, cls.get.fields[i]? = some slot ∧ slot.type = t := by
  obtain ⟨cls', slot, hcls', hslot, htype, -⟩ := hfield
  cases hcls.symm.trans (hT hcls')
  exact ⟨slot, hslot, htype⟩

section

variable (hh : Tidy T loose h) (hT : T.Holds owner.home) (hfield : HasField owner c i t)
  (ho : AllowedIn T loose h (.object c) o)

include hh hT hfield ho

theorem readField_outcome : Outcome (AllowedIn T loose h t) (Benign loose) (readField h o i) := by
  rcases objectAt_cases ho with herror | ⟨addr, cell, hok, hcell, hcls⟩
  · rw [readField_of_error herror]
    trivial
  · obtain ⟨slot, hslot, rfl⟩ := HasField.slot hfield hT hcls
    have hi : i < cell.fields.size :=
      hh.size addr cell hcell ▸ (Array.getElem?_eq_some_iff.1 hslot).1
    have hv := Array.getElem?_eq_getElem hi
    rw [readField_of_field hok hv]
    exact hh.fields addr cell hcell i slot _ hslot hv

theorem writeField_outcome (hv : AllowedIn T loose h t v) :
    Outcome (Tidy T loose) (Benign loose) (writeField h o i v) := by
  rcases objectAt_cases ho with herror | ⟨addr, cell, hok, hcell, hcls⟩
  · rw [writeField_of_error herror]
    trivial
  · obtain ⟨slot, hslot, rfl⟩ := HasField.slot hfield hT hcls
    have hi : i < cell.fields.size :=
      hh.size addr cell hcell ▸ (Array.getElem?_eq_some_iff.1 hslot).1
    rw [writeField_of_lt hok hi]
    exact hh.setField hcell hslot hv

end

theorem itemAt_cases (ha : AllowedIn T loose h (.array t) a) (index : Int64) :
    (∃ x, itemAt h a index = .error x ∧ Benign loose x) ∨ ∃ addr cell, h.arrays[addr]? = some cell ∧
      cell.elem = t ∧ ∃ i, itemAt h a index = .ok (addr, i) ∧ i < cell.items.size := by
  rcases ha with (rfl | ⟨addr, cell, rfl, hcell, helem⟩) | ⟨-, rfl⟩
  · exact .inl ⟨.nullReference, rfl, trivial⟩
  · by_cases hindex : (index < 0 || (cell.items.size : Int) ≤ index.toInt) = true
    · refine .inl ⟨.itemIndex index cell.items.size, ?_, trivial⟩
      simp only [itemAt, Value.ofArray, hcell, if_pos hindex]
    · refine .inr ⟨addr, cell, hcell, helem, index.toInt.toNat, ?_, ?_⟩
      · simp only [itemAt, Value.ofArray, hcell, if_neg hindex]
      · rw [Bool.or_eq_true, decide_eq_true_eq, decide_eq_true_eq, not_or] at hindex
        have hneg : 0 ≤ index.toInt := by
          have := hindex.1
          rw [Int64.lt_iff_toInt_lt] at this
          exact Int.not_lt.1 this
        omega
  · exact .inl ⟨.nullReference, rfl, trivial⟩

theorem readItem_outcome (hh : Tidy T loose h) (ha : AllowedIn T loose h (.array t) a)
    (index : Int64) : Outcome (AllowedIn T loose h t) (Benign loose) (readItem h a index) := by
  rcases itemAt_cases ha index with ⟨x, herror, hx⟩ | ⟨addr, cell, hcell, rfl, i, hok, hi⟩
  · rw [readItem_of_error herror]
    exact hx
  · have hv : h.arrays[addr]?.bind (·.items[i]?) = some cell.items[i] := by
      rw [hcell, Option.bind_some, Array.getElem?_eq_getElem hi]
    rw [readItem_of_item hok hv]
    exact hh.items addr cell hcell _ (Array.getElem_mem hi)

theorem writeItem_outcome (hh : Tidy T loose h) (ha : AllowedIn T loose h (.array t) a)
    (hv : AllowedIn T loose h t v) (index : Int64) :
    Outcome (Tidy T loose) (Benign loose) (writeItem h a index v) := by
  rcases itemAt_cases ha index with ⟨x, herror, hx⟩ | ⟨addr, cell, hcell, rfl, i, hok, -⟩
  · rw [writeItem_of_error herror]
    exact hx
  · rw [writeItem_of_ok hok]
    exact hh.setItem hcell hv i

theorem makeArray_outcome (hh : Tidy T loose h) (ht : t.Proper isClass) (n : Int64) :
    Outcome (fun r ↦ Tidy T loose r.1 ∧ AllowedIn T loose r.1 (.array t) r.2)
      (Benign loose) (makeArray h t n) := by
  rw [makeArray]
  split
  · trivial
  · split
    · trivial
    · exact ⟨hh.addArray ht _, .inl (.inr ⟨_, _, rfl, Array.getElem?_push_size, rfl⟩)⟩

theorem numbers_cases (hs : s.tag.isNumeric = true) (ht : t.tag.isNumeric = true)
    (ha : AllowedIn T loose h s a) (hb : AllowedIn T loose h t b) :
    numbers a b = .ok () ∨ (loose ∧ numbers a b = .error .notNumeric) := by
  rcases ha with ha | ⟨hloose, rfl⟩
  · rcases hb with hb | ⟨hloose, rfl⟩
    · left
      rw [numbers, ha.isNumeric hs, hb.isNumeric ht]
      rfl
    · right
      refine ⟨hloose, ?_⟩
      rw [numbers, Bool.and_comm]
      rfl
  · exact .inr ⟨hloose, rfl⟩

theorem intResult_outcome (ha : AllowedIn T loose h .int a) (hb : AllowedIn T loose h .int b)
    (x : Arith) : Outcome (AllowedIn T loose h .int) (Benign loose) (intResult x a b) := by
  rcases numbers_cases rfl rfl ha hb with hok | ⟨hloose, herror⟩
  · simp only [intResult, hok, bind, Except.bind]
    split
    · trivial
    · exact .inl ⟨rfl, rfl⟩
  · simp only [intResult, herror, bind, Except.bind]
    exact hloose

theorem floatResult_outcome (hnum : bothNumeric s t = true) (ha : AllowedIn T loose h s a)
    (hb : AllowedIn T loose h t b) (x : Arith) (single : Bool) :
    Outcome (AllowedIn T loose h (if single then .float else .double)) (Benign loose)
    (floatResult x single a b) := by
  obtain ⟨hs, ht⟩ := Bool.and_eq_true_iff.1 hnum
  rcases numbers_cases hs ht ha hb with hok | ⟨hloose, herror⟩
  · simp only [floatResult, hok, bind, Except.bind]
    cases single <;> exact .inl ⟨rfl, rfl⟩
  · simp only [floatResult, herror, bind, Except.bind]
    exact hloose

theorem testResult_outcome {x : Test} (hnum : ordered x = true → bothNumeric s t = true)
    (ha : AllowedIn T loose h s a) (hb : AllowedIn T loose h t b) :
    Outcome (AllowedIn T loose h .bool) (Benign loose) (Value.ofBool <$> testResult x a b) := by
  have hordered (hx : ordered x = true) {g : Bool} :
      Outcome (AllowedIn T loose h .bool) (Benign loose)
        (Value.ofBool <$> (do numbers a b; return g : Except Cause Bool)) := by
    obtain ⟨hs, ht⟩ := Bool.and_eq_true_iff.1 (hnum hx)
    rcases numbers_cases hs ht ha hb with hok | ⟨hloose, herror⟩
    · simp only [hok, bind, Except.bind]
      exact .inl ⟨rfl, rfl⟩
    · simp only [herror, bind, Except.bind]
      exact hloose
  cases x with
  | equal | unequal => exact .inl ⟨rfl, rfl⟩
  | greater | less => exact hordered rfl

end Operations

/-! ## Frames -/

/-- The frame works on an object of its class, and its slots have values of their types: the
registers and the cells that are known to have been written, and every other cell void or a value of
its type. -/
structure Equipped {p : Program} {m : CompiledModule} (T : ClassTable) (loose : Prop) (h : Heap)
    (im : Image p m) (rs : Registers) (cs : List Ty) (f : Frame) : Prop where
  this : ∃ addr cell, f.this = some addr ∧ h.objects[addr]? = some cell ∧ cell.cls = im.owner
  concrete : im.owner.get.isAbstract = false
  registers : ∀ r t, rs.get r = .typed t → ∃ v, f.locals.toArray[r.slot]? = some v ∧
    AllowedIn T loose h t v
  cells : ∀ (k : Nat) t, cs[k]? = some t →
    ∃ v, f.locals.toArray[k + registerCount]? = some v ∧ AllowedIn T loose h t v
  others : ∀ (k : Nat) t, im.cells[k]? = some t →
    ∃ v, f.locals.toArray[k + registerCount]? = some v ∧ AllowedIn T True h t v

variable {k : Nat} {τ : Ty}

section Frames

variable {T : ClassTable} {im im' : Image p m} {rs : Registers} {cs : List Ty} {f : Frame}
  {s t : Shape}

theorem getElem?_of_within {xs ys : List Ty} {x : Ty} (hxs : xs <+: ys) (hx : xs[k]? = some x) :
    ys[k]? = some x := by
  obtain ⟨zs, rfl⟩ := hxs
  rw [List.getElem?_append_left (List.getElem?_eq_some_iff.1 hx).1, hx]

theorem cell_lt (hk : im.cells[k]? = some τ) : k + registerCount < maxLocals := by
  have hlt := (List.getElem?_eq_some_iff.1 hk).1
  have hcells := im.cells_le im.size
  rw [Image.cellsBefore_size] at hcells
  omega

theorem Equipped.mono (hh : h.Extends h') (hf : Equipped T loose h im rs cs f) :
    Equipped T loose h' im rs cs f where
  this := by
    obtain ⟨addr, cell, haddr, hcell, hcls⟩ := hf.this
    obtain ⟨cell', hcell', hcls'⟩ := hh.objects addr cell hcell
    exact ⟨addr, cell', haddr, hcell', hcls'.trans hcls⟩
  concrete := hf.concrete
  registers r t hr := by
    obtain ⟨v, hv, hallowed⟩ := hf.registers r t hr
    exact ⟨v, hv, hallowed.mono hh⟩
  cells k t hk := by
    obtain ⟨v, hv, hallowed⟩ := hf.cells k t hk
    exact ⟨v, hv, hallowed.mono hh⟩
  others k t hk := by
    obtain ⟨v, hv, hallowed⟩ := hf.others k t hk
    exact ⟨v, hv, hallowed.mono hh⟩

theorem Equipped.moves (ip : Nat) (hf : Equipped T loose h im rs cs f) :
    Equipped T loose h im rs cs { f with ip := ip } :=
  ⟨hf.this, hf.concrete, hf.registers, hf.cells, hf.others⟩

/-- Something is forgotten.  Cells that have not been defined are known only if void is allowed. -/
theorem Equipped.narrows (hfirst : loose ∨ im.member.body.DefinesFirst) (hn : im.Narrows s t)
    (hf : Equipped T loose h im s.registers s.cells f) :
    Equipped T loose h im t.registers t.cells f where
  this := hf.this
  concrete := hf.concrete
  registers r τ hr := hf.registers r τ (hn.registers r τ hr)
  cells k τ hk := by
    rcases hfirst with hloose | hfirst
    · obtain ⟨v, hv, hallowed⟩ := hf.others k τ (getElem?_of_within hn.within hk)
      exact ⟨v, hv, hallowed.imp_right fun hvoid ↦ ⟨hloose, hvoid.2⟩⟩
    · exact hf.cells k τ (hn.cells hfirst ▸ hk)
  others := hf.others

theorem Equipped.has_self (hl : Loaded p m) (hT : T.Holds m) (hf : Equipped T loose h im rs cs f) :
    HasIn T h (.object im.owner.name) f.self := by
  obtain ⟨addr, cell, haddr, hcell, hcls⟩ := hf.this
  refine .inr ⟨addr, cell, ?_, hcell, ?_⟩
  · rw [Frame.self, haddr]
  · rw [hcls, hT.find?_name hl im.home]

/-- A frame that has just been entered has no value that is known. -/
theorem equipped_entered (hcell : h.objects[addr]? = some cell) (hcls : cell.cls = im.owner)
    (hconcrete : im.owner.get.isAbstract = false) (base : Nat) (constructs : Bool) :
    Equipped T loose h im {} [] (.entered im base (some addr) constructs) where
  this := ⟨addr, cell, rfl, hcell, hcls⟩
  concrete := hconcrete
  registers r t hr := by cases r <;> cases hr
  cells k t hk := by simp at hk
  others k t hk := by
    refine ⟨.void, ?_, .inr ⟨trivial, rfl⟩⟩
    simp [Frame.entered, cell_lt hk]

theorem Equipped.setRegister (hf : Equipped T loose h im rs cs f) (r : Register)
    (ha : AllowedIn T loose h τ a) (hr : r.slot < maxLocals) :
    Equipped T loose h im (rs.set r (.typed τ)) cs (setLocal f r.slot a hr) where
  this := hf.this
  concrete := hf.concrete
  registers r' τ' hr' := by
    rw [getElem?_setLocal]
    rw [Registers.get_set] at hr'
    by_cases heq : r' = r
    · subst heq
      rw [if_pos rfl] at hr'
      cases hr'
      exact ⟨a, if_pos rfl, ha⟩
    · rw [if_neg heq] at hr'
      rw [if_neg fun hslot ↦ heq (Register.slot_inj hslot).symm]
      exact hf.registers r' τ' hr'
  cells k τ hk := by
    have := r.slot_lt
    rw [getElem?_setLocal, if_neg (by omega)]
    exact hf.cells k τ hk
  others k τ hk := by
    have := r.slot_lt
    rw [getElem?_setLocal, if_neg (by omega)]
    exact hf.others k τ hk

theorem Equipped.setCell (hf : Equipped T loose h im rs cs f) {cs' : List Ty}
    (hk : im.cells[k]? = some τ)
    (hcs : ∀ (j : Nat) τ', cs'[j]? = some τ' → j ≠ k → cs[j]? = some τ') (hcs' : cs' <+: im.cells)
    (ha : AllowedIn T loose h τ a) (hlt : k + registerCount < maxLocals) :
    Equipped T loose h im rs cs' (setLocal f (k + registerCount) a hlt) where
  this := hf.this
  concrete := hf.concrete
  registers r τ' hr := by
    have := r.slot_lt
    rw [getElem?_setLocal, if_neg (by omega)]
    exact hf.registers r τ' hr
  cells j τ' hj := by
    rw [getElem?_setLocal]
    by_cases hjk : j = k
    · subst hjk
      cases hk.symm.trans (getElem?_of_within hcs' hj)
      exact ⟨a, if_pos rfl, ha⟩
    · rw [if_neg (by omega)]
      exact hf.cells j τ' (hcs j τ' hj hjk)
  others j τ' hj := by
    rw [getElem?_setLocal]
    by_cases hjk : j = k
    · subst hjk
      cases hk.symm.trans hj
      exact ⟨a, if_pos rfl, ha.loosen⟩
    · rw [if_neg (by omega)]
      exact hf.others j τ' hj

end Frames

/-! ## The disciplines -/

/-- All values have their types, or are void where that is allowed. -/
def typedBy (T : ClassTable) (p : Program) (m : CompiledModule) (loose : Prop) :
    Discipline p m where
  value := AllowedIn T loose
  frame := Equipped T loose
  cells im cs := cs <+: im.cells
  heap := Tidy T loose
  fault := Benign loose

/-- **The disciplines are lawful**: the loose one for every program, the strict one if all blocks
begin with their defines. -/
theorem typedBy_lawful {T : ClassTable} (hl : Loaded p m) (hT : T.Holds m)
    (hfirst : loose ∨ ∀ im : Image p m, im.member.body.DefinesFirst) :
    (typedBy T p m loose).Lawful where
  value_mono hh hv := hv.mono hh
  frame_mono hh hf := hf.mono hh
  moves ip hf := hf.moves ip
  narrows {_ im _ _ _} hn hf := hf.narrows (hfirst.imp_right fun h ↦ h im) hn
  suits hsuits hv := hv.suits hsuits
  self hf := .inl (hf.has_self hl hT)
  within hcs := hcs
  slot hcs hk := .inl (cell_lt (getElem?_of_within hcs hk))
  const ha := .inl (hasIn_of_admits ha)
  readRegister hf hr ha := by
    obtain ⟨v, hv, hallowed⟩ := hf.registers _ _ hr
    exact Option.some.inj (hv.symm.trans ha) ▸ hallowed
  readCell hf hk ha := by
    obtain ⟨v, hv, hallowed⟩ := hf.cells _ _ hk
    exact Option.some.inj (hv.symm.trans ha) ▸ hallowed
  writeRegister {_ _ _ _ _ r _ _} hf ha hr := hf.setRegister r ha hr
  writeCell hf hcs' hk hcs ha hlt := hf.setCell (getElem?_of_within hcs' hk) hcs hcs' ha hlt
  converted haccepts ha := converted_outcome haccepts ha
  readField {_ im _ _ _ _} hh hfield ho := readField_outcome hh (im.home.symm ▸ hT) hfield ho
  writeField {_ im _ _ _ _ _} hh hfield ho ha :=
    writeField_outcome hh (im.home.symm ▸ hT) hfield ho ha
  readItem hh ha i := readItem_outcome hh ha i
  writeItem hh ha hb i := writeItem_outcome hh ha hb i
  makeArray hh hproper n := makeArray_outcome hh hproper n
  intResult ha hb x := intResult_outcome ha hb x
  floatResult hnum ha hb x single := floatResult_outcome hnum ha hb x single
  testResult hnum ha hb := testResult_outcome hnum ha hb
  abstractCall {_ im _ _ _ _ _} hf hcode habs := by
    rw [hl.concrete im.home hf.concrete hcode] at habs
    cases habs
  call base constructs hf howner := by
    obtain ⟨addr, cell, haddr, hcell, hcls⟩ := hf.this
    rw [haddr]
    exact equipped_entered hcell (hcls.trans howner.symm) (howner ▸ hf.concrete) base constructs
  new {h im} base constructs hh habs := by
    refine ⟨hh.addObject hl hT im.home habs, ?_⟩
    have hcell : (h.addObject (Heap.freshObject im.owner)).objects[h.objects.size]? =
        some (Heap.freshObject im.owner) := Array.getElem?_push_size
    exact equipped_entered hcell rfl habs base constructs

end ClassAsm.Machine
