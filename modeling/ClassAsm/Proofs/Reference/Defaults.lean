import ClassAsm.Proofs.Codegen.Typed
import ClassAsm.Proofs.Lists
import ClassAsm.Proofs.Machine.View
import ClassAsm.Proofs.Reference.Interpreter

/-!
# What the defaults leave in the heap

The defaults of a class are stored into a new object, which is the last one of the heap.  All along
the heap consists of what was there before, of the arrays made so far, and of this object: that is
`Heap.plus`.  So `applyDefaults_eq` can say what the heap is at the end, and
`applyDefaults_too_large` that only an array that is too large gets in the way.

`Starts` says what a field holds then in the words of its declaration, and `heldBy_plus` that its
array belongs to it alone.
-/

namespace ClassAsm

open Bytecode Machine Program

/-! ## The heap around a new object -/

namespace Heap

/-- The heap with further arrays and one more object. -/
def plus (h : Heap) (cells : List ArrayCell) (cls : ClassRef) (fields : List Value) : Heap :=
  ⟨h.arrays ++ cells.toArray, h.objects.push ⟨cls, fields.toArray⟩⟩

section Plus

variable {h : Heap} {cells : List ArrayCell} {cls : ClassRef} {xs vs : List Value} {v w : Value}

theorem addArray_plus (cell : ArrayCell) :
    (h.plus cells cls vs).addArray cell = h.plus (cells ++ [cell]) cls vs := by
  simp [plus, addArray]

theorem setField_plus : (h.plus cells cls (xs ++ v :: vs)).setField h.objects.size xs.length w =
      h.plus cells cls (xs ++ w :: vs) := by
  simp [plus, setField, modify_push]

theorem setItem_addArray (elem : Ty) :
    (h.addArray ⟨elem, (xs ++ v :: vs).toArray⟩).setItem h.arrays.size xs.length w =
      h.addArray ⟨elem, (xs ++ w :: vs).toArray⟩ := by
  simp [addArray, setItem, modify_push]

end Plus

/-- Every reference to an array leads to one. -/
structure Closed (h : Heap) : Prop where
  items : ∀ c ∈ h.arrays, ∀ v ∈ c.items, ∀ a, v.payload = .array a → a < h.arrays.size
  fields : ∀ c ∈ h.objects, ∀ v ∈ c.fields, ∀ a, v.payload = .array a → a < h.arrays.size

/-- At most the field with index `i` of the object at `addr` refers to the array at `a`. -/
structure HeldBy (h : Heap) (a addr i : Nat) : Prop where
  items : ∀ c ∈ h.arrays, ∀ v ∈ c.items, v.payload ≠ .array a
  fields : ∀ (addr' : Nat) (c : ObjectCell) (j : Nat) (v : Value), h.objects[addr']? = some c →
    c.fields[j]? = some v → v.payload = .array a → addr' = addr ∧ j = i

end Heap

/-- The value refers to no array. -/
def Value.Bare (v : Value) : Prop := ∀ a, v.payload ≠ .array a

theorem Ty.Admits.bare {t : Ty} {v : Value} (h : t.Admits v) : v.Bare := by
  intro a ha
  cases t with
  | bool | byte | int | float | double => simp [h.2] at ha
  | string => rcases h with ⟨text, rfl⟩ | rfl <;> cases ha
  | null | array | object =>
    cases h
    cases ha
  | void | bareArray | other => exact h

theorem Ty.bare_zero (t : Ty) : t.zero.Bare := by
  intro a ha
  cases t <;> cases ha

namespace Reference

/-- The configuration with another heap. -/
def Config.on (c : Config) (h : Heap) : Config := { c with heap := h }

/-! ## What a default does -/

namespace Default

/-- The arrays that a default makes. -/
def cells : Default → List ArrayCell
  | zero | value _ => []
  | items elem vs => [⟨elem, vs.toArray⟩]

/-- The number of items of a default. -/
def count : Default → Nat
  | zero | value _ => 0
  | items _ vs => vs.length

/-- What a field holds once its default is stored, where it held `v` and the next array is at
`n`. -/
def held (n : Nat) (v : Value) : Default → Value
  | zero => v
  | value w => w
  | items _ _ => .ofArray n

/-- The constants of a default refer to no array. -/
def Bare : Default → Prop
  | zero => True
  | value v => v.Bare
  | items _ vs => ∀ v ∈ vs, v.Bare

theorem bare_of_for {t : Ty} {d : Default} (h : Codegen.DefaultFor t d) : d.Bare := by
  cases d with
  | zero => trivial
  | value v => exact Ty.Admits.bare h
  | items elem vs => exact fun v hv ↦ (h.2 v hv).bare

end Default

variable {h h' : Heap} {cells : List ArrayCell} {cls : ClassRef} {xs ys vs ws : List Value}
  {o v w : Value} {c : Config} {elem : Ty} {ds : List Default} {d : Default} {n a i j : Nat}

/-- What fields hold once their defaults are stored. -/
def heldAll (n : Nat) : List Default → List Value → List Value
  | d :: ds, v :: vs => d.held n v :: heldAll (n + d.cells.length) ds vs
  | _, vs => vs

theorem store_field_of_ok (hw : writeField h o i w = .ok h') :
    store w (.field o i) (c.on h) = .ok () (c.on h') := by
  show (attempt (writeField h o i w) >>= setHeap) (c.on h) = _
  rw [hw]
  rfl

theorem store_item_of_ok {i : Int64} (hw : writeItem h o i w = .ok h') :
    store w (.item o i) (c.on h) = .ok () (c.on h') := by
  show (attempt (writeItem h o i w) >>= setHeap) (c.on h) = _
  rw [hw]
  rfl

theorem store_field_plus :
    store w (.field (.ofObject h.objects.size) xs.length)
    (c.on (h.plus cells cls (xs ++ v :: vs))) =
      .ok () (c.on (h.plus cells cls (xs ++ w :: vs))) := by
  have hobject : objectAt (h.plus cells cls (xs ++ v :: vs)) (.ofObject h.objects.size) =
      .ok (h.objects.size, ⟨cls, (xs ++ v :: vs).toArray⟩) := by
    simp [objectAt, Value.ofObject, Heap.plus]
  have hwrite := writeField_of_lt (v := w) (i := xs.length) hobject (by simp)
  rw [Heap.setField_plus] at hwrite
  exact store_field_of_ok hwrite

theorem store_item_addArray (hxs : xs.length < 2 ^ 63) :
    store w (.item (.ofArray h.arrays.size) (Int64.ofNat xs.length))
        (c.on (h.addArray ⟨elem, (xs ++ v :: vs).toArray⟩)) =
      .ok () (c.on (h.addArray ⟨elem, (xs ++ w :: vs).toArray⟩)) := by
  have hint := Int64.toInt_ofNat_of_lt hxs
  have hitem : itemAt (h.addArray ⟨elem, (xs ++ v :: vs).toArray⟩) (.ofArray h.arrays.size)
      (Int64.ofNat xs.length) = .ok (h.arrays.size, xs.length) := by
    have hnonneg : ¬Int64.ofNat xs.length < 0 := by
      rw [Int64.lt_iff_toInt_lt, hint]
      simp
    have hlt : ¬((xs.length : Int) + (vs.length + 1) ≤ xs.length) := by omega
    simp [itemAt, Value.ofArray, Heap.addArray, hint, hnonneg, hlt]
  have hwrite := writeItem_of_ok (v := w) hitem
  rw [Heap.setItem_addArray] at hwrite
  exact store_item_of_ok hwrite

/-- **The items of a new array are stored one after the other**: those in `ys` give way to those in
`vs`. -/
theorem storeItems_addArray (hlength : xs.length + vs.length < 2 ^ 63)
    (hys : ys.length = vs.length) : storeItems (.ofArray h.arrays.size) xs.length vs
    (c.on (h.addArray ⟨elem, (xs ++ ys).toArray⟩)) =
      .ok () (c.on (h.addArray ⟨elem, (xs ++ vs).toArray⟩)) := by
  induction vs generalizing xs ys with
  | nil =>
    obtain rfl := List.eq_nil_of_length_eq_zero hys
    rfl
  | cons v vs ih =>
    obtain ⟨y, ys, rfl⟩ := List.exists_cons_of_length_eq_add_one hys
    rw [List.length_cons] at hlength
    have hrest : storeItems (.ofArray h.arrays.size) (xs ++ [v]).length vs
        (c.on (h.addArray ⟨elem, (xs ++ [v] ++ ys).toArray⟩)) =
          .ok () (c.on (h.addArray ⟨elem, (xs ++ [v] ++ vs).toArray⟩)) :=
      ih (by rw [List.length_append, List.length_singleton]; omega) (Nat.succ.inj hys)
    simp only [List.length_append, List.length_singleton, List.append_assoc,
      List.singleton_append] at hrest
    exact (bind_of_ok (store_item_addArray (by omega))).trans hrest

theorem storeItems_fresh (hvs : vs.length ≤ maxArrayLength) :
    storeItems (.ofArray h.arrays.size) 0 vs (c.on (h.addArray (Heap.freshArray elem vs.length))) =
      .ok () (c.on (h.addArray ⟨elem, vs.toArray⟩)) := by
  have hlimit : maxArrayLength < 2 ^ 63 := by decide
  have hfresh : Heap.freshArray elem vs.length =
    ⟨elem, ([] ++ List.replicate vs.length elem.zero).toArray⟩ := by
    simp [Heap.freshArray]
  have hzero : ([] : List Value).length + vs.length < 2 ^ 63 := by
    rw [List.length_nil]
    omega
  rw [hfresh]
  exact storeItems_addArray hzero List.length_replicate

theorem allocate_of_le (hn : n ≤ maxArrayLength) : allocate elem (Int64.ofNat n) (c.on h) =
      .ok (.ofArray h.arrays.size) (c.on (h.addArray (Heap.freshArray elem n))) := by
  have hlimit : maxArrayLength < 2 ^ 63 := by decide
  have hint := Int64.toInt_ofNat_of_lt (Nat.lt_of_le_of_lt hn hlimit)
  have hmake : makeArray h elem (Int64.ofNat n) =
      .ok (h.addArray (Heap.freshArray elem n), .ofArray h.arrays.size) := by
    rw [makeArray, hint, if_neg (by omega), if_neg (by omega), Int.toNat_natCast]
  have hheap : (c.on h).heap = h := rfl
  rw [allocate, hheap, hmake]
  rfl

theorem allocate_of_lt (hn : maxArrayLength < n) (hint : n < 2 ^ 63) :
    allocate elem (Int64.ofNat n) c = .error (.fault .arrayTooLarge) c := by
  have hmake : makeArray c.heap elem (Int64.ofNat n) = .error .arrayTooLarge := by
    rw [makeArray, Int64.toInt_ofNat_of_lt hint, if_neg (by omega), if_pos (by omega)]
  rw [allocate, hmake]

/-- **One default is stored.** -/
theorem Default.apply_eq (d : Default) (hcount : d.count ≤ maxArrayLength) :
    d.apply (.ofObject h.objects.size) xs.length (c.on (h.plus cells cls (xs ++ v :: vs))) =
      .ok () (c.on
        (h.plus (cells ++ d.cells) cls (xs ++ d.held (h.arrays.size + cells.length) v :: vs))) := by
  cases d with
  | zero =>
    rw [Default.cells, List.append_nil]
    rfl
  | value w =>
    rw [Default.cells, List.append_nil]
    exact store_field_plus
  | items elem ws =>
    have hws : ws.length ≤ maxArrayLength := hcount
    have haddr : (h.plus cells cls (xs ++ v :: vs)).arrays.size = h.arrays.size + cells.length := by
      simp [Heap.plus]
    refine (bind_of_ok (allocate_of_le hws)).trans ((bind_of_ok (storeItems_fresh hws)).trans ?_)
    rw [haddr, Heap.addArray_plus]
    exact store_field_plus

theorem Default.apply_too_large {self : Value} (hcount : maxArrayLength < d.count)
    (hint : d.count < 2 ^ 63) : d.apply self i c = .error (.fault .arrayTooLarge) c := by
  cases d with
  | zero | value => exact absurd hcount (Nat.not_lt_zero _)
  | items elem ws => exact bind_of_error (allocate_of_lt hcount hint)

theorem applyDefaults_cons (hd : d.count ≤ maxArrayLength) :
    applyDefaults (.ofObject h.objects.size) xs.length (d :: ds)
    (c.on (h.plus cells cls (xs ++ v :: vs))) =
      applyDefaults (.ofObject h.objects.size)
      (xs ++ [d.held (h.arrays.size + cells.length) v]).length ds
        (c.on (h.plus (cells ++ d.cells) cls (xs ++ [d.held (h.arrays.size + cells.length) v] ++
          vs))) := by
  rw [List.length_append, List.append_assoc]
  exact bind_of_ok (d.apply_eq hd)

/-- **The defaults of a class are stored**, if none of their arrays is too large. -/
theorem applyDefaults_eq (hcount : ∀ d ∈ ds, d.count ≤ maxArrayLength)
    (hlength : ds.length ≤ vs.length) :
    applyDefaults (.ofObject h.objects.size) xs.length ds (c.on (h.plus cells cls (xs ++ vs))) =
      .ok () (c.on (h.plus (cells ++ ds.flatMap Default.cells) cls
        (xs ++ heldAll (h.arrays.size + cells.length) ds vs))) := by
  induction ds generalizing cells xs vs with
  | nil => simp [applyDefaults, heldAll, pure, EStateM.pure]
  | cons d ds ih =>
    obtain ⟨v, vs, rfl⟩ := List.exists_cons_of_length_pos (Nat.zero_lt_of_lt hlength)
    obtain ⟨hd, hds⟩ := List.forall_mem_cons.1 hcount
    rw [applyDefaults_cons hd, ih hds (Nat.le_of_succ_le_succ hlength)]
    simp [heldAll, Nat.add_assoc]

/-- Only an array that is too large gets in the way. -/
theorem applyDefaults_too_large (hcount : ∃ d ∈ ds, maxArrayLength < d.count)
    (hint : ∀ d ∈ ds, d.count < 2 ^ 63) (hlength : ds.length ≤ vs.length) :
    ∃ c', applyDefaults (.ofObject h.objects.size) xs.length ds
    (c.on (h.plus cells cls (xs ++ vs))) =
      .error (.fault .arrayTooLarge) c' := by
  induction ds generalizing cells xs vs with
  | nil => simp at hcount
  | cons d ds ih =>
    obtain ⟨v, vs, rfl⟩ := List.exists_cons_of_length_pos (Nat.zero_lt_of_lt hlength)
    obtain ⟨hd, hds⟩ := List.forall_mem_cons.1 hint
    by_cases hfits : d.count ≤ maxArrayLength
    · have hlarge : ∃ d ∈ ds, maxArrayLength < d.count := by
        obtain ⟨e, he, hlarge⟩ := hcount
        rcases List.mem_cons.1 he with rfl | he
        · omega
        · exact ⟨e, he, hlarge⟩
      rw [applyDefaults_cons hfits]
      exact ih hlarge hds (Nat.le_of_succ_le_succ hlength)
    · exact ⟨_, bind_of_error (Default.apply_too_large (Nat.lt_of_not_le hfits) hd)⟩

theorem applyDefaults_new (hcount : ∀ d ∈ ds, d.count ≤ maxArrayLength)
    (hlength : ds.length ≤ vs.length) :
    applyDefaults (.ofObject h.objects.size) 0 ds (c.on (h.plus [] cls vs)) =
      .ok () (c.on (h.plus (ds.flatMap Default.cells) cls (heldAll h.arrays.size ds vs))) := by
  have happly : applyDefaults _ ([] : List Value).length ds (c.on (h.plus [] cls ([] ++ vs))) = _ :=
    applyDefaults_eq hcount hlength
  simpa using happly

theorem applyDefaults_new_too_large (hcount : ∃ d ∈ ds, maxArrayLength < d.count)
    (hint : ∀ d ∈ ds, d.count < 2 ^ 63) (hlength : ds.length ≤ vs.length) :
    ∃ c', applyDefaults (.ofObject h.objects.size) 0 ds (c.on (h.plus [] cls vs)) =
      .error (.fault .arrayTooLarge) c' := by
  have happly : ∃ c',
      applyDefaults _ ([] : List Value).length ds (c.on (h.plus [] cls ([] ++ vs))) = _ :=
    applyDefaults_too_large hcount hint hlength
  simpa using happly

/-! ## One field -/

/-- Where the array of the default with an index is, counted from the first one that is made. -/
def arrayIndex (ds : List Default) (i : Nat) : Nat := ((ds.take i).flatMap Default.cells).length

theorem length_heldAll (hlength : ds.length ≤ vs.length) :
    (heldAll n ds vs).length = vs.length := by
  induction ds generalizing n vs with
  | nil => cases vs <;> rfl
  | cons d ds ih =>
    obtain ⟨v, vs, rfl⟩ := List.exists_cons_of_length_pos (Nat.zero_lt_of_lt hlength)
    rw [heldAll, List.length_cons, List.length_cons, ih (Nat.le_of_succ_le_succ hlength)]

theorem getElem?_heldAll (hd : ds[i]? = some d) (hv : vs[i]? = some v) :
    (heldAll n ds vs)[i]? = some (d.held (n + arrayIndex ds i) v) := by
  induction ds generalizing n vs i with
  | nil => cases hd
  | cons e ds ih =>
    cases vs with
    | nil => cases hv
    | cons w vs =>
      cases i with
      | zero =>
        cases hd
        cases hv
        rfl
      | succ i =>
        have hrest := ih (n := n + e.cells.length) hd hv
        rw [Nat.add_assoc] at hrest
        simpa [heldAll, arrayIndex] using hrest

theorem getElem?_cells (hd : ds[i]? = some (.items elem ws)) :
    (ds.flatMap Default.cells)[arrayIndex ds i]? = some ⟨elem, ws.toArray⟩ := by
  obtain ⟨hi, hd⟩ := List.getElem?_eq_some_iff.1 hd
  have hsplit : ds = ds.take i ++ .items elem ws :: ds.drop (i + 1) := by
    rw [← hd, ← List.drop_eq_getElem_cons hi, List.take_append_drop]
  have hcells : ds.flatMap Default.cells = (ds.take i).flatMap Default.cells ++
      ⟨elem, ws.toArray⟩ :: (ds.drop (i + 1)).flatMap Default.cells := by
    conv_lhs => rw [hsplit]
    simp [Default.cells]
  rw [hcells, arrayIndex, List.getElem?_append_right (Nat.le_refl _), Nat.sub_self]
  rfl

/-- Arrays of different fields are at different places. -/
theorem arrayIndex_lt (hij : i < j) (hd : ds[i]? = some (.items elem ws)) :
    arrayIndex ds i < arrayIndex ds j := by
  have hnext : arrayIndex ds (i + 1) = arrayIndex ds i + 1 := by
    simp [arrayIndex, List.take_add_one, hd, Default.cells]
  have hle : arrayIndex ds (i + 1) ≤ arrayIndex ds j := by
    obtain ⟨rest, hrest⟩ := List.take_prefix_take_left (l := ds) (show i + 1 ≤ j from hij)
    rw [arrayIndex, arrayIndex, ← hrest, List.flatMap_append, List.length_append]
    exact Nat.le_add_right _ _
  omega

/-- A field refers to an array only if its default makes one. -/
theorem items_of_heldAll (hbare : ∀ d ∈ ds, d.Bare) (hvs : ∀ v ∈ vs, v.Bare)
    (hlength : ds.length = vs.length) (hv : (heldAll n ds vs)[i]? = some v)
    (ha : v.payload = .array a) :
    ∃ elem ws, ds[i]? = some (.items elem ws) ∧ a = n + arrayIndex ds i := by
  have hi : i < vs.length := by
    rw [← length_heldAll (Nat.le_of_eq hlength)]
    exact (List.getElem?_eq_some_iff.1 hv).1
  have hd : ds[i]? = some ds[i] := List.getElem?_eq_getElem (hlength ▸ hi)
  have hheld := getElem?_heldAll (n := n) hd (List.getElem?_eq_getElem hi)
  cases hv.symm.trans hheld
  have hplain := hbare _ (List.mem_of_getElem? hd)
  cases hitem : ds[i] with
  | zero =>
    rw [hitem] at ha
    exact absurd ha (hvs _ (List.getElem_mem hi) a)
  | value w =>
    rw [hitem] at ha hplain
    exact absurd ha (hplain a)
  | items elem ws =>
    rw [hitem] at ha hd
    cases ha
    exact ⟨elem, ws, hd, rfl⟩

/-- **The array of a field belongs to it alone.** -/
theorem heldBy_plus (hclosed : h.Closed) (hbare : ∀ d ∈ ds, d.Bare) (hvs : ∀ v ∈ vs, v.Bare)
    (hlength : ds.length = vs.length)
    (hi : (heldAll h.arrays.size ds vs)[i]? = some (.ofArray a)) :
    (h.plus (ds.flatMap Default.cells) cls (heldAll h.arrays.size ds vs)).HeldBy a
    h.objects.size i := by
  obtain ⟨elem, ws, hd, rfl⟩ := items_of_heldAll hbare hvs hlength hi rfl
  have hnew {b : Nat} (hb : b < h.arrays.size) : b ≠ h.arrays.size + arrayIndex ds i := by omega
  constructor
  · intro c hc v hv hpayload
    rcases Array.mem_append.1 hc with hc | hc
    · exact hnew (hclosed.items c hc v hv _ hpayload) rfl
    · obtain ⟨d, hd, hc⟩ := List.mem_flatMap.1 (List.mem_toArray.1 hc)
      have hplain := hbare d hd
      cases d with
      | zero | value => cases hc
      | items elem ws =>
        obtain rfl := List.mem_singleton.1 hc
        exact hplain v (List.mem_toArray.1 hv) _ hpayload
  · intro addr c j v hc hv hpayload
    rw [Heap.plus, Array.getElem?_push] at hc
    split at hc
    · rename_i haddr
      cases hc
      obtain ⟨elem', ws', hd', hindex⟩ :=
        items_of_heldAll hbare hvs hlength (List.getElem?_toArray ▸ hv) hpayload
      refine ⟨haddr, ?_⟩
      rcases Nat.lt_trichotomy i j with hij | rfl | hji
      · have := arrayIndex_lt hij hd
        omega
      · rfl
      · have := arrayIndex_lt hji hd'
        omega
    · exact absurd rfl
        (hnew (hclosed.fields c (Array.mem_of_getElem? hc) v (Array.mem_of_getElem? hv) _ hpayload))

/-! ## Declarations -/

/-- What a field of type `t` with the declaration `f` holds in a new object, in a heap where the
arrays from the address `n` on are new. -/
inductive Starts (h : Heap) (n : Nat) (f : FieldDecl) : Ty → Value → Prop where
  /-- Without a default it holds the zero of its type. -/
  | zero {t : Ty} : f.hasValue = false → Starts h n f t t.zero
  /-- If it is no array it holds the literal, converted to its type. -/
  | literal {t : Ty} {o : Program.Operand} {v : Value} : f.hasValue = true →
      (∀ elem, t ≠ .array elem) → f.defaults = [o] → constantAs? t o = some v → Starts h n f t v
  /-- An array whose default is a lone null is null. -/
  | null {elem : Ty} : f.hasValue = true → f.defaults = [.null] → Starts h n f (.array elem) .null
  /-- Any other array is a new one of the literals, converted to the element type. -/
  | items {elem : Ty} {a : Nat} {ws : Array Value} : f.hasValue = true →
      f.defaults ≠ [.null] → n ≤ a → h.arrays[a]? = some ⟨elem, ws⟩ →
      List.Forall₂ (fun o w ↦ constantAs? elem o = some w) f.defaults ws.toList →
      Starts h n f (.array elem) (.ofArray a)

variable {fs : List FieldDecl} {f : FieldDecl} {ts : List Ty} {t : Ty}

theorem length_defaultsOf? (hds : defaultsOf? fs ts = some ds) : ds.length = fs.length := by
  induction fs generalizing ts ds with
  | nil =>
    cases hds
    rfl
  | cons f fs ih =>
    cases ts with
    | nil => cases hds
    | cons t ts =>
      obtain ⟨d, -, hds⟩ := Option.bind_eq_some_iff.1 hds
      obtain ⟨ds, hrest, hds⟩ := Option.bind_eq_some_iff.1 hds
      cases hds
      rw [List.length_cons, List.length_cons, ih hrest]

theorem defaultOf?_of_defaultsOf? (hds : defaultsOf? fs ts = some ds) (hf : fs[i]? = some f)
    (ht : ts[i]? = some t) : ∃ d, ds[i]? = some d ∧ defaultOf? f t = some d := by
  induction fs generalizing ts ds i with
  | nil => cases hf
  | cons f' fs ih =>
    cases ts with
    | nil => cases ht
    | cons t' ts =>
      obtain ⟨d, hd, hds⟩ := Option.bind_eq_some_iff.1 hds
      obtain ⟨ds, hrest, hds⟩ := Option.bind_eq_some_iff.1 hds
      cases hds
      cases i with
      | zero =>
        cases hf
        cases ht
        exact ⟨d, rfl, hd⟩
      | succ i =>
        obtain ⟨d', hd', hf'⟩ := ih hrest hf ht
        exact ⟨d', hd', hf'⟩

/-- **A default gives the field what its declaration says.** -/
theorem starts_of_defaultOf? (hd : defaultOf? f t = some d) (hn : n ≤ a)
    (ha : ∀ elem ws, d = .items elem ws → h.arrays[a]? = some ⟨elem, ws.toArray⟩) :
    Starts h n f t (d.held a t.zero) := by
  rw [defaultOf?] at hd
  split at hd
  · rename_i hvalue
    unfold given? at hd
    split at hd
    · rename_i hnull
      cases hd
      exact .null hvalue hnull
    · rename_i elem hnull
      obtain ⟨ws, hws, rfl⟩ := Option.map_eq_some_iff.1 hd
      exact .items hvalue hnull hn (ha elem ws rfl) (forall₂_of_mapM hws)
    · rename_i o harray hdefaults
      obtain ⟨v, hv, rfl⟩ := Option.map_eq_some_iff.1 hd
      exact .literal hvalue harray hdefaults hv
    · cases hd
  · rename_i hvalue
    cases hd
    exact .zero (by simpa using hvalue)

/-- A default has no more items than its declaration has literals. -/
theorem count_le_of_defaultOf? (hd : defaultOf? f t = some d) : d.count ≤ f.defaults.length := by
  cases d with
  | zero | value => exact Nat.zero_le _
  | items elem ws =>
    rw [defaultOf?] at hd
    split at hd
    · unfold given? at hd
      split at hd
      · cases hd
      · obtain ⟨vs, hvs, hd⟩ := Option.map_eq_some_iff.1 hd
        cases hd
        exact Nat.le_of_eq (forall₂_of_mapM hvs).length_eq.symm
      · obtain ⟨v, -, hd⟩ := Option.map_eq_some_iff.1 hd
        cases hd
      · cases hd
    · cases hd

end Reference

end ClassAsm
