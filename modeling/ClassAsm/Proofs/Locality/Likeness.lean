import ClassAsm.Heap
import ClassAsm.Proofs.Lists

/-!
# Likeness up to the identity of cells

Two machines that work on different heaps can have parts of them in common.  A `Bond` pairs the
cells of one heap with cells of the other: those that were there and are the same, and those that
are new, in the order in which they are made.  Values, cells and heaps are alike if they differ in
nothing but the addresses of cells that are paired.

A program does not see addresses.  What it computes from values and heaps that are alike is alike:
the printed form (`format_like`), conversions (`convert?_like`), and comparisons (`same_like`).
-/

namespace ClassAsm

/-- A cell of a heap by its address. -/
inductive Ref where
  | array (addr : Nat)
  | object (addr : Nat)
deriving DecidableEq

/-- The cell that a value refers to. -/
def Value.ref? (v : Value) : Option Ref :=
  match v.payload with
  | .array addr => some (.array addr)
  | .object addr => some (.object addr)
  | _ => none

namespace Locality

/-! ## Pairs of cells -/

/-- Pairs of cells of two heaps that were `b₁` and `b₂` at first.  No cell is in two pairs, and new
cells are paired in the order in which they are made. -/
structure Bond (b₁ b₂ : Heap) where
  pairs : Ref → Ref → Prop
  unique : ∀ {r₁ r₂ q₁ q₂ : Ref}, pairs r₁ q₁ → pairs r₂ q₂ → (r₁ = r₂ ↔ q₁ = q₂)
  array : ∀ k, pairs (.array (b₁.arrays.size + k)) (.array (b₂.arrays.size + k))
  object : ∀ k, pairs (.object (b₁.objects.size + k)) (.object (b₂.objects.size + k))

/-- Arrays of the same size with related entries. -/
structure Pointwise {α : Type} (R : α → α → Prop) (xs ys : Array α) : Prop where
  size : xs.size = ys.size
  entry : ∀ {i : Nat} {a b : α}, xs[i]? = some a → ys[i]? = some b → R a b

section Pointwise

variable {α β : Type} {R : α → α → Prop} {xs ys : Array α} {i : Nat} {a b : α}

theorem Pointwise.rel (h : Pointwise R xs ys) (i : Nat) : Option.Rel R xs[i]? ys[i]? := by
  rcases Nat.lt_or_ge i xs.size with hi | hi
  · obtain ⟨a, ha⟩ : ∃ a, xs[i]? = some a := ⟨_, Array.getElem?_eq_getElem hi⟩
    obtain ⟨b, hb⟩ : ∃ b, ys[i]? = some b := ⟨_, Array.getElem?_eq_getElem (h.size ▸ hi)⟩
    rw [ha, hb]
    exact .some (h.entry ha hb)
  · rw [Array.getElem?_eq_none hi, Array.getElem?_eq_none (h.size ▸ hi)]
    exact .none

theorem pointwise_of_rel (hsize : xs.size = ys.size) (h : ∀ i : Nat, Option.Rel R xs[i]? ys[i]?) :
    Pointwise R xs ys where
  size := hsize
  entry {i a b} ha hb := by
    have hi := h i
    rw [ha, hb] at hi
    cases hi with
    | some hab => exact hab

theorem Pointwise.of_eq (hR : ∀ a ∈ xs, R a a) : Pointwise R xs xs where
  size := rfl
  entry ha hb := by
    cases ha.symm.trans hb
    exact hR _ (Array.mem_of_getElem? ha)

theorem Pointwise.set (h : Pointwise R xs ys) (i : Nat) (hab : R a b) :
    Pointwise R (xs.setIfInBounds i a) (ys.setIfInBounds i b) := by
  refine pointwise_of_rel (by simp [h.size]) fun j ↦ ?_
  rw [Array.getElem?_setIfInBounds, Array.getElem?_setIfInBounds, h.size]
  split
  · split
    · exact .some hab
    · exact .none
  · exact h.rel j

/-- What is the same for related entries is the same for all of them. -/
theorem Pointwise.map_eq (h : Pointwise R xs ys) {f g : α → β} (hfg : ∀ a b, R a b → f a = g b) :
    xs.toList.map f = ys.toList.map g := by
  refine List.ext_getElem? fun i ↦ ?_
  rw [List.getElem?_map, List.getElem?_map, Array.getElem?_toList, Array.getElem?_toList]
  rcases rel_cases (h.rel i) with ⟨ha, hb⟩ | ⟨a, b, ha, hb, hab⟩
  · rw [ha, hb]
    rfl
  · rw [ha, hb]
    exact congrArg some (hfg a b hab)

end Pointwise

/-! ## Values -/

/-- Payloads that differ in paired addresses only. -/
inductive PayloadLike (ρ : Ref → Ref → Prop) : Payload → Payload → Prop where
  | none : PayloadLike ρ .none .none
  | text (s : String) : PayloadLike ρ (.text s) (.text s)
  | foreign (className : String) (id : Nat) :
      PayloadLike ρ (.foreign className id) (.foreign className id)
  | array {a b : Nat} : ρ (.array a) (.array b) → PayloadLike ρ (.array a) (.array b)
  | object {a b : Nat} : ρ (.object a) (.object b) → PayloadLike ρ (.object a) (.object b)

/-- Values that differ in paired addresses only. -/
structure ValueLike (ρ : Ref → Ref → Prop) (v w : Value) : Prop where
  tag : v.tag = w.tag
  word : v.word = w.word
  payload : PayloadLike ρ v.payload w.payload

section Values

variable {ρ : Ref → Ref → Prop} {v w v' w' : Value}

theorem valueLike_refl (h : ∀ r, v.ref? = some r → ρ r r) : ValueLike ρ v v where
  tag := rfl
  word := rfl
  payload := by
    cases hp : v.payload with
    | none => exact .none
    | text s => exact .text s
    | foreign className id => exact .foreign className id
    | array a => exact .array (h (.array a) (by rw [Value.ref?, hp]))
    | object a => exact .object (h (.object a) (by rw [Value.ref?, hp]))

theorem PayloadLike.none_iff {p q : Payload} (h : PayloadLike ρ p q) : p = .none ↔ q = .none := by
  cases h <;> simp

section

variable (h : ValueLike ρ v w)

include h

theorem ValueLike.isNull : v.isNull = w.isNull := by
  have hpayload : (v.payload = .none) = (w.payload = .none) := propext h.payload.none_iff
  rw [Value.isNull, Value.isNull, h.tag]
  simp only [hpayload]

theorem ValueLike.toInt : v.toInt = w.toInt := by
  rw [Value.toInt, Value.toInt, h.tag, h.word]

theorem ValueLike.toFloat : v.toFloat = w.toFloat := by
  rw [Value.toFloat, Value.toFloat, h.tag, h.word]

theorem ValueLike.truth : v.truth = w.truth := by
  rw [Value.truth, Value.truth, h.word]

theorem ValueLike.str : v.str = w.str := by
  have hpayload := h.payload
  rw [Value.str, Value.str]
  generalize v.payload = p, w.payload = q at hpayload
  cases hpayload <;> rfl

theorem ValueLike.less (h' : ValueLike ρ v' w') : v.less v' = w.less w' := by
  rw [Value.less, Value.less, h.tag, h'.tag, h.toFloat, h'.toFloat, h.toInt, h'.toInt]

end

/-- Two references are the same on one side if and only if they are on the other. -/
theorem payload_eq_iff (hρ : ∀ {r₁ r₂ q₁ q₂ : Ref}, ρ r₁ q₁ → ρ r₂ q₂ → (r₁ = r₂ ↔ q₁ = q₂))
    {p q p' q' : Payload} (h : PayloadLike ρ p q) (h' : PayloadLike ρ p' q') : p = p' ↔ q = q' := by
  cases h with
  | none | text s | foreign className id => cases h' <;> simp
  | array hab =>
    cases h' with
    | array hab' => simpa using hρ hab hab'
    | _ => simp
  | object hab =>
    cases h' with
    | object hab' => simpa using hρ hab hab'
    | _ => simp

/-- **Comparisons do not see addresses.** -/
theorem same_like (hρ : ∀ {r₁ r₂ q₁ q₂ : Ref}, ρ r₁ q₁ → ρ r₂ q₂ → (r₁ = r₂ ↔ q₁ = q₂))
    (h : ValueLike ρ v w) (h' : ValueLike ρ v' w') : v.same v' = w.same w' := by
  have hpayload : (v.payload = v'.payload) = (w.payload = w'.payload) :=
    propext (payload_eq_iff hρ h.payload h'.payload)
  rw [Value.same, Value.same, h.tag, h'.tag, h.toFloat, h'.toFloat, h.toInt, h'.toInt, h.isNull,
    h'.isNull, h.str, h'.str, h.word, h'.word]
  simp only [hpayload]

end Values

/-! ## Cells and heaps -/

/-- Arrays whose items are alike. -/
structure ArrayLike (ρ : Ref → Ref → Prop) (c d : ArrayCell) : Prop where
  elem : c.elem = d.elem
  items : Pointwise (ValueLike ρ) c.items d.items

/-- Objects of the same class whose fields are alike. -/
structure ObjectLike (ρ : Ref → Ref → Prop) (c d : ObjectCell) : Prop where
  cls : c.cls = d.cls
  fields : Pointwise (ValueLike ρ) c.fields d.fields

/-- Paired cells are alike, and as many cells have been made on both sides. -/
structure HeapLike {b₁ b₂ : Heap} (β : Bond b₁ b₂) (h₁ h₂ : Heap) : Prop where
  arrays : ∀ {a b : Nat}, β.pairs (.array a) (.array b) →
    Option.Rel (ArrayLike β.pairs) h₁.arrays[a]? h₂.arrays[b]?
  objects : ∀ {a b : Nat}, β.pairs (.object a) (.object b) →
    Option.Rel (ObjectLike β.pairs) h₁.objects[a]? h₂.objects[b]?
  newArrays : ∃ k, h₁.arrays.size = b₁.arrays.size + k ∧ h₂.arrays.size = b₂.arrays.size + k
  newObjects : ∃ k, h₁.objects.size = b₁.objects.size + k ∧ h₂.objects.size = b₂.objects.size + k

/-- The cells that are in no pair are as they were. -/
structure Untouched (ρ : Ref → Ref → Prop) (b h : Heap) : Prop where
  arrays : ∀ a, (∀ q, ¬ρ (.array a) q) → h.arrays[a]? = b.arrays[a]?
  objects : ∀ a, (∀ q, ¬ρ (.object a) q) → h.objects[a]? = b.objects[a]?

section Heaps

variable {b₁ b₂ h₁ h₂ : Heap} {β : Bond b₁ b₂} {v w : Value} {a b i : Nat} {ρ : Ref → Ref → Prop}

theorem HeapLike.array? (h : HeapLike β h₁ h₂) (hv : ValueLike β.pairs v w) :
    Option.Rel (ArrayLike β.pairs) (h₁.array? v) (h₂.array? w) := by
  have hpayload := hv.payload
  rw [Heap.array?, Heap.array?]
  generalize v.payload = p, w.payload = q at hpayload
  cases hpayload with
  | array hab => exact h.arrays hab
  | _ => exact .none

theorem HeapLike.className? (h : HeapLike β h₁ h₂) (hv : ValueLike β.pairs v w) :
    h₁.className? v = h₂.className? w := by
  have hpayload := hv.payload
  rw [Heap.className?, Heap.className?]
  generalize v.payload = p, w.payload = q at hpayload
  cases hpayload with
  | object hab =>
    rcases rel_cases (h.objects hab) with ⟨hc, hd⟩ | ⟨c, d, hc, hd, hcell⟩
    · simp only [hc, hd]
    · simp only [hc, hd, Option.map_some, hcell.cls]
  | _ => rfl

/-- **The printed form does not show addresses.** -/
theorem formatWithin_like (h : HeapLike β h₁ h₂) (depth : Nat) (hv : ValueLike β.pairs v w) :
    h₁.formatWithin depth v = h₂.formatWithin depth w := by
  induction depth generalizing v w with
  | zero => rfl
  | succ depth ih =>
    rw [Heap.formatWithin, Heap.formatWithin, hv.tag, hv.str, hv.word, hv.truth, h.className? hv]
    cases w.tag with
    | array =>
      rcases rel_cases (h.array? hv) with ⟨hc, hd⟩ | ⟨c, d, hc, hd, hcell⟩
      · simp only [hc, hd]
      · simp only [hc, hd, hcell.items.map_eq fun a b hab ↦ ih hab]
    | _ => rfl

theorem format_like (h : HeapLike β h₁ h₂) (hv : ValueLike β.pairs v w) :
    h₁.format v = h₂.format w :=
  formatWithin_like h 11 hv

theorem valueLike_of_none (hv : v.payload = .none) : ValueLike ρ v v :=
  ⟨rfl, rfl, hv ▸ .none⟩

theorem valueLike_ofString (s : String) : ValueLike ρ (.ofString s) (.ofString s) :=
  ⟨rfl, rfl, .text s⟩

theorem valueLike_zero (t : Ty) : ValueLike ρ t.zero t.zero := by
  cases t with
  | string => exact valueLike_ofString ""
  | _ => exact valueLike_of_none rfl

section

variable (h : HeapLike β h₁ h₂)

include h

/-- **Conversions do not see addresses.** -/
theorem convert?_like (hv : ValueLike β.pairs v w) (t : Ty) :
    Option.Rel (ValueLike β.pairs) (h₁.convert? v t) (h₂.convert? w t) := by
  cases t with
  | int | byte | float | double =>
    simp only [Heap.convert?, hv.tag, hv.toInt, hv.toFloat]
    split
    · exact .some (valueLike_of_none rfl)
    · exact .none
  | bool =>
    simp only [Heap.convert?, hv.tag]
    split
    · exact .some hv
    · exact .none
  | string =>
    simp only [Heap.convert?, hv.tag, hv.isNull, format_like h hv]
    split
    · exact .some hv
    · exact .some (valueLike_ofString _)
  | array elem =>
    have hany : ((h₁.array? v).any fun c ↦ c.elem = elem) = (h₂.array? w).any fun c ↦
      c.elem = elem := by
      rcases rel_cases (h.array? hv) with ⟨hc, hd⟩ | ⟨c, d, hc, hd, hcell⟩
      · rw [hc, hd]
      · rw [hc, hd, Option.any_some, Option.any_some, hcell.elem]
    simp only [Heap.convert?, hv.isNull, hany]
    split
    · exact .some (valueLike_of_none rfl)
    · split
      · exact .some hv
      · exact .none
  | bareArray =>
    simp only [Heap.convert?, hv.isNull]
    split
    · exact .some (valueLike_of_none rfl)
    · exact .none
  | object className =>
    simp only [Heap.convert?, hv.isNull, h.className? hv]
    split
    · exact .some (valueLike_of_none rfl)
    · split
      · exact .some hv
      · exact .none
  | void | null | other => exact .none

/-! ### Changes -/

theorem HeapLike.setItem (hab : β.pairs (.array a) (.array b)) (i : Nat)
    (hv : ValueLike β.pairs v w) : HeapLike β (h₁.setItem a i v) (h₂.setItem b i w) where
  arrays {a' b'} hab' := by
    have haddr : a = a' ↔ b = b' := by simpa using β.unique hab hab'
    simp only [Heap.setItem, Array.getElem?_modify, haddr]
    split
    · rcases rel_cases (h.arrays hab') with ⟨hc, hd⟩ | ⟨c, d, hc, hd, hcell⟩
      · rw [hc, hd]
        exact .none
      · rw [hc, hd]
        exact .some ⟨hcell.elem, hcell.items.set i hv⟩
    · exact h.arrays hab'
  objects := h.objects
  newArrays := by simpa only [Heap.setItem, Array.size_modify] using h.newArrays
  newObjects := h.newObjects

theorem HeapLike.setField (hab : β.pairs (.object a) (.object b)) (i : Nat)
    (hv : ValueLike β.pairs v w) : HeapLike β (h₁.setField a i v) (h₂.setField b i w) where
  arrays := h.arrays
  objects {a' b'} hab' := by
    have haddr : a = a' ↔ b = b' := by simpa using β.unique hab hab'
    simp only [Heap.setField, Array.getElem?_modify, haddr]
    split
    · rcases rel_cases (h.objects hab') with ⟨hc, hd⟩ | ⟨c, d, hc, hd, hcell⟩
      · rw [hc, hd]
        exact .none
      · rw [hc, hd]
        exact .some ⟨hcell.cls, hcell.fields.set i hv⟩
    · exact h.objects hab'
  newArrays := h.newArrays
  newObjects := by simpa only [Heap.setField, Array.size_modify] using h.newObjects

theorem HeapLike.nextArray : β.pairs (.array h₁.arrays.size) (.array h₂.arrays.size) := by
  obtain ⟨k, hk₁, hk₂⟩ := h.newArrays
  rw [hk₁, hk₂]
  exact β.array k

theorem HeapLike.nextObject : β.pairs (.object h₁.objects.size) (.object h₂.objects.size) := by
  obtain ⟨k, hk₁, hk₂⟩ := h.newObjects
  rw [hk₁, hk₂]
  exact β.object k

theorem HeapLike.addArray {c d : ArrayCell} (hcd : ArrayLike β.pairs c d) :
    HeapLike β (h₁.addArray c) (h₂.addArray d) where
  arrays {a b} hab := by
    have haddr : a = h₁.arrays.size ↔ b = h₂.arrays.size := by simpa using β.unique hab h.nextArray
    simp only [Heap.addArray, Array.getElem?_push, haddr]
    split
    · exact .some hcd
    · exact h.arrays hab
  objects := h.objects
  newArrays := by
    obtain ⟨k, hk₁, hk₂⟩ := h.newArrays
    exact ⟨k + 1, by simp [Heap.addArray, hk₁, Nat.add_assoc],
      by simp [Heap.addArray, hk₂, Nat.add_assoc]⟩
  newObjects := h.newObjects

theorem HeapLike.addObject {c d : ObjectCell} (hcd : ObjectLike β.pairs c d) :
    HeapLike β (h₁.addObject c) (h₂.addObject d) where
  arrays := h.arrays
  objects {a b} hab := by
    have haddr : a = h₁.objects.size ↔ b = h₂.objects.size := by
      simpa using β.unique hab h.nextObject
    simp only [Heap.addObject, Array.getElem?_push, haddr]
    split
    · exact .some hcd
    · exact h.objects hab
  newArrays := h.newArrays
  newObjects := by
    obtain ⟨k, hk₁, hk₂⟩ := h.newObjects
    exact ⟨k + 1, by simp [Heap.addObject, hk₁, Nat.add_assoc],
      by simp [Heap.addObject, hk₂, Nat.add_assoc]⟩

end

theorem freshArray_like (elem : Ty) (n : Nat) :
    ArrayLike ρ (Heap.freshArray elem n) (Heap.freshArray elem n) := by
  refine ⟨rfl, .of_eq fun v hv ↦ ?_⟩
  obtain rfl := Array.eq_of_mem_replicate hv
  exact valueLike_zero elem

theorem freshObject_like (cls : Bytecode.ClassRef) :
    ObjectLike ρ (Heap.freshObject cls) (Heap.freshObject cls) := by
  refine ⟨rfl, .of_eq fun v hv ↦ ?_⟩
  obtain ⟨f, -, rfl⟩ := Array.mem_map.1 hv
  exact valueLike_zero f.type

section Untouched

variable {base h : Heap} {q : Ref}

theorem Untouched.refl (ρ : Ref → Ref → Prop) (h : Heap) : Untouched ρ h h :=
  ⟨fun _ _ ↦ rfl, fun _ _ ↦ rfl⟩

theorem Untouched.setItem (hu : Untouched ρ base h) (ha : ρ (.array a) q) (i : Nat) (v : Value) :
    Untouched ρ base (h.setItem a i v) where
  arrays a' hfree := by
    have hne : a ≠ a' := fun heq ↦ hfree q (heq ▸ ha)
    simp only [Heap.setItem, Array.getElem?_modify, if_neg hne]
    exact hu.arrays a' hfree
  objects := hu.objects

theorem Untouched.setField (hu : Untouched ρ base h) (ha : ρ (.object a) q) (i : Nat) (v : Value) :
    Untouched ρ base (h.setField a i v) where
  arrays := hu.arrays
  objects a' hfree := by
    have hne : a ≠ a' := fun heq ↦ hfree q (heq ▸ ha)
    simp only [Heap.setField, Array.getElem?_modify, if_neg hne]
    exact hu.objects a' hfree

theorem Untouched.addArray (hu : Untouched ρ base h) (hnext : ρ (.array h.arrays.size) q)
    (c : ArrayCell) : Untouched ρ base (h.addArray c) where
  arrays a hfree := by
    have hne : a ≠ h.arrays.size := fun heq ↦ hfree q (heq ▸ hnext)
    simp only [Heap.addArray, Array.getElem?_push, if_neg hne]
    exact hu.arrays a hfree
  objects := hu.objects

theorem Untouched.addObject (hu : Untouched ρ base h) (hnext : ρ (.object h.objects.size) q)
    (c : ObjectCell) : Untouched ρ base (h.addObject c) where
  arrays := hu.arrays
  objects a hfree := by
    have hne : a ≠ h.objects.size := fun heq ↦ hfree q (heq ▸ hnext)
    simp only [Heap.addObject, Array.getElem?_push, if_neg hne]
    exact hu.objects a hfree

end Untouched

end Heaps

end Locality

end ClassAsm
