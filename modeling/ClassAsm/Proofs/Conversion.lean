import ClassAsm.Heap

/-!
# Conversions

Two rules say what may be stored where.  The code generator has one about types, `Ty.accepts`, and
only generates conversions that it allows.  The machine has one about values, `Heap.convert?`, which
looks at tags and cells.

`Heap.Conversion` lists what a conversion can give, so that nothing else has to look into
`Heap.convert?`.  With it, `conversion_agrees_with_types` says that the two rules agree on all
values that conform to a type, and that what a conversion gives conforms to the type that was asked
for.
-/

namespace ClassAsm

/-- An array or a class accepts its own values and null. -/
theorem Ty.accepts_reference {s t : Ty} (ht : t.tag = .array ∨ t.tag = .object) :
    t.accepts s = true ↔ s.tag = .null ∨ t = s := by
  rcases ht with ht | ht <;> rw [accepts, ht, Bool.or_eq_true, decide_eq_true_eq, decide_eq_true_eq]

namespace Heap

variable {h : Heap} {s t : Ty} {v c : Value} {name : String}

/-! ## What a conversion can give -/

/-- What converting a value to a type can give. -/
inductive Conversion (h : Heap) (v : Value) : Ty → Value → Prop where
  | number {t : Ty} {c : Value} : v.tag.isNumeric = true → c.tag = t.tag → c.payload = .none →
      (t = .byte → c.word < 256) → t.tag.isNumeric = true → Conversion h v t c
  | bool : v.tag = .bool → Conversion h v .bool v
  | text : v.tag = .string ∨ v.isNull = true → Conversion h v .string v
  | printed : Conversion h v .string (.ofString (h.format v))
  | null {t : Ty} : v.isNull = true → t.tag = .array ∨ t.tag = .object → Conversion h v t .null
  | array {cell : ArrayCell} : v.isNull = false → h.array? v = some cell →
      Conversion h v (.array cell.elem) v
  | object {name : String} : v.isNull = false → h.className? v = some name →
      Conversion h v (.object name) v

theorem conversion_of_convert? (hc : h.convert? v t = some c) : Conversion h v t c := by
  cases t with
  | byte =>
    obtain ⟨hnumber, ⟨⟩⟩ := Option.ite_none_right_eq_some.1 hc
    exact .number hnumber rfl rfl (fun _ ↦ UInt64.lt_iff_toNat_lt.2 (UInt8.toNat_lt _)) rfl
  | int | float | double =>
    obtain ⟨hnumber, ⟨⟩⟩ := Option.ite_none_right_eq_some.1 hc
    exact .number hnumber rfl rfl nofun rfl
  | bool =>
    obtain ⟨hbool, ⟨⟩⟩ := Option.ite_none_right_eq_some.1 hc
    exact .bool hbool
  | string =>
    rw [convert?] at hc
    split at hc <;> cases hc
    · rename_i htext
      rw [Bool.or_eq_true, decide_eq_true_eq] at htext
      exact .text htext
    · exact .printed
  | array elem =>
    rw [convert?] at hc
    split at hc
    · rename_i hnull
      cases hc
      exact .null hnull (.inl rfl)
    · rename_i hnull
      obtain ⟨hany, ⟨⟩⟩ := Option.ite_none_right_eq_some.1 hc
      obtain ⟨cell, hcell, helem⟩ := (Option.any_eq_true _ _).1 hany
      exact of_decide_eq_true helem ▸ .array (Bool.not_eq_true _ ▸ hnull) hcell
  | bareArray =>
    obtain ⟨hnull, ⟨⟩⟩ := Option.ite_none_right_eq_some.1 hc
    exact .null hnull (.inl rfl)
  | object className =>
    rw [convert?] at hc
    split at hc
    · rename_i hnull
      cases hc
      exact .null hnull (.inr rfl)
    · rename_i hnull
      obtain ⟨hname, ⟨⟩⟩ := Option.ite_none_right_eq_some.1 hc
      exact .object (Bool.not_eq_true _ ▸ hnull) hname
  | void | null | other => cases hc

/-- Converting once more changes nothing, unless to a floating-point type. -/
theorem convert?_of_convert? (hc : h.convert? v t = some c) (hfloat : t ≠ .float)
    (hdouble : t ≠ .double) : h.convert? c t = some c := by
  cases conversion_of_convert? hc with
  | number hnumber _ _ _ ht =>
    cases t with
    | byte =>
      obtain ⟨-, ⟨⟩⟩ := Option.ite_none_right_eq_some.1 hc
      exact congrArg (some ∘ Value.ofByte) (UInt8.toUInt8_toUInt64 _)
    | int => obtain ⟨-, ⟨⟩⟩ := Option.ite_none_right_eq_some.1 hc; rfl
    | float => exact absurd rfl hfloat
    | double => exact absurd rfl hdouble
    | _ => cases ht
  | bool | text | array | object => exact hc
  | printed => rfl
  | null _ ht =>
    cases t with
    | array | bareArray | object => rfl
    | _ => rcases ht with ht | ht <;> cases ht

/-! ## Values that conform to a type -/

/-- The value conforms to the type: it has the tag of a scalar type, and a byte is below 256; it is
a string, an array with items that conform to the element type, or an object of the class; or it is
null instead of one of these.  A scalar lives in its word alone. -/
def Conforms (h : Heap) : Ty → Value → Prop
  | .bool, v => v.tag = .bool ∧ v.payload = .none
  | .byte, v => v.tag = .byte ∧ v.payload = .none ∧ v.word < 256
  | .int, v => v.tag = .int ∧ v.payload = .none
  | .float, v => v.tag = .float ∧ v.payload = .none
  | .double, v => v.tag = .double ∧ v.payload = .none
  | .string, v => v.isNull = true ∨ (v.tag = .string ∧ ∃ text, v.payload = .text text)
  | .array elem, v => v.isNull = true ∨
      (v.tag = .array ∧ ∃ cell, h.array? v = some cell ∧ cell.elem = elem ∧ ∀ x ∈ cell.items,
        h.Conforms elem x)
  | .object name, v => v.isNull = true ∨ (v.tag = .object ∧ h.className? v = some name)
  | .null, v | .bareArray, v => v.isNull = true
  | .void, _ | .other _, _ => False

theorem conforms_of_isNull (hv : v.isNull = true) (ht : t.tag.isReference = true) :
    h.Conforms t v := by
  cases t with
  | string | array | object => exact .inl hv
  | null | bareArray => exact hv
  | _ => cases ht

theorem className?_eq_none {cell : ArrayCell} (hcell : h.array? v = some cell) :
    h.className? v = none := by
  rw [array?] at hcell
  split at hcell
  · rename_i hpayload
    rw [className?, hpayload]
  · cases hcell

section Conforms

variable (hv : h.Conforms s v) (hnull : v.isNull = false)

include hv hnull

theorem Conforms.tag : v.tag = s.tag := by
  cases s with
  | bool | byte | int | float | double => exact hv.1
  | string | array | object => exact (hv.resolve_left (hnull ▸ Bool.false_ne_true)).1
  | null | bareArray => cases hnull.symm.trans hv
  | void | other => exact hv.elim

/-- Only values of array types refer to arrays, and only those of class types to objects. -/
theorem Conforms.refers : (∀ cell, h.array? v = some cell → s = .array cell.elem) ∧
    ∀ name, h.className? v = some name → s = .object name := by
  cases s with
  | bool | int | float | double => simp [array?, className?, hv.2]
  | byte => simp [array?, className?, hv.2.1]
  | string =>
    obtain ⟨-, text, htext⟩ := hv.resolve_left (hnull ▸ Bool.false_ne_true)
    simp [array?, className?, htext]
  | array elem =>
    obtain ⟨-, cell, hcell, rfl, -⟩ := hv.resolve_left (hnull ▸ Bool.false_ne_true)
    simp [hcell, className?_eq_none hcell]
  | object name =>
    obtain ⟨-, hname⟩ := hv.resolve_left (hnull ▸ Bool.false_ne_true)
    refine ⟨fun cell hcell ↦ ?_, fun name' hname' ↦
      by rw [Option.some.inj (hname.symm.trans hname')]⟩
    cases (className?_eq_none hcell).symm.trans hname
  | null | bareArray => cases hnull.symm.trans hv
  | void | other => exact hv.elim

/-- A value of its own type stays as it is, numbers apart. -/
theorem Conforms.convert?_self (hs : s.tag.isNumeric = false) : h.convert? v s = some v := by
  cases s with
  | bool => exact if_pos hv.1
  | string =>
    obtain ⟨htag, -⟩ := hv.resolve_left (hnull ▸ Bool.false_ne_true)
    rw [convert?, htag]
    rfl
  | array elem =>
    obtain ⟨-, cell, hcell, helem, -⟩ := hv.resolve_left (hnull ▸ Bool.false_ne_true)
    simp [convert?, hnull, hcell, helem]
  | object name =>
    obtain ⟨-, hname⟩ := hv.resolve_left (hnull ▸ Bool.false_ne_true)
    simp [convert?, hnull, hname]
  | null | bareArray => cases hnull.symm.trans hv
  | void | other => exact hv.elim
  | byte | int | float | double => cases hs

/-- **The machine converts what the code generator lets it convert**, and nothing else. -/
theorem Conforms.isSome_convert? : (h.convert? v t).isSome = true ↔ t.accepts s = true := by
  have htag := hv.tag hnull
  have hs : s.tag ≠ .null ∧ s.tag ≠ .void := by
    rw [← htag]
    constructor <;> intro h <;> simp [Value.isNull, h] at hnull
  constructor
  · intro hsome
    obtain ⟨c, hc⟩ := Option.isSome_iff_exists.1 hsome
    cases conversion_of_convert? hc with
    | number hnumber _ _ _ ht =>
      rw [htag] at hnumber
      cases t with
      | byte | int | float | double => exact hnumber
      | _ => cases ht
    | bool hbool => exact decide_eq_true (htag ▸ hbool)
    | text | printed => exact decide_eq_true hs.2
    | null hnull' => cases hnull.symm.trans hnull'
    | array _ hcell =>
      exact (Ty.accepts_reference (.inl rfl)).2 (.inr ((hv.refers hnull).1 _ hcell).symm)
    | object _ hname =>
      exact (Ty.accepts_reference (.inr rfl)).2 (.inr ((hv.refers hnull).2 _ hname).symm)
  · intro haccepts
    cases t with
    | byte | int | float | double => exact Option.isSome_ite.2 (htag ▸ haccepts)
    | bool => exact Option.isSome_ite.2 (htag ▸ of_decide_eq_true haccepts)
    | string =>
      rw [convert?]
      split <;> rfl
    | array | bareArray | object =>
      obtain rfl := ((Ty.accepts_reference (by simp [Ty.tag])).1 haccepts).resolve_left hs.1
      rw [hv.convert?_self hnull rfl]
      rfl
    | void | null | other => cases haccepts

end Conforms

theorem isSome_convert?_of_isNull (hv : v.isNull = true) :
    (h.convert? v t).isSome = true ↔ t.tag = .string ∨ t.tag = .array ∨ t.tag = .object := by
  have htag : v.tag.isNumeric = false ∧ v.tag ≠ .bool := by
    rw [Value.isNull] at hv
    split at hv <;> simp_all [Tag.isNumeric]
  cases t <;> simp [convert?, hv, htag, Ty.tag]

theorem Conversion.conforms (hc : Conversion h v t c) (hv : v.isNull = true ∨ h.Conforms s v) :
    h.Conforms t c := by
  have hs (hnull : v.isNull = false) : h.Conforms s v :=
    hv.resolve_left (hnull ▸ Bool.false_ne_true)
  cases hc with
  | number hnumber htag hpayload hbyte ht =>
    cases t with
    | byte => exact ⟨htag, hpayload, hbyte rfl⟩
    | int | float | double => exact ⟨htag, hpayload⟩
    | _ => cases ht
  | bool hbool =>
    have hnull : v.isNull = false := by rw [Value.isNull, hbool]
    have htag := ((hs hnull).tag hnull).symm.trans hbool
    cases s with
    | bool => exact hs hnull
    | _ => cases htag
  | text htext =>
    rcases htext with hstring | hnull
    · have hnull : v.isNull = false := by rw [Value.isNull, hstring]
      have htag := ((hs hnull).tag hnull).symm.trans hstring
      cases s with
      | string => exact hs hnull
      | _ => cases htag
    · exact .inl hnull
  | printed => exact .inr ⟨rfl, _, rfl⟩
  | null _ ht => exact conforms_of_isNull rfl (by rcases ht with ht | ht <;> rw [ht] <;> rfl)
  | array hnull hcell => exact ((hs hnull).refers hnull).1 _ hcell ▸ hs hnull
  | object hnull hname => exact ((hs hnull).refers hnull).2 _ hname ▸ hs hnull

end Heap

/-! ## The two rules -/

/-- **The rule about types and the rule about values agree.**  A value that is not null is converted
if and only if the type that it conforms to is accepted, and null if it can stand for the other
type.  What comes out conforms to that type, is the value itself if the types are the same and not
numeric, and is not changed by converting it once more, unless to a floating-point type.  Void and
references without a cell count as null too, but are not meant by "the value itself": converted to
their own type they become null. -/
theorem conversion_agrees_with_types (h : Heap) (t s : Ty) (v : Value) :
    (h.Conforms s v → v.isNull = false → ((h.convert? v t).isSome = true ↔ t.accepts s = true)) ∧
    (v.isNull = true → ((h.convert? v t).isSome = true ↔ t.tag = .string ∨ t.tag = .array ∨
      t.tag = .object)) ∧
    ∀ c, h.convert? v t = some c → (v.isNull = true ∨ h.Conforms s v → h.Conforms t c) ∧
      (h.Conforms s v → v = .null ∨ v.isNull = false → t = s →
        t.tag = .bool ∨ t.tag = .string ∨ t.tag = .array ∨ t.tag = .object → c = v) ∧
      (t ≠ .float → t ≠ .double → h.convert? c t = some c) := by
  refine ⟨fun hv hnull ↦ hv.isSome_convert? hnull, Heap.isSome_convert?_of_isNull, fun c hc ↦
    ⟨(Heap.conversion_of_convert? hc).conforms, fun hv hnull heq ht ↦ ?_,
      Heap.convert?_of_convert? hc⟩⟩
  subst heq
  have hself : h.convert? v t = some v := by
    rcases hnull with rfl | hnull
    · cases t with
      | string | array | bareArray | object => rfl
      | bool => cases hv.1
      | _ => simp [Ty.tag] at ht
    · refine hv.convert?_self hnull ?_
      rcases ht with ht | ht | ht | ht <;> rw [ht] <;> rfl
  exact Option.some.inj (hc.symm.trans hself)

/-- A sample: an array of integers, and an array of it and of null. -/
def nested : Heap where
  arrays := #[⟨.int, #[.ofInt 1, .ofInt 2]⟩, ⟨.array .int, #[.ofArray 0, .null]⟩]

theorem nested_conforms : nested.Conforms (.array (.array .int)) (.ofArray 1) := by
  have hint (i : Int64) : nested.Conforms .int (.ofInt i) := ⟨rfl, rfl⟩
  have hrow : nested.Conforms (.array .int) (.ofArray 0) :=
    .inr ⟨rfl, ⟨.int, #[.ofInt 1, .ofInt 2]⟩, rfl, rfl, by simp [hint]⟩
  have hnull : nested.Conforms (.array .int) .null := .inl rfl
  exact .inr ⟨rfl, ⟨.array .int, #[.ofArray 0, .null]⟩, rfl, rfl, by simp [hrow, hnull]⟩

theorem nested_converts : nested.convert? (.ofArray 1) (.array (.array .int)) = some (.ofArray 1) ∧
    nested.convert? (.ofArray 1) (.array .int) = none ∧
    ∃ c, nested.convert? (.ofArray 1) .string = some c ∧ nested.Conforms .string c ∧
      nested.convert? c .string = some c ∧ nested.convert? .null .int = none := by
  have hrule (t : Ty) := conversion_agrees_with_types nested t (.array (.array .int)) (.ofArray 1)
  obtain ⟨c, hc⟩ :=
    Option.isSome_iff_exists.1 (((hrule (.array (.array .int))).1 nested_conforms rfl).2 rfl)
  obtain ⟨d, hd⟩ := Option.isSome_iff_exists.1 (((hrule .string).1 nested_conforms rfl).2 rfl)
  refine ⟨?_, ?_, d, hd, ((hrule .string).2.2 d hd).1 (.inr nested_conforms),
    ((hrule .string).2.2 d hd).2.2 nofun nofun, ?_⟩
  · rw [hc, ((hrule _).2.2 c hc).2.1 nested_conforms (.inr rfl) rfl (.inr (.inr (.inl rfl)))]
  · exact Option.not_isSome_iff_eq_none.1 fun h ↦
      nomatch ((hrule (.array .int)).1 nested_conforms rfl).1 h
  · refine Option.not_isSome_iff_eq_none.1 fun h ↦ ?_
    rcases ((conversion_agrees_with_types nested .int .int .null).2.1 rfl).1 h with
      h | h | h <;> cases h

end ClassAsm
