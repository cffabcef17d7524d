import ClassAsm.Ty

/-!
# Type names

A type can be written if it is a scalar type, a declared class, or an array of a type that can be
written (`Ty.Nameable`).  A class can only be meant by its name if this is not read as something
else: the name of a scalar type stands for that type, and a name that ends in brackets for an array.

`ofName?_eq_some_iff` says that reading a name finds the type that has this name and no other, so
that names and types are inverse to each other.
-/

namespace ClassAsm

namespace Ty

variable {isClass : String → Bool} {s : String} {t : Ty}

/-- The scalar types. -/
def scalars : List Ty := [.bool, .byte, .int, .float, .double, .string]

/-- A name that is free for a class: it is neither empty nor that of a scalar type, and does not end
in brackets. -/
def IsClassName (s : String) : Prop :=
  s ≠ "" ∧ (∀ t ∈ scalars, t.name ≠ s) ∧ ¬"[]".toList <:+ s.toList

/-- A type that is built from scalar types and declared classes by making arrays. -/
inductive Nameable (isClass : String → Bool) : Ty → Prop where
  | scalar {t : Ty} : t ∈ scalars → Nameable isClass t
  | object {s : String} : isClass s = true → IsClassName s → Nameable isClass (.object s)
  | array {t : Ty} : Nameable isClass t → Nameable isClass (.array t)

theorem scalar?_eq_some_iff : scalar? s = some t ↔ t ∈ scalars ∧ t.name = s := by
  constructor
  · intro h
    unfold scalar? at h
    split at h <;> cases h <;> exact ⟨by decide, rfl⟩
  · rintro ⟨h, rfl⟩
    revert t
    decide

theorem scalar?_eq_none_iff : scalar? s = none ↔ ∀ t ∈ scalars, t.name ≠ s := by
  simp only [Option.eq_none_iff_forall_ne_some, ne_eq, scalar?_eq_some_iff, not_and]

theorem simple?_eq_some_iff (hs : ¬"[]".toList <:+ s.toList) : simple? isClass s = some t ↔
      (t ∈ scalars ∧ t.name = s) ∨ (t = .object s ∧ isClass s = true ∧ IsClassName s) := by
  rw [simple?]
  cases h : scalar? s with
  | some u =>
    obtain ⟨hu, hname⟩ := scalar?_eq_some_iff.1 h
    have hclass : ¬IsClassName s := fun hclass ↦ hclass.2.1 u hu hname
    simp only [hclass, and_false, or_false, ← scalar?_eq_some_iff, h]
  | none =>
    have hnames := scalar?_eq_none_iff.1 h
    have hscalar : ¬(t ∈ scalars ∧ t.name = s) := fun ht ↦ hnames t ht.1 ht.2
    simp only [hscalar, false_or, IsClassName, hs, not_false_eq_true, and_true,
      Option.ite_none_right_eq_some, Option.some.injEq]
    grind

/-- An array is read by reading what its brackets follow. -/
theorem ofName?_brackets (isClass : String → Bool) (s : String) :
    ofName? isClass (s ++ "[]") = (ofName? isClass s).map array := by
  have htext : (s ++ "[]").toList.reverse = ']' :: '[' :: s.toList.reverse := by simp
  rw [ofName?, htext, ofReversed?, ofName?]

/-- A name without brackets at its end is that of a scalar type or a class. -/
theorem ofName?_of_not_suffix (hs : ¬"[]".toList <:+ s.toList) :
    ofName? isClass s = simple? isClass s := by
  unfold ofName? ofReversed?
  split
  · rename_i rest hrest
    refine absurd ⟨rest.reverse, ?_⟩ hs
    simpa using (congrArg List.reverse hrest).symm
  · rw [List.reverse_reverse, String.ofList_toList]

/-- **Reading a name finds the type that has this name.** -/
theorem ofName?_eq_some_iff : ofName? isClass s = some t ↔ Nameable isClass t ∧ t.name = s := by
  constructor
  · -- The induction is over the brackets at the end of the name.
    induction hn : s.length using Nat.strongRecOn generalizing s t with | ind n ih
    intro h
    by_cases hs : "[]".toList <:+ s.toList
    · obtain ⟨rest, hrest⟩ := hs
      obtain rfl : s = String.ofList rest ++ "[]" := by
        rw [← String.toList_inj, String.toList_append, String.toList_ofList, hrest]
      rw [ofName?_brackets] at h
      obtain ⟨elem, helem, rfl⟩ := Option.map_eq_some_iff.1 h
      have hshorter : (String.ofList rest).length < n := by
        simp [← hn, show "[]".length = 2 from rfl]
      obtain ⟨hnameable, hname⟩ := ih _ hshorter rfl helem
      exact ⟨.array hnameable, by rw [name, hname]⟩
    · rw [ofName?_of_not_suffix hs, simple?_eq_some_iff hs] at h
      rcases h with ⟨ht, hname⟩ | ⟨rfl, hclass, hname⟩
      · exact ⟨.scalar ht, hname⟩
      · exact ⟨.object hclass hname, rfl⟩
  · rintro ⟨h, rfl⟩
    induction h with
    | @scalar t ht =>
      have hs : ∀ u ∈ scalars, ¬"[]".toList <:+ u.name.toList := by decide
      rw [ofName?_of_not_suffix (hs t ht), simple?_eq_some_iff (hs t ht)]
      exact .inl ⟨ht, rfl⟩
    | object hclass hname =>
      rw [name, ofName?_of_not_suffix hname.2.2, simple?_eq_some_iff hname.2.2]
      exact .inr ⟨rfl, hclass, hname⟩
    | array _ ih => rw [name, ofName?_brackets, ih, Option.map_some]

end Ty

open Ty

/-- **Types and their names are inverse to each other.**  A type that was read has the name that it
was read from; every type made from scalar types and declared classes is read from its name; so two
types that were read are equal if and only if their names are. -/
theorem type_names_are_inverse (isClass : String → Bool) :
    (∀ s t, ofName? isClass s = some t → t.name = s) ∧
    (∀ t, Nameable isClass t → ofName? isClass t.name = some t) ∧
    ∀ s s' t t', ofName? isClass s = some t → ofName? isClass s' = some t' →
      (t = t' ↔ t.name = t'.name) := by
  refine ⟨fun s t h ↦ (ofName?_eq_some_iff.1 h).2, fun t ht ↦ ofName?_eq_some_iff.2 ⟨ht, rfl⟩,
    fun s s' t t' h h' ↦ ⟨congrArg name, fun hname ↦ ?_⟩⟩
  obtain ⟨-, rfl⟩ := ofName?_eq_some_iff.1 h
  obtain ⟨-, rfl⟩ := ofName?_eq_some_iff.1 h'
  exact Option.some.inj (h.symm.trans (hname ▸ h'))

/-- A class whose name has brackets inside, and one that is hidden by a scalar type. -/
theorem bracketed_class_is_read :
    ∃ isClass : String → Bool, isClass "a[]b" = true ∧ isClass "int" = true ∧
      Nameable isClass (.array (.object "a[]b")) ∧
      ofName? isClass "a[]b[]" = some (.array (.object "a[]b")) ∧
      ofName? isClass "int" = some .int := by
  have hnameable : Nameable (fun s ↦ s == "a[]b" || s == "int") (.array (.object "a[]b")) :=
    .array (.object (by decide) ⟨by decide, by decide, by decide⟩)
  exact ⟨_, by decide, by decide, hnameable, (type_names_are_inverse _).2.1 _ hnameable,
    (type_names_are_inverse _).2.1 .int (.scalar (by decide))⟩

end ClassAsm
