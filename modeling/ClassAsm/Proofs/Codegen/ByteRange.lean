import ClassAsm.Proofs.Codegen.Reordering

/-!
# The range of byte literals

The generator compares an integer literal with the range of bytes where it is the default of a byte
field or an item of one.  What is generated has passed this check (`defaultsInByteRange`).

A step that succeeds only where something holds is said to require it (`Requires`); a step requires
what its parts require.
-/

namespace ClassAsm.Codegen

open Bytecode Program

variable {α β : Type} {P Q : Prop} {cd : ClassDecl} {i : Nat} {f : FieldDecl} {g : Gen α}
  {slot : FieldSlot}

/-- The step succeeds only where `P` holds. -/
def Requires (g : Gen α) (P : Prop) : Prop := ∀ s a t, g s = .ok (a, t) → P

theorem Requires.bind {f : α → Gen β} (h : Requires g P) : Requires (g >>= f) P := by
  intro s b u hbind
  obtain ⟨⟨a, t⟩, hg, -⟩ := bind_eq_ok.1 hbind
  exact h s a t hg

theorem Requires.of_rest {f : α → Gen β} (h : ∀ a, Requires (f a) P) : Requires (g >>= f) P := by
  intro s b u hbind
  obtain ⟨⟨a, t⟩, -, hf⟩ := bind_eq_ok.1 hbind
  exact h a t b u hf

theorem Requires.and (hP : Requires g P) (hQ : Requires g Q) : Requires g (P ∧ Q) :=
  fun s a t hg ↦ ⟨hP s a t hg, hQ s a t hg⟩

theorem Requires.mono (h : Requires g P) (hPQ : P → Q) : Requires g Q :=
  fun s a t hg ↦ hPQ (h s a t hg)

theorem requires_of_holds (h : P) : Requires g P := fun _ _ _ _ ↦ h

theorem requires_fail (c : Cause) : Requires (fail c : Gen α) P := fun _ _ _ hg ↦ nomatch hg

theorem requires_stop (reason : Abort) : Requires (stop reason : Gen α) P :=
  fun _ _ _ hg ↦ nomatch hg

/-! ## Defaults -/

/-- If the type is that of bytes and the literal an integer, this is a byte. -/
def InByteRange (t : Ty) (o : Operand) : Prop :=
  t = .byte → ∀ i, o = .int i → 0 ≤ i.toInt ∧ i.toInt ≤ 255

theorem inByteRange_of_none {t : Ty} {o : Operand} (h : overflowsByte o = none) :
    InByteRange t o := by
  rintro - i rfl
  simp only [overflowsByte, ite_eq_right_iff, reduceCtorEq, imp_false, Bool.not_eq_true,
    Bool.or_eq_false_iff, decide_eq_false_iff_not, Int64.lt_iff_toInt_lt, Int.not_lt] at h
  exact h

theorem literalAs_requires (o : Operand) (t : Ty) (name : String) :
    Requires (literalAs o t name) (InByteRange t o) := by
  refine .of_rest fun l ↦ ?_
  dsimp only
  split
  · exact (requires_fail _).bind
  split <;> rename_i ht
  · split <;> rename_i hrange
    · exact (requires_fail _).bind
    · exact requires_of_holds (inByteRange_of_none (Option.eq_none_iff_forall_ne_some.2 hrange))
  · exact requires_of_holds fun h ↦ absurd h ht

theorem arrayItems_requires (f : FieldDecl) (elem : Ty) (i : Nat) (items : List Operand) :
    Requires (arrayItems f elem i items) (∀ o ∈ items, InByteRange elem o) := by
  induction items generalizing i with
  | nil => exact requires_of_holds (List.forall_mem_nil _)
  | cons o rest ih =>
    have hrest : Requires (arrayItems f elem i (o :: rest)) (∀ o ∈ rest, InByteRange elem o) :=
      .of_rest fun _ ↦ .of_rest fun _ ↦ .of_rest fun _ ↦ .of_rest fun _ ↦ .of_rest fun _ ↦
      ih (i + 1)
    exact ((literalAs_requires o elem f.name).bind.and hrest).mono List.forall_mem_cons.2

theorem singleDefault_requires (f : FieldDecl) (t : Ty) :
    Requires (singleDefault f t) (∀ o ∈ f.defaults, InByteRange t o) := by
  unfold singleDefault
  split <;> rename_i h
  · rw [h]
    exact (literalAs_requires _ t f.name).bind.mono List.forall_mem_singleton.2
  · exact requires_stop _
  · exact requires_fail _

/-- The defaults of a field of type `t` are in range, whether it holds a byte or an array of
bytes. -/
def DefaultsInByteRange (f : FieldDecl) (t : Ty) : Prop :=
  f.hasValue = true → ∀ o ∈ f.defaults, InByteRange t o ∧ ∀ elem, t = .array elem →
  InByteRange elem o

theorem fieldDefault_requires (index : Nat) (f : FieldDecl) (t : Ty) :
    Requires (fieldDefault index f t) (DefaultsInByteRange f t) := by
  have hsingle (harray : ∀ elem, t = .array elem → f.defaults = [.null]) :
      Requires (singleDefault f t) (DefaultsInByteRange f t) := by
    refine (singleDefault_requires f t).mono fun h _ o ho ↦ ⟨h o ho, fun elem helem _ ↦ ?_⟩
    rw [harray elem helem, List.mem_singleton] at ho
    exact fun i hi ↦ nomatch ho.symm.trans hi
  unfold fieldDefault
  split <;> rename_i hvalue
  · exact requires_of_holds fun h ↦ by simp [h] at hvalue
  refine .of_rest fun _ ↦ .of_rest fun _ ↦ ?_
  split
  · rename_i hnull
    exact (hsingle fun _ _ ↦ hnull).bind
  · exact (hsingle fun _ h ↦ nomatch h).bind
  · rename_i elem _
    refine .of_rest fun _ ↦ .of_rest fun _ ↦ .of_rest fun _ ↦
      (arrayItems_requires f elem 0 _).bind.mono ?_
    exact fun h _ o ho ↦ ⟨nofun, fun _ helem ↦ Ty.array.inj helem ▸ h o ho⟩
  · exact (requires_stop _).bind
  · rename_i harray _ _ _
    exact (hsingle fun elem helem ↦ (harray elem helem).elim).bind

/-- The prologue of a constructor checks the defaults of all fields. -/
theorem prologue_requires (slots : Array FieldSlot) (i : Nat) (fs : List FieldDecl) :
    Requires (prologue slots i fs) (∀ (k : Nat) (f : FieldDecl) (slot : FieldSlot),
      fs[k]? = some f → slots[i + k]? = some slot → DefaultsInByteRange f slot.type) := by
  induction fs generalizing i with
  | nil => exact requires_of_holds fun _ _ _ h ↦ nomatch h
  | cons f fs ih =>
    rw [prologue]
    split <;> rename_i hslot
    · exact (requires_stop _).bind
    rename_i slot
    refine ((fieldDefault_requires i f slot.type).bind.and (.of_rest fun _ ↦ ih (i + 1))).mono ?_
    rintro ⟨hfirst, hrest⟩ k f' slot' hf' hslot'
    cases k with
    | zero =>
      cases hf'
      cases hslot.symm.trans hslot'
      exact hfirst
    | succ k => exact hrest k f' slot' hf' (by rwa [Nat.add_right_comm, Nat.add_assoc])

/-! ## Units -/

theorem procedure_inByteRange {o : ClassRef} {m : Member} {signature q : Procedure}
    (h : procedure o cd m signature = .ok q) (hm : m.isConstructor = true)
    (hf : cd.fields[i]? = some f) (hslot : o.get.fields[i]? = some slot) :
    DefaultsInByteRange f slot.type := by
  obtain ⟨⟨⟨⟩, s⟩, hcode, -⟩ := bind_eq_ok.1 h
  rw [memberCode, if_pos hm] at hcode
  refine (prologue_requires _ 0 _).bind _ _ _ hcode i f slot ?_ ?_
  · rwa [Array.getElem?_toList]
  · rwa [Nat.zero_add]

/-- **Byte defaults are in range**: every integer literal that is the default of a byte field, or an
item of the default of an array of bytes. -/
theorem defaultsInByteRange {p : Program} {m : CompiledModule} (hp : p.Distinct)
    (h : generate p = .ok m) {c : ClassRef} (hc : c.home = m)
    (hcd : p.classes[c.index.val]? = some cd)
    (hctor : ∀ m ∈ constructorsOf cd, m.isConstructor = true) (hf : cd.fields[i]? = some f)
    (hslot : c.get.fields[i]? = some slot) : DefaultsInByteRange f slot.type := by
  subst hc
  obtain ⟨l, hl⟩ := exists_layout h
  have hclass : c.home.classes.toList[c.index.val]? = some c.get := by
    rw [Array.getElem?_toList]
    exact Array.getElem?_eq_getElem c.index.isLt
  obtain ⟨cd', hcd', o, -, hlayout, hcode⟩ :=
    exists_left_of_forall₂ ((generate_eq_ok hp hl).1 h) hclass
  rw [Array.getElem?_toList] at hcd'
  cases hcd.symm.trans hcd'
  obtain ⟨hconstructors, -, hrest⟩ := (classCode_eq_ok hlayout).1 hcode
  have hfirst : (constructorsOf cd).toList ≠ [] := by
    unfold constructorsOf
    split <;> rename_i hempty
    · simp
    · simpa using hempty
  obtain ⟨m, ms, hms⟩ := List.exists_cons_of_ne_nil hfirst
  rw [hms] at hconstructors
  obtain ⟨q, qs, hq, -⟩ := List.forall₂_cons_left_iff.1 hconstructors
  rw [hrest] at hslot
  have hmem : m ∈ constructorsOf cd := Array.mem_toList_iff.1 (hms ▸ List.mem_cons_self)
  exact procedure_inByteRange hq (hctor m hmem) hf hslot

end ClassAsm.Codegen
