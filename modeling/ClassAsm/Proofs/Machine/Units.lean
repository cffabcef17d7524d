import ClassAsm.Proofs.Machine.Encapsulation

/-!
# Classes of several units

The objects of several units live side by side in one heap.  An object is converted to a class by
the name of its class.  The code of a unit, however, reaches the fields of an object by their
indices in the class of its own unit.  The two agree as long as the name tells the unit: if no two
units have classes of one name (`Apart`), there is one table of all classes (`unitTable`), and the
discipline `typedBy` of this table holds for the code of each unit.
-/

namespace ClassAsm.Machine

open Bytecode Codegen

variable {ms : List CompiledModule} {m : CompiledModule} {cls : ClassRef} {s : State}

/-! ## Class tables of several units -/

/-- Units with a class of one name are the same. -/
def Apart (ms : List CompiledModule) : Prop :=
  ∀ m ∈ ms, ∀ m' ∈ ms, ∀ c ∈ m.classes, ∀ c' ∈ m'.classes, c.name = c'.name → m = m'

/-- The classes of the units by name, where the first unit that has one counts. -/
def unitTable (ms : List CompiledModule) : ClassTable where
  find? name := ms.findSome? fun m ↦ m.class? name
  name_of_find? h := by
    obtain ⟨m, -, hcls⟩ := List.exists_of_findSome?_eq_some h
    exact CompiledModule.name_of_class? hcls

variable {p : Program} {T : ClassTable} {k : Nat}

section Tables

variable {name : String}

theorem exists_of_unitTable (h : (unitTable ms).find? name = some cls) :
    ∃ m ∈ ms, m.class? name = some cls :=
  List.exists_of_findSome?_eq_some h

theorem home_mem_of_unitTable (h : (unitTable ms).find? name = some cls) : cls.home ∈ ms := by
  obtain ⟨m, hm, hcls⟩ := exists_of_unitTable h
  rwa [CompiledModule.class?_home hcls]

theorem exists_class_of_class? (h : m.class? name = some cls) : ∃ c ∈ m.classes, c.name = name :=
  ⟨cls.get, CompiledModule.class?_home h ▸ cls.get_mem, CompiledModule.name_of_class? h⟩

/-- **The classes of units that are apart are all found.** -/
theorem Apart.holds (hapart : Apart ms) (hm : m ∈ ms) : (unitTable ms).Holds m := by
  intro name cls hcls
  have hfound : ((unitTable ms).find? name).isSome = true :=
    List.findSome?_isSome_iff.2 ⟨m, hm, by rw [hcls]; rfl⟩
  obtain ⟨cls', hcls'⟩ := Option.isSome_iff_exists.1 hfound
  obtain ⟨m', hm', hclass⟩ := exists_of_unitTable hcls'
  obtain ⟨c, hc, hname⟩ := exists_class_of_class? hcls
  obtain ⟨c', hc', hname'⟩ := exists_class_of_class? hclass
  obtain rfl := hapart m hm m' hm' c hc c' hc' (hname.trans hname'.symm)
  rw [hcls', ← hclass, hcls]

theorem Apart.lawful (hapart : Apart ms) (hl : Loaded p m) (hm : m ∈ ms) :
    (typedBy (unitTable ms) p m True).Lawful :=
  typedBy_lawful hl (hapart.holds hm) (.inl trivial)

theorem class?_of_find? (hT : T.Holds m) (hname : (m.classIndex? name).isSome = true)
    (hfind : T.find? name = some cls) : m.class? name = some cls := by
  obtain ⟨k, hk⟩ := Option.isSome_iff_exists.1 hname
  obtain ⟨cls', hcls', -⟩ := CompiledModule.class?_of_index hk
  rw [hcls', ← hT hcls', hfind]

/-- A type that the unit can write has the same values as among its own classes. -/
theorem allowed_of_allowedIn {h : Heap} {t : Ty} {v : Value} (hT : T.Holds m)
    (ht : t.Proper fun name ↦ (m.classIndex? name).isSome) (hv : AllowedIn T True h t v) :
    Allowed m True h t v := by
  refine hv.imp_left fun hv ↦ ?_
  cases t with
  | object className =>
    refine hv.imp_right ?_
    rintro ⟨addr, cell, rfl, hcell, hfind⟩
    exact ⟨addr, cell, rfl, hcell, class?_of_find? hT ht hfind⟩
  | _ => exact hv

theorem proper_of_slot {slot : FieldSlot} (hl : Loaded p cls.home)
    (hslot : cls.get.fields[k]? = some slot) :
    slot.type.Proper fun name ↦ (cls.home.classIndex? name).isSome :=
  (hl.proper rfl).fields _ cls.get_mem slot (Array.mem_of_getElem? hslot)

end Tables

/-! ## Machines -/

section Machines

variable (hloaded : ∀ m ∈ ms, ∃ p, Loaded p m) (hapart : Apart ms) (hhost : s.host = builtins)
  (hh : Tidy (unitTable ms) True s.heap)
include hloaded hapart hhost hh

theorem instantiate_tidy (hhome : cls.home ∈ ms) (ctor : Int) :
    Tidy (unitTable ms) True (heapAfter (instantiate cls ctor s)) := by
  obtain ⟨p, hl⟩ := hloaded _ hhome
  have hlaw := hapart.lawful hl hhome
  rcases instantiate_kept hlaw hl rfl hhost hh ctor with ⟨d, hd⟩ | hkept
  · rw [hd]
    exact hh
  · exact hkept.heapAfter

theorem callObject_tidy (obj : Option Nat) (name : String) :
    Tidy (unitTable ms) True (heapAfter (callObject obj name s)) := by
  rcases callObject_invokes obj name s with ⟨d, hd⟩ | ⟨addr, cell, -, -, rfl, hcell, -⟩
  · rw [hd]
    exact hh
  · have hhome := home_mem_of_unitTable (hh.known addr cell hcell)
    obtain ⟨p, hl⟩ := hloaded _ hhome
    have hlaw := hapart.lawful hl hhome
    have hsame : ∀ addr' c, some addr = some addr' → s.heap.objects[addr']? = some c →
        c.cls.home = cell.cls.home := by
      intro addr' c haddr hc
      rw [← Option.some.inj haddr, hcell] at hc
      rw [Option.some.inj hc]
    rcases callObject_kept hl hlaw hhost hh (some addr) hsame name with
      ⟨d, hd⟩ | ⟨_, _, _, _, -, -, -, -, hkept⟩
    · rw [hd]
      exact hh
    · exact hkept.heapAfter

/-- A procedure that the host has entered keeps up the discipline of its own unit. -/
theorem exists_underway (hm : m ∈ ms) {s₀ t : State} (he : Entered m s s₀) {past : List State}
    (htrace : Trace s.frames.top s₀ past t) :
    ∃ m' ∈ ms, ∃ p : Program, Loaded p m' ∧
      Underway (typedBy (unitTable ms) p m' True) s.frames.top t := by
  cases he with
  | constructor hhome habs hcode henter =>
    obtain ⟨p, hl⟩ := hloaded m hm
    exact ⟨m, hm, p, hl,
      underway_of_constructor htrace hhost (hapart.lawful hl hm) hl hhome habs hcode henter hh⟩
  | method hcell hcode henter =>
    have hhome := home_mem_of_unitTable (hh.known _ _ hcell)
    obtain ⟨p, hl⟩ := hloaded _ hhome
    exact ⟨_, hhome, p, hl,
      underway_of_method htrace hhost (hapart.lawful hl hhome) hl hcell rfl hcode henter hh⟩

end Machines

/-- **A field that is reached has a value of its type**, and its object is one of the unit whose
code runs. -/
theorem reaches_own {F : Floor} {a : Pose p m} {as : List (Pose p m)} {v : View} {cell : ObjectCell}
    (hl : Loaded p m) (hT : T.Holds m) (ha : Active (typedBy T p m True) F (a :: as) v)
    (hs : s.Shows v) (hreaches : s.Reaches cell k) :
    m.class? cell.cls.name = some cell.cls ∧ ∃ slot w, cell.cls.get.fields[k]? = some slot ∧
      cell.fields[k]? = some w ∧ Allowed m True v.heap slot.type w := by
  obtain ⟨c, τ, o, addr, hfield, ho, hobject⟩ := ha.reaches_field hl hs hreaches
  have hhome : a.im.owner.home = m := a.im.home
  obtain ⟨hcell, hcls⟩ := HasField.class_of_objectAt hfield (hhome.symm ▸ hT) ho hobject
  obtain ⟨cls, slot, hcls', hslot, -⟩ := hfield
  cases hcls'.symm.trans hcls
  rw [hhome] at hcls
  have hh : Tidy T True v.heap := ha.heap
  have hk : k < cell.fields.size := by
    rw [hh.size addr cell hcell]
    exact (Array.getElem?_eq_some_iff.1 hslot).1
  have hget : cell.fields[k]? = some cell.fields[k] := Array.getElem?_eq_getElem hk
  obtain rfl : cell.cls.home = m := CompiledModule.class?_home hcls
  refine ⟨CompiledModule.name_of_class? hcls ▸ hcls, slot, cell.fields[k], hslot, hget, ?_⟩
  exact allowed_of_allowedIn hT (proper_of_slot hl hslot)
    (hh.fields addr cell hcell k slot _ hslot hget)

end ClassAsm.Machine
