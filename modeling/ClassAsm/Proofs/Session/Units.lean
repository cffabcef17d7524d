import ClassAsm.Proofs.Machine.FaultPlaces
import ClassAsm.Proofs.Session.Histories

/-!
# Objects of several units

A session can load any number of units.  As long as they are apart, their objects keep to them: the
code of a unit meets its own objects only, and all values have their types.  But objects outlive a
class that is unloaded, and then its name is free for another one, whose objects are taken for those
of the first.
-/

namespace ClassAsm.Session

open Bytecode
open Codegen (Loaded loaded_of_compile)
open Machine

variable {s : Session} {mayUnload : Prop}

/-- **In the heap of a session, all values have their types**, if its units are apart. -/
theorem History.tidy {units ms : List CompiledModule} (hloaded : ∀ m ∈ units, ∃ p, Loaded p m)
    (hapart : Apart units) (hs : History mayUnload ms s) (hsub : ms ⊆ units) :
    Tidy (unitTable units) True s.heap := by
  induction hs with
  -- The table has the classes of all units from the beginning, so that it need not grow with them.
  | start cacheSize gasLimit => exact tidy_empty
  | compile src _ ih =>
    rw [after_compile]
    exact ih hsub
  | @load ms s src _ ih =>
    have hh := ih fun m hm ↦ hsub (List.mem_append_right _ hm)
    rcases load_cases src s with ⟨e, he, -⟩ | ⟨m, -, -, hload⟩
    · rw [he]
      exact hh
    · rw [hload]
      exact hh
  | unload name _ _ ih => exact ih hsub
  | purge _ ih => exact ih hsub
  | @new ms s name ctor hs ih =>
    rcases new_cases name ctor s with ⟨e, he⟩ | ⟨cls, hcls, hnew⟩
    · rw [he]
      exact ih hsub
    · rw [hnew, after_onMachine]
      exact instantiate_tidy (s := s.machine) hloaded hapart rfl (ih hsub)
        (hsub (hs.accounts.home _ hcls)) ctor
  | @call ms s obj method _ ih =>
    rw [Session.call, after_onMachine]
    exact callObject_tidy (s := s.machine) hloaded hapart rfl (ih hsub) obj method
  | get addr name _ ih =>
    rw [after_getField]
    exact ih hsub
  | @set ms s addr name v _ hv ih =>
    rcases setField_cases addr name v s with ⟨e, he⟩ | ⟨heap, hheap, hset⟩
    · rw [he]
      exact ih hsub
    · rw [hset]
      exact setField_tidy (ih hsub) (fun _ _ hc ↦ hv.allowedIn_of_convert (ih hsub) hc) hheap

/-- **Objects keep to their units**, if the units are apart.  A host that writes an object to a
field with the type of a class writes one whose class has the name of the type.  If no two of the
loaded units have classes of one name, it is an object of the class that the unit of the field
means; and whatever procedure the host enters and for how many steps it is run, an instruction that
reads or writes a field belongs to the unit of the object, and the field is there and has a value of
its type.  Units are apart if the host never unloads a class. -/
theorem objects_keep_to_their_units {mayUnload : Prop} {ms : List CompiledModule} {s : Session}
    (hs : History mayUnload ms s) (hsmall : ∀ m ∈ ms, m.Small) :
    (∀ (addr : Nat) (cell : ObjectCell) name v s', s.heap.objects[addr]? = some cell →
      Obtained s.heap v → setField addr name v s = .ok () s' →
      ∃ k slot w, cell.cls.get.fieldIndex? name = some k ∧ cell.cls.get.fields[k]? = some slot ∧
        s' = { s with heap := s.heap.setField addr k w } ∧
        ∀ className, slot.type = .object className → w = .null ∨
          ∃ (addr' : Nat) (cell' : ObjectCell), w = .ofObject addr' ∧
            s.heap.objects[addr']? = some cell' ∧ cell'.cls.name = className ∧
            (Apart ms → cell.cls.home.class? className = some cell'.cls)) ∧
    (Apart ms → ∀ m ∈ ms, ∀ s₀ past t, Entered m s.machine s₀ → Trace 0 s₀ past t →
      0 < t.frames.top → ∃ (f : Frame) (owner : ClassRef), t.frames.contents.head? = some (some f) ∧
        f.routine.owner = some owner ∧ ∀ cell k, t.Reaches cell k →
          owner.home.class? cell.cls.name = some cell.cls ∧
          ∃ slot w, cell.cls.get.fields[k]? = some slot ∧ cell.fields[k]? = some w ∧
            Allowed owner.home True t.heap slot.type w) ∧
    (¬mayUnload → Apart ms) := by
  have haccounts := hs.accounts
  have hloaded : ∀ m ∈ ms, ∃ p, Loaded p m := by
    intro m hm
    obtain ⟨src, hsrc⟩ := haccounts.source m hm
    obtain ⟨p, -, hl⟩ := loaded_of_compile hsrc (hsmall m hm)
    exact ⟨p, hl⟩
  have htidy (hapart : Apart ms) : Tidy (unitTable ms) True s.heap :=
    hs.tidy hloaded hapart (List.Subset.refl ms)
  refine ⟨fun addr cell name v s' hcell hv hset ↦ ?_, fun hapart m hm s₀ past t he htrace htop ↦ ?_,
    haccounts.apart⟩
  · rcases setField_cases addr name v s with ⟨e, herror⟩ | ⟨heap, hheap, hok⟩
    · cases herror.symm.trans hset
    · cases hok.symm.trans hset
      obtain ⟨k, slot, w, hindex, hslot, -, hconvert, rfl⟩ := setField_spec hcell hheap
      refine ⟨k, slot, w, hindex, hslot, rfl, fun className htype ↦ ?_⟩
      rw [htype] at hconvert
      refine (hv.object_of_convert hconvert).imp_right ?_
      rintro ⟨addr', cell', rfl, hcell', hname⟩
      refine ⟨addr', cell', rfl, hcell', hname, fun hapart ↦ ?_⟩
      have hh := htidy hapart
      have hhome := home_mem_of_unitTable (hh.known addr cell hcell)
      obtain ⟨p, hl⟩ := hloaded _ hhome
      have hproper := proper_of_slot hl hslot
      rw [htype] at hproper
      exact class?_of_find? (hapart.holds hhome) hproper (hname ▸ hh.known addr' cell' hcell')
  · obtain ⟨m', hm', p, hl, -, hactive⟩ :=
      exists_underway (s := s.machine) hloaded hapart rfl (htidy hapart) hm he htrace
    obtain ⟨F, a, as, w, hw, hactive⟩ := hactive htop
    obtain ⟨f, own, low, hf⟩ := hactive.top
    refine ⟨f, a.im.owner, ?_, by rw [hf.attends.routine]; rfl, fun cell k hreaches ↦ ?_⟩
    · rw [hw.frames, hf.frames]
      rfl
    · rw [hw.heap, a.im.home]
      exact reaches_own hl (hapart.holds hm') hactive hw hreaches

/-- A sample: a class with a field for objects of another class of the unit. -/
def holder : String :=
  "class C public\nfield x : int public\nfield y : int public\nend\n" ++
    "class A public\nfield c : C public\nfunc f public\nprint c.y\nend\nend"

/-- Another unit, with a class of another name. -/
def stranger : String := "class D public\nfield z : string public\nend"

/-- A unit with a class of a name that `holder` has too. -/
def namesake : String := "class C public\nfield z : string public\nend"

/-- The session after a request that has been granted. -/
def granted? : EStateM.Result Error Session Unit → Option Session
  | .ok _ s => some s
  | .error _ _ => none

theorem eq_of_granted? {r : EStateM.Result Error Session Unit} (h : granted? r = some s) :
    r = .ok () s := by
  cases r with
  | ok a t =>
    cases h
    rfl
  | error e t => cases h

theorem eq_of_setField {h : Heap} {addr k : Nat} {v w : Value} {cell : ObjectCell}
    (hcell : (h.setField addr k v).objects[addr]? = some cell) (hw : cell.fields[k]? = some w) :
    v = w := by
  rw [Heap.setField, Array.getElem?_modify, if_pos rfl] at hcell
  obtain ⟨old, -, rfl⟩ := Option.map_eq_some_iff.1 hcell
  rw [Array.getElem?_setIfInBounds_self] at hw
  split at hw
  · exact Option.some.inj hw
  · cases hw

/-- The object whose field `y` is read next. -/
def readObject? (t : State) : Option ObjectCell :=
  if t.current? = some (2, .loadField, 1) ∧ t.frames.top = 1 then
    t.stack.contents[0]?.bind fun o ↦ (Reference.objectAt t.heap o).toOption.map Prod.snd
  else none

/-- Two units that are apart have been loaded, and an `A` and a `C` been made. -/
def together : Session :=
  after (new "C" 0 (after (new "A" 0 (after (load stranger (after (load holder (start 0 0))))))))

theorem together_reads : ∃ (ms : List CompiledModule) (cell cell' : ObjectCell) (slot : FieldSlot)
    (s' : Session) (cell₀ : ObjectCell) (code : Procedure), History False ms together ∧
    (∀ m ∈ ms, m.Small) ∧ ms.length = 2 ∧ together.heap.objects[0]? = some cell ∧
    together.heap.objects[1]? = some cell' ∧ cell.cls.get.fieldIndex? "c" = some 0 ∧
    cell.cls.get.fields[0]? = some slot ∧ slot.type = .object "C" ∧
    setField 0 "c" (.ofObject 1) together = .ok () s' ∧ s'.heap.objects[0]? = some cell₀ ∧
    cell₀.fields[0]? = some (.ofObject 1) ∧ cell₀.cls.get.methods[0]? = some code ∧
    passes 2 ⟨code, some cell₀.cls⟩ (some 0) false s'.machine (fun _ t ↦ (readObject? t).isSome) =
    true := by
  have h : ∃ ms, History False ms together ∧ (∀ m ∈ ms, m.Small) ∧ ms.length = 2 ∧
      (together.heap.objects[0]?.any fun cell ↦ together.heap.objects[1]?.any fun _ ↦
        decide (cell.cls.get.fieldIndex? "c" = some 0) && cell.cls.get.fields[0]?.any fun slot ↦
          decide (slot.type = .object "C") &&
            (granted? (setField 0 "c" (.ofObject 1) together)).any fun s' ↦
            s'.heap.objects[0]?.any fun cell₀ ↦ decide (cell₀.fields[0]? = some (.ofObject 1)) &&
              cell₀.cls.get.methods[0]?.any fun code ↦
                passes 2 ⟨code, some cell₀.cls⟩ (some 0) false s'.machine fun _ t ↦
                (readObject? t).isSome) =
        true :=
    ⟨_, .new "C" 0 (.new "A" 0 (.load stranger (.load holder (.start 0 0)))), by decide +kernel⟩
  simp only [Option.any_eq_true, Bool.and_eq_true, decide_eq_true_iff] at h
  obtain ⟨ms, hs, hsmall, hlength, cell, hcell, cell', hcell', hindex, slot, hslot, htype, s', hset,
    cell₀, hcell₀, hfield, code, hcode, hpasses⟩ := h
  exact ⟨ms, cell, cell', slot, s', cell₀, code, hs, hsmall, hlength, hcell, hcell', hindex,
    hslot, htype, eq_of_granted? hset, hcell₀, hfield, hcode, hpasses⟩

/-- The object that is written to the sample is of the class `C` of its unit, and its field `y` is
read as a value of its type. -/
theorem together_keeps_to_its_unit :
    ∃ (ms : List CompiledModule) (cell cell' : ObjectCell) (s' : Session) (m : CompiledModule)
    (s₀ t : State) (past : List State) (read : ObjectCell) (slot : Bytecode.FieldSlot) (w : Value),
    History False ms together ∧ (∀ m ∈ ms, m.Small) ∧ ms.length = 2 ∧
    together.heap.objects[0]? = some cell ∧ together.heap.objects[1]? = some cell' ∧
    setField 0 "c" (.ofObject 1) together = .ok () s' ∧ cell.cls.home.class? "C" = some cell'.cls ∧
    m ∈ ms ∧ Entered m s'.machine s₀ ∧ Trace 0 s₀ past t ∧ 0 < t.frames.top ∧ t.Reaches read 1 ∧
    read.cls.get.fields[1]? = some slot ∧ read.fields[1]? = some w ∧
    Allowed read.cls.home True t.heap slot.type w := by
  obtain ⟨ms, cell, cell', slot, s', cell₀, code, hs, hsmall, hlength, hcell, hcell', hindex, hslot,
    htype, hset, hcell₀, hfield, hcode, hpasses⟩ := together_reads
  have hv : Obtained together.heap (.ofObject 1) :=
    .inr (.object (Array.getElem?_eq_some_iff.1 hcell').1)
  obtain ⟨hstores, -, hunits⟩ := objects_keep_to_their_units hs hsmall
  have hown : cell.cls.home.class? "C" = some cell'.cls := by
    obtain ⟨k, slot', w, hindex', hslot', rfl, hw⟩ :=
      hstores 0 cell "c" (.ofObject 1) s' hcell hv hset
    cases hindex.symm.trans hindex'
    cases hslot.symm.trans hslot'
    have hstored : w = .ofObject 1 := eq_of_setField hcell₀ hfield
    rcases hw "C" htype with rfl | ⟨addr', cell'', rfl, hcell'', -, hclass⟩
    · cases hstored
    · cases hstored
      cases hcell'.symm.trans hcell''
      exact hclass (hunits id)
  obtain ⟨s₀, past, t, henter, htrace, htest⟩ := exists_of_passes hpasses
  obtain ⟨read, hread⟩ := Option.isSome_iff_exists.1 htest
  rw [readObject?] at hread
  split at hread
  · rename_i hnext
    obtain ⟨o, ho, hmap⟩ := Option.bind_eq_some_iff.1 hread
    obtain ⟨⟨addr, read'⟩, hobject, rfl⟩ := Option.map_eq_some_iff.1 hmap
    have hreaches : t.Reaches read' 1 := ⟨2, addr, o, eq_of_toOption hobject, .inl ⟨hnext.1, ho⟩⟩
    have hs' : History False ms s' := by
      have := hs.set 0 "c" hv
      rwa [hset] at this
    obtain ⟨m, hm⟩ := List.exists_mem_of_ne_nil ms (by rintro rfl; cases hlength)
    have he : Entered m s'.machine s₀ := .method hcell₀ hcode henter
    have htop : 0 < t.frames.top := by rw [hnext.2]; exact Nat.one_pos
    obtain ⟨f, owner, -, -, hall⟩ :=
      (objects_keep_to_their_units hs' hsmall).2.1 (hunits id) m hm s₀ past t he htrace htop
    obtain ⟨hclass, slot', w, hslot', hw, hallowed⟩ := hall read' 1 hreaches
    rw [← CompiledModule.class?_home hclass] at hallowed
    exact ⟨ms, cell, cell', s', m, s₀, t, past, read', slot', w, hs, hsmall, hlength, hcell, hcell',
      hset, hown, hm, he, htrace, htop, hreaches, hslot', hw, hallowed⟩
  · cases hread

/-- A class has been unloaded and another one of its name been loaded, after an `A` and before a `C`
was made. -/
def mistaken : Session :=
  after (new "C" 0 (after
    (load namesake (after (unload "C" (after (new "A" 0 (after (load holder (start 0 0))))))))))

/-- **A class of the same name is mistaken for the own one.**  The object is accepted, though it
does not belong to the class that the field means, and the code of the unit reads past its
fields. -/
theorem namesake_is_mistaken :
    ∃ (ms : List CompiledModule) (cell cell' : ObjectCell) (s' : Session),
    History True ms mistaken ∧ (∀ m ∈ ms, m.Small) ∧ mistaken.heap.objects[0]? = some cell ∧
    mistaken.heap.objects[1]? = some cell' ∧ setField 0 "c" (.ofObject 1) mistaken = .ok () s' ∧
    cell.cls.home.class? "C" ≠ some cell'.cls ∧
    fault? (call (some 0) "f" s') = some ⟨.outOfBounds 1 1, some ⟨"A.f", 8⟩⟩ := by
  have h : ∃ ms, History True ms mistaken ∧ (∀ m ∈ ms, m.Small) ∧
      (mistaken.heap.objects[0]?.any fun cell ↦ mistaken.heap.objects[1]?.any fun cell' ↦
        decide (cell'.cls.home ≠ cell.cls.home) &&
          (granted? (setField 0 "c" (.ofObject 1) mistaken)).any fun s' ↦
            decide (fault? (call (some 0) "f" s') = some ⟨.outOfBounds 1 1, some ⟨"A.f", 8⟩⟩)) =
              true :=
    ⟨_, .new "C" 0 (.load namesake (.unload "C" trivial (.new "A" 0 (.load holder (.start 0 0))))),
      by decide +kernel⟩
  simp only [Option.any_eq_true, Bool.and_eq_true, decide_eq_true_iff] at h
  obtain ⟨ms, hs, hsmall, cell, hcell, cell', hcell', hhome, s', hset, hfault⟩ := h
  exact ⟨ms, cell, cell', s', hs, hsmall, hcell, hcell', eq_of_granted? hset,
    fun hclass ↦ hhome (CompiledModule.class?_home hclass), hfault⟩

end ClassAsm.Session
