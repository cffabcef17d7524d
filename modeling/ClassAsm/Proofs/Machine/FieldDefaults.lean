import ClassAsm.Proofs.Correctness.Weight
import ClassAsm.Proofs.Machine.Boundaries
import ClassAsm.Proofs.Machine.Encapsulation
import ClassAsm.Proofs.Reference.Defaults

/-!
# Field defaults

A constructor begins with code that stores the defaults of the fields.  `prologue_leads` follows the
machine through it: it comes to the first instruction of the block, or to the return if there is
none, and the heap is then what `Reference.applyDefaults_eq` says; or the stack overflows, or an
array is too large.

The steps of the machine are determined, so that every run that begins the constructor takes this
course (`Leads.of_trace`, `Leads.run_trace`).

## How it is proved

The code of the defaults is `Mild`, so it does on the machine what its effects say (`course_leads`).
What that is has been worked out for the interpreter: the code agrees with what the interpreter does
(`agrees_defaults`), and there the heap can be computed.  `initialised_of_plus` compares it with the
declaration of the class.
-/

namespace ClassAsm

namespace Machine

open Bytecode Codegen Program Reference

variable {depth : Nat} {s s₀ t : State} {below : List (Option Frame)} {past : List State}
  {p : Program} {m : CompiledModule} {h : Heap} {im : Image p m}

/-! ## Mild code, step by step -/

/-- The frame above `below` is active and stands before the offset `off`. -/
def Before (below : List (Option Frame)) (off : Nat) (s : State) : Prop :=
  ∃ v f, s.Shows v ∧ v.frames = some f :: below ∧ f.ip < off

section Steps

variable {v : View} {f : Frame} {x : Instr} {dest : Nat → Nat → Prop}

/-- A step through mild code does what the effect says, or the stack overflows. -/
theorem step_mild (hs : s.Shows v) (hv : v.frames = some f :: below)
    (hx : f.routine.code.Reads dest f.ip x) (hmild : Mild x) :
    Does step s (fun _ t ↦ (effect v f x).Done dest f t) fun c _ ↦ c = .stackOverflow ∨
    effect v f x = .fault c := by
  refine (step_performs hs hv hx).mono (fun _ _ h ↦ h) ?_
  rintro c t ⟨-, hfallen⟩
  cases hfallen with
  | taking _ _ hc => exact hc.symm
  | entering hx _ _ _ =>
    rcases hx with ⟨k, rfl⟩ | ⟨k, rfl⟩
    · exact hmild.elim
    · exact hmild.elim
  | leaving _ hc => exact .inl hc

/-- **Mild code on the machine**: it is gone through from its beginning to its end and does what its
course says, or the stack overflows. -/
theorem course_leads {code : List Instr} (hs : s.Shows v) (hv : v.frames = some f :: below)
    (hdepth : depth ≤ below.length)
    (hreads : ∀ i x, code[i]? = some x → f.routine.code.Reads dest (f.ip + i) x)
    (hmild : ∀ x ∈ code, Mild x) : Leads depth (Before below (f.ip + code.length))
    (fun t ↦ ∃ w, course v code = .done w ∧ t.Shows w)
      (fun c _ ↦ c = .stackOverflow ∨ ∃ w, course v code = .failed c w) code.length s := by
  induction code generalizing s v f with
  | nil => exact .here ⟨v, rfl, hs⟩
  | cons x xs ih =>
    obtain ⟨hx, hxs⟩ := List.forall_mem_cons.1 hmild
    have hbefore : Before below (f.ip + (x :: xs).length) s := ⟨v, f, hs, hv, by simp⟩
    have hstep := step_mild hs hv (hreads 0 x rfl) hx
    have husual := effect_usual v f x
    refine leads_of_does (lt_top_of_frames hs hv hdepth) hbefore ?_
    cases he : effect v f x with
    | go w =>
      rw [he] at hstep husual
      obtain ⟨⟨g, hg, hw⟩, -⟩ := husual.stays hx.straight
      rw [hv, List.tail_cons] at hw
      have hcourse : course v (x :: xs) = course w xs := by
        rw [course.eq_def]
        simp only [hv, he]
      have hnext : f.ip + (x :: xs).length = g.ip + xs.length := by
        rw [hg, List.length_cons]
        dsimp only
        omega
      rw [hcourse, hnext]
      refine hstep.mono (fun _ t ht ↦ ih ht hw (fun i y hy ↦ ?_) hxs) ?_
      · have hy' := hreads (i + 1) y hy
        rw [hg]
        dsimp only
        rwa [Nat.add_assoc, Nat.add_comm 1 i]
      · rintro c t (hc | hc)
        · exact .inl hc
        · cases hc
    | branch j w =>
      rw [he] at husual
      exact (husual.1 hx.straight).elim
    | fault c =>
      rw [he] at hstep
      have hcourse : course v (x :: xs) = .failed c v := by
        rw [course.eq_def]
        simp only [hv, he]
      refine hstep.mono (fun _ t ht ↦ ht.elim) ?_
      rintro c' t (hc | hc)
      · exact .inl hc
      · cases hc
        exact .inr ⟨v, hcourse⟩

end Steps

/-! ## Where every run comes through -/

section Traces

variable {n : Nat} {T Q : State → Prop} {E : Cause → State → Prop}

/-- The steps are determined: what they lead to is on every way that is long enough. -/
theorem Leads.exists_of_trace (h : Leads depth T Q E n s₀) (htrace : Trace depth s₀ past t) :
    (∃ k, Leads depth T Q E k t) ∨ ∃ u ∈ past, Q u := by
  induction htrace with
  | start => exact .inl ⟨n, h⟩
  | step _ _ hstep ih =>
    rcases ih with ⟨k, hk⟩ | ⟨u, hu, hQ⟩
    · cases hk with
      | here hQ => exact .inr ⟨_, List.mem_cons_self, hQ⟩
      | step _ _ hstep' hk =>
        rw [hstep] at hstep'
        cases hstep'
        exact .inl ⟨_, hk⟩
      | fail _ _ hstep' _ =>
        rw [hstep] at hstep'
        cases hstep'
    · exact .inr ⟨u, List.mem_cons_of_mem _ hu, hQ⟩

/-- The first state on a way that is none of those before `Q` has `Q`. -/
theorem Leads.of_trace (h : Leads depth T Q E n s₀) (htrace : Trace depth s₀ past t)
    (hpast : ∀ u ∈ past, ¬Q u) (ht : ¬T t) : Q t := by
  rcases h.exists_of_trace htrace with ⟨k, hk⟩ | ⟨u, hu, hQ⟩
  · cases hk with
    | here hQ => exact hQ
    | step _ hT _ _ => exact absurd hT ht
    | fail _ hT _ _ => exact absurd hT ht
  · exact absurd hQ (hpast u hu)

/-- A run comes to a state with `Q`, or it faults on the way. -/
theorem Leads.run_trace (h : Leads depth T Q E n s) (htrace : Trace depth s₀ past s)
    (hpast : ∀ u ∈ past, T u) (gas : Nat) : (∃ rest t, Trace depth s₀ (rest ++ past) t ∧
      (∀ u ∈ rest ++ past, T u) ∧ Q t ∧ rest.length ≤ gas ∧ run depth gas s = run depth
      (gas - rest.length) t) ∨ ∃ c place t, run depth gas s = .error (.fault ⟨c, place⟩) t ∧
      (c = .gasExhausted ∨ E c t) := by
  induction h generalizing past gas with
  | here hs => exact .inl ⟨[], _, htrace, hpast, hs, Nat.zero_le _, rfl⟩
  | @step n s t htop hT hstep _ ih =>
    cases gas with
    | zero => exact .inr ⟨_, _, _, run_zero htop, .inl rfl⟩
    | succ gas =>
      rw [run_succ htop, hstep]
      rcases ih (.step htrace htop hstep) (List.forall_mem_cons.2 ⟨hT, hpast⟩) gas with
        ⟨rest, u, hu, hrest, hQ, hle, hrun⟩ | hfault
      · refine .inl ⟨rest ++ [s], u, ?_, ?_, hQ, ?_, ?_⟩
        · simpa using hu
        · simpa using hrest
        · simpa using hle
        · simpa using hrun
      · exact .inr hfault
  | fail htop hT hstep hc =>
    cases gas with
    | zero => exact .inr ⟨_, _, _, run_zero htop, .inl rfl⟩
    | succ gas =>
      have hrun := run_succ htop gas
      rw [hstep] at hrun
      exact .inr ⟨_, _, _, hrun, .inr hc⟩

end Traces

/-! ## References to arrays -/

section Closed

variable {loose : Prop}

theorem Allowed.lt_of_payload {τ : Ty} {v : Value} {a : Nat} (hv : Allowed m loose h τ v)
    (ha : v.payload = .array a) : a < h.arrays.size := by
  rcases hv with hv | ⟨-, rfl⟩
  · cases hv.offered with
    | scalar _ hpayload => simp [hpayload] at ha
    | array hlt =>
      cases ha
      exact hlt
    | string | null | object => cases ha
  · cases ha

theorem Orderly.closed (hh : Orderly m loose h) : h.Closed where
  items c hc v hv a ha := by
    obtain ⟨addr, hlt, hc⟩ := Array.getElem_of_mem hc
    exact (hh.items addr c (Array.getElem?_eq_some_iff.2 ⟨hlt, hc⟩) v hv).lt_of_payload ha
  fields c hc v hv a ha := by
    obtain ⟨addr, hlt, hc⟩ := Array.getElem_of_mem hc
    obtain ⟨i, hi, hv⟩ := Array.getElem_of_mem hv
    have hcell := Array.getElem?_eq_some_iff.2 ⟨hlt, hc⟩
    have hslot := Array.getElem?_eq_getElem (hh.size addr c hcell ▸ hi)
    exact (hh.fields addr c hcell i _ v hslot
      (Array.getElem?_eq_some_iff.2 ⟨hi, hv⟩)).lt_of_payload ha

/-- **On a run all references to arrays lead to arrays**, from the heap that the host has built
on. -/
theorem Built.closed (hl : Loaded p m) (hb : Built m s.heap) (hhost : s.host = builtins) :
    s.heap.Closed ∧ ∀ s₀ past t, Entered m s s₀ → Trace s.frames.top s₀ past t → t.heap.Closed := by
  have hlaw : (conforming p m True).Lawful := conforming_lawful hl (.inl trivial)
  have hh := hb.orderly hl hlaw
  refine ⟨hh.closed, fun s₀ past t he htrace ↦ ?_⟩
  have hheap : Orderly m True t.heap := (he.underway hl hlaw hhost hh htrace).1
  exact hheap.closed

end Closed

/-! ## The new object -/

/-- The machine has made an object, `cell`, of the declared class since `s`, and has stored the
defaults of its fields.  Nothing has been printed since, and no other object or array has
changed. -/
structure Initialised (decl : ClassDecl) (s t : State) (cell : ObjectCell) : Prop where
  objects : t.heap.objects = s.heap.objects.push cell
  arrays : ∃ made, t.heap.arrays = s.heap.arrays ++ made
  output : t.output = s.output
  size : cell.fields.size = decl.fields.size
  fields : ∀ (i : Nat) (f : FieldDecl), decl.fields[i]? = some f → ∃ slot v,
    cell.cls.get.fields[i]? = some slot ∧ slot.name = f.name ∧ cell.fields[i]? = some v ∧
      Starts t.heap s.heap.arrays.size f slot.type v
  own : s.heap.Closed → ∀ (i a : Nat), cell.fields[i]? = some (.ofArray a) →
    t.heap.HeldBy a s.heap.objects.size i

variable {d : Default}

/-- The fields of a new object, before the defaults are stored. -/
def zeros (cls : ClassRef) : List Value := cls.get.fields.toList.map fun f ↦ f.type.zero

/-- The fields of a new object once the defaults are stored, where the next array is at `n`. -/
def started (im : Image p m) (n : Nat) : List Value := heldAll n im.defaults (zeros im.owner)

theorem defaultsOf?_of_constructor (hctor : im.member.isConstructor = true) :
    defaultsOf? im.decl.fields.toList (im.owner.get.fields.toList.map fun f ↦ f.type) =
      some im.defaults := by
  have hgiven := im.given
  rwa [defaultsFor?, if_pos hctor] at hgiven

theorem slots_of_declared (hl : Loaded p m) (im : Image p m) :
    List.Forall₂ (SlotOf (declares p)) im.decl.fields.toList im.owner.get.fields.toList := by
  obtain ⟨decl, hdecl, hlayout⟩ := hl.layoutOf im.home
  cases hdecl.symm.trans im.declared
  exact hlayout.fields

theorem length_defaults (hl : Loaded p m) (hctor : im.member.isConstructor = true) :
    im.defaults.length = (zeros im.owner).length := by
  rw [length_defaultsOf? (defaultsOf?_of_constructor hctor),
    (slots_of_declared hl im).length_eq, zeros, List.length_map]

theorem bare_zeros (cls : ClassRef) : ∀ v ∈ zeros cls, v.Bare := by
  intro v hv
  obtain ⟨f, -, rfl⟩ := List.mem_map.1 hv
  exact f.type.bare_zero

section

variable (hl : Loaded p m) (hctor : im.member.isConstructor = true)

include hl hctor

theorem bare_defaults : ∀ d ∈ im.defaults, d.Bare := by
  intro d hd
  obtain ⟨j, hj⟩ := List.getElem?_of_mem hd
  obtain ⟨t, -, hfor⟩ := defaultsOf?_for (im.proper_fields hl) (defaultsOf?_of_constructor hctor) hj
  exact Default.bare_of_for hfor

theorem starts_of_plus (h : Heap) {i : Nat} {f : FieldDecl} (hf : im.decl.fields[i]? = some f) :
    ∃ slot v, im.owner.get.fields[i]? = some slot ∧ slot.name = f.name ∧
    (started im h.arrays.size)[i]? = some v ∧
      Starts (h.plus (im.defaults.flatMap Default.cells) im.owner (started im h.arrays.size))
      h.arrays.size f
        slot.type v := by
  have hslots := slots_of_declared hl im
  rw [← Array.getElem?_toList] at hf
  have hi : i < im.owner.get.fields.toList.length :=
    hslots.length_eq ▸ (List.getElem?_eq_some_iff.1 hf).1
  have hslot := List.getElem?_eq_getElem hi
  obtain ⟨f', hf', hslotOf⟩ := exists_left_of_forall₂ hslots hslot
  cases hf.symm.trans hf'
  generalize im.owner.get.fields.toList[i] = slot at hslot hslotOf
  have htype : (im.owner.get.fields.toList.map fun f ↦ f.type)[i]? = some slot.type := by
    simp [hslot]
  have hzero : (zeros im.owner)[i]? = some slot.type.zero := by simp [zeros, hslot]
  obtain ⟨d, hd, hdf⟩ := defaultOf?_of_defaultsOf? (defaultsOf?_of_constructor hctor) hf htype
  refine ⟨slot, _, Array.getElem?_toList ▸ hslot, hslotOf.name, getElem?_heldAll hd hzero,
    starts_of_defaultOf? hdf (Nat.le_add_right _ _) fun elem ws hitems ↦ ?_⟩
  subst hitems
  have hcell := getElem?_cells hd
  rw [Heap.plus, Array.getElem?_append_right (Nat.le_add_right _ _), Nat.add_sub_cancel_left]
  exact List.getElem?_toArray ▸ hcell

/-- **The heap behind the defaults is as the declaration of the class says.** -/
theorem initialised_of_plus
    (hheap : t.heap = s.heap.plus (im.defaults.flatMap Default.cells) im.owner
      (started im s.heap.arrays.size))
    (hout : t.output = s.output) :
    Initialised im.decl s t ⟨im.owner, (started im s.heap.arrays.size).toArray⟩ := by
  have hslots := slots_of_declared hl im
  have hlength := length_defaults hl hctor
  refine ⟨by rw [hheap, Heap.plus], ⟨_, by rw [hheap, Heap.plus]⟩, hout, ?_, fun i f hf ↦ ?_, ?_⟩
  · rw [List.size_toArray, started, length_heldAll (Nat.le_of_eq hlength), zeros, List.length_map,
      ← hslots.length_eq, Array.length_toList]
  · obtain ⟨slot, v, hslot, hname, hv, hstarts⟩ := starts_of_plus hl hctor s.heap hf
    exact ⟨slot, v, hslot, hname, List.getElem?_toArray ▸ hv, hheap ▸ hstarts⟩
  · intro hclosed i a hi
    rw [hheap]
    exact heldBy_plus hclosed (bare_defaults hl hctor) (bare_zeros im.owner) hlength
      (List.getElem?_toArray ▸ hi)

end

theorem addObject_freshObject (h : Heap) (cls : ClassRef) :
    h.addObject (Heap.freshObject cls) = h.plus [] cls (zeros cls) := by
  have hfields : (zeros cls).toArray = (Heap.freshObject cls).fields := by
    rw [zeros, ← Array.toList_map]
    rfl
  rw [Heap.plus, hfields, Array.append_empty]
  rfl

theorem count_le_length {ds : List Default} (hd : d ∈ ds) (i : Nat) :
    d.count ≤ (defaultsCode i ds).length := by
  induction ds generalizing i with
  | nil => cases hd
  | cons e ds ih =>
    rw [defaultsCode, List.length_append]
    rcases List.mem_cons.1 hd with rfl | hd
    · cases d with
      | zero | value => exact Nat.zero_le _
      | items elem vs =>
        simp only [Default.count, Default.code, List.length_append, length_itemsCode]
        omega
    · exact Nat.le_trans (ih hd (i + 1)) (Nat.le_add_left _ _)

theorem count_lt (hl : Loaded p m) (hd : d ∈ im.defaults) : d.count < 2 ^ 63 := by
  have hcount := count_le_length hd 0
  have hoffset := im.offset_lt im.translated.first
  have hsmall := (im.small hl).code
  have hlimit : argumentCount < 2 ^ 63 := by decide
  omega

theorem prologue_course (hl : Loaded p m) (hctor : im.member.isConstructor = true) {f : Frame}
    (hself : f.self = .ofObject h.objects.size) (below : List (Option Frame)) (stack : List Value)
    (output : String) : (∃ g, f.After g (defaultsCode 0 im.defaults).length ∧
      course ⟨some f :: below, stack, h.plus [] im.owner (zeros im.owner),
        output⟩ (defaultsCode 0 im.defaults) =
        .done ⟨some g :: below, stack, h.plus (im.defaults.flatMap Default.cells) im.owner
          (started im h.arrays.size), output⟩) ∨
          (∃ d ∈ im.defaults, maxArrayLength < d.count) ∧ ∃ w,
      course ⟨some f :: below, stack, h.plus [] im.owner (zeros im.owner),
        output⟩ (defaultsCode 0 im.defaults) = .failed .arrayTooLarge w := by
  have hlength := Nat.le_of_eq (length_defaults hl hctor)
  let c : Config := ⟨⟨im.owner, im.member, im.code.returns, f.env {}, .entry⟩, [],
    h.plus [] im.owner (zeros im.owner), output⟩
  have hagrees : Correctness.Agrees (applyDefaults (.ofObject h.objects.size) 0 im.defaults)
      (defaultsCode 0 im.defaults) below c f stack fun _ c' s ↦ s = stack ∧
      Correctness.Steady c c' :=
    Correctness.agrees_defaults 0 im.defaults hself
  have hrun := hagrees (holds_env f {})
  by_cases hfits : ∀ d ∈ im.defaults, d.count ≤ maxArrayLength
  · have happly : applyDefaults (.ofObject h.objects.size) 0 im.defaults c =
        .ok () (c.on
          (h.plus (im.defaults.flatMap Default.cells) im.owner (started im h.arrays.size))) :=
      applyDefaults_new (h := h) (c := c) hfits hlength
    rw [happly] at hrun
    obtain ⟨g, _, hcourse, hafter, -, -, rfl, -⟩ := hrun
    exact .inl ⟨g, hafter, hcourse⟩
  · have hlarge : ∃ d ∈ im.defaults, maxArrayLength < d.count := by simpa using hfits
    obtain ⟨c', happly⟩ : ∃ c', applyDefaults (.ofObject h.objects.size) 0 im.defaults c =
        .error (.fault .arrayTooLarge) c' :=
      applyDefaults_new_too_large (h := h) (c := c) hlarge (fun _ hd ↦ count_lt hl hd) hlength
    rw [happly] at hrun
    obtain ⟨w, hcourse, -⟩ := hrun
    exact .inr ⟨hlarge, w, hcourse⟩

theorem shows_entered (hhost : s.host = builtins)
    (henter : enter im.routine (some s.heap.objects.size) true
      { s with heap := s.heap.addObject (Heap.freshObject im.owner) } = .ok () s₀) :
    s₀.Shows ⟨some (.entered im s.stack.contents.length (some s.heap.objects.size) true) ::
      s.frames.contents, s.stack.contents, s.heap.plus [] im.owner (zeros im.owner), s.output⟩ := by
  rw [addObject_freshObject] at henter
  have hmachine : State.Shows { s with heap := s.heap.plus [] im.owner (zeros im.owner) }
      ⟨s.frames.contents, s.stack.contents, s.heap.plus [] im.owner (zeros im.owner), s.output⟩ :=
    ⟨rfl, rfl, rfl, rfl, hhost⟩
  have hdoes : Does (enter im.routine (some s.heap.objects.size) true) _ _ fun _ _ ↦ True :=
    enter_does hmachine fun _ ↦ trivial
  exact hdoes.of_ok henter

/-- **The prologue of a constructor**: the machine goes through it and stores the defaults, or the
stack overflows, or an array is too large. -/
theorem prologue_leads (hl : Loaded p m) (hctor : im.member.isConstructor = true)
    (hhost : s.host = builtins) (henter : enter im.routine (some s.heap.objects.size) true
      { s with heap := s.heap.addObject (Heap.freshObject im.owner) } = .ok () s₀) :
    Leads s.frames.top (Before s.frames.contents (defaultsCode 0 im.defaults).length)
      (fun t ↦ (∃ v f, Stationed im 0 s.frames.contents v f t) ∧ t.output = s.output ∧
        t.heap = s.heap.plus (im.defaults.flatMap Default.cells) im.owner
        (started im s.heap.arrays.size))
      (fun c _ ↦ c = .stackOverflow ∨
        (c = .arrayTooLarge ∧ ∃ d ∈ im.defaults, maxArrayLength < d.count))
      (defaultsCode 0 im.defaults).length s₀ := by
  have hdepth : s.frames.top ≤ s.frames.contents.length :=
    Nat.le_of_eq (Slots.length_contents _).symm
  have hleads := course_leads (shows_entered hhost henter) rfl hdepth (im.prologue_segment hl).reads
    (mild_defaultsCode 0 im.defaults)
  have hoffset : (Frame.entered im s.stack.contents.length (some s.heap.objects.size) true).ip +
      (defaultsCode 0 im.defaults).length = (defaultsCode 0 im.defaults).length := Nat.zero_add _
  rw [hoffset] at hleads
  have hself : (Frame.entered im s.stack.contents.length (some s.heap.objects.size) true).self =
      .ofObject s.heap.objects.size := rfl
  rcases prologue_course hl hctor hself s.frames.contents s.stack.contents s.output with
    ⟨g, hafter, hcourse⟩ | ⟨hlarge, w, hcourse⟩
  · rw [hcourse] at hleads
    refine hleads.mono ?_ ?_
    · rintro t ⟨_, hw, ht⟩
      cases hw
      refine ⟨⟨_, g, ht, rfl, ?_, ?_, ?_⟩, ht.output, ht.heap⟩
      · rw [hafter]
        rfl
      · rw [im.translated.first, hafter]
        exact congrArg some hoffset.symm
      · rw [hafter]
        rfl
    · rintro c t (hc | ⟨_, hw⟩)
      · exact .inl hc
      · cases hw
  · rw [hcourse] at hleads
    refine hleads.mono ?_ ?_
    · rintro t ⟨_, hw, -⟩
      cases hw
    · rintro c t (hc | ⟨_, hw⟩)
      · exact .inl hc
      · cases hw
        exact .inr ⟨rfl, hlarge⟩

theorem exists_large_field (hl : Loaded p m) (hctor : im.member.isConstructor = true)
    (hlarge : ∃ d ∈ im.defaults, maxArrayLength < d.count) :
    ∃ f ∈ im.decl.fields, maxArrayLength < f.defaults.length := by
  obtain ⟨d, hd, hlarge⟩ := hlarge
  obtain ⟨i, hi, hd⟩ := List.getElem_of_mem hd
  have hdefaults := defaultsOf?_of_constructor hctor
  have hfields : i < im.decl.fields.toList.length := length_defaultsOf? hdefaults ▸ hi
  have hslots : i < (im.owner.get.fields.toList.map fun f ↦ f.type).length := by
    rw [List.length_map, ← (slots_of_declared hl im).length_eq]
    exact hfields
  obtain ⟨d', hd', hf⟩ := defaultOf?_of_defaultsOf? hdefaults (List.getElem?_eq_getElem hfields)
    (List.getElem?_eq_getElem hslots)
  rw [List.getElem?_eq_getElem hi, hd] at hd'
  cases hd'
  exact ⟨_, Array.mem_toList_iff.1 (List.getElem_mem hfields),
    Nat.lt_of_lt_of_le hlarge (count_le_of_defaultOf? hf)⟩

/-! ## Every constructor -/

/-- A run that has begun in `s₀` with one frame more than `s` comes to `t`, where this frame stands
at the first instruction of its block, or at the return if there is none, and has not stood there
before. -/
structure Begins (im : Image p m) (s s₀ : State) (past : List State) (t : State) : Prop where
  trace : Trace s.frames.top s₀ past t
  here : ∃ v f, Stationed im 0 s.frames.contents v f t
  first : ∀ u ∈ past, ¬∃ v f, Stationed im 0 s.frames.contents v f u

theorem Before.not_stationed {u : State} (h : Before below (defaultsCode 0 im.defaults).length u) :
    ¬∃ v f, Stationed im 0 below v f u := by
  rintro ⟨v, f, hstation⟩
  obtain ⟨w, g, hw, hframes, hlt⟩ := h
  have hsame : some f :: below = some g :: below := by
    rw [← hstation.frames, ← hframes, ← hstation.shows.frames, hw.frames]
  cases hsame
  have hoffset := hstation.offset
  rw [im.translated.first] at hoffset
  exact Nat.ne_of_gt hlt (Option.some.inj hoffset)

/-- **Field defaults.**  Let a source text compile to a small module, and let a constructor of one
of its classes be entered on a new object, by the host or by code, in any state `s` of a machine.
When the run first comes to the first instruction of the constructor, or to its return, the object
is initialised: a field without a default holds the zero of its type, one with a default its
literal, converted to its type, and an array field a new array of its literals, converted to the
element type, unless its default is a lone null.  Each array belongs to its field alone, nothing has
been printed and no other object or array has changed.  A run does come there unless the gas is
exhausted, the stack overflows or an array is too large.

That no other object shares an array needs that references in the heap of `s` lead somewhere.  They
do on every heap that a host has built, and all along the runs on it. -/
theorem constructor_stores_defaults {src : String} (hm : compile src = .ok m) (hsmall : m.Small) :
    ∃ p, parseSource src = .ok p ∧
      (∀ (cls : ClassRef) (k : Nat) (code : Procedure), cls.home = m →
        cls.get.constructors[k]? = some code → ∃ im : Image p m, im.owner = cls ∧ im.code = code ∧
        (constructorsOf im.decl)[k]? = some im.member ∧
          ∀ s s₀ : State, s.host = builtins → enter ⟨code, some cls⟩ (some s.heap.objects.size) true
              { s with heap := s.heap.addObject (Heap.freshObject cls) } = .ok () s₀ →
            (∀ past t, Begins im s s₀ past t → ∃ cell, cell.cls = cls ∧
              Initialised im.decl s t cell) ∧
            ∀ gas, (∃ past t, Begins im s s₀ past t ∧ past.length ≤ gas ∧
                run s.frames.top gas s₀ = run s.frames.top (gas - past.length) t) ∨
              ∃ c place t, run s.frames.top gas s₀ = .error (.fault ⟨c, place⟩) t ∧
                (c = .gasExhausted ∨ c = .stackOverflow ∨
                  (c = .arrayTooLarge ∧ ∃ f ∈ im.decl.fields,
                    maxArrayLength < f.defaults.length))) ∧
      ∀ s : State, Built m s.heap → s.host = builtins → s.heap.Closed ∧
        ∀ s₀ past t, Entered m s s₀ → Trace s.frames.top s₀ past t → t.heap.Closed := by
  obtain ⟨p, hp, hl⟩ := loaded_of_compile hm hsmall
  refine ⟨p, hp, fun cls k code hhome hcode ↦ ?_, fun s hb hhost ↦ hb.closed hl hhost⟩
  obtain ⟨im, rfl, rfl, hmember, hctor, -⟩ := hl.image_constructor hhome hcode
  refine ⟨im, rfl, rfl, hmember, fun s s₀ hhost henter ↦ ?_⟩
  have hleads := prologue_leads hl hctor hhost henter
  refine ⟨fun past t hbegins ↦ ?_, fun gas ↦ ?_⟩
  · obtain ⟨-, hout, hheap⟩ := hleads.of_trace hbegins.trace (fun u hu hQ ↦ hbegins.first u hu hQ.1)
      fun hT ↦ hT.not_stationed hbegins.here
    exact ⟨_, rfl, initialised_of_plus hl hctor hheap hout⟩
  · rcases hleads.run_trace .start (List.forall_mem_nil _) gas with
      ⟨past, t, htrace, hbefore, ⟨hhere, -⟩, hle, hrun⟩ | ⟨c, place, t, hrun, hc⟩
    · rw [List.append_nil] at htrace hbefore
      exact .inl ⟨past, t, ⟨htrace, hhere, fun u hu ↦ (hbefore u hu).not_stationed⟩, hle, hrun⟩
    · refine .inr ⟨c, place, t, hrun, hc.imp_right fun hc ↦ hc.imp_right ?_⟩
      exact fun ⟨hc, hlarge⟩ ↦ ⟨hc, exists_large_field hl hctor hlarge⟩

/-- A sample: fields of all kinds, and no constructor of its own. -/
def shelf : String :=
  "class Shelf public\nfield b : byte = 7\nfield xs : byte[] = 1 2\nfield ys : int[] = null\n" ++
  "field z : string\nend"

/-- A new machine on which the constructor `code` has been entered. -/
def newlyEntered (cls : ClassRef) (code : Procedure) : EStateM.Result Signal State Unit :=
  enter ⟨code, some cls⟩ (some 0) true
    { host := builtins, heap := ({} : Heap).addObject (Heap.freshObject cls) }

/-- Whether the constructor returns within 50 steps. -/
def returnsSoon : EStateM.Result Signal State Unit → Bool
  | .ok () s₀ =>
    match run 0 50 s₀ with
    | .ok () _ => true
    | .error _ _ => false
  | .error _ _ => false

/-- What can be decided about the first constructor of a small module. -/
theorem exists_constructor_of_any (src : String) {P : ClassRef → Procedure → Bool}
    (h : ((compile src).toOption.any fun m ↦ decide m.Small && (m.classAt? 0).any fun c ↦
      c.get.constructors[0]?.any (P c)) = true) :
    ∃ (m : CompiledModule) (cls : ClassRef) (code : Procedure), compile src = .ok m ∧ m.Small ∧
    cls.home = m ∧
      cls.get.constructors[0]? = some code ∧ P cls code = true := by
  obtain ⟨m, c, hm, hsmall, hc, hcode⟩ := exists_class_of_any src h
  obtain ⟨code, hcode, hP⟩ := (Option.any_eq_true _ _).1 hcode
  exact ⟨m, c, code, hm, hsmall, hc, hcode, hP⟩

/-- The constructor of the shelf initialises it. -/
theorem shelf_initialised : ∃ (m : CompiledModule) (p : Program) (im : Image p m) (s₀ t : State)
    (past : List State) (cell : ObjectCell), compile shelf = .ok m ∧ m.Small ∧
      newlyEntered im.owner im.code = .ok () s₀ ∧ Begins im { host := builtins } s₀ past t ∧
      Initialised im.decl { host := builtins } t cell := by
  obtain ⟨m, cls, code, hm, hsmall, hhome, hcode, hreturns⟩ :=
    exists_constructor_of_any shelf (P := fun c code ↦ returnsSoon (newlyEntered c code))
    (by decide +kernel)
  obtain ⟨p, -, hall, -⟩ := constructor_stores_defaults hm hsmall
  obtain ⟨im, rfl, rfl, -, hruns⟩ := hall cls 0 code hhome hcode
  cases henter : newlyEntered im.owner im.code with
  | error e t =>
    rw [henter] at hreturns
    cases hreturns
  | ok _ s₀ =>
    obtain ⟨hinit, hrun⟩ := hruns { host := builtins } s₀ rfl henter
    rw [henter, returnsSoon] at hreturns
    rcases hrun 50 with ⟨past, t, hbegins, -⟩ | ⟨c, place, t, hfault, -⟩
    · obtain ⟨cell, -, hcell⟩ := hinit past t hbegins
      exact ⟨m, p, im, s₀, t, past, cell, hm, hsmall, henter, hbegins, hcell⟩
    · have hfault' : run 0 50 s₀ = _ := hfault
      rw [hfault'] at hreturns
      cases hreturns

end Machine

end ClassAsm
