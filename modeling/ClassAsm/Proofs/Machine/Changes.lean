import ClassAsm.Proofs.Machine.View
import Mathlib.Logic.Relation

/-!
# What code can change

Whatever the code is, an instruction changes the machine in few ways: it pushes and pops, it moves
and fills the active frame, it enters and leaves procedures, it changes the heap, and it prints.
`Change` lists them, and `execute_makes` says that no operation does anything else, also if it fails
midway.  What holds of every machine that code has run on follows from the list: the host functions
are the same (`Changes.host`), what has been printed stays printed (`Changes.output`), and the slots
that are not in use are blank (`Changes.blank`).

Only a return leaves a procedure, and only a host function makes the machine give up.
-/

namespace ClassAsm.Machine

open Bytecode

variable {α β : Type} {P : Prop} {t : State}

/-! ## Blank slots -/

namespace Slots

variable [Inhabited α] {n : Nat} {s : Slots α n}

/-- The slots that are not in use hold nothing. -/
def Blank (s : Slots α n) : Prop := ∀ i < n, s.top ≤ i → s.cells.toArray[i]? = some default

theorem blank_empty : (empty : Slots α n).Blank := by
  intro i hi _
  show (Vector.replicate n default).toArray[i]? = some default
  rw [Vector.toArray_replicate, Array.getElem?_replicate, if_pos hi]

theorem Blank.push (hs : s.Blank) (v : α) (h : s.top < n) : (s.push v h).Blank := by
  intro i hi htop
  have htop : s.top + 1 ≤ i := htop
  rw [getElem?_push, if_neg (by omega)]
  exact hs i hi (by omega)

theorem Blank.pop (hs : s.Blank) (h : 0 < s.top) : (s.pop h).Blank := by
  intro i hi htop
  have htop : s.top - 1 ≤ i := htop
  rw [getElem?_pop]
  split
  · rfl
  · exact hs i hi (by omega)

theorem Blank.modifyTop (hs : s.Blank) (f : α → α) : (s.modifyTop f).Blank := by
  intro i hi htop
  rw [top_modifyTop] at htop
  by_cases hzero : s.top = 0
  · rw [Slots.modifyTop, if_pos hzero]
    exact hs i hi htop
  · rw [getElem?_modifyTop s hzero, if_neg (by omega)]
    exact hs i hi htop

theorem Blank.eq_empty (hs : s.Blank) (htop : s.top = 0) : s = .empty := by
  have hcells : s.cells.toArray = Array.replicate n default := by
    refine Array.ext_getElem? fun i ↦ ?_
    rw [Array.getElem?_replicate]
    split
    · rename_i hi
      exact hs i hi (htop ▸ Nat.zero_le i)
    · rename_i hi
      rw [Array.getElem?_eq_none_iff, Vector.size_toArray]
      exact Nat.le_of_not_lt hi
  obtain ⟨⟨cells, hsize⟩, top, hle⟩ := s
  obtain rfl : top = 0 := htop
  obtain rfl : cells = Array.replicate n default := hcells
  rfl

end Slots

/-! ## Changes -/

/-- An elementary change to a machine that code can bring about; `mayLeave` says whether it may be
the end of a procedure. -/
inductive Change (mayLeave : Prop) : State → State → Prop where
  | push (s : State) (v : Value) (h : s.stack.top < stackDepth) :
      Change mayLeave s { s with stack := s.stack.push v h }
  | pop (s : State) (h : 0 < s.stack.top) : Change mayLeave s { s with stack := s.stack.pop h }
  | frame (s : State) (g : Frame → Frame) :
      Change mayLeave s { s with frames := s.frames.modifyTop (Option.map g) }
  | enter (s : State) (f : Frame) (h : s.frames.top < maxFrames) :
      Change mayLeave s { s with frames := s.frames.push (some f) h }
  | leave (s : State) (h : 0 < s.frames.top) (hleave : mayLeave) :
      Change mayLeave s { s with frames := s.frames.pop h }
  | heap (s : State) (h : Heap) : Change mayLeave s { s with heap := h }
  | print (s : State) (text : String) : Change mayLeave s { s with output := s.output ++ text }

/-- Any number of changes, one after the other. -/
abbrev Changes (mayLeave : Prop) : State → State → Prop := Relation.ReflTransGen (Change mayLeave)

section Changes

variable {Q : Prop} {s : State}

theorem Change.imp (hPQ : P → Q) (h : Change P s t) : Change Q s t := by
  cases h with
  | push v h => exact .push s v h
  | pop h => exact .pop s h
  | frame g => exact .frame s g
  | enter f h => exact .enter s f h
  | leave h hleave => exact .leave s h (hPQ hleave)
  | heap h => exact .heap s h
  | print text => exact .print s text

theorem Changes.imp (hPQ : P → Q) (h : Changes P s t) : Changes Q s t :=
  Relation.ReflTransGen.mono (fun _ _ ↦ Change.imp hPQ) _ _ h

/-- What no single change breaks, no changes break. -/
theorem Changes.induct {I : State → Prop} (h : Changes P s t) (hI : ∀ s t, Change P s t → I s → I t)
    (hs : I s) : I t := by
  induction h with
  | refl => exact hs
  | tail _ hlast ih => exact hI _ _ hlast ih

theorem Changes.host (h : Changes P s t) : t.host = s.host :=
  h.induct (I := fun t ↦ t.host = s.host) (fun _ _ hc hs ↦ by cases hc <;> exact hs) rfl

theorem Changes.output (h : Changes P s t) : s.output.toList <+: t.output.toList := by
  refine h.induct (I := fun t ↦ s.output.toList <+: t.output.toList) ?_ (List.prefix_refl _)
  intro u t hc hs
  cases hc with
  | print text =>
    rw [String.toList_append]
    exact hs.trans (List.prefix_append _ _)
  | _ => exact hs

/-- Unless a procedure is left, there are no fewer frames. -/
theorem Changes.le_top (h : Changes P s t) (hP : ¬P) : s.frames.top ≤ t.frames.top := by
  refine h.induct (I := fun t ↦ s.frames.top ≤ t.frames.top) ?_ (Nat.le_refl _)
  intro u t hc hs
  cases hc with
  | frame g => exact Nat.le_trans hs (Nat.le_of_eq (Slots.top_modifyTop _ _).symm)
  | enter f h => exact Nat.le_succ_of_le hs
  | leave h hleave => exact absurd hleave hP
  | _ => exact hs

/-- **Slots that are not in use stay blank.** -/
theorem Changes.blank (h : Changes P s t) (hs : s.stack.Blank ∧ s.frames.Blank) :
    t.stack.Blank ∧ t.frames.Blank := by
  refine h.induct (I := fun t ↦ t.stack.Blank ∧ t.frames.Blank) ?_ hs
  rintro u t hc ⟨hstack, hframes⟩
  cases hc with
  | push v h => exact ⟨hstack.push v h, hframes⟩
  | pop h => exact ⟨hstack.pop h, hframes⟩
  | frame g => exact ⟨hstack, hframes.modifyTop _⟩
  | enter f h => exact ⟨hstack, hframes.push _ h⟩
  | leave h _ => exact ⟨hstack, hframes.pop h⟩
  | heap h => exact ⟨hstack, hframes⟩
  | print text => exact ⟨hstack, hframes⟩

theorem changes_cut (k : Nat) (s : State) : Changes P s { s with stack := s.stack.popMany k } := by
  induction k generalizing s with
  | zero => exact .refl
  | succ k ih =>
    rw [Slots.popMany]
    split
    · rename_i h
      exact .head (.pop s h) (ih { s with stack := s.stack.pop h })
    · exact .refl

theorem changes_leave (hP : P) (k : Nat) (s : State) :
    Changes P s { s with frames := s.frames.popMany k } := by
  induction k generalizing s with
  | zero => exact .refl
  | succ k ih =>
    rw [Slots.popMany]
    split
    · rename_i h
      exact .head (.leave s h hP) (ih { s with frames := s.frames.pop h })
    · exact .refl

theorem changes_unwind (hP : P) (depth base : Nat) (s : State) :
    Changes P s (s.unwind depth base) :=
  (changes_leave hP (s.frames.top - depth) s).trans (changes_cut (s.stack.top - base) _)

end Changes

/-! ## Steps -/

/-- The state in which a step ends. -/
def stateAfter {ε α : Type} : EStateM.Result ε State α → State
  | .ok _ t => t
  | .error _ t => t

theorem changes_bind {ε : Type} {s : State} {g : EStateM ε State α} {k : α → EStateM ε State β}
    (hg : Changes P s (stateAfter (g s)))
    (hk : ∀ a t, g s = .ok a t → Changes P t (stateAfter (k a t))) :
    Changes P s (stateAfter ((g >>= k) s)) := by
  cases hgs : g s with
  | ok a t =>
    rw [hgs] at hg
    rw [bind_of_ok hgs]
    exact hg.trans (hk a t hgs)
  | error e t =>
    rw [hgs] at hg
    rw [bind_of_error hgs]
    exact hg

/-- However `g` ends, it has made only such changes, and it gives up only if a host function
does. -/
structure Makes {α : Type} (mayLeave : Prop) (g : Exec α) (s : State) : Prop where
  changes : Changes mayLeave s (stateAfter (g s))
  abort : ∀ {text : String} {t : State}, g s = .error (.abort text) t → .abort text ∈ s.host

variable {c : Prop}

section Rules

variable {s : State} {g : Exec α}

theorem Makes.bind {k : α → Exec β} (hg : Makes P g s) (hk : ∀ a t, Makes P (k a) t) :
    Makes P (g >>= k) s where
  changes := changes_bind hg.changes fun a t _ ↦ (hk a t).changes
  abort {text t} h := by
    cases hgs : g s with
    | ok a u =>
      have hchanges := hg.changes
      rw [hgs] at hchanges
      rw [bind_of_ok hgs] at h
      exact hchanges.host ▸ (hk a u).abort h
    | error e u =>
      rw [bind_of_error hgs] at h
      cases h
      exact hg.abort hgs

theorem makes_of_ok {a : α} (hg : g s = .ok a t) (h : Changes P s t) : Makes P g s where
  changes := hg ▸ h
  abort h := nomatch hg.symm.trans h

theorem makes_of_fault {c : Cause} (hg : g s = .error (.fault c) t) (h : Changes P s t) :
    Makes P g s where
  changes := hg ▸ h
  abort h := nomatch hg.symm.trans h

theorem makes_pure (a : α) : Makes P (pure a : Exec α) s := makes_of_ok rfl .refl

theorem makes_fault (c : Cause) : Makes P (fault c : Exec α) s := makes_of_fault rfl .refl

theorem makes_get {k : State → Exec α} (h : Makes P (k s) s) : Makes P (get >>= k) s :=
  ⟨h.changes, h.abort⟩

theorem makes_modify {f : State → State} (h : Changes P s (f s)) :
    Makes P (modify f : Exec PUnit) s :=
  makes_of_ok rfl h

theorem makes_ite [Decidable c] {k : Exec α} (hg : Makes P g s) (hk : Makes P k s) :
    Makes P (if c then g else k) s := by
  split
  · exact hg
  · exact hk

theorem makes_check [Decidable c] {cause : Cause} (hg : ∀ t, Makes P g t) :
    Makes P (if c then fault cause >>= fun (_ : PUnit) ↦ g else g) s :=
  makes_ite ((makes_fault cause).bind fun _ t ↦ hg t) (hg s)

theorem makes_entry (xs : Array α) (i : Nat) : Makes P (entry xs i) s := by
  rw [entry]
  split
  · exact makes_pure _
  · exact makes_fault _

theorem makes_push (v : Value) : Makes P (push v) s := by
  by_cases h : s.stack.top < stackDepth
  · exact makes_of_ok (dif_pos h) (.single (.push s v h))
  · exact makes_of_fault (dif_neg h) .refl

theorem makes_pop : Makes P pop s := by
  by_cases h : 0 < s.stack.top
  · exact makes_of_ok (dif_pos h) (.single (.pop s h))
  · exact makes_of_fault (dif_neg h) .refl

theorem makes_write (text : String) : Makes P (write text) s :=
  makes_modify (.single (.print s text))

theorem makes_modifyFrame (g : Frame → Frame) : Makes P (modifyFrame g) s :=
  makes_modify (.single (.frame s g))

theorem makes_advance : Makes P advance s := makes_modifyFrame _

theorem makes_enter (r : Routine) (this : Option Nat) (constructs : Bool) :
    Makes P (enter r this constructs) s := by
  by_cases h : s.frames.top < maxFrames
  · exact makes_of_ok (dif_pos h) (.single (.enter s _ h))
  · exact makes_of_fault (dif_neg h) .refl

theorem makes_leave (hP : P) : Makes P leave s := makes_modify (changes_leave hP _ s)

theorem makes_newObject (cls : ClassRef) : Makes P (newObject cls) s :=
  makes_of_ok rfl (.single (.heap s _))

theorem makes_newArray (elem : Ty) (n : Nat) : Makes P (newArray elem n) s :=
  makes_of_ok rfl (.single (.heap s _))

end Rules

/-! ## Instructions -/

section Instructions

variable {s : State} {f : Frame} {arg : Nat}

theorem makes_push_advance (v : Value) : Makes P (push v >>= fun _ ↦ advance) s :=
  (makes_push v).bind fun _ _ ↦ makes_advance

theorem makes_popNumbers : Makes P popNumbers s :=
  makes_pop.bind fun _ _ ↦ makes_pop.bind fun _ _ ↦ makes_check fun _ ↦ makes_pure _

theorem makes_objectOf (v : Value) : Makes P (objectOf v) s := by
  rw [objectOf]
  split
  · exact makes_pure _
  · exact makes_fault _

theorem makes_objectCell (addr : Nat) : Makes P (objectCell addr) s := by
  refine makes_get ?_
  split
  · exact makes_pure _
  · exact makes_fault _

theorem makes_itemOf (v : Value) (index : Int64) : Makes P (itemOf v index) s := by
  rw [itemOf]
  split
  · refine makes_get ?_
    split
    · exact makes_check fun _ ↦ makes_pure _
    · exact makes_fault _
  · exact makes_fault _

theorem makes_loadField : Makes P (loadField arg) s :=
  makes_pop.bind fun o _ ↦ (makes_objectOf o).bind fun addr _ ↦
  (makes_objectCell addr).bind fun c _ ↦
    (makes_entry c.fields arg).bind fun v _ ↦ makes_push v

theorem makes_storeField : Makes P (storeField arg) s :=
  makes_pop.bind fun _ _ ↦ makes_pop.bind fun o _ ↦ (makes_objectOf o).bind fun addr _ ↦
    (makes_objectCell addr).bind fun _ _ ↦ makes_check fun t ↦ makes_modify (.single (.heap t _))

theorem makes_loadItem : Makes P loadItem s := by
  refine makes_pop.bind fun _ _ ↦ makes_pop.bind fun a _ ↦ (makes_itemOf a _).bind fun _ _ ↦
    makes_get ?_
  split
  · exact makes_push _
  · exact makes_fault _

theorem makes_storeItem : Makes P storeItem s :=
  makes_pop.bind fun _ _ ↦ makes_pop.bind fun _ _ ↦ makes_pop.bind fun a _ ↦
    (makes_itemOf a _).bind fun _ t ↦ makes_modify (.single (.heap t _))

theorem makes_allocateArray (types : Array Ty) : Makes P (allocateArray types arg) s := by
  refine makes_pop.bind fun _ _ ↦ makes_check fun _ ↦ makes_check fun _ ↦
    (makes_entry types arg).bind fun t _ ↦ ?_
  cases t with
  | array elem => exact (makes_newArray elem _).bind fun a _ ↦ makes_push a
  | _ => exact makes_fault _

theorem makes_ownerOf (r : Routine) : Makes P (ownerOf r) s := by
  rw [ownerOf]
  split
  · exact makes_pure _
  · exact makes_fault _

theorem makes_callMethod : Makes P (callMethod f arg) s :=
  (makes_ownerOf _).bind fun owner _ ↦ (makes_entry owner.get.methods arg).bind fun _ _ ↦
    makes_check fun _ ↦ makes_advance.bind fun _ _ ↦ makes_enter _ _ _

theorem makes_construct : Makes P (construct f arg) s := by
  refine (makes_ownerOf _).bind fun owner _ ↦ ?_
  dsimp only
  split
  · exact makes_fault _
  · refine makes_check fun _ ↦ ?_
    split
    · exact makes_fault _
    · exact makes_advance.bind fun _ _ ↦ (makes_newObject _).bind fun _ _ ↦ makes_enter _ _ _

theorem makes_returnFrom (hP : P) (withResult : Bool) : Makes P (returnFrom f withResult) s := by
  have hself : ∀ t, Makes P (if f.constructs then push f.self else pure ()) t := fun _ ↦
    makes_ite (makes_push _) (makes_pure _)
  have hcut : ∀ t,
      Makes P (modify fun s ↦ { s with stack := s.stack.dropTo f.base } : Exec PUnit) t :=
    fun t ↦ makes_modify (changes_cut _ t)
  cases withResult with
  | false => exact (hcut s).bind fun _ _ ↦ (makes_leave hP).bind fun _ t ↦ hself t
  | true =>
    have hresult : Makes P (some <$> pop) s := makes_pop.bind fun v _ ↦ makes_pure (some v)
    refine hresult.bind fun result t ↦ (hcut t).bind fun _ _ ↦ (makes_leave hP).bind fun _ u ↦ ?_
    cases result with
    | none => exact hself u
    | some v => exact (makes_push v).bind fun _ t ↦ hself t

/-- A host function gives up only if that is all it does. -/
theorem makes_callHost {h : HostFunction} (hmem : h ∈ s.host) : Makes P (callHost h) s := by
  cases h with
  | print | echo => exact makes_pop.bind fun _ _ ↦ makes_get (makes_write _)
  | fail text => exact makes_fault _
  | abort text =>
    refine ⟨.refl, fun {text' t} heq ↦ ?_⟩
    obtain rfl : text = text' := by
      cases heq
      rfl
    exact hmem
  | absent => exact makes_fault _

/-- **What an operation can do**: it makes the changes that code can make, leaves a procedure only
if it is a return, and gives up only if a host function does. -/
theorem execute_makes (f : Frame) (op : Op) (arg : Nat) (s : State) :
    Makes (op = .ret) (execute f op arg) s := by
  cases op with
  | noop => exact makes_advance
  | pushConst | pushLocal => exact (makes_entry _ _).bind fun v _ ↦ makes_push_advance v
  | popLocal =>
    refine makes_pop.bind fun v _ ↦ ?_
    split
    · exact makes_modifyFrame _
    · exact makes_fault _
  | pushThis => exact makes_push_advance _
  | dup => exact makes_pop.bind fun v _ ↦ (makes_push v).bind fun _ _ ↦ makes_push_advance v
  | drop => exact makes_pop.bind fun _ _ ↦ makes_advance
  | swap =>
    exact makes_pop.bind fun y _ ↦ makes_pop.bind fun x _ ↦ (makes_push y).bind fun _ _ ↦
      makes_push_advance x
  | convert =>
    refine makes_pop.bind fun v _ ↦ (makes_entry _ _).bind fun t _ ↦ makes_get ?_
    split
    · exact (makes_fault _).bind fun _ _ ↦ makes_advance
    · exact makes_push_advance _
  | loadField => exact makes_loadField.bind fun _ _ ↦ makes_advance
  | storeField => exact makes_storeField.bind fun _ _ ↦ makes_advance
  | loadItem => exact makes_loadItem.bind fun _ _ ↦ makes_advance
  | storeItem => exact makes_storeItem.bind fun _ _ ↦ makes_advance
  | intArith a =>
    refine makes_popNumbers.bind fun _ _ ↦ ?_
    dsimp only
    split
    · exact (makes_fault _).bind fun _ _ ↦ makes_advance
    · exact makes_push_advance _
  | floatArith a | greater | less => exact makes_popNumbers.bind fun _ _ ↦ makes_push_advance _
  | equal | notEqual => exact makes_pop.bind fun _ _ ↦ makes_pop.bind fun _ _ ↦ makes_push_advance _
  | not => exact makes_pop.bind fun _ _ ↦ makes_push_advance _
  | jump => exact makes_modifyFrame _
  | jumpFalse => exact makes_pop.bind fun _ _ ↦ makes_ite makes_advance (makes_modifyFrame _)
  | call => exact makes_callMethod
  | ret => exact makes_returnFrom rfl _
  | new => exact makes_construct
  | newArray => exact (makes_allocateArray _).bind fun _ _ ↦ makes_advance
  | hostCall =>
    refine makes_get ?_
    split
    · exact (makes_fault _).bind fun _ _ ↦ makes_advance
    · rename_i h hget
      exact (makes_callHost (Array.mem_of_getElem? hget)).bind fun _ _ ↦ makes_advance

theorem step_eq {w : Word} {op : Op} (hf : frame s = .ok f s)
    (hw : f.routine.code.code[f.ip]? = some w) (hop : Op.ofByte? w.opByte = some op) :
    step s = execute f op w.arg s := by
  rw [step, bind_of_ok hf, entry, hw, pure_bind, hop]

/-- **An instruction** is an operation of the code of the active frame, or there is none. -/
theorem step_cases (s : State) : (∃ c, step s = .error (.fault c) s) ∨
      ∃ f w op, frame s = .ok f s ∧ f.routine.code.code[f.ip]? = some w ∧
      Op.ofByte? w.opByte = some op ∧
        step s = execute f op w.arg s := by
  have hframe : (∃ f, frame s = .ok f s) ∨ ∃ c, frame s = .error (.fault c) s := by
    rw [frame]
    split
    · split
      · exact .inl ⟨_, rfl⟩
      · exact .inr ⟨_, rfl⟩
    · exact .inr ⟨_, rfl⟩
  rcases hframe with ⟨f, hf⟩ | ⟨c, hc⟩
  · cases hw : f.routine.code.code[f.ip]? with
    | none =>
      refine .inl ⟨.outOfBounds f.ip f.routine.code.code.size, ?_⟩
      rw [step, bind_of_ok hf, entry, hw]
      rfl
    | some w =>
      cases hop : Op.ofByte? w.opByte with
      | none =>
        refine .inl ⟨.unknownOp, ?_⟩
        rw [step, bind_of_ok hf, entry, hw, pure_bind, hop]
        rfl
      | some op => exact .inr ⟨f, w, op, hf, hw, hop, step_eq hf hw hop⟩
  · exact .inl ⟨c, bind_of_error hc⟩

/-- **One instruction of any code.** -/
theorem makes_step (s : State) : Makes True step s := by
  rcases step_cases s with ⟨c, hc⟩ | ⟨f, w, op, -, -, -, hstep⟩
  · exact makes_of_fault hc .refl
  · have hmakes := execute_makes f op w.arg s
    exact ⟨hstep ▸ hmakes.changes.imp fun _ ↦ trivial, fun h ↦ hmakes.abort (hstep ▸ h)⟩

theorem ret_of_top_lt (hstep : step s = .ok () t) (htop : t.frames.top < s.frames.top) :
    ∃ f w, frame s = .ok f s ∧ f.routine.code.code[f.ip]? = some w ∧
    Op.ofByte? w.opByte = some .ret ∧
      returnFrom f (w.arg = 1) s = .ok () t := by
  rcases step_cases s with ⟨c, hc⟩ | ⟨f, w, op, hf, hw, hop, hexecute⟩
  · cases hstep.symm.trans hc
  · have hok := hexecute.symm.trans hstep
    have hchanges := (execute_makes f op w.arg s).changes
    rw [hok] at hchanges
    obtain rfl : op = .ret := Decidable.byContradiction fun hother ↦
      Nat.not_le_of_lt htop (hchanges.le_top hother)
    exact ⟨f, w, hf, hw, hop, hok⟩

end Instructions

/-! ## Runs -/

section Runs

variable {depth : Nat} {s : State}

/-- **A run of any code.** -/
theorem run_changes (depth gas : Nat) (s : State) :
    Changes True s (stateAfter (run depth gas s)) := by
  induction gas generalizing s with
  | zero =>
    rw [run]
    split <;> exact .refl
  | succ gas ih =>
    have hmakes := (makes_step s).changes
    rw [run]
    split
    · exact .refl
    · cases hstep : step s with
      | ok _ t =>
        rw [hstep] at hmakes
        exact hmakes.trans (ih t)
      | error signal t =>
        rw [hstep] at hmakes
        exact hmakes

/-- A run ends, faults, or gives up as a host function does. -/
theorem run_error {gas : Nat} {e : Stop} (h : run depth gas s = .error e t) :
    (∃ f, e = .fault f) ∨ ∃ text, e = .abort text ∧ .abort text ∈ s.host := by
  induction gas generalizing s with
  | zero =>
    rw [run] at h
    split at h
    · cases h
    · cases h
      exact .inl ⟨_, rfl⟩
  | succ gas ih =>
    have hmakes := makes_step s
    rw [run] at h
    split at h
    · cases h
    · cases hstep : step s with
      | ok _ u =>
        rw [hstep] at h
        have hchanges := hmakes.changes
        rw [hstep] at hchanges
        exact hchanges.host ▸ ih h
      | error signal u =>
        rw [hstep] at h
        cases signal with
        | fault c =>
          cases h
          exact .inl ⟨_, rfl⟩
        | abort text =>
          cases h
          exact .inr ⟨text, rfl, hmakes.abort hstep⟩

end Runs

end ClassAsm.Machine
