import ClassAsm.Proofs.Machine.Effect

/-!
# Running code

`course` says what a piece of straight code does: instructions that stay in their procedure and are
executed one after the other.  It is a function of what the machine looks like, so that facts about
code are equations.

`Leads` says what the machine itself does in a number of steps, and `run_of_leads` what this means
for a run with a limited number of instructions.
-/

namespace ClassAsm.Machine

open Bytecode Reference

variable {a : Value} {f : Frame} {v w : View} {m n depth : Nat} {x : Instr} {s : State}

/-! ## Faults of instructions -/

/-- A limit of the machine, which says nothing about the program. -/
def Cause.Limit : Cause → Prop
  | gasExhausted | stackOverflow | frameOverflow => True
  | _ => False

/-- What is computed does not fail for a limit of the machine. -/
def Unlimited {α : Type} : Except Cause α → Prop
  | .ok _ => True
  | .error c => ¬c.Limit

variable {r : Except Cause Value}

section Unlimited

variable {α β : Type} {h : Heap} {b o : Value} {i : Nat} {index : Int64} {op : Bytecode.Arith}

theorem Unlimited.bind {r : Except Cause α} {k : α → Except Cause β} (hr : Unlimited r)
    (hk : ∀ a, Unlimited (k a)) : Unlimited (r >>= k) := by
  cases r with
  | ok a => exact hk a
  | error c => exact hr

theorem unlimited_objectAt : Unlimited (objectAt h o) := by
  unfold objectAt
  split
  · split
    · trivial
    · exact id
  · exact id

@[simp]
theorem unlimited_readField : Unlimited (readField h o i) := by
  refine unlimited_objectAt.bind fun ⟨addr, c⟩ ↦ ?_
  dsimp only
  split
  · trivial
  · exact id

theorem unlimited_writeField : Unlimited (writeField h o i a) := by
  refine unlimited_objectAt.bind fun ⟨addr, c⟩ ↦ ?_
  dsimp only
  split
  · exact id
  · trivial

theorem unlimited_itemAt : Unlimited (itemAt h a index) := by
  unfold itemAt
  split
  · split
    · split
      · exact id
      · trivial
    · exact id
  · exact id

@[simp]
theorem unlimited_readItem : Unlimited (readItem h a index) := by
  refine unlimited_itemAt.bind fun ⟨addr, i⟩ ↦ ?_
  dsimp only
  split
  · trivial
  · exact id

theorem unlimited_writeItem : Unlimited (writeItem h a index b) :=
  unlimited_itemAt.bind fun _ ↦ trivial

theorem unlimited_makeArray {elem : Ty} : Unlimited (makeArray h elem index) := by
  unfold makeArray
  split
  · exact id
  · split
    · exact id
    · trivial

theorem unlimited_numbers : Unlimited (numbers a b) := by
  unfold numbers
  split
  · trivial
  · exact id

@[simp]
theorem unlimited_intResult : Unlimited (intResult op a b) := by
  refine unlimited_numbers.bind fun _ ↦ ?_
  split
  · exact id
  · trivial

@[simp]
theorem unlimited_floatResult {single : Bool} : Unlimited (floatResult op single a b) :=
  unlimited_numbers.bind fun _ ↦ trivial

@[simp]
theorem unlimited_testResult {t : Test} : Unlimited (Value.ofBool <$> testResult t a b) := by
  cases t with
  | equal | unequal => trivial
  | greater | less =>
    have htest : Unlimited (numbers a b) := unlimited_numbers
    unfold testResult
    cases hn : numbers a b with
    | ok u => trivial
    | error c =>
      rw [hn] at htest
      exact htest

@[simp]
theorem unlimited_converted {t : Ty} : Unlimited (converted? h a t) := by
  unfold converted?
  split
  · trivial
  · exact id

end Unlimited

/-! ## What an instruction can do -/

/-- The instruction neither jumps nor enters or leaves a procedure. -/
def Straight : Instr → Prop
  | .jump _ | .jumpFalse _ | .call _ | .ret _ | .new _ => False
  | _ => True

/-- The frame `g` is `f` after `n` instructions, perhaps with other locals. -/
def Frame.After (f g : Frame) (n : Nat) : Prop := g = { f with ip := f.ip + n, locals := g.locals }

theorem Frame.After.refl (f : Frame) : f.After f 0 := rfl

theorem Frame.After.trans {g h : Frame} (hfg : f.After g m) (hgh : g.After h n) :
    f.After h (m + n) := by
  rw [Frame.After] at hfg hgh ⊢
  rw [hgh, hfg, Nat.add_assoc]

/-- What an instruction can make of the heap. -/
inductive HeapStep (v : View) (x : Instr) : Heap → Prop where
  | same : HeapStep v x v.heap
  | field {k : Nat} {a o : Value} {rest : List Value} {h : Heap} : x = .storeField k →
      v.stack = a :: o :: rest → writeField v.heap o k a = .ok h → HeapStep v x h
  | item {b i a : Value} {rest : List Value} {h : Heap} : v.stack = b :: i :: a :: rest →
      writeItem v.heap a i.toInt b = .ok h → HeapStep v x h
  | array {elem : Ty} {n : Int64} {a : Value} {h : Heap} : makeArray v.heap elem n = .ok (h, a) →
      HeapStep v x h
  | object (cls : Bytecode.ClassRef) : HeapStep v x (v.heap.addObject (Heap.freshObject cls))

/-- What an instruction has done in the frame `f` when it goes on: only a print prints, and straight
code stays in its frame and leaves at most one value more on the stack. -/
structure Moved (v : View) (f : Frame) (x : Instr) (w : View) : Prop where
  heap : HeapStep v x w.heap
  output : x ≠ .print → w.output = v.output
  stays : Straight x → (∃ g, f.After g 1 ∧ w.frames = some g :: v.frames.tail) ∧
    w.stack.length ≤ v.stack.length + 1

/-- Straight code does not branch, a branch leaves the heap as it is, and no limit of the machine is
a fault. -/
def Effect.Usual (v : View) (f : Frame) (x : Instr) : Effect → Prop
  | go w => Moved v f x w
  | branch _ w => ¬Straight x ∧ w.heap = v.heap
  | fault c => ¬c.Limit

section Usual

variable {stack : List Value}

theorem View.onto_usual (hle : stack.length ≤ v.stack.length + 1) :
    (Effect.go (v.onto f stack)).Usual v f x :=
  ⟨.same, fun _ ↦ rfl, fun _ ↦ ⟨⟨f.next, rfl, rfl⟩, hle⟩⟩

theorem View.result_usual (hle : stack.length ≤ v.stack.length) (hr : Unlimited r) :
    (v.result f stack r).Usual v f x := by
  cases r with
  | ok a => exact View.onto_usual (Nat.succ_le_succ hle)
  | error c => exact hr

theorem View.update_usual {r : Except Cause Heap} (hle : stack.length ≤ v.stack.length)
    (hr : Unlimited r) (hheap : ∀ h, r = .ok h → HeapStep v x h) :
    (v.update f stack r).Usual v f x := by
  cases r with
  | ok h => exact ⟨hheap h rfl, fun _ ↦ rfl, fun _ ↦ ⟨⟨f.next, rfl, rfl⟩, Nat.le_succ_of_le hle⟩⟩
  | error c => exact hr

/-- **What an instruction can do.** -/
theorem effect_usual (v : View) (f : Frame) (x : Instr) : (effect v f x).Usual v f x := by
  cases x with
  | const a | this => exact View.onto_usual (Nat.le_refl _)
  | jump j => exact ⟨id, rfl⟩
  | pushLocal k =>
    simp only [effect]
    split
    · exact View.onto_usual (Nat.le_refl _)
    · exact id
  | dup | swap | not =>
    simp only [effect]
    split
    · rename_i hst
      exact View.onto_usual (by simp [hst])
    · exact id
  | print =>
    simp only [effect]
    split
    · rename_i a stack hst
      have hle : stack.length ≤ v.stack.length + 1 := by simp [hst, Nat.le_add_right_of_le]
      exact ⟨.same, fun h ↦ (h rfl).elim, fun _ ↦ ⟨⟨f.next, rfl, rfl⟩, hle⟩⟩
    · exact id
  | popLocal k =>
    simp only [effect]
    split
    · rename_i a stack hst
      have hle : stack.length ≤ v.stack.length + 1 := by simp [hst, Nat.le_add_right_of_le]
      split
      · exact ⟨.same, fun _ ↦ rfl, fun _ ↦ ⟨⟨_, by exact rfl, rfl⟩, hle⟩⟩
      · exact id
    · exact id
  | jumpFalse j =>
    simp only [effect]
    split
    · split
      · exact ⟨.same, fun _ ↦ rfl, fun h ↦ h.elim⟩
      · exact ⟨id, rfl⟩
    · exact id
  | convert | loadField | loadItem | intArith | floatArith | test =>
    simp only [effect]
    split
    · rename_i hst
      exact View.result_usual (by simp [hst, Nat.le_add_right_of_le]) (by simp)
    · exact id
  | storeField i =>
    simp only [effect]
    split
    · rename_i hst
      exact View.update_usual (by simp [hst, Nat.le_add_right_of_le]) unlimited_writeField fun _ ↦
        .field rfl hst
    · exact id
  | storeItem =>
    simp only [effect]
    split
    · rename_i hst
      exact View.update_usual (by simp [hst, Nat.le_add_right_of_le]) unlimited_writeItem fun _ ↦
        .item hst
    · exact id
  | newArray elem =>
    simp only [effect]
    split
    · rename_i n stack hst
      have hmake : Unlimited (makeArray v.heap elem n.toInt) := unlimited_makeArray
      split
      · rename_i hr
        exact ⟨.array hr, fun _ ↦ rfl, fun _ ↦ ⟨⟨f.next, rfl, rfl⟩, by simp [View.onto, hst]⟩⟩
      · rename_i hr
        rw [hr] at hmake
        exact hmake
    · exact id
  | call k =>
    simp only [effect, View.call]
    split
    · exact id
    · split
      · exact id
      · split
        · exact id
        · exact ⟨.same, fun _ ↦ rfl, fun h ↦ h.elim⟩
  | new k =>
    simp only [effect, View.create]
    split
    · exact id
    · split
      · exact id
      · split
        · exact id
        · split
          · exact id
          · exact ⟨.object _, fun _ ↦ rfl, fun h ↦ h.elim⟩
  | ret b =>
    cases b with
    | false => exact ⟨.same, fun _ ↦ rfl, fun h ↦ h.elim⟩
    | true =>
      simp only [effect]
      split
      · exact ⟨.same, fun _ ↦ rfl, fun h ↦ h.elim⟩
      · exact id

theorem moved_of_go (h : effect v f x = .go w) : Moved v f x w := by
  have husual := effect_usual v f x
  rwa [h] at husual

end Usual

/-! ## Straight code -/

/-- The frame with another value in a local slot. -/
def setLocal (f : Frame) (k : Nat) (a : Value) (h : k < maxLocals) : Frame :=
  { f with locals := f.locals.set k a h }

variable {j : Nat}

theorem getElem?_setLocal {k : Nat} (h : k < maxLocals) :
    (setLocal f k a h).locals.toArray[j]? = if k = j then some a else f.locals.toArray[j]? := by
  rw [setLocal, Vector.toArray_set, Array.getElem?_set]

theorem getElem?_locals {k : Nat} (hk : k < maxLocals) :
    f.locals.toArray[k]? = some ((f.locals.toArray[k]?).getD .void) := by
  rw [Array.getElem?_eq_getElem (by simpa using hk)]
  rfl

/-- How straight code ends. -/
inductive Course where
  | done (v : View)
  /-- The instruction executed in view of `v` has failed. -/
  | failed (c : Cause) (v : View)

/-- What straight code does. -/
def course (v : View) : List Instr → Course
  | [] => .done v
  | x :: xs =>
    match v.frames with
    | some f :: _ =>
      match effect v f x with
      | .go w => course w xs
      | .branch _ _ => .failed .missing v
      | .fault c => .failed c v
    | _ => .failed .missing v

theorem course_append (v : View) (xs ys : List Instr) : course v (xs ++ ys) =
      match course v xs with
      | .done w => course w ys
      | .failed c w => .failed c w := by
  induction xs generalizing v with
  | nil => rfl
  | cons x xs ih =>
    rw [List.cons_append, course, course]
    split
    · rename_i f _ _
      cases effect v f x with
      | go w => exact ih w
      | branch j w => rfl
      | fault c => rfl
    · rfl

/-! ## Steps of the machine -/

/-- From `s` the machine comes in `n` steps, with more than `depth` frames active and with `T`
before each of them, to a state with `Q`, or it faults in one of them with `E`. -/
inductive Leads (depth : Nat) (T Q : State → Prop) (E : Cause → State → Prop) :
    Nat → State → Prop where
  | here {s : State} : Q s → Leads depth T Q E 0 s
  | step {n : Nat} {s t : State} : depth < s.frames.top → T s → step s = .ok () t →
      Leads depth T Q E n t → Leads depth T Q E (n + 1) s
  | fail {n : Nat} {s t : State} {c : Cause} : depth < s.frames.top → T s →
      step s = .error (.fault c) t → E c t → Leads depth T Q E (n + 1) s

section Leads

variable {k : Nat} {T Q Q' : State → Prop} {E E' : Cause → State → Prop}

/-- Between `m` and `k` more steps follow. -/
theorem Leads.trans (h : Leads depth T Q E n s) (hE : ∀ c t, E c t → E' c t) (hmk : m ≤ k)
    (hQ : ∀ t, Q t → ∃ j, m ≤ j ∧ j ≤ k ∧ Leads depth T Q' E' j t) :
    ∃ j, n + m ≤ j ∧ j ≤ n + k ∧ Leads depth T Q' E' j s := by
  induction h with
  | here hs =>
    rw [Nat.zero_add, Nat.zero_add]
    exact hQ _ hs
  | step htop hT hstep _ ih =>
    obtain ⟨j, hm, hk, hleads⟩ := ih
    exact ⟨j + 1, by omega, by omega, .step htop hT hstep hleads⟩
  | @fail n _ _ _ htop hT hstep hc =>
    refine ⟨n + m + 1, by omega, by omega, .fail htop hT hstep (hE _ _ hc)⟩

theorem Leads.mono (h : Leads depth T Q E n s) (hQ : ∀ t, Q t → Q' t) (hE : ∀ c t, E c t → E' c t) :
    Leads depth T Q' E' n s := by
  induction h with
  | here hs => exact .here (hQ _ hs)
  | step htop hT hstep _ ih => exact .step htop hT hstep ih
  | fail htop hT hstep hc => exact .fail htop hT hstep (hE _ _ hc)

/-- **What steps mean for a run**: it goes on behind them, it ends with their fault, or its gas is
too little for them. -/
theorem run_of_leads (h : Leads depth T Q E n s) (gas : Nat) :
    (∃ t, Q t ∧ n ≤ gas ∧ run depth gas s = run depth (gas - n) t) ∨
      (∃ c place t, E c t ∧ run depth gas s = .error (.fault ⟨c, place⟩) t) ∨
      (gas < n ∧ ∃ place t, T t ∧ run depth gas s = .error (.fault ⟨.gasExhausted, place⟩) t) := by
  induction h generalizing gas with
  | here hs => exact .inl ⟨_, hs, Nat.zero_le _, rfl⟩
  | step htop hT hstep _ ih =>
    cases gas with
    | zero => exact .inr (.inr ⟨Nat.succ_pos _, _, _, hT, run_zero htop⟩)
    | succ gas =>
      rw [run_succ htop, hstep, Nat.add_sub_add_right]
      rcases ih gas with ⟨t, ht, hle, hrun⟩ | hfault | ⟨hlt, hgas⟩
      · exact .inl ⟨t, ht, Nat.succ_le_succ hle, hrun⟩
      · exact .inr (.inl hfault)
      · exact .inr (.inr ⟨Nat.succ_lt_succ hlt, hgas⟩)
  | fail htop hT hstep hc =>
    cases gas with
    | zero => exact .inr (.inr ⟨Nat.succ_pos _, _, _, hT, run_zero htop⟩)
    | succ gas =>
      have hrun := run_succ htop gas
      rw [hstep] at hrun
      exact .inr (.inl ⟨_, _, _, hc, hrun⟩)

/-- The machine takes a step that does what it should. -/
theorem leads_of_does (htop : depth < s.frames.top) (hT : T s)
    (h : Does step s (fun _ t ↦ Leads depth T Q E n t) E) : Leads depth T Q E (n + 1) s := by
  rw [Does] at h
  split at h
  · rename_i hstep
    exact .step htop hT hstep h
  · rename_i hstep
    exact .fail htop hT hstep h
  · exact h.elim

end Leads

variable {height frames : Nat} {c : Cause}

section Code

variable {below : List (Option Frame)} {dest : Nat → Nat → Prop} {output : String}

theorem State.Shows.top_eq (hs : s.Shows v) : s.frames.top = v.frames.length := by
  rw [← hs.frames, Slots.length_contents]

/-- There is no room for more than `frames` frames or `height` values on the stack, and nothing has
been printed beyond `output`. -/
def Cut (output : String) (frames height : Nat) (c : Cause) (t : State) : Prop :=
  NoRoom frames height c ∧ t.output = output

theorem Cut.mono {frames' height' : Nat} {t : State} (h : Cut output frames height c t)
    (hframes : frames ≤ frames') (hheight : height ≤ height') :
    Cut output frames' height' c t := ⟨h.1.mono hframes hheight, h.2⟩

/-- The fault is an overflow, or `c`, which is no limit, with this heap and this output. -/
def Excused (before : String) (frames height : Nat) (c : Cause) (h : Heap) (output : String)
    (c' : Cause) (t : State) : Prop :=
  Cut before frames height c' t ∨ (c' = c ∧ ¬c.Limit ∧ t.heap = h ∧ t.output = output)

section

variable (hs : s.Shows v) (hv : v.frames = some f :: below) (hdepth : depth ≤ below.length)

include hs hv hdepth

theorem lt_top_of_frames : depth < s.frames.top := by
  rw [hs.top_eq, hv, List.length_cons]
  omega

theorem leads_of_done {e : Effect} (hreads : f.routine.code.Reads dest f.ip x)
    (he : effect v f x = e) (hne : ∀ c, e ≠ .fault c) :
    Leads depth (·.output = v.output) (e.Done dest f ·)
    (Cut v.output v.frames.length v.stack.length) 1 s := by
  have hstep := step_follows hs hv hreads
  rw [he] at hstep
  refine leads_of_does (lt_top_of_frames hs hv hdepth) hs.output
    (hstep.mono (fun _ t ht ↦ .here ht) ?_)
  rintro c t (⟨hfault, -⟩ | ⟨hc, hout, -⟩)
  · exact absurd hfault (hne c)
  · exact ⟨hc, hout⟩

theorem leads_of_fault (hreads : f.routine.code.Reads dest f.ip x) (he : effect v f x = .fault c)
    (n : Nat) : Leads depth (·.output = v.output) (fun _ ↦ False)
      (Excused v.output v.frames.length v.stack.length c v.heap v.output) (n + 1) s := by
  have hstep := step_follows hs hv hreads
  have husual := effect_usual v f x
  rw [he] at hstep husual
  refine leads_of_does (lt_top_of_frames hs hv hdepth) hs.output
    (hstep.mono (fun _ t ht ↦ ht.elim) ?_)
  rintro c' t (⟨hfault, hheap, hout⟩ | ⟨hc, hout, -⟩)
  · exact .inr ⟨(Effect.fault.inj hfault).symm, husual, hheap, hout⟩
  · exact .inl ⟨hc, hout⟩

end

/-- Straight code stands at `ip`, and only its last instruction prints. -/
structure Stretch (code : Bytecode.Procedure) (dest : Nat → Nat → Prop) (ip : Nat)
    (xs : List Instr) : Prop where
  reads : ∀ i x, xs[i]? = some x → code.Reads dest (ip + i) x
  straight : ∀ x ∈ xs, Straight x
  quiet : ∀ i, xs[i]? = some .print → i + 1 = xs.length

theorem Stretch.tail {code : Procedure} {ip : Nat} {xs : List Instr}
    (h : Stretch code dest ip (x :: xs)) : Stretch code dest (ip + 1) xs where
  reads i y hy := by
    have := h.reads (i + 1) y hy
    rwa [Nat.add_comm i 1, ← Nat.add_assoc] at this
  straight y hy := h.straight y (List.mem_cons_of_mem _ hy)
  quiet i hi := Nat.succ.inj (h.quiet (i + 1) hi)

/-- The machine comes from `s` in `n` steps to where a course ends, and prints nothing before the
last of them. -/
def Course.LedBy (depth : Nat) (output : String) (frames height n : Nat) (s : State) : Course → Prop
  | done w => Leads depth (·.output = output) (·.Shows w) (Cut output frames height) n s
  | failed c w => Leads depth (·.output = output) (fun _ ↦ False)
      (Excused output frames height c w.heap w.output) n s

theorem Course.LedBy.of_leads {r : Course}
    (h : Leads depth (·.output = output) (·.Shows w) (Cut output frames height) 1 s)
    (hr : ∀ t, t.Shows w → r.LedBy depth output frames height n t) :
    r.LedBy depth output frames height (n + 1) s := by
  have hexact {Q : State → Prop} {E : Cause → State → Prop}
      (hE : ∀ c t, Cut output frames height c t → E c t)
      (hrest : ∀ t, t.Shows w → Leads depth (·.output = output) Q E n t) :
      Leads depth (·.output = output) Q E (n + 1) s := by
    obtain ⟨j, hm, hk, hleads⟩ := h.trans hE (Nat.le_refl n) fun t ht ↦
      ⟨n, Nat.le_refl n, Nat.le_refl n, hrest t ht⟩
    obtain rfl : j = n + 1 := by omega
    exact hleads
  cases r with
  | done w' => exact hexact (fun _ _ hc ↦ hc) hr
  | failed c w' => exact hexact (fun _ _ hc ↦ .inl hc) hr

/-- **Straight code on the machine**: it does what its course says, or there is an overflow, which
needs more values on the stack than one for every instruction. -/
theorem course_ledBy {code : List Instr} (hs : s.Shows v) (hv : v.frames = some f :: below)
    (hdepth : depth ≤ below.length) (hcode : Stretch f.routine.code dest f.ip code)
    (hheight : v.stack.length + code.length ≤ height) :
    (course v code).LedBy depth v.output v.frames.length height code.length s := by
  induction code generalizing s v f with
  | nil => exact .here hs
  | cons x xs ih =>
    have hx := hcode.straight x List.mem_cons_self
    have husual := effect_usual v f x
    have hle : v.stack.length ≤ height := Nat.le_trans (Nat.le_add_right _ _) hheight
    rw [course.eq_def]
    simp only [hv]
    cases he : effect v f x with
    | go w =>
      rw [he] at husual
      obtain ⟨⟨g, hg, hw⟩, hrise⟩ := husual.stays hx
      rw [hv, List.tail_cons] at hw
      have hframes : w.frames.length = v.frames.length := by rw [hw, hv]; rfl
      rw [← hv, ← hframes]
      refine .of_leads ((leads_of_done hs hv hdepth (hcode.reads 0 x rfl) he (by simp)).mono
        (fun _ ht ↦ ht) fun _ _ hcut ↦ hcut.mono (Nat.le_of_eq hframes.symm) hle) fun t ht ↦ ?_
      -- What has been printed by now was printed last.
      cases xs with
      | nil => exact .here ht
      | cons y ys =>
        have hout : w.output = v.output := by
          refine husual.output fun hprint ↦ ?_
          subst hprint
          cases hcode.quiet 0 rfl
        have hrest : Stretch g.routine.code dest g.ip (y :: ys) := by
          rw [hg]
          exact hcode.tail
        rw [List.length_cons] at hheight
        rw [← hout]
        exact ih ht hw hrest (by omega)
    | branch j w =>
      rw [he] at husual
      exact (husual.1 hx).elim
    | fault c =>
      rw [← hv]
      refine (leads_of_fault hs hv hdepth (hcode.reads 0 x rfl) he xs.length).mono
        (fun _ ht ↦ ht) ?_
      rintro c' t (hcut | hc)
      · exact .inl (hcut.mono (Nat.le_refl _) hle)
      · exact .inr hc

end Code

end ClassAsm.Machine
