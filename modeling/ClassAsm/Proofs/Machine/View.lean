import ClassAsm.Machine.Run

/-!
# The machine's state as lists

The stack and the frames of a machine are memories of slots.  What a program can see of them is the
list of slots in use, `Slots.contents`, with the highest first.  `State.Shows s v` says that the
state `s` looks like `v`, and the rules here say how the primitive steps of the machine change what
a state looks like.

`Does g s Q E` says that the step `g`, started in `s`, ends as `Q` says or faults as `E` says.
-/

namespace ClassAsm.Machine

variable {α β : Type} {Q : α → State → Prop} {E : Cause → State → Prop} {xs : Array β}

/-! ## Slots -/

namespace Slots

variable [Inhabited α] {n : Nat} {s : Slots α n} {v : α} {rest : List α}

/-- The slots in use, highest first. -/
def contents (s : Slots α n) : List α := s.toList.reverse

theorem length_contents (s : Slots α n) : s.contents.length = s.top := by
  have := s.top_le
  simp [contents, toList]
  omega

theorem contents_push (s : Slots α n) (v : α) (h : s.top < n) :
    (s.push v h).contents = v :: s.contents := by
  have hlist : (s.push v h).toList = s.toList ++ [v] := by
    show (s.cells.set s.top v h).toList.take (s.top + 1) = s.cells.toList.take s.top ++ [v]
    rw [Vector.toList_set, List.take_add_one, List.take_set_of_le (Nat.le_refl _),
      List.getElem?_set_self (by simpa using h)]
    rfl
  rw [contents, hlist, List.reverse_append]
  rfl

theorem contents_pop (s : Slots α n) (h : 0 < s.top) :
    s.contents = s.peek h :: (s.pop h).contents := by
  obtain ⟨cells, top, htop⟩ := s
  cases top with
  | zero => exact absurd h (Nat.lt_irrefl 0)
  | succ k =>
    have hlist : cells.toList.take (k + 1) = (cells.set k default htop).toList.take k ++
      [cells.get ⟨k, htop⟩] := by
      rw [Vector.toList_set, List.take_set_of_le (Nat.le_refl _), List.take_add_one,
        List.getElem?_eq_getElem (by simp; omega)]
      rfl
    show (cells.toList.take (k + 1)).reverse =
      cells.get ⟨k, htop⟩ :: ((cells.set k default htop).toList.take k).reverse
    rw [hlist, List.reverse_append]
    rfl

theorem top_pos_of_contents (h : s.contents = v :: rest) : 0 < s.top := by
  rw [← length_contents, h]
  exact Nat.succ_pos _

theorem contents_modifyTop (f : α → α) (h : s.contents = v :: rest) :
    (s.modifyTop f).contents = f v :: rest := by
  have hpos := top_pos_of_contents h
  obtain ⟨cells, top, htop⟩ := s
  cases top with
  | zero => exact absurd hpos (Nat.lt_irrefl 0)
  | succ k =>
    have hk : k < cells.toList.length := by simp; omega
    have hget : cells.toList[k]? = some cells[k] := List.getElem?_eq_getElem hk
    have hlist : (cells.toList.take (k + 1)).reverse =
      cells[k] :: (cells.toList.take k).reverse := by
      rw [List.take_add_one, hget, List.reverse_append]
      rfl
    have hrest : v = cells[k] ∧ rest = (cells.toList.take k).reverse := by
      have hcons : v :: rest = _ := h.symm.trans hlist
      exact ⟨List.head_eq_of_cons_eq hcons, List.tail_eq_of_cons_eq hcons⟩
    have hmodify : (cells.toArray.modify k f).toList = cells.toList.set k (f cells[k]) := by
      rw [Array.toList_modify, List.modify_eq_set]
      show cells.toList.set k (f (cells.toList[k]?.getD default)) = _
      rw [hget]
      rfl
    rw [modifyTop, if_neg (Nat.succ_ne_zero k), hrest.1, hrest.2]
    show ((cells.toArray.modify k f).toList.take (k + 1)).reverse = _
    rw [hmodify, List.take_add_one, List.take_set_of_le (Nat.le_refl _),
      List.getElem?_set_self hk, List.reverse_append]
    rfl

theorem contents_popMany (s : Slots α n) (k : Nat) :
    (s.popMany k).contents = s.contents.drop k := by
  induction k generalizing s with
  | zero => rfl
  | succ k ih =>
    rw [popMany]
    split
    · rename_i h
      rw [ih, contents_pop s h, List.drop_succ_cons]
    · rename_i h
      have hnil : s.contents = [] := by
        rw [← List.length_eq_zero_iff, length_contents]
        omega
      rw [hnil, List.drop_nil]

theorem contents_dropTo (s : Slots α n) (k : Nat) :
    (s.dropTo k).contents = s.contents.drop (s.contents.length - k) := by
  rw [dropTo, contents_popMany, length_contents]

theorem top_dropTo (s : Slots α n) (k : Nat) : (s.dropTo k).top = min s.top k := by
  rw [← length_contents, contents_dropTo, List.length_drop, length_contents]
  omega

theorem top_modifyTop (s : Slots α n) (f : α → α) : (s.modifyTop f).top = s.top := by
  rw [modifyTop]
  split <;> rfl

/-! A slot after a change, whether it is in use or not. -/

theorem getElem?_push (x : Slots α n) (hx : x.top < n) (a : α) (i : Nat) :
    (x.push a hx).cells.toArray[i]? = if x.top = i then some a else x.cells.toArray[i]? := by
  show (x.cells.set x.top a hx).toArray[i]? = _
  rw [Vector.toArray_set, Array.getElem?_set]

theorem getElem?_peek (x : Slots α n) (hx : 0 < x.top) :
    x.cells.toArray[x.top - 1]? = some (x.peek hx) := by
  have := x.top_le
  rw [Array.getElem?_eq_getElem (by simp; omega)]
  rfl

theorem getElem?_pop (x : Slots α n) (hx : 0 < x.top) (i : Nat) :
    (x.pop hx).cells.toArray[i]? = if x.top - 1 = i then some default else x.cells.toArray[i]? := by
  have := x.top_le
  show (x.cells.set (x.top - 1) default (by omega)).toArray[i]? = _
  rw [Vector.toArray_set, Array.getElem?_set]

theorem getElem?_modifyTop (x : Slots α n) (hx : x.top ≠ 0) (f : α → α) (i : Nat) :
    (x.modifyTop f).cells.toArray[i]? = if x.top - 1 = i then x.cells.toArray[i]?.map f else
    x.cells.toArray[i]? := by
  rw [modifyTop, if_neg hx]
  exact Array.getElem?_modify

end Slots

/-! ## Steps -/

section Bind

variable {ε σ : Type} {g : EStateM ε σ α} {k : α → EStateM ε σ β} {s t : σ}

theorem bind_of_ok {a : α} (h : g s = .ok a t) : (g >>= k) s = k a t := by
  show EStateM.bind g k s = k a t
  rw [EStateM.bind, h]

theorem bind_of_error {e : ε} (h : g s = .error e t) : (g >>= k) s = .error e t := by
  show EStateM.bind g k s = .error e t
  rw [EStateM.bind, h]

theorem get_bind (k : σ → EStateM ε σ β) (s : σ) : (get >>= k) s = k s s := rfl

end Bind

/-- `g` started in `s` ends as `Q` says or faults as `E` says. -/
def Does {α : Type} (g : Exec α) (s : State) (Q : α → State → Prop) (E : Cause → State → Prop) :
    Prop :=
  match g s with
  | .ok a t => Q a t
  | .error (.fault c) t => E c t
  | .error (.abort _) _ => False

variable {c : Cause} {E' : Cause → State → Prop} {i : Nat}

section Rules

variable {s t : State} {f : β → Exec α} {g : Exec α} {Q' : α → State → Prop}

theorem Does.mono (h : Does g s Q E) (hQ : ∀ a t, Q a t → Q' a t) (hE : ∀ c t, E c t → E' c t) :
    Does g s Q' E' := by
  rw [Does] at h ⊢
  cases hg : g s with
  | ok a t =>
    rw [hg] at h
    exact hQ a t h
  | error e t =>
    rw [hg] at h
    cases e with
    | fault c => exact hE c t h
    | abort text => exact h

theorem Does.imp (h : Does g s Q E) (hQ : ∀ a t, Q a t → Q' a t) : Does g s Q' E :=
  h.mono hQ fun _ _ h ↦ h

theorem does_of_eq {a : α} (hg : g s = .ok a t) (h : Q a t) : Does g s Q E := by
  rw [Does, hg]
  exact h

theorem does_of_fault (hg : g s = .error (.fault c) t) (h : E c t) : Does g s Q E := by
  rw [Does, hg]
  exact h

theorem Does.bind {g : Exec β} {P : β → State → Prop} (h : Does g s P E)
    (hf : ∀ b t, P b t → Does (f b) t Q E) : Does (g >>= f) s Q E := by
  rw [Does] at h
  show Does (EStateM.bind g f) s Q E
  cases hg : g s with
  | ok b t =>
    rw [hg] at h
    have heq : EStateM.bind g f s = f b t := by rw [EStateM.bind, hg]
    rw [Does, heq]
    exact hf b t h
  | error e t =>
    rw [hg] at h
    have heq : EStateM.bind g f s = .error e t := by rw [EStateM.bind, hg]
    rw [Does, heq]
    cases e with
    | fault c => exact h
    | abort text => exact h

theorem does_pure {a : α} (h : Q a s) : Does (pure a) s Q E := h

theorem does_fault (h : E c s) : Does (fault c) s Q E := h

theorem Does.fault_bind (h : E c s) : Does (fault c >>= f) s Q E := h

theorem Does.get_bind {f : State → Exec α} (h : Does (f s) s Q E) : Does (get >>= f) s Q E := h

theorem Does.modify_bind {g : State → State} {f : PUnit → Exec α} (h : Does (f ⟨⟩) (g s) Q E) :
    Does (modify g >>= f) s Q E := h

theorem Does.entry_bind {x : β} (hx : xs[i]? = some x) (h : Does (f x) s Q E) :
    Does (entry xs i >>= f) s Q E := by
  rw [entry, hx]
  exact h

theorem Does.entry_none_bind (hx : xs[i]? = none) (h : E (.outOfBounds i xs.size) s) :
    Does (entry xs i >>= f) s Q E := by
  rw [entry, hx]
  exact h

end Rules

/-! ## What a state looks like -/

/-- The visible part of a machine's state: the stack and the frames, topmost first, the heap and the
text printed so far. -/
structure View where
  frames : List (Option Frame)
  stack : List Value
  heap : Heap
  output : String

/-- The state `s` of a machine with the built-in host functions looks like `v`. -/
structure State.Shows (s : State) (v : View) : Prop where
  frames : s.frames.contents = v.frames
  stack : s.stack.contents = v.stack
  heap : s.heap = v.heap
  output : s.output = v.output
  host : s.host = builtins

section Primitives

variable {s : State} {v : View} {a : Value} {rest : List Value} {f : Value → Exec α}

theorem pop_eq (hs : s.Shows v) (hv : v.stack = a :: rest) :
    ∃ t, pop s = .ok a t ∧ t.Shows { v with stack := rest } := by
  have hcontents := hs.stack.trans hv
  have hpos := Slots.top_pos_of_contents hcontents
  have hpop := (Slots.contents_pop s.stack hpos).symm.trans hcontents
  refine ⟨{ s with stack := s.stack.pop hpos }, ?_, hs.frames,
    List.tail_eq_of_cons_eq hpop, hs.heap, hs.output, hs.host⟩
  rw [pop, dif_pos hpos, List.head_eq_of_cons_eq hpop]

theorem Does.pop_bind (hs : s.Shows v) (hv : v.stack = a :: rest)
    (h : ∀ t : State, t.Shows { v with stack := rest } → Does (f a) t Q E) :
    Does (pop >>= f) s Q E := by
  obtain ⟨t, heq, ht⟩ := pop_eq hs hv
  exact (does_of_eq (Q := fun b t ↦ b = a ∧ t.Shows { v with stack := rest }) heq ⟨rfl, ht⟩).bind
    fun _ t ⟨hb, ht⟩ ↦ hb ▸ h t ht

theorem Does.pop_nil_bind (hs : s.Shows v) (hv : v.stack = []) (h : E .stackUnderflow s) :
    Does (pop >>= f) s Q E := by
  have htop : ¬0 < s.stack.top := by
    rw [← Slots.length_contents, hs.stack, hv]
    exact Nat.lt_irrefl 0
  have heq : pop s = .error (.fault .stackUnderflow) s := by rw [pop, dif_neg htop]
  exact (does_of_fault (Q := fun _ _ ↦ False) heq h).bind fun _ _ hf ↦ hf.elim

theorem push_does (hs : s.Shows v) (hover : stackDepth ≤ v.stack.length → E .stackOverflow s) :
    Does (push a) s (fun _ t ↦ t.Shows { v with stack := a :: v.stack }) E := by
  by_cases htop : s.stack.top < stackDepth
  · have heq : push a s = .ok () { s with stack := s.stack.push a htop } := by
      rw [push, dif_pos htop]
    exact does_of_eq heq ⟨hs.frames, by rw [Slots.contents_push, hs.stack], hs.heap,
      hs.output, hs.host⟩
  · have heq : push a s = .error (.fault .stackOverflow) s := by rw [push, dif_neg htop]
    refine does_of_fault heq (hover ?_)
    rw [← hs.stack, Slots.length_contents]
    exact Nat.le_of_not_lt htop

theorem Does.push_bind {f : Unit → Exec α} (hs : s.Shows v)
    (hover : stackDepth ≤ v.stack.length → E .stackOverflow s)
    (h : ∀ t : State, t.Shows { v with stack := a :: v.stack } → Does (f ()) t Q E) :
    Does (push a >>= f) s Q E :=
  (push_does hs hover).bind fun _ t ht ↦ h t ht

variable {f : Frame} {below : List (Option Frame)}

theorem Does.frame_bind {g : Frame → Exec α} (hs : s.Shows v) (hv : v.frames = some f :: below)
    (h : Does (g f) s Q E) : Does (frame >>= g) s Q E := by
  have hcontents := hs.frames.trans hv
  have hpos := Slots.top_pos_of_contents hcontents
  have hpeek : s.frames.peek hpos = some f :=
    List.head_eq_of_cons_eq ((Slots.contents_pop s.frames hpos).symm.trans hcontents)
  have heq : frame s = .ok f s := by rw [frame, dif_pos hpos, hpeek]
  exact (does_of_eq (Q := fun b t ↦ b = f ∧ t = s) heq ⟨rfl, rfl⟩).bind fun _ _ ⟨hb, ht⟩ ↦
    hb ▸ ht ▸ h

theorem modifyFrame_does {g : Frame → Frame} (hs : s.Shows v) (hv : v.frames = some f :: below) :
    Does (modifyFrame g) s (fun _ t ↦ t.Shows { v with frames := some (g f) :: below }) E :=
  does_of_eq rfl ⟨Slots.contents_modifyTop _ (hs.frames.trans hv), hs.stack, hs.heap,
    hs.output, hs.host⟩

theorem enter_does {routine : Bytecode.Routine} {this : Option Nat} {constructs : Bool}
    (hs : s.Shows v) (hover : maxFrames ≤ v.frames.length → E .frameOverflow s) :
    Does (enter routine this constructs) s (fun _ t ↦ t.Shows { v with
      frames := some { routine, base := v.stack.length, this, constructs } :: v.frames }) E := by
  by_cases htop : s.frames.top < maxFrames
  · have hbase : s.stack.top = v.stack.length := by rw [← hs.stack, Slots.length_contents]
    have heq : enter routine this constructs s = .ok () { s with
        frames :=
          s.frames.push (some { routine, base := s.stack.top, this, constructs }) htop } := by
      rw [enter, dif_pos htop]
    refine does_of_eq heq ⟨?_, hs.stack, hs.heap, hs.output, hs.host⟩
    rw [Slots.contents_push, hs.frames, hbase]
  · refine does_of_fault (by rw [enter, dif_neg htop]) (hover ?_)
    rw [← hs.frames, Slots.length_contents]
    exact Nat.le_of_not_lt htop

theorem leave_does (hs : s.Shows v) (hv : v.frames = some f :: below) :
    Does leave s (fun _ t ↦ t.Shows { v with frames := below }) E := by
  refine does_of_eq rfl ⟨?_, hs.stack, hs.heap, hs.output, hs.host⟩
  have htop : s.frames.top = below.length + 1 := by
    rw [← Slots.length_contents, hs.frames, hv, List.length_cons]
  show (s.frames.dropTo (s.frames.top - 1)).contents = below
  rw [Slots.contents_dropTo, hs.frames, hv, htop, List.length_cons, Nat.add_sub_cancel,
    Nat.add_sub_cancel_left]
  rfl

end Primitives

/-! ## Runs -/

section Runs

variable {depth : Nat} {s : State}

theorem run_of_le (h : s.frames.top ≤ depth) (gas : Nat) : run depth gas s = .ok () s := by
  rw [run, if_pos h]

theorem run_zero (h : depth < s.frames.top) :
    run depth 0 s = .error (.fault (locate (s.frames.top - 1) .gasExhausted s)) s := by
  rw [run, if_neg (Nat.not_le_of_lt h)]

theorem run_succ (h : depth < s.frames.top) (gas : Nat) : run depth (gas + 1) s =
      match step s with
      | .ok () t => run depth gas t
      | .error signal t => .error (signal.stopAt (s.frames.top - 1) t) t := by
  rw [run]
  exact if_neg (Nat.not_le_of_lt h)

end Runs

end ClassAsm.Machine
