import ClassAsm.Proofs.Correctness.Perform
import ClassAsm.Proofs.Machine.Activations

/-!
# From one instruction of a block to the next

A frame that stands where the code of an instruction of its block begins, with nothing of its own on
the stack, comes to the beginning of another instruction, again with nothing of its own on the
stack: that which the text says.  Or it faults, or it returns, which it does exactly for a return.
On the way it never reaches below its part of the stack, and neither does a procedure that it calls.

`Proceeds` says what it means for a frame to come somewhere in this way: the steps of the frame
itself are finitely many, while a procedure that it calls may take as many as it likes, and is only
followed if it returns.

## How it is proved

The frame is followed through the code of one statement by `Within`, which says how many
instructions it has passed and what it has on the stack.  What a condition turns out to be is said
in terms of the interpreter: `configOf` is what it would see in the frame, and `Tests` is about the
result it would get.  That the code comes to the same result is `agrees_condition`.
-/

namespace ClassAsm.Machine

open Bytecode Codegen Correctness Reference

variable {p : Program} {m : CompiledModule} {j off k i : Nat} {c : String} {st : Statement}
  {e : Option Reference.Expr} {Q : State → Prop} {s : State} {below : List (Option Frame)}
  {low : List Value} {w v : View} {g f : Frame} {im : Image p m} {s₀ t₀ : Shape} {xs : List Instr}
  {rs : Registers} {withResult : Bool} {y : Instr}

/-! ## Where a frame comes to -/

/-- The frame with `depth - 1` others below it, which has its part of the stack from `base` on,
comes to a state with `Q` or faults; or it returns, if it may.  Meanwhile the stack is never lower
than `base`. -/
inductive Proceeds (depth base : Nat) (Q : State → Prop) (returns : Prop) : State → Prop where
  | here {s : State} : Q s → Proceeds depth base Q returns s
  | fault {s t : State} {c : Cause} : step s = .error (.fault c) t → Proceeds depth base Q returns s
  | stay {s t : State} : step s = .ok () t → t.frames.top = depth → base ≤ t.stack.top →
      Proceeds depth base Q returns t → Proceeds depth base Q returns s
  /-- A procedure is entered, and if it returns, the frame goes on. -/
  | call {s t : State} : step s = .ok () t → depth < t.frames.top →
      (∀ past u, Trace depth t past u → depth ≤ u.frames.top ∧ base ≤ u.stack.top) →
      (∀ past u, Trace depth t past u → u.frames.top = depth → Proceeds depth base Q returns u) →
      Proceeds depth base Q returns s
  | leave {s t : State} : returns → step s = .ok () t → t.frames.top + 1 = depth →
      base ≤ t.stack.top → Proceeds depth base Q returns s

section Proceeds

variable {depth base : Nat} {returns : Prop} {t : State}

theorem Proceeds.of_does {P : State → Prop} {E : Cause → State → Prop}
    (h : Does step s (fun _ t ↦ P t) E) (hP : ∀ t, step s = .ok () t → P t →
      Proceeds depth base Q returns s) : Proceeds depth base Q returns s := by
  rw [Does] at h
  cases hstep : step s with
  | ok u t =>
    rw [hstep] at h
    exact hP t hstep h
  | error e t =>
    rw [hstep] at h
    cases e with
    | fault c => exact .fault hstep
    | abort text => exact h.elim

/-- The frame above the frames `below`, which has its part of the stack above `low`, comes to a
state with `Q`. -/
abbrev Arrives (below : List (Option Frame)) (low : List Value) (Q : State → Prop)
    (returns : Prop) : State → Prop :=
  Proceeds (below.length + 1) low.length Q returns

theorem Proceeds.stays (ht : step s = .ok () t) (hw : t.Shows w)
    (hframes : w.frames = some g :: below) (hlow : low <:+ w.stack)
    (h : Arrives below low Q returns t) : Arrives below low Q returns s := by
  refine .stay ht ?_ ?_ h
  · rw [hw.top_eq, hframes, List.length_cons]
  · rw [← Slots.length_contents, hw.stack]
    exact hlow.length_le

end Proceeds

/-! ## Inside a statement -/

/-- The frame `f₀` of the procedure `im` has gone `k` instructions further and is now `f`.  It has
values of the types `τ` on its part of the stack, above `low`. -/
structure Within (im : Image p m) (f₀ : Frame) (below : List (Option Frame)) (low : List Value)
    (k : Nat) (τ : List Ty) (v : View) (f : Frame) : Prop where
  routine : f₀.routine = im.routine
  frames : v.frames = some f :: below
  after : f₀.After f k
  stack : ∃ own, v.stack = own ++ low ∧ own.length = τ.length

section Within

variable {f₀ : Frame} {τ : List Ty} {x : Instr} {returns : Prop}

theorem Within.reads (hw : Within im f₀ below low k τ v f)
    (hx : im.code.Reads (target im.offsets) (f₀.ip + k) x) :
    f.routine.code.Reads (target im.offsets) f.ip x := by
  rw [hw.after, hw.routine]
  exact hx

theorem Within.suffix (hw : Within im f₀ below low k τ v f) : low <:+ v.stack := by
  obtain ⟨own, hstack, -⟩ := hw.stack
  exact ⟨own, hstack.symm⟩

theorem Within.tail_eq (hw : Within im f₀ below low k τ v f) : v.frames.tail = below := by
  rw [hw.frames, List.tail_cons]

/-- A procedure is entered, and if it returns, the frame goes on with the results. -/
theorem Within.enter (hl : Loaded p m) (hw : Within im f₀ below low k τ v f) (hs : s.Shows v)
    (hx : im.code.Reads (target im.offsets) (f₀.ip + k) x) {im' : Image p m} {this : Option Nat}
    {constructs : Bool} {heap : Heap}
    (he : effect v f x = .go { v.enter f im'.routine this constructs with heap := heap })
    (hrest : ∀ w t, t.Shows w →
      Within im f₀ below low (k + 1) ((Pose.start im' this constructs).results ++ τ) w f.next →
      Arrives below low Q returns t) :
    Arrives below low Q returns s := by
  obtain ⟨own, hstack, hown⟩ := hw.stack
  have hstep := step_follows hs hw.frames (hw.reads hx)
  rw [he] at hstep
  have hactive : Active (anything p m)
      ⟨(Pose.start im' this constructs).results, some f.next :: v.frames.tail,
        v.stack⟩ [.start im' this constructs]
      { v.enter f im'.routine this constructs with heap := heap } :=
    Resting.floor.active_entered hl trivial trivial
  have hdepth : (some f.next :: v.frames.tail).length = below.length + 1 := by
    rw [hw.tail_eq, List.length_cons]
  refine Proceeds.of_does hstep fun t ht hshows ↦ .call ht ?_ ?_ ?_
  · rw [hshows.top_eq, hactive.length_frames, hdepth]
    exact Nat.lt_add_of_pos_left Nat.one_pos
  · intro past u htrace
    rw [← hdepth] at htrace
    obtain ⟨as, w, hu, ha⟩ := hactive.trace anything_lawful hl hshows htrace
    constructor
    · rw [hu.top_eq, ha.length_frames, hdepth]
      exact Nat.le_add_left _ _
    · rw [← Slots.length_contents, hu.stack]
      exact (hw.suffix.trans ha.suffix.2).length_le
  · intro past u htrace htop
    rw [← hdepth] at htrace
    obtain ⟨as, w, hu, ha⟩ := hactive.trace anything_lawful hl hshows htrace
    obtain ⟨-, hframes, own', hstack', hvalues⟩ :=
      ha.landed hu (Nat.le_of_eq (htop.trans hdepth.symm))
    rw [hw.tail_eq] at hframes
    refine hrest w u hu ⟨hw.routine, hframes, hw.after.trans rfl, own' ++ own, ?_, ?_⟩
    · rw [hstack', hstack, List.append_assoc]
    · rw [List.length_append, List.length_append, ← hvalues.length_eq, hown]

theorem Within.jump (hw : Within im f₀ below low k [] v f) (hs : s.Shows v)
    (hx : im.code.Reads (target im.offsets) (f₀.ip + k) (.jump j))
    (hrest : ∀ off t, target im.offsets j off → t.Shows (v.jumped f off) →
      Arrives below low Q returns t) : Arrives below low Q returns s := by
  have hstep := step_follows hs hw.frames (hw.reads hx)
  exact Proceeds.of_does hstep fun t ht ⟨off, hoff, hshows⟩ ↦
    .stays ht hshows (congrArg _ hw.tail_eq) hw.suffix (hrest off t hoff hshows)

/-- A conditional goes on with the next instruction or jumps, as the value on the stack says. -/
theorem Within.jumpFalse (hτ : τ.length = 1) (hw : Within im f₀ below low k τ v f) (hs : s.Shows v)
    (hx : im.code.Reads (target im.offsets) (f₀.ip + k) (.jumpFalse j))
    (htrue : ∀ b t, v.stack = b :: low → b.truth = true → t.Shows (v.onto f low) →
      Arrives below low Q returns t)
    (hfalse : ∀ b off t, v.stack = b :: low → b.truth = false → target im.offsets j off →
      t.Shows ({ v with stack := low }.jumped f off) →
      Arrives below low Q returns t) : Arrives below low Q returns s := by
  obtain ⟨own, hstack, hown⟩ := hw.stack
  obtain ⟨b, rfl⟩ := List.length_eq_one_iff.1 (hown.trans hτ)
  have hstack : v.stack = b :: low := hstack
  have hstep := step_follows hs hw.frames (hw.reads hx)
  simp only [effect, hstack] at hstep
  cases hb : b.truth with
  | true =>
    rw [hb, if_pos rfl] at hstep
    exact Proceeds.of_does hstep fun t ht hshows ↦
      .stays ht hshows (congrArg _ hw.tail_eq) (List.suffix_refl _) (htrue b t hstack hb hshows)
  | false =>
    rw [hb, if_neg Bool.false_ne_true] at hstep
    refine Proceeds.of_does hstep ?_
    rintro t ht ⟨off, hoff, hshows⟩
    exact .stays ht hshows (congrArg _ hw.tail_eq) (List.suffix_refl _)
      (hfalse b off t hstack hb hoff hshows)

/-- The procedure is left with what its caller waits for. -/
theorem Within.leave {cs : List Ty} {u : Shape} (hw : Within im f₀ below low k τ v f)
    (hs : s.Shows v) (hbase : low.length = f₀.base)
    (hx : im.code.Reads (target im.offsets) (f₀.ip + k) (.ret withResult))
    (htypes : Types im.setting ⟨rs, cs, τ⟩ (.ret withResult) u) (hreturns : returns) :
    Arrives below low Q returns s := by
  obtain ⟨own, hstack, hown⟩ := hw.stack
  have hstep := step_follows hs hw.frames (hw.reads hx)
  have hfbase : f.base = low.length := by rw [hw.after, hbase]
  have hleave {r : Option Value} (he : effect v f (.ret withResult) = .go (v.leave f low r)) :
      Arrives below low Q returns s := by
    rw [he] at hstep
    refine Proceeds.of_does hstep fun t ht hshows ↦ .leave hreturns ht ?_ ?_
    · rw [hshows.top_eq, View.leave, hw.tail_eq]
    · rw [← Slots.length_contents, hshows.stack, View.leave, hfbase, Nat.sub_self, List.drop_zero,
        List.length_append]
      exact Nat.le_add_left _ _
  cases htypes with
  | ret =>
    obtain rfl := List.length_eq_zero_iff.1 hown
    exact hleave (by rw [effect, hstack]; rfl)
  | result =>
    obtain ⟨b, rfl⟩ := List.length_eq_one_iff.1 hown
    exact hleave (r := some b) (by simp [effect, hstack])

theorem Within.call (hl : Loaded p m) (hw : Within im f₀ below low k [] v f) (hs : s.Shows v)
    {callee : Procedure} (hcallee : im.owner.get.methods[j]? = some callee)
    (hx : im.code.Reads (target im.offsets) (f₀.ip + k) (.call j))
    (hrest : ∀ w t, t.Shows w → Within im f₀ below low (k + 1)
      (if callee.returns = .void then [] else [callee.returns]) w f.next →
      Arrives below low Q returns t) : Arrives below low Q returns s := by
  have howner : f.routine.owner = some im.owner := by
    rw [hw.after, hw.routine]
    rfl
  rcases effect_call hl howner hcallee with ⟨-, he⟩ | ⟨im', -, hresults, he⟩
  · have hstep := step_follows hs hw.frames (hw.reads hx)
    rw [he] at hstep
    exact Proceeds.of_does hstep fun t _ ht ↦ ht.elim
  · refine hw.enter hl hs hx he fun w t ht hw' ↦ ?_
    rw [hresults, List.append_nil] at hw'
    exact hrest w t ht hw'

theorem Within.new (hl : Loaded p m) (hw : Within im f₀ below low k τ v f) (hs : s.Shows v)
    {cls : ClassRef} (hcls : im.owner.home.class? c = some cls) (habs : cls.get.isAbstract = false)
    (hx : im.code.Reads (target im.offsets) (f₀.ip + k) (.new cls.index.val))
    (hrest : ∀ w t, t.Shows w → Within im f₀ below low (k + 1) (.object c :: τ) w f.next →
      Arrives below low Q returns t) : Arrives below low Q returns s := by
  have howner : f.routine.owner = some im.owner := by
    rw [hw.after, hw.routine]
    rfl
  obtain ⟨im', -, hresults, he⟩ := effect_new hl howner hcls habs
  refine hw.enter hl hs hx he fun w t ht hw' ↦ ?_
  rw [hresults] at hw'
  exact hrest w t ht hw'

/-- The instruction goes on with the next one, once it is done. -/
def Passing (x : Instr) : Prop := Straight x ∨ Codegen.Enterer x

theorem Within.step (hl : Loaded p m) (hw : Within im f₀ below low k s₀.stack v f) (hs : s.Shows v)
    (hx : im.code.Reads (target im.offsets) (f₀.ip + k) x) (htypes : Types im.setting s₀ x t₀)
    (hpassing : Passing x) (hrest : ∀ w g t, (Straight x → effect v f x = .go w) → t.Shows w →
      Within im f₀ below low (k + 1) t₀.stack w g → Arrives below low Q returns t) :
    Arrives below low Q returns s := by
  by_cases hstraight : Straight x
  · obtain ⟨own, hstack, hown⟩ := hw.stack
    have hup := anything_lawful.straight (f := f) trivial trivial
      (forall₂_anything hown _) hstack htypes trivial hstraight
    have hstep := step_follows hs hw.frames (hw.reads hx)
    cases he : effect v f x with
    | go w =>
      rw [he] at hstep hup
      obtain ⟨-, ⟨own', hvalues, hstack'⟩, g, hframes, hg, -⟩ := hup
      rw [hw.frames, List.tail_cons] at hframes
      have hw' : Within im f₀ below low (k + 1) t₀.stack w g :=
        ⟨hw.routine, hframes, hw.after.trans hg, own', hstack', hvalues.length_eq.symm⟩
      exact Proceeds.of_does hstep fun t ht hshows ↦
        .stays ht hshows hframes hw'.suffix (hrest w g t (fun _ ↦ he) hshows hw')
    | branch j w =>
      rw [he] at hup
      exact hup.elim
    | fault c =>
      rw [he] at hstep
      exact Proceeds.of_does hstep fun t _ ht ↦ ht.elim
  · cases htypes with
    | call hcallee => exact hw.call hl hs hcallee hx fun w t ht ↦ hrest w _ t (fun h ↦ h.elim) ht
    | new hcls habs _ =>
      exact hw.new hl hs hcls habs hx fun w t ht ↦ hrest w _ t (fun h ↦ h.elim) ht
    | _ => exact hpassing.elim (fun h ↦ (hstraight h).elim) fun h ↦ h.elim

theorem Within.pass (hl : Loaded p m) (hw : Within im f₀ below low k τ v f) (hs : s.Shows v)
    (hcode : im.Segment (f₀.ip + k) xs s₀ t₀) (hτ : s₀.stack = τ) (hxs : ∀ x ∈ xs, Passing x)
    (hrest : ∀ w g t, ((∀ x ∈ xs, Straight x) → course v xs = .done w) → t.Shows w →
      Within im f₀ below low (k + xs.length) t₀.stack w g → Arrives below low Q returns t) :
    Arrives below low Q returns s := by
  subst hτ
  obtain ⟨hcode, htyped⟩ := hcode
  induction htyped generalizing v f s k with
  | nil => exact hrest v f s (fun _ ↦ rfl) hs hw
  | @cons s₁ t₁ u₁ x xs htypes htyped ih =>
    refine hw.step hl hs (hcode 0 x rfl) htypes (hxs x List.mem_cons_self) fun w g t he hshows hw' ↦
      ih hshows (fun y hy ↦ hxs y (List.mem_cons_of_mem _ hy)) ?_ hw' ?_
    · intro w' g' t' hcourse
      have hcourse' (hstraight : ∀ y ∈ x :: xs, Straight y) : course v (x :: xs) = .done w' := by
        rw [course, hw.frames]
        dsimp only
        rw [he (hstraight x List.mem_cons_self)]
        exact hcourse fun y hy ↦ hstraight y (List.mem_cons_of_mem _ hy)
      have := hrest w' g' t' hcourse'
      rwa [List.length_cons, Nat.add_comm xs.length 1, ← Nat.add_assoc] at this
    · intro i y hy
      have := hcode (i + 1) y hy
      rwa [Nat.add_comm i 1, ← Nat.add_assoc] at this

end Within

/-! ## One instruction of the block -/

/-- The variables that a frame holds, where something is known about the registers. -/
def Frame.env (f : Frame) (rs : Registers) : Env where
  self := f.self
  cells k := (f.locals.toArray[k + registerCount]?).getD .void
  registers r := match rs.get r with
    | .typed t => some ⟨(f.locals.toArray[r.slot]?).getD .void, t⟩
    | _ => none

/-- What the interpreter would see in the frame `f` of the procedure `im` before the instruction
with index `i`. -/
def configOf (im : Image p m) (v : View) (f : Frame) (rs : Registers) (i : Nat) : Config where
  active := ⟨im.owner, im.member, im.code.returns, f.env rs, .instruction i⟩
  heap := v.heap
  output := v.output

/-- The frame `f` of the procedure `im`, with the frames `below` below it, stands where the code of
the instruction with index `i` begins, or with the index behind the last one at the end.  It has
nothing of its own on the stack. -/
structure Stationed (im : Image p m) (i : Nat) (below : List (Option Frame)) (v : View) (f : Frame)
    (s : State) : Prop where
  shows : s.Shows v
  frames : v.frames = some f :: below
  routine : f.routine = im.routine
  offset : im.offsets[i]? = some f.ip
  base : v.stack.length = f.base

/-- The condition of the instruction with index `i` has the value `holds` in the frame `f`.  An
instruction without a condition counts as one whose condition holds. -/
def Tests (im : Image p m) (i : Nat) (v : View) (f : Frame) (holds : Bool) : Prop :=
  ∃ q, im.points[i]? = some q ∧ condition q.stmt (configOf im v f q.facts i) =
  .ok holds (configOf im v f q.facts i)

/-- The frame `f` stands at the instruction that the text says comes after that with index `i`, and
the stack is as before. -/
def Onward (im : Image p m) (i : Nat) (below : List (Option Frame)) (v : View) (f : Frame)
    (t : State) : Prop :=
  ∃ holds j w g, Tests im i v f holds ∧ im.member.body.next? i holds = some j ∧
    Stationed im (min j im.size) below w g t ∧ w.stack = v.stack ∧
    g = { f with ip := g.ip, locals := g.locals }

section Statements

variable {t : State} {q : Codegen.Point}

theorem holds_env (f : Frame) (rs : Registers) : Holds (f.env rs) f where
  self := rfl
  cells k hk := getElem?_locals hk
  registers r w hw := by
    have hslot : r.slot < maxLocals := Nat.lt_trans r.slot_lt (by decide)
    simp only [Frame.env] at hw
    split at hw
    · cases hw
      exact getElem?_locals hslot
    · cases hw

theorem types_env {r : Register} {t : Ty} (h : rs.get r = .typed t) :
    (f.env rs).types r = some t := by
  simp only [Env.types, Frame.env, h]
  rfl

theorem prepared (hl : Loaded p m) (hq : im.points[i]? = some q) :
    Prepared (f.env q.facts) q.stmt := by
  have hfits := im.fits i q.facts
  refine prepared_of_sound hfits.scope ?_
    (fun r t ht ↦ types_env (hfits.registers r t ht)) (im.sound hl hq)
  rw [← im.cellsBefore_succ hq]
  exact im.cells_le (i + 1)

section Code

variable {returns : Ty}

theorem Passing.of_opening (h : Mild y ∨ (Enterer y ∧ enters st = true)) : Passing y :=
  h.imp (·.straight) And.left

theorem straight_of_plain (hst : Plain st) : ∀ x ∈ st.code returns i, Straight x := by
  obtain ⟨xs, heq, hxs⟩ := exists_opening returns i st
  rw [heq]
  refine forall_mem_append (fun x hx ↦ Mild.straight ((hxs x hx).resolve_right fun h ↦ ?_)) ?_
  · cases st <;> first | exact hst.elim | cases h.2
  · cases st <;> first | exact hst.elim | simp [closing?, Straight]

/-- The code of a conditional is straight up to its jump. -/
theorem straight_of_conditional (hst : Conditional st) (h : st.code returns i = xs ++ [y]) :
    ∀ x ∈ xs, Straight x := by
  obtain ⟨ys, heq, hys⟩ := exists_opening returns i st
  have hclosing : ∃ z, closing? i st = some z ∧ enters st = false := by
    cases st <;> first | exact hst.elim | exact ⟨_, rfl, rfl⟩
  obtain ⟨z, hz, henters⟩ := hclosing
  rw [hz, h] at heq
  rw [List.append_inj_left' heq rfl]
  exact fun x hx ↦ Mild.straight ((hys x hx).resolve_right fun h ↦ nomatch henters.symm.trans h.2)

/-- The code of a statement goes through to the end if it neither jumps nor returns. -/
theorem passing_of_falls (hfalls : st.falls = true) (hbranch : st.branch? i = none) :
    ∀ x ∈ st.code returns i, Passing x := by
  obtain ⟨xs, heq, hxs⟩ := exists_opening returns i st
  rw [heq]
  refine forall_mem_append (fun x hx ↦ .of_opening (hxs x hx)) ?_
  cases st with
  | truth | compare | jump => cases hbranch
  | ret => cases hfalls
  | _ => grind [closing?, Passing, Straight]

end Code

variable {returns : Prop}

theorem Stationed.within (h : Stationed im i below v f s) : Within im f below v.stack 0 [] v f :=
  ⟨h.routine, h.frames, .refl f, [], rfl, rfl⟩

theorem next?_eq (hq : im.points[i]? = some q) (holds : Bool) :
    im.member.body.next? i holds = q.stmt.next? i holds := by
  obtain ⟨instr, hinstr, hreads⟩ := im.translated.reads i q hq
  have hi : i ≤ im.size := Nat.le_of_lt (Array.getElem?_eq_some_iff.1 hinstr).1
  exact next?_of_statement? hinstr (Image.loops_names hi q.facts) hreads holds

theorem lt_size (hq : im.points[i]? = some q) : i < im.size :=
  im.length_points ▸ (List.getElem?_eq_some_iff.1 hq).1

theorem Stationed.onward (h : Stationed im i below v f s) (hq : im.points[i]? = some q)
    {holds : Bool}
    (htest : condition q.stmt (configOf im v f q.facts i) = .ok holds (configOf im v f q.facts i))
    (hnext : q.stmt.next? i holds = some j) (hoff : im.offsets[min j im.size]? = some off)
    (ht : t.Shows w) (hframes : w.frames = some g :: below)
    (hg : g = { f with ip := off, locals := g.locals }) (hstack : w.stack = v.stack) :
    Onward im i below v f t := by
  refine ⟨holds, j, w, g, ⟨q, hq, htest⟩, (next?_eq hq holds).trans hnext,
    ⟨ht, hframes, ?_, ?_, ?_⟩, hstack, ?_⟩
  · rw [hg]
    exact h.routine
  · rw [hg]
    exact hoff
  · rw [hg, hstack]
    exact h.base
  · rw [hg]

theorem Stationed.passed (h : Stationed im i below v f s) (hq : im.points[i]? = some q)
    (htest : condition q.stmt (configOf im v f q.facts i) = .ok true (configOf im v f q.facts i))
    (hnext : q.stmt.next? i true = some (i + 1)) (hoff : im.offsets[i + 1]? = some (f.ip + off))
    (ht : t.Shows w) (hw : Within im f below v.stack off [] w g) : Onward im i below v f t := by
  obtain ⟨own, hstack, hown⟩ := hw.stack
  obtain rfl := List.length_eq_zero_iff.1 hown
  refine h.onward hq htest hnext ?_ ht hw.frames hw.after hstack
  rw [Nat.min_eq_left (lt_size hq)]
  exact hoff

section Stations

variable (hl : Loaded p m) (h : Stationed im i below v f s)

include hl h

theorem Stationed.leaves (hcode : im.Segment f.ip (xs ++ [.ret withResult]) s₀ t₀)
    (hs₀ : s₀.stack = []) (hxs : ∀ x ∈ xs, Passing x) (hreturns : returns) :
    Arrives below v.stack (Onward im i below v f) returns s := by
  obtain ⟨u, hfirst, hlast⟩ := hcode.split
  refine h.within.pass hl h.shows hfirst hs₀ hxs fun w g t _ ht hw ↦ ?_
  rw [Nat.zero_add] at hw
  cases hlast.typed with
  | cons htypes _ => exact hw.leave ht h.base (hlast.reads 0 (.ret withResult) rfl) htypes hreturns

variable (hq : im.points[i]? = some q)

include hq

/-- A statement that neither jumps nor returns goes on with the next one. -/
theorem Stationed.proceeds_through (hfalls : q.stmt.falls = true)
    (hbranch : q.stmt.branch? i = none) :
    Arrives below v.stack (Onward im i below v f) returns s := by
  obtain ⟨hnext, hcode⟩ := im.statement_segment hl hq h.offset
  have hon : condition q.stmt (configOf im v f q.facts i) = .ok true (configOf im v f q.facts i) ∧
      q.stmt.next? i true = some (i + 1) := by
    cases hst : q.stmt with
    | truth | compare => cases (hst ▸ hbranch :)
    | jump | ret => cases (hst ▸ hfalls :)
    | _ => exact ⟨rfl, rfl⟩
  refine h.within.pass hl h.shows hcode rfl (passing_of_falls hfalls hbranch)
    fun w g t _ ht hw ↦ .here ?_
  rw [Nat.zero_add] at hw
  exact h.passed hq hon.1 hon.2 hnext ht hw

theorem Stationed.proceeds_jump (hst : q.stmt = .jump j) :
    Arrives below v.stack (Onward im i below v f) returns s := by
  obtain ⟨-, hcode⟩ := im.statement_segment hl hq h.offset
  rw [hst] at hcode
  have htest : condition q.stmt (configOf im v f q.facts i) =
    .ok true (configOf im v f q.facts i) := by
    rw [hst]
    rfl
  have hnext : q.stmt.next? i true = some j := by
    rw [hst]
    rfl
  refine h.within.jump h.shows (hcode.reads 0 (.jump j) rfl) fun off t hoff ht ↦ .here ?_
  refine h.onward (w := v.jumped f off) (g := { f with ip := off }) hq htest hnext
    (Image.target_iff.1 hoff) ht ?_ rfl rfl
  rw [View.jumped, h.frames, List.tail_cons]

theorem Stationed.proceeds_ret (hst : q.stmt = .ret e) (hreturns : returns) :
    Arrives below v.stack (Onward im i below v f) returns s := by
  obtain ⟨-, hcode⟩ := im.statement_segment hl hq h.offset
  obtain ⟨xs, heq, hxs⟩ := exists_opening im.code.returns i q.stmt
  rw [heq, hst] at hcode
  exact h.leaves hl hcode rfl (fun x hx ↦ .of_opening (hxs x hx)) hreturns

/-- A conditional goes on as its condition says. -/
theorem Stationed.proceeds_conditional (hcond : Conditional q.stmt) :
    Arrives below v.stack (Onward im i below v f) returns s := by
  obtain ⟨hnext, hcode⟩ := im.statement_segment hl hq h.offset
  obtain ⟨xs, heq, hagrees⟩ : ∃ xs, q.stmt.code im.code.returns i = xs ++ [.jumpFalse (i + 2)] ∧
      Agrees (condition q.stmt) xs below (configOf im v f q.facts i) f v.stack
        fun b c' stack ↦ c' = configOf im v f q.facts i ∧ ∃ x : Value, x.truth = b ∧
        stack = x :: v.stack :=
    agrees_condition hcond (prepared hl hq)
  have hview : viewOf (configOf im v f q.facts i) f below v.stack = v := by
    rw [viewOf, ← h.frames]
    rfl
  have hact := hagrees (holds_env f q.facts)
  rw [hview] at hact
  rw [heq] at hcode
  rw [heq, List.length_append, List.length_singleton] at hnext
  obtain ⟨u, hfirst, hlast⟩ := hcode.split
  have hu : u.stack.length = 1 := by
    cases hlast.typed with
    | cons htypes _ => cases htypes; rfl
  have hnext? (holds : Bool) : q.stmt.next? i holds = some (if holds then i + 1 else i + 2) := by
    cases hst : q.stmt with
    | truth | compare => rfl
    | _ => exact (hst ▸ hcond).elim
  have hstraight := straight_of_conditional hcond heq
  refine h.within.pass hl h.shows hfirst rfl (fun x hx ↦ .inl (hstraight x hx))
    fun w g t hcourse ht hw ↦ ?_
  replace hcourse := hcourse hstraight
  rw [Nat.zero_add] at hw
  cases hc : condition q.stmt (configOf im v f q.facts i) with
  | error e c' =>
    rw [hc] at hact
    cases e with
    | fault x =>
      obtain ⟨w', hfailed, -⟩ := hact
      cases hcourse.symm.trans hfailed
    | meaningless => exact hact.elim
  | ok b c' =>
    rw [hc] at hact
    obtain ⟨g', stack, hdone, -, -, -, rfl, x, hx, rfl⟩ := hact
    cases hcourse.symm.trans hdone
    refine hw.jumpFalse hu ht (hlast.reads 0 _ rfl) (fun y t' hy hb ht' ↦ .here ?_)
      fun y off t' hy hb hoff ht' ↦ .here ?_
    · cases hy
      rw [hb] at hx
      subst hx
      refine h.onward hq hc (hnext? true) ?_ ht' rfl (hw.after.trans (h := g.next) rfl) rfl
      rw [if_pos rfl, Nat.min_eq_left (lt_size hq)]
      exact hnext
    · cases hy
      rw [hb] at hx
      subst hx
      refine h.onward (g := { g with ip := off }) hq hc (hnext? false)
        (Image.target_iff.1 hoff) ht' rfl ?_ rfl
      rw [hw.after]

end Stations

theorem Stationed.proceeds_end (hl : Loaded p m) (h : Stationed im im.size below v f s)
    (hreturns : returns) : Arrives below v.stack (Onward im im.size below v f) returns s := by
  have hcode := im.epilogue_segment hl {} h.offset
  rw [epilogueCode] at hcode
  split at hcode
  · exact h.leaves hl (show im.Segment f.ip ([] ++ [.ret false]) _ _ from hcode) rfl
      (List.forall_mem_nil _) hreturns
  · exact h.leaves hl (show im.Segment f.ip ([_] ++ [.ret true]) _ _ from hcode) rfl
      (forall_mem_singleton (.inl trivial)) hreturns

theorem op_of_ret (hq : im.points[i]? = some q) (hst : q.stmt = .ret e) :
    ∃ instr, im.member.body.code[i]? = some instr ∧ instr.op = .ret := by
  obtain ⟨instr, hinstr, hreads⟩ := im.translated.reads i q hq
  have hnext : im.member.body.next? i true = none := by
    rw [next?_eq hq, hst]
    rfl
  refine ⟨instr, hinstr, ?_⟩
  rw [Program.Block.next?, hinstr] at hnext
  rw [hst] at hreads
  obtain ⟨op, ops, line⟩ := instr
  cases op with
  | ret => rfl
  | goto | jump =>
    have hreads : Names.jump? im.member.body ops = some (.ret e) := hreads
    unfold Names.jump? at hreads
    split at hreads
    · split at hreads <;> cases hreads
    · cases hreads
  | repeatLoop =>
    obtain ⟨j, -, hj⟩ := Option.map_eq_some_iff.1 hreads
    cases hj
  | _ => cases hnext

end Statements

/-- The instruction with index `i` is a return, or the end of the block. -/
def Leaves (im : Image p m) (i : Nat) : Prop :=
  i = im.size ∨ ∃ instr, im.member.body.code[i]? = some instr ∧ instr.op = .ret

/-- **From one instruction of a block to the next.** -/
theorem Stationed.proceeds (hl : Loaded p m) (h : Stationed im i below v f s) :
    Proceeds (below.length + 1) f.base (Onward im i below v f) (Leaves im i) s := by
  rw [← h.base]
  have hsize : im.offsets.size = im.size + 1 := im.translated.offsets
  have hi : i ≤ im.size := by
    have := (Array.getElem?_eq_some_iff.1 h.offset).1
    omega
  rcases Nat.lt_or_eq_of_le hi with hlt | rfl
  · have hlength : i < im.points.length := im.length_points ▸ hlt
    have hq : im.points[i]? = some im.points[i] := List.getElem?_eq_getElem hlength
    cases hst : im.points[i].stmt with
    | skip | assign | define | write | arith | print | newArray | call | newObject =>
      exact h.proceeds_through hl hq (by rw [hst]; rfl) (by rw [hst]; rfl)
    | truth | compare => exact h.proceeds_conditional hl hq (by rw [hst]; trivial)
    | jump j => exact h.proceeds_jump hl hq hst
    | ret e => exact h.proceeds_ret hl hq hst (.inr (op_of_ret hq hst))
  · exact h.proceeds_end hl (.inl rfl)

/-- **Control flow of generated code.**  Let a source text compile to a small module.  Every
procedure of the module comes from a block of the program.  A frame of it that stands where the code
of the instruction with index `i` begins, with nothing of its own on the stack, faults, or it comes
to the instruction that the text says is next, again with nothing of its own on the stack; or it
leaves, if the instruction is a return or `i` is the end of the block.  The stack is never lower
than its base meanwhile, not even in the procedures that it calls.  Nothing is next behind a
return. -/
theorem frame_comes_to_next_instruction {src : String} {m : CompiledModule}
    (h : compile src = .ok m) (hsmall : m.Small) :
    ∃ p, parseSource src = .ok p ∧ Codegen.Imaged p m ∧
      ∀ (im : Image p m) (i : Nat) (below : List (Option Frame)) (v : View) (f : Frame) (s : State),
        Stationed im i below v f s →
        Proceeds (below.length + 1) f.base (Onward im i below v f) (Leaves im i) s := by
  obtain ⟨p, hp, hl⟩ := loaded_of_compile h hsmall
  exact ⟨p, hp, hl.imaged, fun im i below v f s hs ↦ hs.proceeds hl⟩

/-- A frame that stands at the first instruction of its block. -/
def firstFrame (im : Image p m) : Frame :=
  { routine := im.routine, ip := (Reference.defaultsCode 0 im.defaults).length, base := 0
    this := none, constructs := false }

theorem top_empty_lt : (Slots.empty : Slots (Option Frame) maxFrames).top < maxFrames := by decide

/-- A machine with this frame only. -/
def firstStation (im : Image p m) : State :=
  { frames := Slots.empty.push (some (firstFrame im)) top_empty_lt, host := builtins }

theorem stationed_first (im : Image p m) :
    Stationed im 0 [] ⟨[some (firstFrame im)], [], {}, ""⟩ (firstFrame im) (firstStation im) :=
  ⟨⟨Slots.contents_push _ _ _, rfl, rfl, rfl, rfl⟩, rfl, rfl, im.translated.first, rfl⟩

/-- The method of the countdown goes on from its first instruction. -/
theorem countdown_comes_to_next_instruction :
    ∃ (m : CompiledModule) (p : Program) (im : Image p m) (v : View) (f : Frame) (s : State),
      compile Codegen.countdown = .ok m ∧ m.Small ∧ Stationed im 0 [] v f s ∧
        Proceeds 1 f.base (Onward im 0 [] v f) (Leaves im 0) s := by
  obtain ⟨m, c, code, hm, hsmall, hc, hcode⟩ := countdown_compiles
  obtain ⟨p, -, himaged, hall⟩ := frame_comes_to_next_instruction hm hsmall
  obtain ⟨im, -⟩ := (himaged c hc).2 0 code hcode
  exact ⟨m, p, im, _, _, _, hm, hsmall, stationed_first im, hall im 0 [] _ _ _ (stationed_first im)⟩

end ClassAsm.Machine
