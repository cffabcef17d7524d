import ClassAsm.Proofs.Correctness.Weight
import ClassAsm.Proofs.Machine.Boundaries

/-!
# The machine keeps step with the interpreter

`Simulates c s` relates what the interpreter has while a program runs to a state of the machine.
Every active procedure has its frame, which holds its variables and stands where the interpreter
does, with nothing of its own on the stack.  A procedure that has called another one waits in the
middle of a statement, before code that does with the results what is pending there.

`Mirror.step` says what one step of the interpreter is on the machine: some steps that lead to
related states again, or to the same fault, unless the stack or the frames overflow.  They are not
more than the weight of the step, and the stack does not grow by more than that either.  A step may
take none, where an instruction has no code; `rank` says that this ends.

## How it is put together

* `Mimics` is what is said about a part of a step: the machine does what an action of the
  interpreter does, in a number of steps between two bounds and within some `Room`.  Parts are put
  one behind the other by `Mimics.bind`.  They are made from straight code that agrees with an
  action (`Agrees.mimics`) and from single instructions (`mimics_of_go`, `mimics_of_branch`,
  `mimics_of_failure`).
* The relation has a part for one procedure (`Represents`, `Aligned`) and one for its callers
  (`Awaits`, `Behind`).  A call or a construction adds a caller (`simulates_entered`); a return
  takes it away and lets it do what is pending (`mimics_finish`).
* There is one lemma for each kind of statement, and one each for the start and the end of a
  procedure.  `Mirror.mimics_plain` covers all statements that are a single piece of straight code,
  and takes their agreement from `agrees_perform`.  `Mirror.step` only tells the kinds apart.

An output is made by the last instruction of a statement only.  This is why `Mimics` can say that
nothing is printed before the last step, and why a run that is cut short has printed what the
interpreter had printed at some point.
-/

namespace ClassAsm.Correctness

open Bytecode
open Codegen (Image Loaded Point Register Registers registerCount target)
open Machine (Cause Course Effect Excused Frame Leads State Stretch View bind_of_error bind_of_ok
  course_ledBy effect leads_of_done leads_of_fault maxLocals straight_of_conditional
  straight_of_plain)
open Reference

variable {p : Program} {m : CompiledModule} {dest : Nat → Nat → Prop} {i j k n ip : Nat} {x : Instr}
  {w : View} {callers : List (Activation × Pending)} {pending : Pending} {b : Bool} {returns τ : Ty}
  {this : Option Nat} {im im' : Image p m} {q : Point} {below : List (Option Frame)}
  {v self : Value} {stack low : List Value} {f g : Frame} {c c' : Config} {s t : State}
  {code : List Instr}

/-! ## Parts of a step -/

/-- How many frames and how many values on the stack there may be during a step. -/
structure Room where
  frames : Nat
  height : Nat

variable {r : Room}

/-- There is room for a frame above `below` and for `n` values on the stack. -/
def Room.Fits (r : Room) (below : List (Option Frame)) (n : Nat) : Prop :=
  below.length < r.frames ∧ n ≤ r.height

theorem Room.Fits.mono {n' : Nat} (h : r.Fits below n') (hn : n ≤ n') : r.Fits below n :=
  ⟨h.1, Nat.le_trans hn h.2⟩

/-- An overflow in this room with nothing printed beyond `output`. -/
abbrev Room.Cut (r : Room) (output : String) : Cause → State → Prop :=
  Machine.Cut output r.frames r.height

/-- The fault is an overflow with nothing printed beyond `before`, or the failure of the
interpreter. -/
def Fails (r : Room) (before : String) (e : Reference.Failure) (c : Config) (y : Cause)
    (t : State) : Prop :=
  r.Cut before y t ∨ (e = .fault y ∧ ¬y.Limit ∧ t.heap = c.heap ∧ t.output = c.output)

/-- The machine, started in `s`, does the same as a part of a step of the interpreter in `c`: it
comes in at least `least` and at most `most` steps to a state that `Q` relates to the result, or
both fail.  Otherwise the stack or the frames overflow the room.  Before the last of the steps
nothing is printed. -/
def Mimics {α : Type} (depth : Nat) (r : Room) (least most : Nat) (s : State) (c : Config)
    (act : Act α) (Q : α → Config → State → Prop) : Prop :=
  match act c with
  | .ok a c' => ∃ n, least ≤ n ∧ n ≤ most ∧
      Leads depth (·.output = c.output) (Q a c') (r.Cut c.output) n s
  | .error e c' => ∃ n, n ≤ most ∧
      Leads depth (·.output = c.output) (fun _ ↦ False) (Fails r c.output e c') n s

section Mimics

variable {α β : Type} {depth least most least' most' : Nat} {act act' : Act α} {a : α}
  {P Q : α → Config → State → Prop} {R : β → Config → State → Prop}

theorem Mimics.congr (h : Mimics depth r least most s c act' Q) (heq : act c = act' c) :
    Mimics depth r least most s c act Q := by
  rw [Mimics, heq]
  exact h

theorem Mimics.mono (h : Mimics depth r least most s c act P) (hleast : least' ≤ least)
    (hmost : most ≤ most') (hPQ : ∀ a c' t, P a c' t → Q a c' t) :
    Mimics depth r least' most' s c act Q := by
  rw [Mimics] at h ⊢
  cases hact : act c with
  | ok a c' =>
    rw [hact] at h
    obtain ⟨n, hl, hm, hleads⟩ := h
    exact ⟨n, Nat.le_trans hleast hl, Nat.le_trans hm hmost, hleads.mono (hPQ a c') fun _ _ hc ↦ hc⟩
  | error e c' =>
    rw [hact] at h
    exact h.imp fun _ ⟨hm, hleads⟩ ↦ ⟨Nat.le_trans hm hmost, hleads⟩

theorem Mimics.within (h : Mimics depth r least most s c act Q) (hleast : least' ≤ least)
    (hmost : most ≤ most') :
    Mimics depth r least' most' s c act Q := h.mono hleast hmost fun _ _ _ ht ↦ ht

theorem mimics_of_leads (hact : act c = .ok a c')
    (h : Leads depth (·.output = c.output) (Q a c') (r.Cut c.output) n s) :
    Mimics depth r n n s c act Q := by
  rw [Mimics, hact]
  exact ⟨n, Nat.le_refl n, Nat.le_refl n, h⟩

theorem mimics_of_fault {x : Cause} (hact : act c = .error (.fault x) c')
    (h : Leads depth (·.output = c.output) (fun _ ↦ False)
      (Excused c.output r.frames r.height x c'.heap c'.output) n s) :
      Mimics depth r n n s c act Q := by
  rw [Mimics, hact]
  refine ⟨n, Nat.le_refl n, h.mono (fun _ ht ↦ ht) ?_⟩
  rintro y t (hcut | ⟨rfl, hy⟩)
  · exact .inl hcut
  · exact .inr ⟨rfl, hy⟩

theorem Mimics.after {P : State → Prop} (hle : least ≤ most)
    (h : Leads depth (·.output = c.output) P (r.Cut c.output) n s) (heq : act c = act' c')
    (hP : ∀ t, P t → c'.output = c.output ∧ Mimics depth r least most t c' act' Q) :
    Mimics depth r (n + least) (n + most) s c act Q := by
  rw [Mimics, heq]
  cases hact : act' c' with
  | ok a d =>
    refine h.trans (fun _ _ hc ↦ hc) hle fun t ht ↦ ?_
    obtain ⟨hout, hrest⟩ := hP t ht
    rw [Mimics, hact, hout] at hrest
    exact hrest
  | error e d =>
    have hleads : ∃ j, n + 0 ≤ j ∧ j ≤ n + most ∧
        Leads depth (·.output = c.output) (fun _ ↦ False) (Fails r c.output e d) j s := by
      refine h.trans (fun _ _ hc ↦ .inl hc) (Nat.zero_le most) fun t ht ↦ ?_
      obtain ⟨hout, hrest⟩ := hP t ht
      rw [Mimics, hact, hout] at hrest
      exact hrest.imp fun _ hleads ↦ ⟨Nat.zero_le _, hleads⟩
    exact hleads.imp fun _ h ↦ h.2

theorem Mimics.bind {f : α → Act β} (hle : least' ≤ most') (h : Mimics depth r least most s c act P)
    (hf : ∀ a c' t, P a c' t → c'.output = c.output ∧ Mimics depth r least' most' t c' (f a) R) :
    Mimics depth r (least + least') (most + most') s c (act >>= f) R := by
  rw [Mimics] at h
  cases hact : act c with
  | ok a c' =>
    rw [hact] at h
    obtain ⟨n, hl, hm, hleads⟩ := h
    exact (Mimics.after hle hleads (bind_of_ok hact) (hf a c')).within (Nat.add_le_add_right hl _)
      (Nat.add_le_add_right hm _)
  | error e c' =>
    rw [hact] at h
    obtain ⟨n, hm, hleads⟩ := h
    rw [Mimics, bind_of_error hact]
    exact ⟨n, Nat.le_trans hm (Nat.le_add_right _ _), hleads⟩

theorem Mimics.map {g : α → β} (h : Mimics depth r least most s c act P)
    (hg : ∀ a c' t, P a c' t → R (g a) c' t) :
    Mimics depth r least most s c (act >>= fun a ↦ pure (g a)) R := by
  rw [Mimics] at h
  cases hact : act c with
  | ok a c' =>
    rw [hact] at h
    obtain ⟨n, hl, hm, hleads⟩ := h
    rw [Mimics, bind_of_ok hact]
    exact ⟨n, hl, hm, hleads.mono (hg a c') fun _ _ hc ↦ hc⟩
  | error e c' =>
    rw [hact] at h
    rw [Mimics, bind_of_error hact]
    exact h

/-- **Straight code that agrees with a part of a step does the same on the machine.** -/
theorem Agrees.mimics {R : α → Config → List Value → Prop} (h : Agrees act code below c f stack R)
    (hs : s.Shows (viewOf c f below stack)) (hf : Holds c.active.env f)
    (hdepth : depth ≤ below.length) (hcode : Stretch f.routine.code dest f.ip code)
    (hroom : r.Fits below (stack.length + code.length)) :
    Mimics depth r code.length code.length s c act fun a c' t ↦ ∃ g stack',
    t.Shows (viewOf c' g below stack') ∧
      f.After g code.length ∧ Holds c'.active.env g ∧ Keeps c c' ∧ R a c' stack' := by
  have hledBy := course_ledBy (v := viewOf c f below stack) hs rfl hdepth hcode hroom.2
  have hframes : (viewOf c f below stack).frames.length ≤ r.frames := hroom.1
  have hact := h hf
  cases hc : act c with
  | ok a c' =>
    rw [hc] at hact
    obtain ⟨g, stack', hcourse, hrest⟩ := hact
    rw [hcourse] at hledBy
    exact mimics_of_leads hc (hledBy.mono (fun t ht ↦ ⟨g, stack', ht, hrest⟩)
      fun _ _ hcut ↦ hcut.mono hframes (Nat.le_refl _))
  | error e c' =>
    rw [hc] at hact
    cases e with
    | fault x =>
      obtain ⟨w, hcourse, hheap, hout⟩ := hact
      rw [hcourse] at hledBy
      have hleads : Leads depth (·.output = c.output) (fun _ ↦ False)
          (Excused c.output r.frames r.height x w.heap w.output) code.length s :=
        Leads.mono hledBy (fun _ ht ↦ ht) fun _ _ hx ↦ hx.imp_left (·.mono hframes (Nat.le_refl _))
      rw [hheap, hout] at hleads
      exact mimics_of_fault hc hleads
    | meaningless => exact hact.elim

section Effects

variable (hs : s.Shows (viewOf c f below stack)) (hdepth : depth ≤ below.length)
  (hroom : r.Fits below stack.length) (hreads : f.routine.code.Reads dest f.ip x)

include hs hdepth hroom hreads

theorem leads_of_effect {e : Effect} (he : effect (viewOf c f below stack) f x = e)
    (hne : ∀ y, e ≠ .fault y) :
    Leads depth (·.output = c.output) (e.Done dest f ·) (r.Cut c.output) 1 s :=
  (leads_of_done hs rfl hdepth hreads he hne).mono (fun _ ht ↦ ht) fun _ _ hcut ↦
  hcut.mono hroom.1 hroom.2

theorem mimics_of_go (he : effect (viewOf c f below stack) f x = .go w) (hact : act c = .ok a c')
    (hQ : ∀ t, t.Shows w → Q a c' t) : Mimics depth r 1 1 s c act Q :=
  mimics_of_leads hact ((leads_of_effect hs hdepth hroom hreads he (by simp)).mono hQ
    fun _ _ hcut ↦ hcut)

theorem mimics_of_branch (he : effect (viewOf c f below stack) f x = .branch j w)
    (hact : act c = .ok a c') (hQ : ∀ t off, dest j off → t.Shows (w.jumped f off) → Q a c' t) :
    Mimics depth r 1 1 s c act Q := by
  refine mimics_of_leads hact ((leads_of_effect hs hdepth hroom hreads he (by simp)).mono ?_
    fun _ _ hcut ↦ hcut)
  rintro t ⟨off, hoff, ht⟩
  exact hQ t off hoff ht

theorem mimics_of_failure {y : Cause} (he : effect (viewOf c f below stack) f x = .fault y)
    (hact : act c = .error (.fault y) c) : Mimics depth r 1 1 s c act Q :=
  mimics_of_fault hact ((leads_of_fault hs rfl hdepth hreads he 0).mono (fun _ ht ↦ ht)
    fun _ _ hx ↦ hx.imp_left (·.mono hroom.1 hroom.2))

end Effects

end Mimics

/-! ## The relation -/

/-- The frame is that of an active procedure. -/
structure Represents (im : Image p m) (a : Activation) (f : Frame) : Prop where
  owner : a.owner = im.owner
  member : a.member = im.member
  returns : a.returns = im.code.returns
  holds : Holds a.env f
  routine : f.routine = im.routine
  constructs : f.constructs = im.member.isConstructor
  void : im.member.isConstructor = true → im.code.returns = .void

/-- What the generator knows about the registers at the instruction with index `i` is so. -/
def Informed (im : Image p m) (i : Nat) (env : Env) : Prop :=
  ∀ q, im.points[i]? = some q → Known q.facts env

/-- The code of the procedure at `ip` is that of where the interpreter stands. -/
def Aligned (im : Image p m) (a : Activation) (ip : Nat) : Prop :=
  match a.position with
  | .entry => ip = 0
  | .instruction i => im.offsets[min i im.size]? = some ip ∧ Informed im (min i im.size) a.env

/-- What a procedure gives to its caller if its result is `v`. -/
def yielded (im : Image p m) (v : Value) : List Value :=
  if im.member.isConstructor || im.code.returns ≠ .void then [v] else []

/-- Do with a result what is pending, and go on. -/
def deliver (v : Value) : Pending → Act Unit
  | .result t => do
    if t = .void then pure () else modifyEnv (·.setRegister .result ⟨v, t⟩)
    advance
  | .object place source target => do
    store (← coerce source target v) place
    advance

/-- The frame `g` of the procedure `im` waits, above `low`, for the result of `im'` to come on top
of `stack`: it stands before code that does what is pending, up to the next instruction.  The place
that the result goes to has left at most two values on the stack. -/
def Awaits (im im' : Image p m) (a : Activation) (g : Frame) (pending : Pending)
    (stack low : List Value) : Prop :=
  ∃ i q code, a.position = .instruction i ∧ im.points[i]? = some q ∧ q.stmt.falls = true ∧
    Known q.facts a.env ∧ im.offsets[i + 1]? = some (g.ip + code.length) ∧
    Stretch im.code (target im.offsets) g.ip code ∧ code.length ≤ 2 ∧
    stack.length ≤ low.length + 2 ∧ ∀ v (c : Config) below, c.active = a →
    Agrees (deliver v pending) code below c g (yielded im' v ++ stack)
        fun _ c' s ↦ Completes q.stmt low c c' s

/-- A procedure that the host has called, and the frames and the stack that it has found. -/
structure Base (p : Program) (m : CompiledModule) where
  im : Image p m
  frames : List (Option Frame)
  stack : List Value

variable {B : Base p m}

/-- The callers of the procedure `im` have the frames and the stack below it, down to the procedure
that the host has called. -/
inductive Behind (B : Base p m) :
    Image p m → List (Activation × Pending) → List (Option Frame) → List Value → Prop where
  | floor : Behind B B.im [] B.frames B.stack
  | frame : ∀ {im im' a pending callers g frames stack low},
      Represents im a g → Awaits im im' a g pending stack low → low.length = g.base →
      Behind B im callers frames low →
      Behind B im' ((a, pending) :: callers) (some g :: frames) stack

/-- The state of the machine mirrors what the interpreter has, with the frame `f` of the procedure
`im` on top. -/
structure Mirror (B : Base p m) (im : Image p m)
    (f : Frame) (below : List (Option Frame)) (stack : List Value) (c : Config) (s : State) :
    Prop where
  shows : s.Shows (viewOf c f below stack)
  represents : Represents im c.active f
  aligned : Aligned im c.active f.ip
  base : stack.length = f.base
  behind : Behind B im c.callers below stack

/-- The state of the machine mirrors what the interpreter has. -/
def Simulates (B : Base p m) (c : Config)
    (s : State) : Prop :=
  ∃ im f below stack, Mirror B im f below stack c s

/-- The procedure that the host has called has been left with the result `v`. -/
def Delivers (B : Base p m) (v : Value)
    (c : Config) (t : State) : Prop :=
  t.Shows ⟨B.frames, yielded B.im v ++ B.stack, c.heap, c.output⟩ ∧
  (yielded B.im v = [] → v = .void)

/-- Interpreter and machine go on, or both are done. -/
def Next (B : Base p m) :
    Option Value → Config → State → Prop
  | none, c, t => Simulates B c t
  | some v, c, t => Delivers B v c t

section Relation

variable {a : Activation} {env : Env}

theorem Behind.length_le (h : Behind B im callers below stack) :
    B.frames.length ≤ below.length := by
  induction h with
  | floor => exact Nat.le_refl _
  | frame _ _ _ _ ih => exact Nat.le_succ_of_le ih

/-- Every caller has left at most two values on the stack. -/
theorem Behind.height_le (h : Behind B im callers below stack) :
    below.length = B.frames.length + callers.length ∧
    stack.length ≤ B.stack.length + 2 * callers.length := by
  induction h with
  | floor => exact ⟨rfl, Nat.le_refl _⟩
  | frame _ hawaits _ _ ih =>
    obtain ⟨-, -, -, -, -, -, -, -, -, -, hlow, -⟩ := hawaits
    simp only [List.length_cons]
    omega

theorem Represents.of_keeps (h : Represents im c.active f) (hkeeps : Keeps c c') (hg : f.After g n)
    (hholds : Holds c'.active.env g) : Represents im c'.active g := by
  refine ⟨?_, ?_, ?_, hholds, ?_, ?_, h.void⟩
  · rw [hkeeps.active]
    exact h.owner
  · rw [hkeeps.active]
    exact h.member
  · rw [hkeeps.active]
    exact h.returns
  · rw [hg]
    exact h.routine
  · rw [hg]
    exact h.constructs

theorem Represents.reads (h : Represents im a f) (hx : im.code.Reads (target im.offsets) f.ip x) :
    f.routine.code.Reads (target im.offsets) f.ip x := by
  rw [h.routine]
  exact hx

theorem Represents.moved (h : Represents im a f) (pos : Position) (ip : Nat) :
    Represents im { a with position := pos } { f with ip := ip } :=
  ⟨h.owner, h.member, h.returns, ⟨h.holds.self, h.holds.cells, h.holds.registers⟩, h.routine,
    h.constructs, h.void⟩

/-- Along an edge of the text, what is known behind an instruction is known where it leads to. -/
theorem informed_of_edge (hq : im.points[i]? = some q)
    (hedge : (q.stmt.falls = true ∧ i + 1 = j) ∨ q.stmt.branch? i = some j)
    (henv : Known q.out env) : Informed im (min j im.size) env :=
  fun q' hq' ↦ henv.below ((Image.Arrives.of_edge hq hedge).facts q' hq')

/-- The interpreter goes on with the next instruction, and the code of the statement has been
passed. -/
theorem Aligned.succ (hq : im.points[i]? = some q) (hfalls : q.stmt.falls = true)
    (hoff : im.offsets[i + 1]? = some ip) (hpos : a.position = .instruction (i + 1))
    (hknown : Known q.out a.env) : Aligned im a ip := by
  rw [Aligned, hpos]
  refine ⟨?_, informed_of_edge hq (.inl ⟨hfalls, rfl⟩) hknown⟩
  rw [Nat.min_eq_left (Machine.lt_size hq)]
  exact hoff

theorem Simulates.of_completes (hf : Represents im c.active f) (hq : im.points[i]? = some q)
    (hfalls : q.stmt.falls = true) (hpos : c.active.position = .instruction i)
    (hknown : Known q.facts c.active.env) (hoff : im.offsets[i + 1]? = some (f.ip + n))
    (hbase : low.length = f.base) (hbehind : Behind B im c.callers below low)
    (ht : t.Shows (viewOf c' g below stack)) (hafter : f.After g n) (hholds : Holds c'.active.env g)
    (hkeeps : Keeps c c') (hcompletes : Completes q.stmt low c c' stack) : Simulates B c' t := by
  obtain rfl := hcompletes.stack
  have hposition : c'.active.position = .instruction (i + 1) := by
    rw [hcompletes.position, hpos]
    rfl
  have hoff' : im.offsets[i + 1]? = some g.ip := by
    rw [hafter]
    exact hoff
  refine ⟨im, g, below, stack, ht, hf.of_keeps hkeeps hafter hholds,
    .succ hq hfalls hoff' hposition (hcompletes.known _ hknown), ?_, ?_⟩
  · rw [hbase, hafter]
  · rw [hkeeps.callers]
    exact hbehind

end Relation

/-! ## Returns -/

/-- The result of a procedure: its object, if it is a constructor. -/
def Activation.outcome (a : Activation) (v : Value) : Value :=
  if a.member.isConstructor then a.env.self else v

section Finish

variable {own : List Value} {a : Activation} {rest : List (Activation × Pending)}

theorem finish_nil (h : c.callers = []) :
    finish v c = .ok (some (Activation.outcome c.active v)) c := by
  rw [finish, Machine.get_bind]
  simp only [h]
  rfl

theorem finish_cons (h : c.callers = (a, pending) :: rest) :
    finish v c = (deliver (Activation.outcome c.active v) pending >>= fun _ ↦ pure none)
      { c with active := a, callers := rest } := by
  rw [finish, Machine.get_bind]
  simp only [h]
  cases pending with
  | result t =>
    by_cases ht : t = .void
    · simp only [deliver, ht]
      rfl
    · simp only [deliver, ht]
      rfl
  | object place source target =>
    simp only [deliver, bind_assoc]
    rfl

/-- The procedure returns `v` with a return instruction that finds `own` on the stack. -/
def Returns (im : Image p m) (v : Value) (own : List Value) : Bool → Prop
  | true => own = [v] ∧ im.code.returns ≠ .void
  | false => own = [] ∧ im.code.returns = .void ∧ v = .void

/-- The frame of a procedure is left with the result that the interpreter has. -/
theorem effect_ret (below : List (Option Frame)) (hf : Represents im c.active f)
    (hbase : stack.length = f.base) (hown : Returns im v own b) :
    effect (viewOf c f below (own ++ stack)) f (.ret b) =
      .go ⟨below, yielded im (Activation.outcome c.active v) ++ stack, c.heap, c.output⟩ ∧
    (yielded im (Activation.outcome c.active v) = [] → Activation.outcome c.active v = .void) := by
  have hdrop : stack.drop (stack.length - f.base) = stack := by
    rw [hbase, Nat.sub_self, List.drop_zero]
  have hself := hf.holds.self
  cases b with
  | true =>
    obtain ⟨rfl, hne⟩ := hown
    have hctor : im.member.isConstructor = false := Bool.eq_false_iff.2 fun hctor ↦
      hne (hf.void hctor)
    simp [effect, viewOf, View.leave, yielded, Activation.outcome, hf.member, hf.constructs, hctor,
      hdrop, hne]
  | false =>
    obtain ⟨rfl, hvoid, rfl⟩ := hown
    cases hctor : im.member.isConstructor <;>
      simp [effect, viewOf, View.leave, yielded, Activation.outcome, hf.member, hf.constructs,
        hctor, hdrop, hvoid, hself]

/-- **A return** leaves the procedure, and the caller does with the result what is pending. -/
theorem mimics_finish (hs : s.Shows (viewOf c f below (own ++ stack)))
    (hf : Represents im c.active f) (hbase : stack.length = f.base)
    (hbehind : Behind B im c.callers below stack)
    (hreads : im.code.Reads (target im.offsets) f.ip (.ret b)) (hown : Returns im v own b)
    (hroom : r.Fits below (stack.length + 3)) :
    Mimics B.frames.length r 1 3 s c (finish v) (Next B) := by
  obtain ⟨heffect, hvoid⟩ := effect_ret below hf hbase hown
  have hown : (own ++ stack).length ≤ stack.length + 1 := by
    cases b with
    | true => rw [hown.1]; exact Nat.le_refl _
    | false => rw [hown.1]; exact Nat.le_succ _
  have hleads :=
    leads_of_effect hs hbehind.length_le (hroom.mono (by omega)) (hf.reads hreads) heffect (by simp)
  generalize hcallers : c.callers = callers at hbehind
  cases hbehind with
  | floor =>
    exact (mimics_of_leads (finish_nil hcallers) (hleads.mono (fun t ht ↦ ⟨ht, hvoid⟩)
      fun _ _ hc ↦ hc)).within (Nat.le_refl 1) (by decide)
  | @frame im' _ a pending callers g frames _ low hg hawaits hlow hbehind =>
    obtain ⟨i, q, code, hpos, hq, hfalls, hknown, hoff, hstretch, hlength, -, hagrees⟩ := hawaits
    have hyielded : (yielded im (Activation.outcome c.active v)).length ≤ 1 := by
      rw [yielded]
      split <;> simp
    have hfits : r.Fits frames ((yielded im (Activation.outcome c.active v) ++ stack).length +
      code.length) := by
      refine ⟨Nat.lt_of_succ_lt hroom.1, Nat.le_trans ?_ hroom.2⟩
      rw [List.length_append]
      omega
    refine Mimics.after (Nat.zero_le 2) hleads (finish_cons hcallers) fun t ht ↦ ⟨rfl, ?_⟩
    have hcode : Stretch g.routine.code (target im'.offsets) g.ip code := by
      rw [hg.routine]
      exact hstretch
    refine Mimics.within
      (Mimics.map ((hagrees _ { c with active := a, callers := callers } frames rfl).mimics ht
        hg.holds hbehind.length_le hcode hfits) ?_) (Nat.zero_le _) hlength
    rintro _ c' u ⟨g', stack', hu, hafter, hholds, hkeeps, hcompletes⟩
    exact Simulates.of_completes hg hq hfalls hpos hknown hoff hlow hbehind hu hafter hholds hkeeps
      hcompletes

end Finish

/-! ## Statements -/

/-- The room that a step takes. -/
def roomOf (p : Program) (c : Config) (below : List (Option Frame)) (stack : List Value) : Room :=
  ⟨below.length + 1, stack.length + weight p c⟩

theorem roomOf_fits (hn : n ≤ weight p c) :
    (roomOf p c below stack).Fits below (stack.length + n) :=
  ⟨Nat.lt_succ_self _, Nat.add_le_add_left hn _⟩

theorem one_le_weight (hpos : c.active.position = .instruction i) :
    1 ≤ weight p c := by
  rw [weight, hpos]
  exact Nat.le_add_left_of_le (by decide)

/-- How far a procedure is from its end in the text.  A step of the interpreter that the machine
takes no step for comes nearer to it. -/
def rank (c : Config) : Nat :=
  match c.active.position with
  | .entry => c.active.member.body.code.size + 1
  | .instruction i => c.active.member.body.code.size - i

/-- The machine does in the place of a step of the interpreter the same as `act`, and takes steps
for it. -/
abbrev Tracks (B : Base p m) (below : List (Option Frame)) (stack : List Value) (c : Config)
    (s : State) (act : Act (Option Value)) : Prop :=
  Mimics B.frames.length (roomOf p c below stack) 1 (weight p c) s c act (Next B)

/-- The machine does the same as `act`, which comes nearer to the end of the procedure. -/
abbrev Advances (B : Base p m) (below : List (Option Frame)) (stack : List Value) (c : Config)
    (s : State) (act : Act (Option Value)) : Prop :=
  Mimics B.frames.length (roomOf p c below stack) 0 (weight p c) s c act
    fun r c' t ↦ r = none ∧ Simulates B c' t ∧ rank c' < rank c

section Statements

/-- Straight code of a procedure, of which only the last instruction prints. -/
theorem Segment.stretch {off : Nat} {s₀ t₀ : Codegen.Shape} (h : im.Segment off code s₀ t₀)
    (hcode : ∀ x ∈ code, Machine.Straight x)
    (hquiet : ∀ i, code[i]? = some .print → i + 1 = code.length) (hf : f.routine = im.routine)
    (hip : f.ip = off) : Stretch f.routine.code (target im.offsets) f.ip code := by
  subst hip
  rw [hf]
  exact ⟨h.reads, hcode, hquiet⟩

theorem quiet_of_mild (h : ∀ x ∈ code, Codegen.Mild x) :
    ∀ i, code[i]? = some .print → i + 1 = code.length :=
  fun _ hi ↦ (h _ (List.mem_of_getElem? hi)).elim

theorem Mirror.depth_le (h : Mirror B im f below stack c s) : B.frames.length ≤ below.length :=
  h.behind.length_le

variable (hl : Loaded p m) (h : Mirror B im f below stack c s)
  (hpos : c.active.position = .instruction i) (hq : im.points[i]? = some q)

include h hpos hq

theorem Mirror.offset : im.offsets[i]? = some f.ip ∧ Known q.facts c.active.env := by
  have hat := h.aligned
  rw [Aligned, hpos] at hat
  have hi : min i im.size = i := Nat.min_eq_left (Nat.le_of_lt (Machine.lt_size hq))
  obtain ⟨hoff, hinformed⟩ := hat
  rw [hi] at hoff hinformed
  exact ⟨hoff, hinformed q hq⟩

theorem Mirror.statement? : ∃ instr, c.active.member.body.code[i]? = some instr ∧
    (c.active.names i).statement? c.active.member.body instr = some q.stmt := by
  obtain ⟨instr, hinstr, hreads⟩ := im.translated.reads i q hq
  rw [h.represents.member]
  refine ⟨instr, hinstr, ?_⟩
  have hnames : c.active.names i = (im.names i q.facts).withRegisters c.active.env.types := by
    rw [Activation.names, h.represents.owner, h.represents.member]
    rfl
  rw [hnames]
  refine Names.statement?_mono (fun r τ hr ↦ ?_) hreads
  exact (h.offset hpos hq).2 r τ ((im.fits i q.facts).registers r τ hr)

theorem Mirror.weight_eq : weight p c = q.stmt.size + 8 := by
  obtain ⟨instr, hinstr, hreads⟩ := h.statement? hpos hq
  rw [weight, hpos]
  simp only [hinstr, Option.bind_some, hreads, Option.map_some, Option.getD_some]

include hl

theorem Mirror.segment : Known q.facts c.active.env ∧
    im.offsets[i + 1]? = some (f.ip + (q.stmt.code im.code.returns i).length) ∧
    im.Segment f.ip (q.stmt.code im.code.returns i) ⟨q.facts, im.cellsBefore i, []⟩ ⟨q.out,
      im.cellsBefore (i + 1), []⟩ :=
  ⟨(h.offset hpos hq).2, im.statement_segment hl hq (h.offset hpos hq).1⟩

theorem Mirror.prepared : Prepared c.active.env q.stmt := by
  have hfits := im.fits i q.facts
  refine prepared_of_sound hfits.scope ?_ (fun r τ hr ↦ ?_) (im.sound hl hq)
  · rw [← im.cellsBefore_succ hq]
    exact im.cells_le (i + 1)
  · exact (h.offset hpos hq).2 r τ (hfits.registers r τ hr)

theorem Mirror.mimics_plain (hplain : Plain q.stmt) :
    Advances B below stack c s (exec p c.active.returns q.stmt) := by
  obtain ⟨hknown, hnext, hcode⟩ := h.segment hl hpos hq
  have hexec : exec p c.active.returns q.stmt = (perform p q.stmt >>= fun _ ↦ pure none) ∧
    q.stmt.falls = true := by
    cases hst : q.stmt with
    | truth | compare | jump | call | ret | newObject => exact (hst ▸ hplain).elim
    | _ => exact ⟨rfl, rfl⟩
  have hstretch := Segment.stretch hcode (straight_of_plain hplain)
    (fun j hj ↦ (Codegen.last_of_not_inner hj fun hinner ↦ hinner.quiet rfl).1)
    h.represents.routine rfl
  have hagrees : Agrees (perform p q.stmt) (q.stmt.code im.code.returns i) below c f stack
      fun _ c' s ↦ Completes q.stmt stack c c' s :=
    agrees_perform hplain (h.prepared hl hpos hq) (im.translated.checked i q hq) p
  rw [hexec.1]
  have hlength : (q.stmt.code im.code.returns i).length ≤ weight p c := by
    have := q.stmt.length_code im.code.returns i
    rw [h.weight_eq hpos hq]
    omega
  refine Mimics.within (Mimics.map (hagrees.mimics h.shows h.represents.holds h.depth_le hstretch
    (roomOf_fits hlength)) ?_) (Nat.zero_le _) hlength
  rintro _ c' t ⟨g, stack', ht, hafter, hholds, hkeeps, hcompletes⟩
  refine ⟨rfl,
    Simulates.of_completes h.represents hq hexec.2 hpos hknown hnext h.base h.behind ht hafter
    hholds hkeeps hcompletes, ?_⟩
  have hsize : c.active.member.body.code.size = im.size := by rw [h.represents.member]; rfl
  have hi := Machine.lt_size hq
  have hposition : c'.active.position = .instruction (i + 1) := by
    rw [hcompletes.position, hpos]
    rfl
  rw [rank, rank, hposition, hpos, hkeeps.active]
  dsimp only
  omega

theorem Mirror.mimics_jump (hst : q.stmt = .jump j) :
    Tracks B below stack c s (exec p c.active.returns q.stmt) := by
  obtain ⟨hknown, -, hcode⟩ := h.segment hl hpos hq
  have hedge : q.stmt.branch? i = some j := by
    rw [hst]
    rfl
  have hout : Known q.out c.active.env := by
    rw [Image.out_eq_of_branch? hedge]
    exact hknown
  rw [hst] at hcode ⊢
  have hreads := h.represents.reads (hcode.reads 0 (.jump j) rfl)
  have hgoTo : exec p c.active.returns (.jump j) c =
      .ok none { c with active := { c.active with position := .instruction j } } := rfl
  refine (mimics_of_branch h.shows h.depth_le (roomOf_fits (Nat.zero_le _)) hreads rfl hgoTo
    fun t off htarget ht ↦ ?_).within (Nat.le_refl 1) (one_le_weight hpos)
  exact ⟨im, { f with ip := off }, below, stack, ht, h.represents.moved _ off,
    ⟨Image.target_iff.1 htarget, informed_of_edge hq (.inr hedge) hout⟩, h.base, h.behind⟩

omit hl h hpos hq in
theorem exec_of_conditional {st : Statement} (hst : Conditional st) :
    exec p returns st = (condition st >>= fun b ↦ continueIf b >>= fun _ ↦ pure none) := by
  cases st with
  | truth negated v => simp only [exec, perform, condition, bind_assoc, pure_bind]
  | compare test l r =>
    cases hnumeric : l.type.tag.isNumeric && r.type.tag.isNumeric <;>
      simp only [exec, perform, condition, hnumeric, if_true, Bool.false_eq_true, if_false,
        bind_assoc]
  | _ => exact hst.elim

theorem Mirror.mimics_conditional (hcond : Conditional q.stmt) :
    Tracks B below stack c s (exec p c.active.returns q.stmt) := by
  obtain ⟨hknown, hnext, hcode⟩ := h.segment hl hpos hq
  have hedge : q.stmt.falls = true ∧ q.stmt.branch? i = some (i + 2) := by
    cases hst : q.stmt with
    | truth | compare => exact ⟨rfl, rfl⟩
    | _ => exact (hst ▸ hcond).elim
  have hout : Known q.out c.active.env := by
    rw [Image.out_eq_of_branch? hedge.2]
    exact hknown
  obtain ⟨xs, heq, hagrees⟩ : ∃ xs, q.stmt.code im.code.returns i = xs ++ [.jumpFalse (i + 2)] ∧
      Agrees (condition q.stmt) xs below c f stack fun b c' s ↦ c' = c ∧ ∃ x : Value, x.truth = b ∧
      s = x :: stack :=
    agrees_condition hcond (h.prepared hl hpos hq)
  have hstraight := straight_of_conditional hcond heq
  have hquiet (j : Nat) (hj : xs[j]? = some .print) : j + 1 = xs.length := by
    have hj' : (q.stmt.code im.code.returns i)[j]? = some .print := by
      rw [heq, List.getElem?_append_left (List.getElem?_eq_some_iff.1 hj).1, hj]
    have hlast := (Codegen.last_of_not_inner hj' fun hinner ↦ hinner.quiet rfl).1
    have hlt := (List.getElem?_eq_some_iff.1 hj).1
    rw [heq, List.length_append, List.length_singleton] at hlast
    omega
  rw [heq] at hcode hnext
  obtain ⟨u, hfirst, hlast⟩ := hcode.split
  have hstretch := Segment.stretch hfirst hstraight hquiet h.represents.routine rfl
  rw [exec_of_conditional hcond]
  have hlength : xs.length + 1 ≤ weight p c := by
    have := q.stmt.length_code im.code.returns i
    rw [heq, List.length_append, List.length_singleton] at this
    rw [h.weight_eq hpos hq]
    omega
  refine Mimics.within
    (Mimics.bind (Nat.le_refl 1) (hagrees.mimics h.shows h.represents.holds h.depth_le hstretch
      (roomOf_fits (Nat.le_of_succ_le hlength))) ?_) (Nat.le_add_left _ _) hlength
  rintro b c' t ⟨g, stack', ht, hafter, hholds, hkeeps, rfl, x, rfl, rfl⟩
  refine ⟨rfl, ?_⟩
  have hg := h.represents.of_keeps hkeeps hafter hholds
  have hreads : g.routine.code.Reads (target im.offsets) g.ip (.jumpFalse (i + 2)) := by
    rw [hg.routine, hafter]
    exact hlast.reads 0 _ rfl
  have hbase : stack.length = g.base := by rw [h.base, hafter]
  have hroom : (roomOf p c' below stack).Fits below (x :: stack).length :=
    roomOf_fits (one_le_weight hpos)
  cases hx : x.truth with
  | true =>
    have hact : (continueIf true >>= fun _ ↦ pure none : Act (Option Value)) c' =
        .ok none { c' with active := { c'.active with position := c'.active.position.next } } := rfl
    have heffect : effect (viewOf c' g below (x :: stack)) g (.jumpFalse (i + 2)) =
        .go (viewOf c' g.next below stack) := by
      simp [effect, viewOf, View.onto, hx]
    refine mimics_of_go ht h.depth_le hroom hreads heffect hact fun u hu ↦ ?_
    have hoff : im.offsets[i + 1]? = some g.next.ip := by
      rw [Frame.next, hafter, hnext, List.length_append, List.length_singleton]
      rfl
    refine ⟨im, g.next, below, stack, hu, hg.moved _ _, .succ hq hedge.1 hoff ?_ hout, hbase,
      h.behind⟩
    show c'.active.position.next = _
    rw [hpos]
    rfl
  | false =>
    have hact : (continueIf false >>= fun _ ↦ pure none : Act (Option Value)) c' =
        .ok none { c' with
          active := { c'.active with position := c'.active.position.next.next } } := rfl
    have heffect : effect (viewOf c' g below (x :: stack)) g (.jumpFalse (i + 2)) =
        .branch (i + 2) (viewOf c' g below stack) := by
      simp [effect, viewOf, hx]
    refine mimics_of_branch ht h.depth_le hroom hreads heffect hact fun u off htarget hu ↦ ?_
    refine ⟨im, { g with ip := off }, below, stack, hu, hg.moved _ off, ?_, hbase, h.behind⟩
    have hposition : c'.active.position.next.next = .instruction (i + 2) := by
      rw [hpos]
      rfl
    rw [Aligned]
    dsimp only
    rw [hposition]
    exact ⟨Image.target_iff.1 htarget, informed_of_edge hq (.inr hedge.2) hout⟩

theorem Mirror.mimics_ret {e : Option Expr} (hst : q.stmt = .ret e) :
    Tracks B below stack c s (exec p c.active.returns q.stmt) := by
  obtain ⟨-, -, hcode⟩ := h.segment hl hpos hq
  have hchecked := im.translated.checked i q hq
  have hprepared := h.prepared hl hpos hq
  have hweight := h.weight_eq hpos hq
  rw [hst] at hcode hchecked hprepared hweight ⊢
  cases e with
  | none =>
    have hreturns : Returns im .void [] false := ⟨rfl, hchecked, rfl⟩
    exact (mimics_finish h.shows h.represents h.base h.behind (hcode.reads 0 _ rfl) hreturns
      (roomOf_fits (by omega))).within (Nat.le_refl 1) (by omega)
  | some e =>
    have hne : im.code.returns ≠ .void := hchecked.1
    obtain ⟨u, hfirst, hlast⟩ := hcode.split
    have hmild := Codegen.forall_mem_append (Codegen.mild_code e)
      (Codegen.mild_conversion e.type im.code.returns)
    have hstretch := Segment.stretch hfirst (fun x hx ↦ (hmild x hx).straight) (quiet_of_mild hmild)
      h.represents.routine rfl
    have hagrees : Agrees (evaluate e >>= coerce e.type im.code.returns)
        (e.code ++ conversion e.type im.code.returns) below c f stack
        fun v c' s ↦ c' = c ∧ s = v :: stack := by
      refine (agrees_evaluate hprepared).bind ?_
      rintro a _ g _ ⟨rfl, rfl⟩
      exact agrees_coerce _ _
    have hexec : exec p c.active.returns (.ret (some e)) =
        (evaluate e >>= coerce e.type im.code.returns) >>= finish := by
      rw [h.represents.returns, bind_assoc]
      rfl
    rw [hexec]
    have hlength : (e.code ++ conversion e.type im.code.returns).length + 3 ≤ weight p c := by
      have := length_conversion e.type im.code.returns
      rw [List.length_append, e.length_code, hweight, Statement.size]
      omega
    refine Mimics.within
      (Mimics.bind (by decide) (hagrees.mimics h.shows h.represents.holds h.depth_le hstretch
        (roomOf_fits (by omega))) ?_) (Nat.le_add_left _ _) hlength
    rintro v c' t ⟨g, stack', ht, hafter, hholds, hkeeps, rfl, rfl⟩
    have hg := h.represents.of_keeps hkeeps hafter hholds
    have hreads : im.code.Reads (target im.offsets) g.ip (.ret true) := by
      rw [hafter]
      exact hlast.reads 0 _ rfl
    have hbase : stack.length = g.base := by rw [h.base, hafter]
    have hreturns : Returns im v [v] true := ⟨rfl, hne⟩
    exact ⟨rfl, mimics_finish ht hg hbase h.behind hreads hreturns (roomOf_fits (by omega))⟩

omit hpos hq in
/-- Behind the last instruction the procedure ends with the zero of its result type. -/
theorem Mirror.mimics_end (hweight : 8 ≤ weight p c) (hoff : im.offsets[im.size]? = some f.ip) :
    Tracks B below stack c s (finish c.active.returns.zero) := by
  have hcode := im.epilogue_segment hl {} hoff
  rw [h.represents.returns]
  rw [Codegen.epilogueCode] at hcode
  split at hcode
  · rename_i hvoid
    rw [hvoid]
    have hreturns : Returns im .void [] false := ⟨rfl, hvoid, rfl⟩
    exact (mimics_finish h.shows h.represents h.base h.behind (hcode.reads 0 _ rfl) hreturns
      (roomOf_fits (by omega))).within (Nat.le_refl 1) (by omega)
  · rename_i hne
    have hcode : im.Segment f.ip ([.const im.code.returns.zero] ++ [.ret true]) _ _ := hcode
    obtain ⟨u, hfirst, hlast⟩ := hcode.split
    have hreads := h.represents.reads (hfirst.reads 0 (.const im.code.returns.zero) rfl)
    refine Mimics.within (Mimics.after (by decide) (leads_of_effect h.shows h.depth_le
      (roomOf_fits (Nat.zero_le _)) hreads rfl (by simp [effect])) rfl fun t ht ↦ ⟨rfl, ?_⟩)
      (Nat.le_add_left _ _) (show 1 + 3 ≤ weight p c by omega)
    have hg : Represents im c.active f.next := h.represents.moved c.active.position _
    have hreturns : Returns im im.code.returns.zero [im.code.returns.zero] true := ⟨rfl, hne⟩
    have hshows : t.Shows (viewOf c f.next below ([im.code.returns.zero] ++ stack)) := ht
    exact mimics_finish hshows hg h.base h.behind (hlast.reads 0 _ rfl) hreturns
      (roomOf_fits (by omega))

omit hl h hpos hq in
theorem holds_entered {constructs : Bool} {base : Nat}
    (hself : Frame.self { routine := im.routine, base, this, constructs } = self) :
    Holds { self := self } { routine := im.routine, base, this, constructs } where
  self := hself
  cells k hk := by
    rw [Vector.toArray_replicate, Array.getElem?_replicate, if_pos hk]
  registers _ _ hr := nomatch hr

omit hl h hpos hq in
/-- A procedure has been entered, and the caller waits for its result. -/
theorem simulates_entered (heap : Heap) (hself : Frame.self
      { routine := im'.routine, base := stack.length, this,
        constructs := im'.member.isConstructor } = self) (hreturns : returns = im'.code.returns)
    (hvoid : im'.member.isConstructor = true → returns = .void) (hg : Represents im c.active g)
    (hlow : low.length = g.base) (hbehind : Behind B im c.callers below low)
    (hawaits : Awaits im im' c.active g.next pending stack low)
    (ht : t.Shows { (viewOf c g below stack).enter g im'.routine this im'.member.isConstructor with
      heap := heap }) :
    Simulates B
      { active := ⟨im'.owner, im'.member, returns, { self := self }, .entry⟩
        callers := (c.active, pending) :: c.callers
        heap := heap
        output := c.output } t := by
  subst hreturns
  refine ⟨im', _, some g.next :: below, stack, ht,
    ⟨rfl, rfl, rfl, holds_entered hself, rfl, rfl, hvoid⟩, rfl, rfl,
    .frame (hg.moved c.active.position _) hawaits hlow hbehind⟩

omit hl h hpos hq in
theorem callMethod_eq {callee : Program.Member}
    (hcallee : p.classes[c.active.owner.index.val]?.bind (·.methods[k]?) = some callee) :
    callMethod p k τ c =
      if callee.isAbstract then .error (.fault .abstractCall) c
      else .ok () { c with
        active := ⟨c.active.owner, callee, τ, { self := c.active.env.self }, .entry⟩
        callers := (c.active, .result τ) :: c.callers } := by
  rw [callMethod, Machine.get_bind]
  simp only [hcallee]
  split <;> rfl

omit hl h hpos hq in
/-- The result of a method goes to the result register, unless there is none. -/
theorem agrees_deliver_result (hctor : im'.member.isConstructor = false) :
    Agrees (deliver v (.result im'.code.returns))
      (if im'.code.returns = .void then [] else [.popLocal Register.result.slot]) below c f
      (yielded im' v ++ stack) fun _ c' s ↦ Completes (.call k im'.code.returns) stack c c' s := by
  by_cases hvoid : im'.code.returns = .void
  · have hyield : yielded im' v = [] := by simp [yielded, hctor, hvoid]
    have hdeliver : deliver v (.result im'.code.returns) = advance := by
      simp only [deliver, hvoid, if_true]
    rw [if_pos hvoid, hyield, hdeliver]
    refine agrees_advance.mono ?_
    rintro _ _ _ ⟨rfl, rfl⟩
    refine ⟨rfl, rfl, fun rs hrs ↦ ?_⟩
    rw [Statement.after, if_pos hvoid]
    exact hrs
  · have hyield : yielded im' v = [v] := by simp [yielded, hvoid]
    have hdeliver : deliver v (.result im'.code.returns) =
        (modifyEnv (·.setRegister .result ⟨v, im'.code.returns⟩) >>= fun _ ↦ advance) := by
      simp only [deliver, hvoid, if_false]
    rw [if_neg hvoid, hyield, hdeliver]
    refine agrees_setRegister.bind_nil ?_
    rintro _ _ g _ ⟨rfl, rfl⟩
    refine agrees_advance.mono ?_
    rintro _ _ _ ⟨rfl, rfl⟩
    refine ⟨rfl, rfl, fun rs hrs ↦ ?_⟩
    rw [Statement.after, if_neg hvoid]
    exact hrs.setRegister .result ⟨v, im'.code.returns⟩

theorem Mirror.mimics_call (hst : q.stmt = .call k τ) :
    Tracks B below stack c s (exec p c.active.returns q.stmt) := by
  obtain ⟨hknown, hnext, hcode⟩ := h.segment hl hpos hq
  have hsound := im.sound hl hq
  have hfalls : q.stmt.falls = true := by rw [hst]; rfl
  rw [hst] at hcode hnext hsound ⊢
  obtain ⟨callee, hcallee, rfl⟩ := hsound
  have hcallee : im.owner.get.methods[k]? = some callee := hcallee
  obtain ⟨im', hown', rfl, hmember, hctor, habs⟩ := hl.image_method im.home hcallee
  have hcode : im.Segment f.ip
      ([.call k] ++ if im'.code.returns = .void then [] else
        [.popLocal Register.result.slot]) _ _ := hcode
  obtain ⟨u, hfirst, hlast⟩ := hcode.split
  have hreads := h.represents.reads (hfirst.reads 0 (.call k) rfl)
  have howner : f.routine.owner = some im.owner := by rw [h.represents.routine]; rfl
  have hmember : p.classes[c.active.owner.index.val]?.bind (·.methods[k]?) = some im'.member := by
    rw [h.represents.owner, ← hown', im'.declared]
    exact hmember
  have hact := callMethod_eq (τ := im'.code.returns) hmember
  have heffect := Machine.effect_call_eq (v := viewOf c f below stack) howner hcallee hown' rfl
  rw [← hctor] at heffect
  by_cases habstract : im'.code.isAbstract = true
  · rw [habs, if_pos habstract] at hact
    rw [if_pos habstract] at heffect
    exact (mimics_of_failure h.shows h.depth_le (roomOf_fits (Nat.zero_le _)) hreads heffect
      (bind_of_error hact)).within (Nat.le_refl 1) (one_le_weight hpos)
  · rw [habs, if_neg habstract] at hact
    rw [if_neg habstract] at heffect
    refine Mimics.within
      (mimics_of_go h.shows h.depth_le (roomOf_fits (Nat.zero_le _)) hreads heffect
        (bind_of_ok hact) fun t ht ↦ ?_) (Nat.le_refl 1) (one_le_weight hpos)
    have hawaits : Awaits im im' c.active f.next (.result im'.code.returns) stack stack := by
      refine ⟨i, q, _, hpos, hq, hfalls, hknown, ?_, ⟨hlast.reads, ?_, ?_⟩, ?_,
        Nat.le_add_right _ _, fun v c' below hc ↦ ?_⟩
      · rw [hnext, Statement.code, List.length_cons, Nat.add_comm _ 1, ← Nat.add_assoc]
        rfl
      · split
        · exact List.forall_mem_nil _
        · exact Codegen.forall_mem_singleton trivial
      · intro j hj
        split at hj
        · cases hj
        · cases List.mem_singleton.1 (List.mem_of_getElem? hj)
      · split <;> simp
      · rw [hst]
        exact agrees_deliver_result hctor
    rw [h.represents.owner, ← hown']
    exact simulates_entered c.heap h.represents.holds.self rfl
      (fun h ↦ by cases hctor.symm.trans h) h.represents h.base h.behind hawaits ht

omit hl h hpos hq in
theorem construct_eq {cls : ClassRef} {decl : Program.ClassDecl} {member : Program.Member}
    (hcls : c.active.owner.home.classAt? k = some cls) (hdecl : p.classes[k]? = some decl)
    (habs : decl.isAbstract = false) (hmember : (Codegen.constructorsOf decl)[0]? = some member) :
    construct p k pending c = .ok () { c with
      active := ⟨cls, member, .void, { self := .ofObject c.heap.objects.size }, .entry⟩
      callers := (c.active, pending) :: c.callers
      heap := c.heap.addObject (Heap.freshObject cls) } := by
  rw [construct, Machine.get_bind]
  simp only [hcls, hdecl, habs, hmember]
  rfl

theorem Mirror.mimics_newObject {e : Expr} {name : String} (hst : q.stmt = .newObject e k name) :
    Tracks B below stack c s (exec p c.active.returns q.stmt) := by
  obtain ⟨hknown, hnext, hcode⟩ := h.segment hl hpos hq
  have hchecked := im.translated.checked i q hq
  have hprepared := h.prepared hl hpos hq
  have hfalls : q.stmt.falls = true := by rw [hst]; rfl
  rw [hst] at hcode hnext hchecked hprepared ⊢
  obtain ⟨-, hstore, cls, hcls, rfl, habs⟩ := hchecked
  rw [Statement.code, List.append_assoc] at hcode hnext
  obtain ⟨u, hfirst, hlast⟩ := hcode.split
  obtain ⟨u', hlead, hnew⟩ := hfirst.split
  have hstretch := Segment.stretch hlead (fun x hx ↦ (Codegen.mild_lead e x hx).straight)
    (quiet_of_mild (Codegen.mild_lead e)) h.represents.routine rfl
  -- The class, its declaration and its first constructor.
  have hhome : cls.home = m := (CompiledModule.class?_home hcls).trans im.home
  obtain ⟨code, hctor⟩ := hl.exists_constructor hhome
  obtain ⟨im', rfl, hcode', hmember, hisctor, hreturns, -⟩ := hl.image_constructor hhome hctor
  obtain ⟨decl, hdecl, hlayout⟩ := hl.layoutOf hhome
  cases im'.declared.symm.trans hdecl
  have hconcrete : im'.decl.isAbstract = false := hlayout.isAbstract.symm.trans habs
  have hexec : exec p c.active.returns (.newObject e im'.owner.index.val name) =
      (locate e >>= fun place ↦
        construct p im'.owner.index.val (.object place (.object name) e.type) >>= fun _ ↦
        pure none) := by
    simp only [exec, perform, bind_assoc]
  rw [hexec]
  have hlength : e.lead.length + 1 ≤ weight p c := by
    have := e.length_lead_lt
    rw [h.weight_eq hpos hq, hst, Statement.size]
    omega
  refine Mimics.within (Mimics.bind (Nat.le_refl 1)
    ((agrees_locate hprepared hstore).mimics h.shows h.represents.holds h.depth_le hstretch
      (roomOf_fits (Nat.le_of_succ_le hlength))) ?_) (Nat.le_add_left _ _) hlength
  rintro place c' t ⟨g, stack', ht, hafter, hholds, hkeeps, rfl, hplace, hreached⟩
  have hg := h.represents.of_keeps hkeeps hafter hholds
  have hclassAt : c'.active.owner.home.classAt? im'.owner.index.val = some im'.owner := by
    rw [h.represents.owner]
    exact CompiledModule.classAt?_of_class? hcls
  have howner : g.routine.owner = some im.owner := by rw [hg.routine]; rfl
  have hreads : g.routine.code.Reads (target im.offsets) g.ip (.new im'.owner.index.val) := by
    rw [hg.routine, hafter]
    exact hnew.reads 0 _ rfl
  have heffect :=
    Machine.effect_new_eq (v := viewOf c' g below stack') howner hcls habs hctor rfl hcode'
  rw [← hisctor] at heffect
  have hheight := hreached.length_le
  have hroom : (roomOf p c' below stack).Fits below stack'.length :=
    (roomOf_fits (n := 2) (by rw [h.weight_eq hpos hq]; omega)).mono hheight
  refine ⟨rfl, mimics_of_go ht h.depth_le hroom hreads heffect
    (bind_of_ok (construct_eq hclassAt im'.declared hconcrete hmember)) fun t ht ↦ ?_⟩
  have hawaits :
      Awaits im im' c'.active g.next (.object place (.object name) e.type) stack' stack := by
    have hmild := Codegen.forall_mem_append (Codegen.mild_conversion (.object name) e.type)
      (Codegen.mild_store e)
    have hip : g.next.ip = f.ip + (e.lead ++ [Instr.new im'.owner.index.val]).length := by
      rw [Frame.next, hafter, List.length_append, List.length_singleton, Nat.add_assoc]
    refine ⟨i, q, _, hpos, hq, hfalls, hknown, ?_,
      ⟨hip ▸ hlast.reads, fun x hx ↦ (hmild x hx).straight, quiet_of_mild hmild⟩, ?_, hheight,
      fun v d below hd ↦ ?_⟩
    · rw [hnext, hip]
      simp only [List.length_append, Nat.add_assoc]
    · have hconversion := length_conversion (.object name) e.type
      have hone := e.length_store
      rw [List.length_append]
      omega
    · have hyield : yielded im' v = [v] := by simp [yielded, hisctor]
      rw [hyield, hst, hplace]
      refine (agrees_coerce _ _).bind ?_
      rintro b _ g _ ⟨rfl, rfl⟩
      exact agrees_store_advance (fun _ ↦ rfl) hreached (.refl _)
  have hbase : stack.length = g.base := by rw [h.base, hafter]
  exact simulates_entered _ rfl (by rw [hcode', hreturns])
    (fun _ ↦ rfl) hg hbase h.behind hawaits ht

omit hpos hq in
/-- Before its first instruction a constructor stores the defaults of the fields. -/
theorem Mirror.mimics_entry (hpos : c.active.position = .entry) :
    Advances B below stack c s (step p) := by
  have hip : f.ip = 0 := by
    have hat := h.aligned
    rwa [Aligned, hpos] at hat
  have hdefaults : c.active.defaults? p = some im.defaults := by
    have hgiven := im.given
    rw [Activation.defaults?, h.represents.owner, h.represents.member, im.declared]
    exact hgiven
  have hstep : step p c =
      ((applyDefaults c.active.env.self 0 im.defaults >>= fun _ ↦ advance) >>= fun _ ↦
        pure none) c := by
    rw [step, Machine.get_bind, bind_assoc]
    simp only [hpos, hdefaults]
  have hmild := Codegen.mild_defaultsCode 0 im.defaults
  have hstretch := Segment.stretch (im.prologue_segment hl) (fun x hx ↦ (hmild x hx).straight)
    (quiet_of_mild hmild) h.represents.routine hip
  have hagrees : Agrees (applyDefaults c.active.env.self 0 im.defaults >>= fun _ ↦ advance)
      (defaultsCode 0 im.defaults) below c f stack
      fun _ c' s ↦ s = stack ∧ c'.active.position = .instruction 0 := by
    refine (agrees_defaults 0 im.defaults rfl).bind_nil ?_
    rintro _ c' g _ ⟨rfl, hsteady⟩
    refine agrees_advance.mono ?_
    rintro _ _ _ ⟨rfl, rfl⟩
    refine ⟨rfl, ?_⟩
    show c'.active.position.next = _
    rw [hsteady.position, hpos]
    rfl
  have hlength : (defaultsCode 0 im.defaults).length ≤ weight p c := by
    rw [weight, hpos]
    simp only [hdefaults, Option.getD_some]
    exact length_defaultsCode 0 im.defaults
  refine Mimics.congr
    (Mimics.within (Mimics.map (hagrees.mimics h.shows h.represents.holds h.depth_le hstretch
      (roomOf_fits hlength)) ?_) (Nat.zero_le _) hlength) hstep
  rintro _ c' t ⟨g, stack', ht, hafter, hholds, hkeeps, rfl, hposition⟩
  have hfirst : im.offsets[min 0 im.size]? = some g.ip := by
    rw [Nat.zero_min, im.translated.first, hafter, hip, Nat.zero_add]
  have hinformed : Informed im (min 0 im.size) c'.active.env := by
    intro q hq
    rw [Nat.zero_min] at hq
    have hnone : Known {} c'.active.env := by
      intro r τ hr
      cases r <;> cases hr
    exact hnone.below (im.translated.enters 0 q {} hq .start)
  refine ⟨rfl,
    ⟨im, g, below, stack', ht, h.represents.of_keeps hkeeps hafter hholds, ?_, ?_, ?_⟩, ?_⟩
  · rw [Aligned, hposition]
    exact ⟨hfirst, hinformed⟩
  · rw [h.base, hafter]
  · rw [hkeeps.callers]
    exact h.behind
  · rw [rank, rank, hposition, hpos, hkeeps.active]
    dsimp only
    omega

end Statements

/-- **A step of the interpreter on the machine.**  It takes the machine at least one step, or the
interpreter comes nearer to the end of the procedure. -/
theorem Mirror.step (hl : Loaded p m) (h : Mirror B im f below stack c s) :
    Tracks B below stack c s (step p) ∨ Advances B below stack c s (step p) := by
  cases hpos : c.active.position with
  | entry => exact .inr (h.mimics_entry hl hpos)
  | instruction i =>
    rcases Nat.lt_or_ge i im.size with hi | hi
    · have hlength : i < im.points.length := im.length_points ▸ hi
      have hq : im.points[i]? = some im.points[i] := List.getElem?_eq_getElem hlength
      obtain ⟨instr, hinstr, hreads⟩ := h.statement? hpos hq
      have hstep : Reference.step p c = exec p c.active.returns im.points[i].stmt c := by
        rw [Reference.step, Machine.get_bind]
        simp only [hpos, hinstr, hreads]
      cases hst : im.points[i].stmt with
      | skip | assign | define | write | arith | print | newArray =>
        exact .inr ((h.mimics_plain hl hpos hq (by rw [hst]; trivial)).congr hstep)
      | truth | compare =>
        exact .inl ((h.mimics_conditional hl hpos hq (by rw [hst]; trivial)).congr hstep)
      | jump j => exact .inl ((h.mimics_jump hl hpos hq hst).congr hstep)
      | call k τ => exact .inl ((h.mimics_call hl hpos hq hst).congr hstep)
      | newObject e k name => exact .inl ((h.mimics_newObject hl hpos hq hst).congr hstep)
      | ret e => exact .inl ((h.mimics_ret hl hpos hq hst).congr hstep)
    · have hat := h.aligned
      rw [Aligned, hpos] at hat
      have hoff : im.offsets[im.size]? = some f.ip := by
        rw [← Nat.min_eq_right hi]
        exact hat.1
      have hstep : Reference.step p c = finish c.active.returns.zero c := by
        have hnone : c.active.member.body.code[i]? = none := by
          rw [h.represents.member]
          exact Array.getElem?_eq_none hi
        rw [Reference.step, Machine.get_bind]
        simp only [hpos, hnone]
      have hweight : 8 ≤ weight p c := by
        rw [weight, hpos]
        exact Nat.le_add_left 8 _
      exact .inl ((h.mimics_end hl hweight hoff).congr hstep)

end ClassAsm.Correctness
