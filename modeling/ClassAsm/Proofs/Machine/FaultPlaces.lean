import ClassAsm.Proofs.Codegen.Lines
import ClassAsm.Proofs.Machine.Balance
import ClassAsm.Session

/-!
# Where faults are located

A session runs every call on a fresh machine.  If the call ends with a fault, the fault has the name
of the procedure that was executed and a line of the source.  `faults_are_located` says which one:
the line of the word that was executed, or was to be executed when the gas had been used up.

There is one exception.  A caller moves on before it enters a procedure, so that the frame is one
word ahead if there turns out to be no room for another one.  This word belongs to the same
instruction unless the method that is called has no result.

That every fault has a place at all rests on the stack being empty at the start.  A return fails
when the frame has gone already, but it only fails on a full stack, and all frames together cannot
fill it.
-/

namespace ClassAsm.Machine

open Bytecode Codegen

variable {p : Program} {m : CompiledModule} {x : Instr} {α : Type} {f : Frame}
  {below : List (Option Frame)} {t : State} {im : Image p m} {k depth : Nat}

/-! ## Places -/

theorem Slots.getElem?_cells [Inhabited α] {n : Nat} {s : Slots α n} {a : α} {rest : List α}
    (h : s.contents = a :: rest) : s.cells[rest.length]? = some a := by
  have htop : s.top = rest.length + 1 := by rw [← Slots.length_contents, h, List.length_cons]
  have hlist : s.cells.toList.take s.top = rest.reverse ++ [a] := by
    rw [← List.reverse_cons, ← h, contents, List.reverse_reverse, toList]
  have hget : (s.cells.toList.take s.top)[rest.length]? = some a := by
    rw [hlist, List.getElem?_append_right (by simp), List.length_reverse, Nat.sub_self]
    rfl
  rw [List.getElem?_take_of_lt (by omega)] at hget
  rwa [Vector.getElem?_toList] at hget

theorem locate_eq {s : State} (c : Cause) (h : s.frames.contents = some f :: below) :
    locate below.length c s = ⟨c, some f.place⟩ := by
  rw [locate, Slots.getElem?_cells h]
  rfl

/-- The fault is located at the procedure that is executed in the state `u`, and at the line of the
word that is executed there; or of the next one, if there is no room for the frame of a method
without result. -/
def Located (p : Program) (m : CompiledModule) (u : State) (x : Fault) : Prop :=
  ∃ (im : Image p m) (f : Frame) (line : Int), u.frames.contents.head? = some (some f) ∧
    f.routine = im.routine ∧ x.place = some ⟨im.routine.fullName, line⟩ ∧
    (¬(x.cause = .frameOverflow ∧ im.CallsVoid f.ip) → im.Line f.ip line) ∧
    (x.cause = .frameOverflow → im.CallsVoid f.ip → im.Line (f.ip + 1) line)

section Faults

variable {D : Discipline p m} {F : Floor} {a : Pose p m} {as : List (Pose p m)} {v : View}
  {own low : List Value} {s : State} {c : Cause}

theorem line_of_reads (hroutine : f.routine = im.routine)
    (hreads : im.code.Reads (target im.offsets) f.ip x) : im.Line f.ip f.place.line := by
  obtain ⟨w, hw, -⟩ := hreads
  have hline := im.line_lineAt (Array.getElem?_eq_some_iff.1 hw).1
  rw [Frame.place, hroutine]
  exact hline

/-- A fault at which the frame on top is the same as before. -/
theorem located_of_frames (hs : s.frames.contents = some f :: below)
    (ht : t.frames.contents = some f :: below) (hroutine : f.routine = im.routine)
    (hreads : im.code.Reads (target im.offsets) f.ip x)
    (hc : c = .frameOverflow → ¬im.CallsVoid f.ip) :
    Located p m s (locate (s.frames.top - 1) c t) := by
  have htop : s.frames.top - 1 = below.length := by
    rw [← Slots.length_contents, hs, List.length_cons, Nat.add_sub_cancel]
  rw [htop, locate_eq c ht]
  refine ⟨im, f, f.place.line, by rw [hs]; rfl, hroutine, by rw [Frame.place, hroutine],
    fun _ ↦ line_of_reads hroutine hreads, fun hover hvoid ↦ (hc hover hvoid).elim⟩

/-- A fault at which the frame on top has moved on, since there was no room for another one. -/
theorem located_of_next (hl : Loaded p m) (hs : s.frames.contents = some f :: below)
    (ht : t.frames.contents = some f.next :: below) (hroutine : f.routine = im.routine)
    (hreads : im.code.Reads (target im.offsets) f.ip x) (hx : Enterer x)
    (hvoid : im.CallsVoid f.ip ∨ ∀ s t, Types im.setting s x t → t.stack ≠ []) :
    Located p m s (locate (s.frames.top - 1) .frameOverflow t) := by
  have htop : s.frames.top - 1 = below.length := by
    rw [← Slots.length_contents, hs, List.length_cons, Nat.add_sub_cancel]
  have hline : f.next.place.line = im.code.lineAt (f.ip + 1) := by
    rw [Frame.place]
    exact congrArg (fun r ↦ r.code.lineAt (f.ip + 1)) hroutine
  rw [htop, locate_eq _ ht]
  refine ⟨im, f, f.next.place.line, by rw [hs]; rfl, hroutine, ?_, fun hnot ↦ ?_, fun _ _ ↦ ?_⟩
  · show some f.next.place = _
    rw [Frame.place]
    exact congrArg (fun r ↦ some (⟨r.fullName, _⟩ : Place)) hroutine
  · have hleaves := hvoid.resolve_left fun h ↦ hnot ⟨rfl, h⟩
    rw [hline, im.lineAt_succ hl hx hreads hleaves]
    have hsame := line_of_reads hroutine hreads
    rwa [Frame.place, hroutine] at hsame
  · rw [hline]
    exact im.line_lineAt (im.succ_lt_size hl hx hreads)

/-- Every activation that waits has no more than two values on the stack. -/
theorem Resting.length_le {h : Heap} {awaited : List Ty} {frames : List (Option Frame)}
    {stack : List Value} (hr : Resting D h F awaited as frames stack) :
    stack.length ≤ 2 * as.length + F.stack.length := by
  induction hr with
  | floor => exact Nat.le_add_left _ _
  | frame _ _ _ htwo hown _ _ ih =>
    rw [List.length_append, List.length_cons, ← hown.length_eq]
    omega

/-- A call fails for other reasons than a lack of room before it moves on. -/
theorem call_ne_frameOverflow : effect v f (.call k) ≠ .fault .frameOverflow := by
  simp only [effect, View.call]
  grind

/-- **The fault of a step has a place.** -/
theorem Top.located (hl : Loaded p m) (ht : Top D F a as v f own low) (hF : F.stack = [])
    (hs : s.Shows v) (hstep : Machine.step s = .error (.fault c) t) :
    Located p m s (locate (s.frames.top - 1) c t) := by
  obtain ⟨s₀, x, t₀, hn, hp⟩ := ht.attends.stands.next hl
  have hroutine := ht.attends.routine
  have hfallen : Fallen v f x c t := by
    have hdoes := step_performs hs ht.frames (ht.attends.reads hp)
    rw [Performs, Does, hstep] at hdoes
    exact hdoes.2
  have hframes := hs.frames.trans ht.frames
  cases hfallen with
  | taking hsame _ hc =>
    refine located_of_frames hframes (hsame.trans ht.frames) hroutine hp.reads ?_
    rintro rfl ⟨k, callee, hcall, -⟩
    obtain rfl : x = .call k := eq_of_reads (x := .call k) trivial hcall hp.reads
    exact call_ne_frameOverflow (hc.resolve_right fun h ↦ by cases h)
  | entering hx hc hnext =>
    subst hc
    rcases hx with ⟨k, rfl⟩ | ⟨k, rfl⟩
    · refine located_of_next hl hframes hnext hroutine hp.reads trivial ?_
      cases hp.types with
      | @call _ _ _ callee hcallee =>
        by_cases hvoid : callee.returns = .void
        · exact .inl ⟨k, callee, hp.reads, hcallee, hvoid⟩
        · refine .inr fun s t htypes ↦ ?_
          cases htypes with
          | call hcallee' =>
            cases hcallee.symm.trans hcallee'
            rw [if_neg hvoid]
            exact List.cons_ne_nil _ _
    · refine located_of_next hl hframes hnext hroutine hp.reads trivial (.inr fun s t htypes ↦ ?_)
      cases htypes with
      | new => exact List.cons_ne_nil _ _
  | leaving hx _ _ hrest hstack htop hfull =>
    -- The stack would have to be full, but each frame below has no more than two values on it.
    have harity : x.arity ≤ own.length := by
      rw [← ht.values.length_eq, ← hn.stack]
      exact arity_le_of_types hp.types
    have hle := ht.below.length_le
    have hcount := ht.active.length_frames
    have hmax : s.frames.top ≤ maxFrames := s.frames.top_le
    rw [hF, List.length_nil] at hle
    rw [hs.top_eq, hcount, List.length_cons, maxFrames] at hmax
    rw [hstack, hrest, ht.stack, List.drop_append_of_le_length harity, List.length_append,
      List.length_append, ht.base, Nat.add_sub_cancel, List.drop_left, stackDepth] at hfull
    omega

/-- A fault of a run is one of its last step, or there is no gas for another one. -/
theorem fault_of_run {x : Fault} (htop : depth < s.frames.top)
    (hrun : run depth k s = .error (.fault x) t)
    (hlast : k = 0 ∨ ∀ t, step s = .ok () t → t.frames.top ≤ depth) :
    (k = 0 ∧ x = locate (s.frames.top - 1) .gasExhausted s) ∨
      ∃ c, step s = .error (.fault c) t ∧ x = locate (s.frames.top - 1) c t := by
  cases k with
  | zero =>
    rw [run_zero htop] at hrun
    cases hrun
    exact .inl ⟨rfl, rfl⟩
  | succ k =>
    rw [run_succ htop] at hrun
    cases hstep : step s with
    | ok _ u =>
      rw [hstep] at hrun
      cases (run_of_le (hlast.resolve_left (Nat.succ_ne_zero k) u hstep) k).symm.trans hrun
    | error e u =>
      rw [hstep] at hrun
      cases e with
      | fault c =>
        cases hrun
        exact .inr ⟨c, rfl, rfl⟩
      | abort text => cases hrun

/-- The host finds a result or gives up: there is no fault behind the run. -/
theorem fault_of_delivered {base : Nat} {wanted : Bool} {x : Fault}
    {r : EStateM.Result Stop State Unit} (h : delivered depth base wanted r = .error (.fault x) t) :
    ∃ u, r = .error (.fault x) u := by
  cases r with
  | ok _ u =>
    cases wanted with
    | false => cases h
    | true =>
      rw [delivered, if_pos rfl, direct] at h
      cases hpop : pop u with
      | ok a w =>
        rw [hpop] at h
        cases h
      | error e w =>
        rw [hpop] at h
        cases e <;> cases h
  | error e u =>
    cases e with
    | fault y =>
      cases h
      exact ⟨u, rfl⟩
    | refused d => cases h
    | abort text => cases h

end Faults

/-! ## Calls -/

/-- How the fault `x` has come about in a procedure that was entered in `s₀`: the machine has come
to `u`, where the gas was used up or the next step failed, and the fault is located there. -/
def Arises (p : Program) (m : CompiledModule) (s₀ : State) (x : Fault) : Prop :=
  ∃ past u, Trace 0 s₀ past u ∧ 0 < u.frames.top ∧
    ((x.cause = .gasExhausted ∧ past.length = s₀.gas) ∨ ∃ t, step u = .error (.fault x.cause) t) ∧
    Located p m u x

/-- A fault of a call on a machine with nothing on its stack. -/
theorem arises_of_invoke (hl : Loaded p m) {this : Option Nat} {constructs : Bool} {s : State}
    {x : Fault} (hhost : s.host = builtins) (hframes : s.frames.contents = [])
    (hstack : s.stack.contents = []) (habs : im.code.isAbstract = false)
    (h : invoke im.routine this constructs s = .error (.fault x) t) :
    ∃ s₀, enter im.routine this constructs s = .ok () s₀ ∧ Arises p m s₀ x := by
  have hzero : s.frames.top = 0 := by rw [← Slots.length_contents, hframes, List.length_nil]
  obtain ⟨s₀, henter⟩ : ∃ s₀, enter im.routine this constructs s = .ok () s₀ :=
    exists_enter (hzero ▸ by decide)
  obtain ⟨v, hs₀, hactive⟩ := active_of_enter (D := anything p m) hl hhost henter trivial trivial
  rw [hframes, hstack] at hactive
  rw [invoke_eq habs henter, hzero] at h
  obtain ⟨u, hrun⟩ := fault_of_delivered h
  have htop : 0 < s₀.frames.top := by
    rw [hs₀.top_eq, hactive.length_frames]
    exact Nat.one_pos
  obtain ⟨past, w, k, htrace, hw, hlength, heq, hlast⟩ := exists_last_of_run .start htop s₀.gas
  obtain ⟨as, v', hv', hactive⟩ := hactive.trace anything_lawful hl hs₀ htrace
  obtain ⟨a, as, rfl⟩ := hactive.exists_cons hv' hw
  obtain ⟨f, own, low, ht⟩ := hactive.top
  refine ⟨s₀, henter, past, w, htrace, hw, ?_⟩
  rcases fault_of_run hw (heq.symm.trans hrun) hlast with ⟨rfl, rfl⟩ | ⟨c, hstep, rfl⟩
  · obtain ⟨_, y, _, -, hp⟩ := ht.attends.stands.next hl
    have hcontents := hv'.frames.trans ht.frames
    exact ⟨.inl ⟨rfl, hlength.trans (Nat.zero_add _)⟩,
      located_of_frames hcontents hcontents ht.attends.routine hp.reads nofun⟩
  · exact ⟨.inr ⟨u, hstep⟩, ht.located hl rfl hv' hstep⟩

/-- A fault of a request is one of the call on the session's machine. -/
theorem of_onMachine {act : HostCall α} {s s' : Session} {x : Fault}
    (h : Session.onMachine act s = .error (.stop (.fault x)) s') :
    ∃ t, act s.machine = .error (.fault x) t := by
  rw [Session.onMachine] at h
  dsimp only at h
  cases hact : act s.machine with
  | ok a t =>
    rw [hact] at h
    cases h
  | error e t =>
    rw [hact] at h
    cases h
    exact ⟨t, rfl⟩

/-- **Faults are located.**  Let a session make an instance of a class of a module, or call a method
of an object of such a class, whatever else is on the heap.  If this ends with a fault, the fault
has come about in a procedure of the module, and has its name and its line. -/
theorem faults_are_located {src : String} {m : CompiledModule} (hm : compile src = .ok m)
    (hsmall : m.Small) : ∃ p, parseSource src = .ok p ∧ ∀ (s s' : Session) (x : Fault),
      (∀ name ctor cls, s.registry.find? name = some cls → cls.home = m →
        Session.new name ctor s = .error (.stop (.fault x)) s' →
        ∃ s₀, Entered m s.machine s₀ ∧ Arises p m s₀ x) ∧
      ∀ (addr : Nat) (cell : ObjectCell) method, s.heap.objects[addr]? = some cell →
        cell.cls.home = m → Session.call (some addr) method s = .error (.stop (.fault x)) s' →
        ∃ s₀, Entered m s.machine s₀ ∧ Arises p m s₀ x := by
  obtain ⟨p, hp, hl⟩ := loaded_of_compile hm hsmall
  refine ⟨p, hp, fun s s' x ↦
    ⟨fun name ctor cls hfind hhome h ↦ ?_, fun addr cell method hcell hhome h ↦ ?_⟩⟩
  · have hnew : Session.new name ctor s = Session.onMachine (instantiate cls ctor) s := by
      rw [Session.new, get_bind, hfind]
    obtain ⟨t, ht⟩ := of_onMachine (hnew ▸ h)
    rcases instantiate_invokes cls ctor s.machine with ⟨d, hd⟩ | ⟨code, hcode, habs, heq⟩
    · cases ht.symm.trans hd
    · obtain ⟨im, rfl, rfl, -, -, -, habs'⟩ := hl.image_constructor hhome hcode
      have hinvoke : invoke im.routine _ _ _ = _ := heq.symm.trans ht
      obtain ⟨s₀, henter, harises⟩ := arises_of_invoke hl rfl rfl rfl habs' hinvoke
      exact ⟨s₀, .constructor hhome habs hcode henter, harises⟩
  · obtain ⟨t, ht⟩ := of_onMachine h
    rcases callObject_invokes (some addr) method s.machine with
      ⟨d, hd⟩ | ⟨addr', cell', k, code, haddr, hcell', -, hcode, habs, heq⟩
    · cases ht.symm.trans hd
    · cases haddr
      cases hcell.symm.trans hcell'
      obtain ⟨im, howner, rfl, -⟩ := hl.image_method hhome hcode
      have hroutine : im.routine = ⟨im.code, some cell.cls⟩ := by rw [Image.routine, howner]
      rw [heq, ← hroutine] at ht
      obtain ⟨s₀, henter, harises⟩ := arises_of_invoke hl rfl rfl rfl habs ht
      rw [hroutine] at henter
      exact ⟨s₀, .method hcell hcode henter, harises⟩

/-- A sample: a method that calls itself on its line 3 until there is no room for another frame. -/
def descent : String := "class A public\nfunc f public\ncall f\nprint 1\nend\nend"

/-- A session with an object of the class. -/
def sessionWith (c : ClassRef) : Session :=
  { Session.start 0 0 with heap := Heap.addObject {} (Heap.freshObject c) }

/-- The fault that a request ends with. -/
def fault? {α : Type} : EStateM.Result Session.Error Session α → Option Fault
  | .error (.stop (.fault x)) _ => some x
  | _ => none

/-- The fault of the sample has the line behind the call, since the caller has moved on. -/
theorem descent_fails_behind_its_call :
    ∃ (p : Program) (m : CompiledModule) (s s' : Session) (s₀ : State), compile descent = .ok m ∧
    m.Small ∧ parseSource descent = .ok p ∧
    Session.call (some 0) "f" s = .error (.stop (.fault ⟨.frameOverflow, some ⟨"A.f", 4⟩⟩)) s' ∧
    Entered m s.machine s₀ ∧ Arises p m s₀ ⟨.frameOverflow, some ⟨"A.f", 4⟩⟩ := by
  obtain ⟨m, c, hm, hsmall, hc, hfault⟩ := exists_class_of_any descent (P := fun c ↦
    fault? (Session.call (some 0) "f" (sessionWith c)) = some ⟨.frameOverflow, some ⟨"A.f", 4⟩⟩) (by
    decide +kernel)
  replace hfault := of_decide_eq_true hfault
  obtain ⟨p, hp, hlocated⟩ := faults_are_located hm hsmall
  cases hcall : Session.call (some 0) "f" (sessionWith c) with
  | ok a s' =>
    rw [hcall] at hfault
    cases hfault
  | error e s' =>
    rw [hcall] at hfault
    obtain rfl : e = .stop (.fault ⟨.frameOverflow, some ⟨"A.f", 4⟩⟩) := by
      unfold fault? at hfault
      split at hfault
      · rename_i heq
        cases heq
        rw [Option.some.inj hfault]
      · cases hfault
    obtain ⟨s₀, hentered, harises⟩ :=
      (hlocated (sessionWith c) s' _).2 0 (Heap.freshObject c) "f" rfl hc hcall
    exact ⟨p, m, sessionWith c, s', s₀, hm, hsmall, hp, hcall, hentered, harises⟩

end ClassAsm.Machine
