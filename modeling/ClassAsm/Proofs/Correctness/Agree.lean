import ClassAsm.Proofs.Machine.Course
import ClassAsm.Proofs.Reference.Interpreter
import ClassAsm.Proofs.Reference.Typing

/-!
# What the interpreter and straight code have in common

`Agrees act code` says that a part of a step of the interpreter and a piece of straight code do the
same: both fail with the same fault, or both end with the same heap and output, and the frame holds
the variables of the active procedure again.  It goes together along `>>=` on the one side and `++`
on the other, so that the agreement of a statement with its code follows the text of both.

## What is here

* There is a lemma for each piece of straight code: that of an expression, of a conversion, of a
  place that is to be written, and of the defaults of a constructor.
* `Holds` ties the variables to the frame.  Registers that have not been written are not compared,
  and cells only as far as a frame has slots; `Ready` says that an expression needs no others.
* The stack below the operands is kept open.  What leads to a place lies there (`Reached`) until the
  value that is to be stored has been computed.
-/

namespace ClassAsm.Correctness

open Bytecode
open Codegen (Register registerCount commonType)
open Machine
    (Cause Course Frame View bind_of_error bind_of_ok course course_append effect getElem?_setLocal
  maxLocals setLocal)
open Reference

variable {c c' c'' : Config} {α : Type} {act : Act α} {code : List Instr}
  {below : List (Option Frame)} {f : Frame} {stack stack' : List Value} {e : Expr} {target : Ty}
  {place : Place} {self : Value}

/-! ## Agreement -/

/-- The frame holds the variables of a procedure. -/
structure Holds (env : Env) (f : Frame) : Prop where
  self : f.self = env.self
  cells : ∀ k, k + registerCount < maxLocals →
    f.locals.toArray[k + registerCount]? = some (env.cells k)
  registers : ∀ r w, env.registers r = some w → f.locals.toArray[r.slot]? = some w.value

/-- What the machine looks like in the frame `f` of the active procedure. -/
def viewOf (c : Config) (f : Frame) (below : List (Option Frame)) (stack : List Value) : View :=
  ⟨some f :: below, stack, c.heap, c.output⟩

/-- At most the variables, the position, the heap and the output differ. -/
structure Keeps (c c' : Config) : Prop where
  callers : c'.callers = c.callers
  active : c'.active = { c.active with env := c'.active.env, position := c'.active.position }

theorem Keeps.refl (c : Config) : Keeps c c := ⟨rfl, rfl⟩

theorem Keeps.trans (h : Keeps c c') (h' : Keeps c' c'') : Keeps c c'' := by
  refine ⟨h'.callers.trans h.callers, ?_⟩
  rw [h'.active, h.active]

/-- A part of a step does the same as straight code.  `R` relates its result and the configuration
behind it to the stack. -/
def Agrees {α : Type} (act : Act α) (code : List Instr) (below : List (Option Frame)) (c : Config)
    (f : Frame) (stack : List Value) (R : α → Config → List Value → Prop) : Prop :=
  Holds c.active.env f → match act c with
    | .ok a c' =>
      ∃ g stack', course (viewOf c f below stack) code = .done (viewOf c' g below stack') ∧
        f.After g code.length ∧ Holds c'.active.env g ∧ Keeps c c' ∧ R a c' stack'
    | .error (.fault x) c' => ∃ w, course (viewOf c f below stack) code = .failed x w ∧
        w.heap = c'.heap ∧ w.output = c'.output
    | .error .meaningless _ => False

section Rules

variable {β : Type} {code' : List Instr} {P R : α → Config → List Value → Prop}

theorem Agrees.mono (h : Agrees act code below c f stack P)
    (hR : ∀ a c' stack', P a c' stack' → R a c' stack') : Agrees act code below c f stack R := by
  intro hf
  have hact := h hf
  cases hc : act c with
  | ok a c' =>
    rw [hc] at hact
    obtain ⟨g, stack', hcourse, hg, hholds, hkeeps, hP⟩ := hact
    exact ⟨g, stack', hcourse, hg, hholds, hkeeps, hR _ _ _ hP⟩
  | error e c' =>
    rw [hc] at hact
    cases e with
    | fault x => exact hact
    | meaningless => exact hact

theorem Agrees.congr {act' : Act α} (h : Agrees act' code below c f stack R)
    (heq : act c = act' c) : Agrees act code below c f stack R := by
  intro hf
  rw [heq]
  exact h hf

theorem Agrees.bind {k : α → Act β} {R : β → Config → List Value → Prop}
    (h : Agrees act code below c f stack P)
    (hk : ∀ a c' g stack', P a c' stack' → Agrees (k a) code' below c' g stack' R) :
    Agrees (act >>= k) (code ++ code') below c f stack R := by
  intro hf
  have hact := h hf
  cases hc : act c with
  | ok a c' =>
    rw [hc] at hact
    obtain ⟨g, stack', hcourse, hg, hholds, hkeeps, hP⟩ := hact
    have hrest := hk a c' g stack' hP hholds
    have hbind : (act >>= k) c = k a c' := by
      show EStateM.bind act k c = k a c'
      rw [EStateM.bind, hc]
    rw [hbind, course_append, hcourse]
    cases hk' : k a c' with
    | ok b c'' =>
      rw [hk'] at hrest
      obtain ⟨g', stack'', hcourse', hg', hholds', hkeeps', hR⟩ := hrest
      exact ⟨g', stack'', hcourse', List.length_append ▸ hg.trans hg', hholds',
        hkeeps.trans hkeeps', hR⟩
    | error e c'' =>
      rw [hk'] at hrest
      cases e with
      | fault x => exact hrest
      | meaningless => exact hrest
  | error e c' =>
    rw [hc] at hact
    have hbind : (act >>= k) c = .error e c' := by
      show EStateM.bind act k c = _
      rw [EStateM.bind, hc]
    rw [hbind]
    cases e with
    | fault x =>
      obtain ⟨w, hcourse, hw⟩ := hact
      exact ⟨w, by rw [course_append, hcourse], hw⟩
    | meaningless => exact hact

/-- What has no code changes at most the configuration. -/
theorem agrees_pure (a : α) (h : R a c stack) : Agrees (pure a) [] below c f stack R :=
  fun hf ↦ ⟨f, stack, rfl, .refl f, hf, .refl c, h⟩

theorem Agrees.bind_pure {g : α → β} {R : β → Config → List Value → Prop}
    (h : Agrees act code below c f stack fun a c' stack' ↦ R (g a) c' stack') :
    Agrees (act >>= fun a ↦ pure (g a)) code below c f stack R := by
  have hbind : Agrees (act >>= fun a ↦ pure (g a)) (code ++ []) below c f stack R :=
    h.bind fun a c' g' stack' hR ↦ agrees_pure (g a) hR
  rw [List.append_nil] at hbind
  exact hbind

end Rules

/-! ## One instruction -/

variable {y : Cause} {k : Nat}

section Instructions

variable {rest : List Value} {x : Instr} {env : Env} {a : Value}

theorem Holds.next (h : Holds env f) : Holds env f.next := ⟨h.self, h.cells, h.registers⟩

theorem course_single {w : View} (h : effect (viewOf c f below stack) f x = .go w) :
    course (viewOf c f below stack) [x] = .done w := by
  rw [course, viewOf]
  dsimp only
  rw [← viewOf, h]
  rfl

theorem course_single_fault (h : effect (viewOf c f below stack) f x = .fault y) :
    course (viewOf c f below stack) [x] = .failed y (viewOf c f below stack) := by
  rw [course, viewOf]
  dsimp only
  rw [← viewOf, h]

theorem agrees_result {r : Config → Except Cause Value}
    (h : effect (viewOf c f below stack) f x = (viewOf c f below stack).result f rest (r c)) :
    Agrees (fun c ↦ attempt (r c) c) [x] below c f stack fun a c' stack' ↦ c' = c ∧
    stack' = a :: rest := by
  intro hf
  dsimp only
  cases hr : r c with
  | ok a =>
    rw [hr] at h
    exact ⟨f.next, a :: rest, course_single h, rfl, hf.next, .refl c, rfl, rfl⟩
  | error y =>
    rw [hr] at h
    exact ⟨_, course_single_fault h, rfl, rfl⟩

theorem agrees_update {r : Config → Except Cause Heap}
    (h : effect (viewOf c f below stack) f x = (viewOf c f below stack).update f rest (r c)) :
    Agrees (fun c ↦ (attempt (r c) >>= setHeap) c) [x] below c f stack fun _ c' stack' ↦
      (∃ heap, c' = { c with heap := heap }) ∧ stack' = rest := by
  intro hf
  dsimp only
  cases hr : r c with
  | ok heap =>
    rw [hr] at h
    exact ⟨f.next, rest, course_single h, rfl, hf.next, ⟨rfl, rfl⟩, ⟨heap, rfl⟩, rfl⟩
  | error y =>
    rw [hr] at h
    exact ⟨_, course_single_fault h, rfl, rfl⟩

theorem agrees_shuffle {a : α} {R : α → Config → List Value → Prop}
    (h : effect (viewOf c f below stack) f x = .go ((viewOf c f below stack).onto f rest))
    (hR : R a c rest) : Agrees (pure a) [x] below c f stack R :=
  fun hf ↦ ⟨f.next, rest, course_single h, rfl, hf.next, .refl c, hR⟩

theorem Holds.setCell (h : Holds env f) (hk : k + registerCount < maxLocals) (a : Value) :
    Holds (env.setCell k a) (setLocal f (k + registerCount) a hk) where
  self := h.self
  cells j hj := by
    rw [getElem?_setLocal, Env.cells_setCell]
    by_cases hjk : j = k
    · rw [if_pos (by omega), if_pos hjk]
    · rw [if_neg (by omega), if_neg hjk]
      exact h.cells j hj
  registers r w hr := by
    have := r.slot_lt
    rw [getElem?_setLocal, if_neg (by omega)]
    exact h.registers r w hr

theorem Holds.setRegister (h : Holds env f) (r : Register) (w : Written) (hr : r.slot < maxLocals) :
    Holds (env.setRegister r w) (setLocal f r.slot w.value hr) where
  self := h.self
  cells j hj := by
    have := r.slot_lt
    rw [getElem?_setLocal, if_neg (by omega)]
    exact h.cells j hj
  registers q w' hq := by
    rw [getElem?_setLocal]
    rw [Env.registers_setRegister] at hq
    by_cases hqr : q = r
    · rw [if_pos (congrArg _ hqr.symm)]
      rw [if_pos hqr] at hq
      exact congrArg _ (congrArg _ (Option.some.inj hq))
    · rw [if_neg fun heq ↦ hqr (Register.slot_inj heq.symm)]
      rw [if_neg hqr] at hq
      exact h.registers q w' hq

theorem agrees_setCell (hk : k + registerCount < maxLocals) :
    Agrees (modifyEnv (·.setCell k a)) [.popLocal (k + registerCount)] below c f (a :: stack)
      fun _ c' stack' ↦ stack' = stack ∧
        c' = { c with active := { c.active with env := c.active.env.setCell k a } } := by
  intro hf
  refine ⟨(setLocal f (k + registerCount) a hk).next, stack, course_single ?_, rfl,
    (hf.setCell hk a).next, ⟨rfl, rfl⟩, rfl, rfl⟩
  simp only [effect, viewOf, dif_pos hk]
  rfl

theorem agrees_setRegister {r : Register} {t : Ty} :
    Agrees (modifyEnv (·.setRegister r ⟨a, t⟩)) [.popLocal r.slot] below c f (a :: stack)
      fun _ c' stack' ↦ stack' = stack ∧
        c' = { c with active := { c.active with env := c.active.env.setRegister r ⟨a, t⟩ } } := by
  intro hf
  have hr : r.slot < maxLocals := Nat.lt_trans (r.slot_lt) (by decide)
  refine ⟨(setLocal f r.slot a hr).next, stack, course_single ?_, rfl,
    (hf.setRegister r ⟨a, t⟩ hr).next, ⟨rfl, rfl⟩, rfl, rfl⟩
  simp only [effect, viewOf, dif_pos hr]
  rfl

end Instructions

/-! ## Expressions -/

/-- The variables of an expression are there: its cells fit into a frame, and its registers have
been written. -/
def Ready (env : Env) : Expr → Prop
  | .const _ _ | .this _ => True
  | .register r _ => (env.registers r).isSome
  | .cell k _ => k + registerCount < maxLocals
  | .field o _ _ => Ready env o
  | .item a i _ => Ready env a ∧ Ready env i
  | .convert e _ => Ready env e

theorem evaluate_of_eq {r : Except Cause Value} (h : e.value c.heap c.active.env = r) :
    evaluate e c = attempt r c := by
  rw [evaluate, h]

theorem evaluate_of_value {a : Value} (h : e.value c.heap c.active.env = .ok a) :
    evaluate e c = .ok a c := by
  rw [evaluate, h]
  rfl

theorem evaluate_of_error (h : e.value c.heap c.active.env = .error y) :
    evaluate e c = .error (.fault y) c := by
  rw [evaluate, h]
  rfl

theorem evaluate_field (o : Expr) (i : Nat) (t : Ty) (c : Config) :
    evaluate (.field o i t) c = (evaluate o >>= fun a c ↦ attempt (readField c.heap a i) c) c := by
  cases ho : o.value c.heap c.active.env with
  | ok a =>
    refine Eq.trans ?_ (bind_of_ok (evaluate_of_value ho)).symm
    refine evaluate_of_eq ?_
    rw [Expr.value, ho]
    rfl
  | error y =>
    refine Eq.trans (evaluate_of_error ?_) (bind_of_error (evaluate_of_error ho)).symm
    rw [Expr.value, ho]
    rfl

theorem evaluate_convert (e : Expr) (t : Ty) (c : Config) : evaluate (.convert e t) c =
      (evaluate e >>= fun a c ↦ attempt (converted? c.heap a t) c) c := by
  cases he : e.value c.heap c.active.env with
  | ok a =>
    refine Eq.trans ?_ (bind_of_ok (evaluate_of_value he)).symm
    refine evaluate_of_eq ?_
    rw [Expr.value, he]
    rfl
  | error y =>
    refine Eq.trans (evaluate_of_error ?_) (bind_of_error (evaluate_of_error he)).symm
    rw [Expr.value, he]
    rfl

theorem evaluate_item (a i : Expr) (t : Ty) (c : Config) :
    evaluate (.item a i t) c = (evaluate a >>= fun x ↦ evaluate i >>= fun y c ↦
      attempt (readItem c.heap x y.toInt) c) c := by
  cases ha : a.value c.heap c.active.env with
  | error y =>
    refine Eq.trans (evaluate_of_error ?_) (bind_of_error (evaluate_of_error ha)).symm
    rw [Expr.value, ha]
    rfl
  | ok x =>
    refine Eq.trans ?_ (bind_of_ok (evaluate_of_value ha)).symm
    cases hi : i.value c.heap c.active.env with
    | ok y =>
      refine Eq.trans ?_ (bind_of_ok (evaluate_of_value hi)).symm
      refine evaluate_of_eq ?_
      rw [Expr.value, ha, hi]
      rfl
    | error y =>
      refine Eq.trans (evaluate_of_error ?_) (bind_of_error (evaluate_of_error hi)).symm
      rw [Expr.value, ha, hi]
      rfl

/-- **The value of an expression is what its code leaves on the stack.** -/
theorem agrees_evaluate (he : Ready c.active.env e) :
    Agrees (evaluate e) e.code below c f stack fun a c' stack' ↦ c' = c ∧ stack' = a :: stack := by
  induction e generalizing f stack with
  | const v t => exact agrees_result (r := fun _ ↦ .ok v) rfl
  | this className =>
    intro hf
    refine agrees_result (r := fun c ↦ .ok c.active.env.self) ?_ hf
    rw [← hf.self]
    rfl
  | register r t =>
    intro hf
    obtain ⟨w, hw⟩ := Option.isSome_iff_exists.1 he
    have hlocal := hf.registers r w hw
    refine agrees_result (r := fun c ↦
      .ok ((c.active.env.registers r).elim .void Written.value)) ?_ hf
    simp only [effect, hlocal, hw]
    rfl
  | cell k t =>
    intro hf
    have hlocal := hf.cells k he
    refine agrees_result (r := fun c ↦ .ok (c.active.env.cells k)) ?_ hf
    simp only [effect, hlocal]
    rfl
  | field o i t ih =>
    refine ((ih he).bind ?_).congr (evaluate_field o i t c)
    rintro a _ g _ ⟨rfl, rfl⟩
    exact agrees_result rfl
  | item a i t iha ihi =>
    rw [Expr.code, List.append_assoc]
    refine ((iha he.1).bind ?_).congr (evaluate_item a i t c)
    rintro x _ g _ ⟨rfl, rfl⟩
    refine (ihi he.2).bind ?_
    rintro y _ g _ ⟨rfl, rfl⟩
    exact agrees_result rfl
  | convert e t ih =>
    refine ((ih he).bind ?_).congr (evaluate_convert e t c)
    rintro a _ g _ ⟨rfl, rfl⟩
    exact agrees_result rfl

/-! ## Conversions -/

variable {source : Ty}

section Conversions

variable {a : Value}

theorem coerce_of_suits (h : suits source target = true) :
    coerce source target a c = (pure a : Act Value) c := by
  rw [coerce, coerced, if_pos h]
  rfl

theorem coerce_of_not_suits (h : ¬suits source target = true) :
    coerce source target a c = attempt (converted? c.heap a target) c := by
  rw [coerce, coerced, if_neg h]

/-- A value is converted where its type does not suit. -/
theorem agrees_coerce (source target : Ty) :
    Agrees (coerce source target a) (conversion source target) below c f (a :: stack)
      fun b c' stack' ↦ c' = c ∧ stack' = b :: stack := by
  rw [conversion]
  by_cases h : suits source target = true
  · rw [if_pos h]
    exact (agrees_pure a ⟨rfl, rfl⟩).congr (coerce_of_suits h)
  · rw [if_neg h]
    have hresult :
      Agrees (fun c ↦ attempt (converted? c.heap a target) c) [.convert target] below c f
        (a :: stack) fun b c' stack' ↦ c' = c ∧ stack' = b :: stack := agrees_result rfl
    exact hresult.congr (coerce_of_not_suits h)

theorem suits_commonType (left right : Ty) :
    suits left (commonType left right) = true ↔ left = commonType left right := by
  have href : (commonType left right).tag.isReference = false := by
    rw [commonType]
    split
    · rfl
    · split <;> rfl
  simp [suits, href]

/-- The left one of two numbers is converted where its type is not the common one. -/
theorem agrees_coerce_left {b : Value} (left right : Ty) :
    Agrees (coerce left (commonType left right) a)
      (if left = commonType left right then [] else
        [.swap, .convert (commonType left right), .swap])
      below c f (b :: a :: stack) fun x c' stack' ↦ c' = c ∧ stack' = b :: x :: stack := by
  by_cases h : left = commonType left right
  · rw [if_pos h]
    exact (agrees_pure a ⟨rfl, rfl⟩).congr (coerce_of_suits ((suits_commonType left right).2 h))
  · rw [if_neg h]
    have hsuits : ¬suits left (commonType left right) = true :=
      fun hsuits ↦ h ((suits_commonType left right).1 hsuits)
    have hswap : Agrees (pure ()) [.swap] below c f (b :: a :: stack)
        fun _ c' stack' ↦ c' = c ∧ stack' = a :: b :: stack := agrees_shuffle rfl ⟨rfl, rfl⟩
    have hall : Agrees (pure () >>= fun _ ↦ coerce left (commonType left right) a >>= pure)
        ([.swap] ++ (conversion left (commonType left right) ++ [.swap])) below c f
        (b :: a :: stack) fun x c' stack' ↦ c' = c ∧ stack' = b :: x :: stack := by
      refine hswap.bind ?_
      rintro _ _ g _ ⟨rfl, rfl⟩
      refine (agrees_coerce left (commonType left right)).bind ?_
      rintro x _ g _ ⟨rfl, rfl⟩
      exact agrees_shuffle rfl ⟨rfl, rfl⟩
    rw [conversion, if_neg hsuits, pure_bind, bind_pure] at hall
    exact hall

theorem agrees_promote {x y : Value} (left right : Ty) :
    Agrees (promote left right x y) (promotion left right) below c f (y :: x :: stack)
      fun p c' stack' ↦ c' = c ∧ stack' = p.2 :: p.1 :: stack := by
  refine (agrees_coerce right (commonType left right)).bind ?_
  rintro b _ g _ ⟨rfl, rfl⟩
  refine Agrees.bind_pure ((agrees_coerce_left left right).mono ?_)
  rintro a _ _ ⟨rfl, rfl⟩
  exact ⟨rfl, rfl⟩

end Conversions

/-! ## Places -/

/-- The instruction that writes to a place. -/
def storeInstr : Place → Instr
  | .cell k => .popLocal (k + registerCount)
  | .field _ i => .storeField i
  | .item _ _ => .storeItem

/-- The values that lead to a place lie on the stack. -/
def Reached (stack : List Value) : Place → List Value → Prop
  | .cell k, stack' => k + registerCount < maxLocals ∧ stack' = stack
  | .field o _, stack' => stack' = o :: stack
  | .item a i, stack' => ∃ b : Value, b.toInt = i ∧ stack' = b :: a :: stack

theorem Reached.length_le (h : Reached stack place stack') : stack'.length ≤ stack.length + 2 := by
  cases place with
  | cell k =>
    rw [h.2]
    exact Nat.le_add_right _ _
  | field o i =>
    rw [h]
    exact Nat.le_succ _
  | item a i =>
    obtain ⟨b, -, rfl⟩ := h
    exact Nat.le_refl _

/-- The active procedure has the same object, position and registers. -/
structure Steady (c c' : Config) : Prop where
  self : c'.active.env.self = c.active.env.self
  position : c'.active.position = c.active.position
  registers : c'.active.env.registers = c.active.env.registers

theorem Steady.refl (c : Config) : Steady c c := ⟨rfl, rfl, rfl⟩

theorem Steady.trans (h : Steady c c') (h' : Steady c' c'') : Steady c c'' :=
  ⟨h'.self.trans h.self, h'.position.trans h.position, h'.registers.trans h.registers⟩

section Places

variable {a : Value}

theorem agrees_locate (he : Ready c.active.env e) (hstore : e.store?.isSome) :
    Agrees (locate e) e.lead below c f stack fun place c' stack' ↦
      c' = c ∧ e.store? = some (storeInstr place) ∧ Reached stack place stack' := by
  cases e with
  | const | this | register | convert => cases hstore
  | cell k t => exact agrees_pure _ ⟨rfl, rfl, he, rfl⟩
  | field o i t =>
    refine Agrees.bind_pure ((agrees_evaluate (e := o) he).mono ?_)
    rintro a _ _ ⟨rfl, rfl⟩
    exact ⟨rfl, rfl, rfl⟩
  | item a i t =>
    refine (agrees_evaluate he.1).bind ?_
    rintro x _ g _ ⟨rfl, rfl⟩
    refine Agrees.bind_pure ((agrees_evaluate he.2).mono ?_)
    rintro y _ _ ⟨rfl, rfl⟩
    exact ⟨rfl, rfl, y, rfl, rfl⟩

theorem agrees_store (hreached : Reached stack place stack') :
    Agrees (store a place) [storeInstr place] below c f (a :: stack') fun _ c' s ↦ s = stack ∧
    Steady c c' := by
  cases place with
  | cell k =>
    obtain ⟨hk, rfl⟩ := hreached
    refine (agrees_setCell hk).mono ?_
    rintro _ _ _ ⟨rfl, rfl⟩
    exact ⟨rfl, rfl, rfl, rfl⟩
  | field o i =>
    obtain rfl := hreached
    refine Agrees.mono (agrees_update rfl) ?_
    rintro _ _ _ ⟨⟨heap, rfl⟩, rfl⟩
    exact ⟨rfl, rfl, rfl, rfl⟩
  | item b i =>
    obtain ⟨j, rfl, rfl⟩ := hreached
    refine Agrees.mono (agrees_update rfl) ?_
    rintro _ _ _ ⟨⟨heap, rfl⟩, rfl⟩
    exact ⟨rfl, rfl, rfl, rfl⟩

theorem agrees_allocate {elem : Ty} {n : Value} :
    Agrees (allocate elem n.toInt) [.newArray elem] below c f (n :: stack)
      fun a c' s ↦ s = a :: stack ∧ Steady c c' := by
  intro hf
  rw [allocate]
  cases hmake : makeArray c.heap elem n.toInt with
  | ok r =>
    have heffect : effect (viewOf c f below (n :: stack)) f (.newArray elem) =
        .go { (viewOf c f below (n :: stack)).onto f (r.2 :: stack) with heap := r.1 } := by
      simp only [effect, viewOf, hmake]
    exact ⟨f.next, r.2 :: stack, course_single heffect, rfl, hf.next, ⟨rfl, rfl⟩, rfl, rfl,
      rfl, rfl⟩
  | error y =>
    have heffect : effect (viewOf c f below (n :: stack)) f (.newArray elem) = .fault y := by
      simp only [effect, viewOf, hmake]
    exact ⟨_, course_single_fault heffect, rfl, rfl⟩

theorem agrees_print :
    Agrees (print a) [.print] below c f (a :: stack) fun _ c' s ↦ s = stack ∧ Steady c c' :=
  fun hf ↦ ⟨f.next, stack, course_single rfl, rfl, hf.next, ⟨rfl, rfl⟩, rfl, rfl, rfl, rfl⟩

end Places

/-! ## Defaults -/

/-- Straight code that only puts values on the stack. -/
theorem Agrees.after_pushes {before : List Instr} {R : α → Config → List Value → Prop}
    (hpush : Agrees (pure ()) before below c f stack fun _ c' s ↦ c' = c ∧ s = stack')
    (h : ∀ g, Agrees act code below c g stack' R) :
    Agrees act (before ++ code) below c f stack R := by
  have hbind : Agrees (pure () >>= fun _ ↦ act) (before ++ code) below c f stack R := by
    refine hpush.bind ?_
    rintro _ _ g _ ⟨rfl, rfl⟩
    exact h g
  rw [pure_bind] at hbind
  exact hbind

theorem toInt_ofInt (i : Int64) : (Value.ofInt i).toInt = i := by
  show i.toUInt64.toInt64 = i
  rfl

theorem agrees_storeItems {array : Value} (i : Nat) (vs : List Value) :
    Agrees (storeItems array i vs) (itemsCode i vs) below c f (array :: stack)
      fun _ c' s ↦ s = array :: stack ∧ Steady c c' := by
  induction vs generalizing i c f with
  | nil => exact agrees_pure _ ⟨rfl, .refl c⟩
  | cons v vs ih =>
    have hpush : Agrees (pure ()) [.dup, .const (.ofInt (Int64.ofNat i)), .const v] below c f
        (array :: stack) fun _ c' s ↦ c' = c ∧ s = v :: .ofInt
        (Int64.ofNat i) :: array :: array :: stack :=
      fun hf ↦ ⟨f.next.next.next, _, rfl, rfl, hf.next.next.next, .refl c, rfl, rfl⟩
    have hstore (g : Frame) : Agrees (store v (.item array (Int64.ofNat i))) [.storeItem] below c g
        (v :: .ofInt (Int64.ofNat i) :: array :: array :: stack)
        fun _ c' s ↦ s = array :: stack ∧ Steady c c' :=
      agrees_store ⟨_, toInt_ofInt _, rfl⟩
    refine (Agrees.after_pushes hpush hstore).bind ?_
    rintro _ c' g _ ⟨rfl, hsteady⟩
    exact (ih (i + 1)).mono fun _ _ _ ⟨hs, hsteady'⟩ ↦ ⟨hs, hsteady.trans hsteady'⟩

/-- The object of the active procedure and a constant are put on the stack. -/
theorem agrees_pushSelf (v : Value) : Agrees (pure ()) [.this, .const v] below c f stack
      fun _ c' s ↦ c' = c ∧ s = v :: c.active.env.self :: stack := by
  intro hf
  refine ⟨f.next.next, v :: f.self :: stack, rfl, rfl, hf.next.next, .refl c, rfl, ?_⟩
  rw [hf.self]

theorem agrees_default (d : Default) (index : Nat) (hself : c.active.env.self = self) :
    Agrees (d.apply self index)
    (d.code index) below c f stack fun _ c' s ↦ s = stack ∧ Steady c c' := by
  subst hself
  cases d with
  | zero => exact agrees_pure _ ⟨rfl, .refl c⟩
  | value v =>
    have hstore (g : Frame) : Agrees (store v (.field c.active.env.self index)) [.storeField index]
        below c g (v :: c.active.env.self :: stack) fun _ c' s ↦ s = stack ∧ Steady c c' :=
      agrees_store rfl
    exact Agrees.after_pushes (agrees_pushSelf v) hstore
  | items elem vs =>
    have hcode : Default.code index (.items elem vs) =
        [.this, .const (.ofInt (Int64.ofNat vs.length))] ++ ([.newArray elem] ++
          (itemsCode 0 vs ++ [.storeField index])) := by simp [Default.code]
    rw [hcode]
    refine Agrees.after_pushes (agrees_pushSelf _) fun g ↦ ?_
    have hallocate : Agrees (allocate elem (Value.ofInt (Int64.ofNat vs.length)).toInt)
        [.newArray elem] below c g (.ofInt (Int64.ofNat vs.length) :: c.active.env.self :: stack)
        fun a c' s ↦ s = a :: c.active.env.self :: stack ∧ Steady c c' := agrees_allocate
    rw [toInt_ofInt] at hallocate
    refine hallocate.bind ?_
    rintro array c₁ g₁ _ ⟨rfl, h₁⟩
    refine (agrees_storeItems 0 vs).bind ?_
    rintro _ c₂ g₂ _ ⟨rfl, h₂⟩
    refine Agrees.mono (agrees_store rfl) ?_
    rintro _ c₃ _ ⟨rfl, h₃⟩
    exact ⟨rfl, (h₁.trans h₂).trans h₃⟩

/-- **The defaults of a constructor are stored.** -/
theorem agrees_defaults (i : Nat) (ds : List Default) (hself : c.active.env.self = self) :
    Agrees (applyDefaults self i ds)
    (defaultsCode i ds) below c f stack fun _ c' s ↦ s = stack ∧ Steady c c' := by
  induction ds generalizing i c f with
  | nil => exact agrees_pure _ ⟨rfl, .refl c⟩
  | cons d ds ih =>
    refine (agrees_default d i hself).bind ?_
    rintro _ c' g _ ⟨rfl, hsteady⟩
    exact (ih (i + 1) (hsteady.self.trans hself)).mono fun _ _ _ ⟨hs, hsteady'⟩ ↦
      ⟨hs, hsteady.trans hsteady'⟩

end ClassAsm.Correctness
