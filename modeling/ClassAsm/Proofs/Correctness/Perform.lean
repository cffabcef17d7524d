import ClassAsm.Proofs.Correctness.Agree

/-!
# Statements and their code

The statements that stay in their procedure and go on with the next instruction do what their code
does: `agrees_perform`.  For a conditional the same holds up to the jump at its end, of which the
condition is left on the stack.

What is needed of a statement is little: its variables are there (`Prepared`), and a place that it
writes to can be written to.  Types play no part.
-/

namespace ClassAsm.Correctness

open Bytecode
open Codegen (Register Registers registerCount commonType)
open Machine (Cause Frame maxLocals effect)
open Reference

/-! ## What is known about the registers -/

/-- The registers have been written with the types that are known. -/
def Known (rs : Registers) (env : Env) : Prop :=
  ∀ r t, rs.get r = .typed t → env.types r = some t

variable {rs : Registers}

theorem Known.of_registers {env env' : Env} (h : Known rs env)
    (heq : env'.registers = env.registers) : Known rs env' := by
  intro r t ht
  rw [Env.types, heq]
  exact h r t ht

theorem Known.below {rs' : Registers} {env : Env} (h : Known rs' env) (hbelow : rs.Below rs') :
    Known rs env := fun r t ht ↦ h r t (hbelow r t ht)

theorem Known.setRegister {env : Env} (h : Known rs env) (r : Register) (w : Written) :
    Known (rs.set r (.typed w.type)) (env.setRegister r w) := by
  intro q t ht
  rw [Registers.get_set] at ht
  rw [Env.types, Env.registers_setRegister]
  by_cases hq : q = r
  · rw [if_pos hq] at ht ⊢
    cases ht
    rfl
  · rw [if_neg hq] at ht ⊢
    exact h q t ht

/-! ## Statements -/

/-- The variables of a statement are there. -/
def Prepared (env : Env) : Statement → Prop
  | .skip | .jump _ | .call _ _ | .ret none => True
  | .assign p v => Ready env p ∧ Ready env v
  | .define k _ => k + registerCount < maxLocals
  | .write _ v | .truth _ v | .print v | .ret (some v) => Ready env v
  | .arith _ l r | .compare _ l r => Ready env l ∧ Ready env r
  | .newArray p _ size => Ready env p ∧ Ready env size
  | .newObject p _ _ => Ready env p

/-- The statement stays in its procedure and goes on with the next instruction. -/
def Plain : Statement → Prop
  | .skip | .assign _ _ | .define _ _ | .write _ _ | .arith _ _ _ | .print _ | .newArray _ _ _ =>
    True
  | _ => False

section Prepared

variable {n : Reference.Names} {cs : List Ty} {env : Env} {e : Expr} {st : Statement}

/-- The variables of what has been read with the names at some place of the text are there, if the
registers that the names know have been written. -/
theorem ready_of_sound (hscope : n.scope.Knows cs) (hcells : cs.length + registerCount ≤ maxLocals)
    (hregisters : ∀ r t, n.registers r = some t → env.types r = some t) (he : e.Sound n) :
    Ready env e := by
  induction e with
  | const | this => trivial
  | register r t =>
    have ht := hregisters r t he
    rw [Env.types] at ht
    obtain ⟨w, hw, -⟩ := Option.map_eq_some_iff.1 ht
    exact Option.isSome_of_mem hw
  | cell k t =>
    obtain ⟨name, hname⟩ := he
    have hk := (List.getElem?_eq_some_iff.1 (hscope.cells _ hname)).1
    exact Nat.lt_of_lt_of_le (Nat.add_lt_add_right hk _) hcells
  | field o i t ih => exact ih he.1
  | item a i t iha ihi => exact ⟨iha he.1, ihi he.2.1⟩
  | convert e t ih => exact ih he.1

theorem prepared_of_sound (hscope : n.scope.Knows cs)
    (hcells : (cs ++ st.cells).length + registerCount ≤ maxLocals)
    (hregisters : ∀ r t, n.registers r = some t → env.types r = some t) (hs : st.Sound n) :
    Prepared env st := by
  have hcs : cs.length + registerCount ≤ maxLocals := by
    rw [List.length_append] at hcells
    omega
  have hready {e : Expr} (he : e.Sound n) : Ready env e := ready_of_sound hscope hcs hregisters he
  cases st with
  | skip | jump | call => trivial
  | assign p v | arith a l r | compare test l r => exact ⟨hready hs.1, hready hs.2⟩
  | write r v | truth negated v | print v => exact hready hs
  | define k t =>
    obtain ⟨rfl, -⟩ := hs
    rw [Statement.cells, List.length_append, List.length_singleton] at hcells
    rw [Prepared, hscope.count]
    omega
  | ret v =>
    cases v with
    | none => trivial
    | some v => exact hready hs
  | newArray p elem size => exact ⟨hready hs.1, hready hs.2.1⟩
  | newObject p k c => exact hready hs.1

end Prepared

variable {v p l r : Expr} {x y : Value} {returns : Ty} {i : Nat}

section Perform

variable {α β : Type} {below : List (Option Frame)} {c : Config} {f : Frame} {stack : List Value}
  {st : Statement}

/-- The interpreter goes on with the next instruction, and the machine is there. -/
theorem agrees_advance : Agrees advance [] below c f stack fun _ c' s ↦ s = stack ∧
      c' = { c with active := { c.active with position := c.active.position.next } } :=
  fun hf ↦ ⟨f, stack, rfl, .refl f, hf, ⟨rfl, rfl⟩, rfl, rfl⟩

theorem Agrees.bind_nil {act : Act α} {k : α → Act β} {code : List Instr}
    {P : α → Config → List Value → Prop} {R : β → Config → List Value → Prop}
    (h : Agrees act code below c f stack P)
    (hk : ∀ a c' g stack', P a c' stack' → Agrees (k a) [] below c' g stack' R) :
    Agrees (act >>= k) code below c f stack R := by
  have hbind : Agrees (act >>= k) (code ++ []) below c f stack R := h.bind hk
  rw [List.append_nil] at hbind
  exact hbind

/-- What is left to say when a statement is done: the stack is as before, control goes on with the
next instruction, and what is known about the registers is so. -/
structure Completes (st : Statement) (stack : List Value) (c c' : Config) (s : List Value) :
    Prop where
  stack : s = stack
  position : c'.active.position = c.active.position.next
  known : ∀ rs, Known rs c.active.env → Known (st.after rs) c'.active.env

theorem agrees_store_advance {place : Place} {a : Value} {stack' : List Value} {c₀ : Config}
    (hst : ∀ rs, st.after rs = rs) (hreached : Reached stack place stack') (hsteady : Steady c₀ c) :
    Agrees (store a place >>= fun _ ↦ advance) [storeInstr place] below c f (a :: stack')
      fun _ c' s ↦ Completes st stack c₀ c' s := by
  refine (agrees_store hreached).bind_nil ?_
  rintro _ c₁ g _ ⟨rfl, h₁⟩
  refine agrees_advance.mono ?_
  rintro _ _ _ ⟨rfl, rfl⟩
  have hall := hsteady.trans h₁
  refine ⟨rfl, congrArg Position.next hall.position, fun rs hrs ↦ ?_⟩
  rw [hst]
  exact hrs.of_registers hall.registers

theorem agrees_assign (hp : Ready c.active.env p) (hv : Ready c.active.env v)
    (hstore : p.store?.isSome) (prog : Program) :
    Agrees (perform prog (.assign p v)) (p.lead ++ v.code ++ conversion v.type p.type ++
      p.store?.toList) below c f stack fun _ c' s ↦ Completes (.assign p v) stack c c' s := by
  rw [List.append_assoc, List.append_assoc]
  refine (agrees_locate hp hstore).bind ?_
  rintro place _ g _ ⟨rfl, hplace, hreached⟩
  refine (agrees_evaluate hv).bind ?_
  rintro a _ g _ ⟨rfl, rfl⟩
  refine (agrees_coerce v.type p.type).bind ?_
  rintro b _ g _ ⟨rfl, rfl⟩
  rw [hplace]
  exact agrees_store_advance (fun _ ↦ rfl) hreached (.refl _)

theorem agrees_define {k : Nat} {t : Ty} (hk : k + registerCount < maxLocals) (prog : Program) :
    Agrees (perform prog (.define k t)) [.const t.zero,
      .popLocal (k + registerCount)] below c f stack fun _ c' s ↦
      Completes (.define k t) stack c c' s := by
  have hpush : Agrees (pure ()) [.const t.zero] below c f stack
      fun _ c' s ↦ c' = c ∧ s = t.zero :: stack := agrees_shuffle rfl ⟨rfl, rfl⟩
  have hreached : Reached stack (.cell k) stack := ⟨hk, rfl⟩
  exact Agrees.after_pushes hpush fun g ↦ agrees_store_advance (fun _ ↦ rfl) hreached (.refl _)

theorem agrees_write {r : Register} (hv : Ready c.active.env v) (prog : Program) :
    Agrees (perform prog (.write r v)) (v.code ++ [.popLocal r.slot]) below c f stack
      fun _ c' s ↦ Completes (.write r v) stack c c' s := by
  refine (agrees_evaluate hv).bind ?_
  rintro a _ g _ ⟨rfl, rfl⟩
  refine agrees_setRegister.bind_nil ?_
  rintro _ _ g _ ⟨rfl, rfl⟩
  refine agrees_advance.mono ?_
  rintro _ _ _ ⟨rfl, rfl⟩
  exact ⟨rfl, rfl, fun rs hrs ↦ hrs.setRegister r ⟨a, v.type⟩⟩

theorem agrees_compute (a : Arith) (t : Ty) :
    Agrees (attempt (compute a t x y)) [computation a t] below c f (y :: x :: stack)
      fun z c' s ↦ c' = c ∧ s = z :: stack := by
  cases t with
  | int => exact agrees_result (r := fun _ ↦ intResult a x y) rfl
  | float => exact agrees_result (r := fun _ ↦ floatResult a true x y) rfl
  | void | null | bool | byte | double | string | array elem | bareArray | object name | other n =>
    exact agrees_result (r := fun _ ↦ floatResult a false x y) rfl

theorem agrees_arith {a : Arith} (hl : Ready c.active.env l) (hr : Ready c.active.env r)
    (prog : Program) :
    Agrees (perform prog (.arith a l r)) (l.code ++ r.code ++ promotion l.type r.type ++
      [computation a (commonType l.type r.type)] ++ conversion (commonType l.type r.type) .float ++
      [.popLocal Register.result.slot]) below c f stack
      fun _ c' s ↦ Completes (.arith a l r) stack c c' s := by
  simp only [List.append_assoc]
  refine (agrees_evaluate hl).bind ?_
  rintro x _ g _ ⟨rfl, rfl⟩
  refine (agrees_evaluate hr).bind ?_
  rintro y _ g _ ⟨rfl, rfl⟩
  refine (agrees_promote l.type r.type).bind ?_
  rintro ⟨x, y⟩ _ g _ ⟨rfl, rfl⟩
  refine (agrees_compute a _).bind ?_
  rintro z _ g _ ⟨rfl, rfl⟩
  refine (agrees_coerce _ .float).bind ?_
  rintro z _ g _ ⟨rfl, rfl⟩
  refine agrees_setRegister.bind_nil ?_
  rintro _ _ g _ ⟨rfl, rfl⟩
  refine agrees_advance.mono ?_
  rintro _ _ _ ⟨rfl, rfl⟩
  exact ⟨rfl, rfl, fun rs hrs ↦ hrs.setRegister .result ⟨z, .float⟩⟩

theorem agrees_printing (hv : Ready c.active.env v) (prog : Program) :
    Agrees (perform prog (.print v)) (v.code ++ [.print]) below c f stack
      fun _ c' s ↦ Completes (.print v) stack c c' s := by
  refine (agrees_evaluate hv).bind ?_
  rintro a _ g _ ⟨rfl, rfl⟩
  refine agrees_print.bind_nil ?_
  rintro _ c' g _ ⟨rfl, hsteady⟩
  refine agrees_advance.mono ?_
  rintro _ _ _ ⟨rfl, rfl⟩
  exact ⟨rfl, congrArg Position.next hsteady.position, fun rs hrs ↦
    hrs.of_registers hsteady.registers⟩

theorem agrees_newArray {size : Expr} {elem : Ty} (hp : Ready c.active.env p)
    (hsize : Ready c.active.env size) (hstore : p.store?.isSome) (prog : Program) :
    Agrees (perform prog (.newArray p elem size))
    (p.lead ++ size.code ++ conversion size.type .int ++
      [.newArray elem] ++ conversion (.array elem) p.type ++ p.store?.toList) below c f stack
      fun _ c' s ↦ Completes (.newArray p elem size) stack c c' s := by
  simp only [List.append_assoc]
  refine (agrees_locate hp hstore).bind ?_
  rintro place _ g _ ⟨rfl, hplace, hreached⟩
  refine (agrees_evaluate hsize).bind ?_
  rintro n _ g _ ⟨rfl, rfl⟩
  refine (agrees_coerce size.type .int).bind ?_
  rintro n _ g _ ⟨rfl, rfl⟩
  refine agrees_allocate.bind ?_
  rintro array c₁ g _ ⟨rfl, h₁⟩
  refine (agrees_coerce (.array elem) p.type).bind ?_
  rintro b _ g _ ⟨rfl, rfl⟩
  rw [hplace]
  exact agrees_store_advance (fun _ ↦ rfl) hreached h₁

/-- **Plain statements do what their code does.** -/
theorem agrees_perform {home : CompiledModule} (hplain : Plain st) (hst : Prepared c.active.env st)
    (hchecked : st.Checked home returns) (prog : Program) :
    Agrees (perform prog st) (st.code returns i) below c f stack fun _ c' s ↦
    Completes st stack c c' s := by
  cases st with
  | skip =>
    refine agrees_advance.mono ?_
    rintro _ _ _ ⟨rfl, rfl⟩
    exact ⟨rfl, rfl, fun rs hrs ↦ hrs⟩
  | assign p v => exact agrees_assign hst.1 hst.2 hchecked.2 prog
  | define k t => exact agrees_define hst prog
  | write r v => exact agrees_write hst prog
  | arith a l r => exact agrees_arith hst.1 hst.2 prog
  | print v => exact agrees_printing hst prog
  | newArray p elem size => exact agrees_newArray hst.1 hst.2 hchecked.2.2 prog
  | truth | compare | jump | call | ret | newObject => exact hplain.elim

/-! ## Conditions -/

/-- The condition on which a conditional goes on with the next instruction. -/
def condition : Statement → Act Bool
  | .truth negated v => do
    let a ← evaluate v
    return a.truth != negated
  | .compare test l r => do
    let x ← evaluate l
    let y ← evaluate r
    let (x, y) ← if l.type.tag.isNumeric && r.type.tag.isNumeric then promote l.type r.type x y
      else pure (x, y)
    attempt (testResult test x y)
  | _ => return true

theorem truth_ofBool (b : Bool) : (Value.ofBool b).truth = b := by
  cases b <;> rfl

theorem agrees_truth (negated : Bool) (hv : Ready c.active.env v) :
    Agrees (evaluate v >>= fun a ↦ pure (a.truth != negated))
      (v.code ++ if negated then [.not] else []) below c f stack
      fun b c' s ↦ c' = c ∧ ∃ x : Value, x.truth = b ∧ s = x :: stack := by
  refine (agrees_evaluate hv).bind ?_
  rintro a _ g _ ⟨rfl, rfl⟩
  cases negated with
  | false => exact agrees_pure _ ⟨rfl, a, (Bool.bne_false _).symm, rfl⟩
  | true =>
    refine agrees_shuffle rfl ⟨rfl, .ofBool (!a.truth), ?_, rfl⟩
    rw [truth_ofBool, Bool.bne_true]

theorem agrees_test (test : Test) :
    Agrees (attempt (testResult test x y)) [.test test] below c f (y :: x :: stack)
      fun b c' s ↦ c' = c ∧ ∃ x : Value, x.truth = b ∧ s = x :: stack := by
  intro hf
  have heffect : effect (viewOf c f below (y :: x :: stack)) f (.test test) =
      (viewOf c f below (y :: x :: stack)).result f stack
      (Value.ofBool <$> testResult test x y) := rfl
  cases hr : testResult test x y with
  | ok b =>
    rw [hr] at heffect
    exact ⟨f.next, .ofBool b :: stack, course_single heffect, rfl, hf.next, .refl c, rfl,
      .ofBool b, truth_ofBool b, rfl⟩
  | error z =>
    rw [hr] at heffect
    exact ⟨_, course_single_fault heffect, rfl, rfl⟩

theorem agrees_compare (test : Test) (hl : Ready c.active.env l) (hr : Ready c.active.env r) :
    Agrees (do
        let x ← evaluate l
        let y ← evaluate r
        let (x, y) ← if l.type.tag.isNumeric && r.type.tag.isNumeric then promote l.type r.type x y
          else pure (x, y)
        attempt (testResult test x y))
      (l.code ++ (r.code ++ ((if bothNumeric l.type r.type then promotion l.type r.type
        else []) ++ [.test test]))) below c f stack
      fun b c' s ↦ c' = c ∧ ∃ x : Value, x.truth = b ∧ s = x :: stack := by
  refine (agrees_evaluate hl).bind ?_
  rintro x _ g _ ⟨rfl, rfl⟩
  refine (agrees_evaluate hr).bind ?_
  rintro y _ g _ ⟨rfl, rfl⟩
  rw [bothNumeric]
  split
  · refine (agrees_promote l.type r.type).bind ?_
    rintro ⟨x, y⟩ _ g _ ⟨rfl, rfl⟩
    exact agrees_test test
  · exact agrees_test test

/-- The statement goes on with the next instruction on a condition. -/
def Conditional : Statement → Prop
  | .truth _ _ | .compare _ _ _ => True
  | _ => False

/-- **The condition of a conditional is left on the stack**, and then comes the jump. -/
theorem agrees_condition (hcond : Conditional st) (hst : Prepared c.active.env st) :
    ∃ xs, st.code returns i = xs ++ [.jumpFalse (i + 2)] ∧ Agrees (condition st) xs below c f stack
        fun b c' s ↦ c' = c ∧ ∃ x : Value, x.truth = b ∧ s = x :: stack := by
  cases st with
  | truth negated v => exact ⟨_, rfl, agrees_truth negated hst⟩
  | compare test l r =>
    refine ⟨_, ?_, agrees_compare test hst.1 hst.2⟩
    simp [Statement.code]
  | _ => exact hcond.elim

end Perform

end ClassAsm.Correctness
