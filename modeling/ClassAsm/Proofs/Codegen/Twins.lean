import ClassAsm.Proofs.Codegen.Procedure

/-!
# Generating code in two modules

Two modules that declare the same classes in another order are told apart by little: a class and a
method have another index, and the words that name them differ.  `Twins x y` says that two steps of
generation, one in each module, go the same way: both complain, or both end with the same result in
states that only differ in such words.

## How it is put together

* `Counterpart` relates two words, and `Counterparts` two pieces of code.  A jump that is to be
  filled in is a plain word (`State.Patchable`), so that filling it in keeps them related.
* The rules follow the structure of a step, as those of `Ends` do: `Twins.bind` for one step behind
  the other, `Twins.get_bind` where the state is looked at, and `twins_of_quiet` for steps that have
  nothing to do with code, whatever else they do.
* There is one lemma for each function of the generator, up to `twins_lower` for an instruction,
  `twins_settle` for the passes over a block and `both_procedure`.
* What the two modules have in common is said by `Peers`.  Only `member`, `lowerCall` and
  `lowerNewObject` look a class or a method up, so that only their lemmas use it.

Complaints are not compared.  Of a program that is refused it is only claimed that it is refused in
any other order, too.
-/

namespace ClassAsm

namespace Bytecode

variable {w w' : Word} {classes methods : Nat → Nat → Prop}

/-- Whether the argument of an operation is the index of a class or a method. -/
def Op.isReference : Op → Bool
  | .new | .call => true
  | _ => false

/-- A word whose argument is not the index of a class or a method. -/
def Word.Plain (w : Word) : Prop := ∀ op : Op, w.opByte = op.byte → op.isReference = false

theorem Op.plain_word {op : Op} (h : op.isReference = false) (arg : Nat) : (op.word arg).Plain := by
  intro op' hop
  have hsame := congrArg ofByte? hop
  rw [opByte_word, ofByte?_byte, ofByte?_byte] at hsame
  rwa [← Option.some.inj hsame]

theorem Word.Plain.pack (h : w.Plain) (arg : Nat) : (Word.pack w.opByte arg).Plain := by
  rw [Plain, opByte_pack]
  exact h

/-- Words that do the same in two modules, where `classes` and `methods` relate the indices of the
same class and of the same method. -/
inductive Counterpart (classes methods : Nat → Nat → Prop) : Word → Word → Prop where
  | same {w : Word} : w.Plain → Counterpart classes methods w w
  | new {i j : Nat} : classes i j → Counterpart classes methods (Op.new.word i) (Op.new.word j)
  | call {i j : Nat} : methods i j → Counterpart classes methods (Op.call.word i) (Op.call.word j)

theorem Counterpart.eq_of_plain (h : Counterpart classes methods w w') (hw : w.Plain) : w' = w := by
  cases h with
  | same => rfl
  | new => cases hw .new (Op.opByte_word _ _)
  | call => cases hw .call (Op.opByte_word _ _)

/-- Code of the same length whose words do the same. -/
structure Counterparts (classes methods : Nat → Nat → Prop) (code code' : Array Word) : Prop where
  size : code'.size = code.size
  words : ∀ (i : Nat) w w', code[i]? = some w → code'[i]? = some w' →
    Counterpart classes methods w w'

namespace Counterparts

variable {code code' : Array Word} {i : Nat}

theorem empty : Counterparts classes methods #[] #[] := ⟨rfl, nofun⟩

theorem push (h : Counterparts classes methods code code') (hw : Counterpart classes methods w w') :
    Counterparts classes methods (code.push w) (code'.push w') := by
  refine ⟨by rw [Array.size_push, Array.size_push, h.size], fun i v v' hv hv' ↦ ?_⟩
  rw [Array.getElem?_push] at hv hv'
  rw [h.size] at hv'
  split at hv
  · rename_i hi
    rw [if_pos hi] at hv'
    cases hv
    cases hv'
    exact hw
  · rename_i hi
    rw [if_neg hi] at hv'
    exact h.words i v v' hv hv'

theorem exists_word (h : Counterparts classes methods code code') (hw : code[i]? = some w) :
    ∃ w', code'[i]? = some w' ∧ Counterpart classes methods w w' := by
  have hi : i < code'.size := h.size ▸ (Array.getElem?_eq_some_iff.1 hw).1
  exact ⟨code'[i], Array.getElem?_eq_getElem hi, h.words i w _ hw (Array.getElem?_eq_getElem hi)⟩

/-- A plain word is changed in the same way. -/
theorem modify (h : Counterparts classes methods code code') (hw : code[i]? = some w)
    (hplain : w.Plain) {f : Word → Word} (hf : (f w).Plain) :
    Counterparts classes methods (code.modify i f) (code'.modify i f) := by
  refine ⟨by rw [Array.size_modify, Array.size_modify, h.size], fun j v v' hv hv' ↦ ?_⟩
  rw [Array.getElem?_modify] at hv hv'
  by_cases hij : i = j
  · -- A plain word is its own counterpart, and so is what becomes of it.
    obtain ⟨w', hw', hsame⟩ := h.exists_word hw
    rw [if_pos hij, ← hij, hw, Option.map_some, Option.some.injEq] at hv
    rw [if_pos hij, ← hij, hw', Option.map_some, Option.some.injEq, hsame.eq_of_plain hplain] at hv'
    rw [← hv, ← hv']
    exact .same hf
  · rw [if_neg hij] at hv hv'
    exact h.words j v v' hv hv'

end Counterparts

/-- Procedures that only differ in words that do the same. -/
structure Procedure.Counterpart (classes methods : Nat → Nat → Prop) (p p' : Procedure) : Prop where
  rest : p' = { p with code := p'.code }
  code : Counterparts classes methods p.code p'.code

end Bytecode

namespace Codegen

open Bytecode Program

variable {op : Op} {ctx : Context} {o : ClassRef} {code : Array Word}

/-! ## Rules -/

variable {c c' : Cause} {b : Prop}

/-- Which classes and which methods of two modules are the same, by their indices. -/
structure Renaming where
  classes : Nat → Nat → Prop
  methods : Nat → Nat → Prop

variable {ρ : Renaming}

section Rules

variable {α β : Type}

/-- All jumps that are to be filled in are plain words. -/
def State.Patchable (s : State) : Prop :=
  ∀ p ∈ s.patches, ∃ w, s.code[p.position]? = some w ∧ w.Plain

variable (ρ) in
/-- Two results that only differ in words that do the same. -/
inductive Twin : Except Error (α × State) → Except Error (α × State) → Prop where
  | ok {a : α} {s : State} {code : Array Word} : Counterparts ρ.classes ρ.methods s.code code →
      s.Patchable → Twin (.ok (a, s)) (.ok (a, { s with code }))
  | error {e e' : Error} : Twin (.error e) (.error e')

variable (ρ) in
/-- Two steps that end in such results, if they start in such states. -/
def Twins (x y : Gen α) : Prop :=
  ∀ (s : State) (code : Array Word), Counterparts ρ.classes ρ.methods s.code code → s.Patchable →
    Twin ρ (x s) (y { s with code })

variable (ρ) in
/-- A step that is the same one in both modules. -/
abbrev Common (x : Gen α) : Prop := Twins ρ x x

variable (ρ) in
/-- A step that is made in the context of a class and in that of the class `o` of the other
module. -/
abbrev Moved (ctx : Context) (o : ClassRef) (f : Context → Gen α) : Prop :=
  Twins ρ (f ctx) (f { ctx with owner := o })

theorem twins_pure (a : α) : Common ρ (pure a) := fun _ _ hcode hs ↦ .ok hcode hs

theorem twins_fail : Twins ρ (fail c : Gen α) (fail c') := fun _ _ _ _ ↦ .error

theorem twins_stop {r r' : Abort} : Twins ρ (stop r : Gen α) (stop r') := fun _ _ _ _ ↦ .error

theorem twins_throw {e e' : Error} : Twins ρ (throw e : Gen α) (throw e') := fun _ _ _ _ ↦ .error

theorem Twins.bind {x y : Gen α} {f g : α → Gen β} (h : Twins ρ x y)
    (hf : ∀ a, Twins ρ (f a) (g a)) : Twins ρ (x >>= f) (y >>= g) := by
  intro s code hcode hs
  have hxy := h s code hcode hs
  show Twin ρ (x s >>= fun p ↦ f p.1 p.2) (y { s with code } >>= fun p ↦ g p.1 p.2)
  generalize x s = r at hxy
  generalize y { s with code } = r' at hxy
  cases hxy with
  | ok hcode hs => exact hf _ _ _ hcode hs
  | error => exact .error

theorem Twins.fail_bind {f g : α → Gen β} : Twins ρ (fail c >>= f) (fail c' >>= g) :=
  fun _ _ _ _ ↦ .error

theorem Twins.ite [Decidable b] {x y x' y' : Gen α} (h : b → Twins ρ x x')
    (h' : ¬b → Twins ρ y y') : Twins ρ (if b then x else y) (if b then x' else y') := by
  by_cases hb : b
  · rw [if_pos hb, if_pos hb]
    exact h hb
  · rw [if_neg hb, if_neg hb]
    exact h' hb

theorem Twins.check [Decidable b] {f g : Unit → Gen α} (h : ¬b → Twins ρ (f ()) (g ())) :
    Twins ρ (if b then fail c >>= f else f ()) (if b then fail c' >>= g else g ()) :=
  .ite (fun _ ↦ .fail_bind) h

/-- A step that looks at the state, but not at the words of the code. -/
theorem Twins.get_bind {f g : State → Gen α} (h : ∀ s code, Twins ρ (f s) (g { s with code })) :
    Twins ρ (get >>= f) (get >>= g) := fun s code hcode hs ↦ h s code s code hcode hs

/-- A step that neither looks at the code nor changes it. -/
theorem twins_of_quiet {x : Gen α}
    (h : ∀ s, (∃ a t, x s = .ok (a, t) ∧ t.code = s.code ∧ t.patches = s.patches ∧
        ∀ code, x { s with code } = .ok (a, { t with code })) ∨
      ∃ e, x s = .error e ∧ ∀ code, ∃ e', x { s with code } = .error e') : Common ρ x := by
  intro s code hcode hs
  obtain ⟨a, t, hx, hcode', hpatches, hy⟩ | ⟨e, hx, hy⟩ := h s
  · rw [hx, hy code]
    refine .ok (hcode' ▸ hcode) fun p hp ↦ ?_
    rw [hcode']
    exact hs p (hpatches ▸ hp)
  · obtain ⟨e', hy⟩ := hy code
    rw [hx, hy]
    exact .error

/-- A change of the state that neither looks at the code nor changes it. -/
def Quiet (f : State → State) : Prop :=
  ∀ s, (f s).code = s.code ∧ (f s).patches = s.patches ∧
  ∀ code, f { s with code } = { f s with code }

theorem twins_modify {f : State → State} (h : Quiet f) : Common ρ (modify f) := by
  refine twins_of_quiet fun s ↦ .inl ⟨(), f s, rfl, (h s).1, (h s).2.1, fun code ↦ ?_⟩
  rw [← (h s).2.2 code]
  rfl

/-- A change of the state that only looks at the size of the code. -/
theorem twins_modify_size (f : Nat → State → State) (h : ∀ n, Quiet (f n)) :
    Common ρ (modify fun s ↦ f s.code.size s) := by
  intro s code hs
  have hmodify := twins_modify (h s.code.size) s code hs
  show _ → Twin ρ _ (.ok ((), f code.size { s with code }))
  rw [hs.size]
  exact hmodify

end Rules

/-! ## The primitive steps -/

variable {res res' : List Char → Gen Place}

theorem twins_emit_counterpart {i j : Nat}
    (h : Counterpart ρ.classes ρ.methods (op.word i) (op.word j)) :
    Twins ρ (emit op i) (emit op j) := by
  intro s code hcode hs
  refine .ok (hcode.push h) fun p hp ↦ ?_
  obtain ⟨w, hw, hplain⟩ := hs p hp
  refine ⟨w, ?_, hplain⟩
  rw [Array.getElem?_push, if_neg, hw]
  exact Nat.ne_of_lt (Array.getElem?_eq_some_iff.1 hw).1

theorem twins_emit {arg : Nat} (h : op.isReference = false) : Common ρ (emit op arg) :=
  twins_emit_counterpart (.same (Op.plain_word h arg))

theorem twins_constant (v : Value) : Common ρ (constant v) := by
  refine twins_of_quiet fun s ↦ .inl ?_
  unfold constant
  dsimp only
  cases s.consts.findIdx? (sharesConstant v) with
  | some i => exact ⟨i, s, rfl, rfl, rfl, fun _ ↦ rfl⟩
  | none => exact ⟨_, _, rfl, rfl, rfl, fun _ ↦ rfl⟩

theorem twins_typeIndex (t : Ty) : Common ρ (typeIndex t) := by
  refine twins_of_quiet fun s ↦ .inl ?_
  unfold typeIndex
  dsimp only
  cases s.types.findIdx? (· = t) with
  | some i => exact ⟨i, s, rfl, rfl, rfl, fun _ ↦ rfl⟩
  | none => exact ⟨_, _, rfl, rfl, rfl, fun _ ↦ rfl⟩

theorem twins_push (t : Ty) : Common ρ (push t) := twins_modify fun _ ↦ ⟨rfl, rfl, fun _ ↦ rfl⟩

theorem twins_pop (n : Nat) : Common ρ (pop n) := by
  refine twins_of_quiet fun s ↦ ?_
  unfold pop
  dsimp only
  by_cases hn : n ≤ s.stack.length
  · simp only [if_pos hn]
    exact .inl ⟨_, _, rfl, rfl, rfl, fun _ ↦ rfl⟩
  · simp only [if_neg hn]
    exact .inr ⟨_, rfl, fun _ ↦ ⟨_, rfl⟩⟩

theorem twins_peek (i : Nat) : Common ρ (peek i) := by
  refine twins_of_quiet fun s ↦ ?_
  unfold peek
  dsimp only
  cases s.stack[i]? with
  | some t => exact .inl ⟨t, s, rfl, rfl, rfl, fun _ ↦ rfl⟩
  | none => exact .inr ⟨_, rfl, fun _ ↦ ⟨_, rfl⟩⟩

theorem twins_retype (i : Nat) (t : Ty) : Common ρ (retype i t) := by
  refine twins_of_quiet fun s ↦ ?_
  unfold retype
  dsimp only
  by_cases hi : i < s.stack.length
  · simp only [if_pos hi]
    exact .inl ⟨_, _, rfl, rfl, rfl, fun _ ↦ rfl⟩
  · simp only [if_neg hi]
    exact .inr ⟨_, rfl, fun _ ↦ ⟨_, rfl⟩⟩

theorem twins_emitConstant (v : Value) : Common ρ (emitConstant v) :=
  (twins_constant v).bind fun _ ↦ twins_emit rfl

theorem twins_convertTop (t : Ty) : Common ρ (convertTop t) := by
  refine (twins_peek 0).bind fun source ↦ .ite (fun _ ↦ twins_pure ()) fun _ ↦ ?_
  exact (twins_typeIndex t).bind fun i ↦ Twins.bind (twins_emit rfl) fun _ ↦ twins_retype 0 t

theorem twins_writeRegister (r : Register) (t : Ty) : Common ρ (writeRegister r t) :=
  Twins.bind (twins_emit rfl) fun _ ↦ (twins_pop 1).bind fun _ ↦ twins_modify fun _ ↦
  ⟨rfl, rfl, fun _ ↦ rfl⟩

theorem twins_readRegister (r : Register) (construct : String) :
    Common ρ (readRegister r construct) := by
  refine .get_bind fun s code ↦ ?_
  dsimp only
  cases s.registers.get r with
  | unset => exact twins_fail
  | mixed => exact .get_bind fun _ _ ↦ twins_fail
  | typed t => exact Twins.bind (twins_emit rfl) fun _ ↦ (twins_push t).bind fun _ ↦ twins_pure t

theorem twins_edge (ctx : Context) (o : ClassRef) (target : Nat) :
    Moved ρ ctx o (edge · target) := by
  by_cases hout : ctx.body.code.size ≤ target
  · simp only [Moved, edge, if_pos hout]
    exact twins_modify fun _ ↦ ⟨rfl, rfl, fun _ ↦ rfl⟩
  · simp only [Moved, edge, if_neg hout]
    refine twins_of_quiet fun s ↦ .inl ?_
    by_cases hback : target ≤ s.current
    · refine ⟨(), _, congrArg (fun t ↦ Except.ok ((), t)) (if_pos hback), rfl, rfl, fun code ↦ ?_⟩
      exact congrArg (fun t ↦ Except.ok ((), t)) (if_pos hback)
    · refine ⟨(), _, congrArg (fun t ↦ Except.ok ((), t)) (if_neg hback), rfl, rfl, fun code ↦ ?_⟩
      exact congrArg (fun t ↦ Except.ok ((), t)) (if_neg hback)

theorem twins_jumpTo (ctx : Context) (o : ClassRef) (target : Nat) (hop : op.isReference = false) :
    Moved ρ ctx o (jumpTo · op target) := by
  intro s code hcode hs
  have hplain := Op.plain_word hop 0
  let jumped (code : Array Word) (position : Nat) : State := { s with
    code := code.push (op.word 0), lines := s.lines.push s.line
    patches := s.patches.push ⟨position, target⟩ }
  have hpatchable : (jumped s.code s.code.size).Patchable := by
    intro p hp
    obtain hp | rfl := Array.mem_push.1 hp
    · obtain ⟨w, hw, hplain⟩ := hs p hp
      refine ⟨w, ?_, hplain⟩
      rw [Array.getElem?_push, if_neg (Nat.ne_of_lt (Array.getElem?_eq_some_iff.1 hw).1), hw]
    · exact ⟨op.word 0, by simp [jumped], hplain⟩
  show Twin ρ (edge ctx target (jumped s.code s.code.size))
    (edge { ctx with owner := o } target (jumped code code.size))
  rw [hcode.size]
  exact twins_edge ctx o target _ _ (hcode.push (.same hplain)) hpatchable

theorem twins_load (p : Place) : Common ρ (load p) := by
  have hpush : Common ρ (push p.type) := twins_push p.type
  unfold load
  cases p.access with
  | slot index => exact .bind (twins_emit rfl) fun _ ↦ hpush
  | this => exact .bind (twins_emit rfl) fun _ ↦ hpush
  | field index => exact .bind (twins_emit rfl) fun _ ↦ (twins_pop 1).bind fun _ ↦ hpush
  | item => exact .bind (twins_emit rfl) fun _ ↦ (twins_pop 2).bind fun _ ↦ hpush

theorem twins_store (p : Place) : Common ρ (store p) := by
  unfold store
  refine (twins_peek 0).bind fun source ↦ .check fun _ ↦ .check fun _ ↦
    (twins_convertTop p.type).bind fun _ ↦ ?_
  cases p.access with
  | slot index => exact .bind (twins_emit rfl) fun _ ↦ twins_pop 1
  | field index => exact .bind (twins_emit rfl) fun _ ↦ twins_pop 2
  | item => exact .bind (twins_emit rfl) fun _ ↦ twins_pop 3
  | this => exact twins_pure ()

theorem twins_subscript (hres : ∀ text, Twins ρ (res text) (res' text)) (expr : List Char) :
    Twins ρ (subscript res expr) (subscript res' expr) := by
  unfold subscript
  cases Number.readInt64? expr with
  | some i => exact (twins_emitConstant _).bind fun _ ↦ twins_push .int
  | none =>
    refine .check fun _ ↦ (hres expr).bind fun p ↦ (twins_load p).bind fun _ ↦
      (twins_peek 0).bind fun t ↦ ?_
    exact .check fun _ ↦ twins_convertTop .int

/-! ## Names -/

/-- Two classes that are the same one in two modules: what is found from there is the same, too. -/
structure Peers (ρ : Renaming) (o o' : ClassRef) : Prop where
  name : o'.name = o.name
  fields : o'.get.fields = o.get.fields
  isClass : ∀ name, (o'.home.classIndex? name).isSome = (o.home.classIndex? name).isSome
  found : ∀ name, (o.home.class? name = none ∧ o'.home.class? name = none) ∨
    ∃ c c', o.home.class? name = some c ∧ o'.home.class? name = some c' ∧
    ρ.classes c.index c'.index ∧
      c'.name = c.name ∧ c'.get.fields = c.get.fields ∧ c'.get.isAbstract = c.get.isAbstract ∧
      (c'.index.val = o'.index.val ↔ c.index.val = o.index.val)
  callee : ∀ name, (o.get.methodIndex? name = none ∧ o'.get.methodIndex? name = none) ∨
    ∃ i i' p, o.get.methodIndex? name = some i ∧ o'.get.methodIndex? name = some i' ∧
    ρ.methods i i' ∧
      o.get.methods[i]? = some p ∧ o'.get.methods[i']? = some p

section Names

theorem twins_declare (name : String) (t : Ty) : Moved ρ ctx o (declare · name t) := by
  intro s code hcode hs
  show Twin ρ ((if 64 ≤ s.nextLocal then _ else _ : Gen Local) s)
    ((if 64 ≤ s.nextLocal then _ else _ : Gen Local) _)
  by_cases hfull : 64 ≤ s.nextLocal
  · rw [if_pos hfull, if_pos hfull]
    exact .error
  · rw [if_neg hfull, if_neg hfull]
    exact .ok hcode hs

variable (h : Peers ρ ctx.owner o)

include h

theorem twins_resolveType (name : String) : Moved ρ ctx o (resolveType · name) := by
  have hclass : Context.isClass { ctx with owner := o } = ctx.isClass := funext h.isClass
  dsimp only [Moved, resolveType]
  rw [hclass]
  cases Ty.ofName? ctx.isClass name with
  | some t => exact twins_pure t
  | none => exact twins_fail

/-- A field of another object: it is found in the class of the same name. -/
theorem twins_member (t : Ty) (name : String) : Moved ρ ctx o (member · t name) := by
  cases t with
  | object className =>
    dsimp only [Moved, member]
    obtain ⟨hc, hc'⟩ | ⟨c, c', hc, hc', -, hname, hfields, -, hown⟩ := h.found className
    · rw [hc, hc']
      exact twins_fail
    · have hindex : c'.get.fieldIndex? name = c.get.fieldIndex? name := by
        rw [CompiledClass.fieldIndex?, hfields]
        rfl
      rw [hc, hc']
      dsimp only
      rw [hindex, hfields]
      cases c.get.fieldIndex? name with
      | none => exact twins_fail
      | some i =>
        dsimp only
        cases c.get.fields[i]? with
        | none => exact twins_stop
        | some f =>
          dsimp only
          have hown : decide (c'.index.val ≠ o.index.val) =
            decide (c.index.val ≠ ctx.owner.index.val) := decide_eq_decide.2 (not_congr hown)
          rw [hown]
          exact .ite (fun _ ↦ twins_fail) fun _ ↦ twins_pure _
  | _ => exact twins_fail

theorem twins_root (name : String) : Moved ρ ctx o (root · name) := by
  have hindex : o.get.fieldIndex? name = ctx.owner.get.fieldIndex? name := by
    rw [CompiledClass.fieldIndex?, h.fields]
    rfl
  unfold root
  refine .get_bind fun s code ↦ ?_
  have hlocal : State.local? { s with code := code } name = s.local? name := rfl
  rw [hlocal]
  cases s.local? name with
  | some l => exact twins_pure _
  | none =>
    dsimp only
    rw [hindex, h.fields]
    cases ctx.owner.get.fieldIndex? name with
    | none => exact twins_fail
    | some i =>
      dsimp only
      cases ctx.owner.get.fields[i]? with
      | none => exact twins_stop
      | some f =>
        dsimp only
        refine .bind (twins_emit rfl) fun _ ↦ ?_
        have hname : o.get.name = ctx.owner.get.name := h.name
        rw [hname]
        exact (twins_push _).bind fun _ ↦ twins_pure _

theorem twins_segment (hres : ∀ text, Twins ρ (res text) (res' text)) (chain : String)
    (previous : Option String) (seg : List Char) : Twins ρ (segment ctx res chain previous seg)
      (segment { ctx with owner := o } res' chain previous seg) := by
  unfold segment
  dsimp only
  split
  · exact twins_stop
  · exact twins_fail
  · refine (twins_peek 0).bind fun t ↦ ?_
    cases t with
    | array elem => exact (twins_subscript hres _).bind fun _ ↦ twins_pure _
    | bareArray => exact twins_stop
    | _ => exact twins_fail
  · refine .ite (fun _ ↦ ?_) fun _ ↦ twins_root h _
    rw [h.name]
    exact twins_pure _
  · exact .check fun _ ↦ (twins_peek 0).bind fun t ↦ twins_member h t _

theorem twins_segmentsFrom (hres : ∀ text, Twins ρ (res text) (res' text)) (chain : String)
    (p : Place) (before : String) (rest : List (List Char)) :
    Twins ρ (segmentsFrom ctx res chain p before rest)
      (segmentsFrom { ctx with owner := o } res' chain p before rest) := by
  induction rest generalizing p before with
  | nil => exact twins_pure p
  | cons seg rest ih =>
    exact (twins_load p).bind fun _ ↦ (twins_segment h hres chain (some before) seg).bind fun next ↦
      ih next _

theorem twins_resolveWithin (fuel : Nat) (chain : List Char) :
    Moved ρ ctx o (resolveWithin · fuel chain) := by
  induction fuel generalizing chain with
  | zero => exact twins_stop
  | succ fuel ih =>
    dsimp only [Moved]
    rw [resolveWithin, resolveWithin]
    cases splitChain chain with
    | none => exact twins_fail
    | some segments =>
      cases segments with
      | nil => exact twins_fail
      | cons seg rest =>
        exact (twins_segment h ih _ none seg).bind fun p ↦ twins_segmentsFrom h ih _ p _ rest

/-- **A chain is resolved in the same way.** -/
theorem twins_resolve (chain : String) : Moved ρ ctx o (resolve · chain) :=
  twins_resolveWithin h _ _

end Names

/-! ## Instructions -/

section Instructions

theorem twins_operandAt (ops : List Operand) (i : Nat) : Common ρ (operandAt ops i) := by
  unfold operandAt
  cases ops[i]? with
  | some o => exact twins_pure o
  | none => exact twins_stop

theorem twins_nameOf (op : Opcode) (o : Operand) : Common ρ (nameOf op o) := by
  cases o with
  | identifier name => exact twins_pure name
  | _ => exact twins_fail

theorem twins_literal (o : Operand) : Common ρ (literal o) := by
  unfold literal
  cases literal? o with
  | some l => exact twins_pure l
  | none => exact twins_stop

theorem twins_promote (op : Opcode) : Common ρ (promote op) := by
  refine (twins_peek 1).bind fun left ↦ (twins_peek 0).bind fun right ↦ .check fun _ ↦ ?_
  refine (twins_convertTop _).bind fun _ ↦ .ite (fun _ ↦ ?_) fun _ ↦ twins_pure _
  refine .bind (twins_emit rfl) fun _ ↦ (twins_typeIndex _).bind fun i ↦
    .bind (twins_emit rfl) fun _ ↦ ?_
  exact .bind (twins_emit rfl) fun _ ↦ (twins_retype 1 _).bind fun _ ↦ twins_pure _

theorem twins_emitArith (a : Arith) (t : Ty) : Common ρ (emitArith a t) := by
  cases t <;> exact twins_emit rfl

theorem twins_lowerDelete (ops : List Operand) : Common ρ (lowerDelete ops) := by
  refine (twins_operandAt ops 0).bind fun o ↦ (twins_nameOf .delete o).bind fun name ↦
    .get_bind fun s code ↦ ?_
  exact .check fun _ ↦ twins_modify fun _ ↦ ⟨rfl, rfl, fun _ ↦ rfl⟩

theorem twins_unreachable : Common ρ unreachable :=
  twins_modify fun _ ↦ ⟨rfl, rfl, fun _ ↦ rfl⟩

theorem twins_lowerLoop (i : Nat) : Common ρ (lowerLoop i) :=
  twins_modify_size (fun size s ↦ { s with loops := ⟨size, i⟩ :: s.loops }) fun _ _ ↦
  ⟨rfl, rfl, fun _ ↦ rfl⟩

theorem twins_lowerBreak : Common ρ lowerBreak := by
  refine .get_bind fun s code ↦ ?_
  dsimp only
  cases s.loops with
  | nil => exact twins_fail
  | cons top rest => exact twins_modify fun _ ↦ ⟨rfl, rfl, fun _ ↦ rfl⟩

theorem twins_skipNext (i : Nat) : Moved ρ ctx o (skipNext · i) :=
  .bind (twins_jumpTo ctx o (i + 2) rfl) fun _ ↦ twins_pop 1

theorem twins_lowerJump (instr : Instruction) : Moved ρ ctx o (lowerJump · instr) := by
  refine (twins_operandAt _ 0).bind fun operand ↦ (twins_nameOf _ operand).bind fun name ↦ ?_
  dsimp only
  cases ctx.body.label? name with
  | none => exact twins_fail
  | some target =>
    cases target with
    | ofNat index => exact .bind (twins_jumpTo ctx o index rfl) fun _ ↦ twins_unreachable
    | negSucc n => exact .bind (twins_emit rfl) fun _ ↦ twins_unreachable

theorem twins_lowerRepeat : Moved ρ ctx o lowerRepeat := by
  refine .get_bind fun s code ↦ ?_
  dsimp only
  cases s.loops with
  | nil => exact twins_fail
  | cons top rest =>
    exact .bind (twins_emit rfl) fun _ ↦ (twins_edge ctx o top.index).bind fun _ ↦ twins_unreachable

variable (h : Peers ρ ctx.owner o)

include h

theorem twins_operand (x : Operand) : Moved ρ ctx o (operand · x) := by
  cases x with
  | identifier chain =>
    exact (twins_resolve h chain).bind fun p ↦ (twins_load p).bind fun _ ↦ twins_pure p.type
  | returnValue => exact twins_readRegister .result "ret"
  | _ =>
    exact (twins_literal _).bind fun l ↦ (twins_emitConstant l.1).bind fun _ ↦
      (twins_push l.2).bind fun _ ↦ twins_pure l.2

theorem twins_operandPair (r : Register) (instr : Instruction) :
    Moved ρ ctx o (operandPair · r instr) := by
  unfold operandPair
  split
  · exact (twins_operand h _).bind fun _ ↦ (twins_operand h _).bind fun _ ↦ twins_pure ()
  · exact (twins_readRegister r _).bind fun _ ↦ (twins_operandAt _ 0).bind fun x ↦
      (twins_operand h x).bind fun _ ↦ twins_pure ()

theorem twins_lowerArith (a : Arith) (instr : Instruction) :
    Moved ρ ctx o (lowerArith · a instr) := by
  refine (twins_operandPair h .selected instr).bind fun _ ↦
    (twins_promote instr.op).bind fun common ↦ ?_
  refine (twins_emitArith a common).bind fun _ ↦ (twins_pop 2).bind fun _ ↦
    (twins_push common).bind fun _ ↦ ?_
  exact (twins_convertTop .float).bind fun _ ↦ twins_writeRegister .result .float

theorem twins_lowerTruth (negate : Bool) (instr : Instruction) :
    Moved ρ ctx o (lowerTruth · negate instr) := by
  have hrest : Common ρ (do
      let t ← peek
      if t ≠ .bool then fail (.notBool instr.op t)
      if negate then emit .not) :=
    (twins_peek 0).bind fun t ↦ .check fun _ ↦ .ite (fun _ ↦ twins_emit rfl) fun _ ↦ twins_pure ()
  unfold lowerTruth
  rcases instr.operands with _ | ⟨x, _ | ⟨y, rest⟩⟩
  · exact (twins_readRegister .comparing _).bind fun _ ↦ hrest
  · exact (twins_operand h x).bind fun _ ↦ hrest
  · exact (twins_readRegister .comparing _).bind fun _ ↦ hrest

theorem twins_lowerComparison {test : Op} (htest : test.isReference = false) (ordered : Bool)
    (instr : Instruction) : Moved ρ ctx o (lowerComparison · test ordered instr) := by
  have hrest : Common ρ (do emit test; pop 2; push .bool) :=
    (twins_emit htest).bind fun _ ↦ (twins_pop 2).bind fun _ ↦ twins_push .bool
  refine (twins_operandPair h .comparing instr).bind fun _ ↦ (twins_peek 1).bind fun left ↦
    (twins_peek 0).bind fun right ↦ .ite (fun _ ↦ ?_) fun _ ↦ ?_
  · exact (twins_promote instr.op).bind fun _ ↦ hrest
  · refine .ite (fun _ ↦ .fail_bind) fun _ ↦ ?_
    exact .ite (fun _ ↦ .fail_bind) fun _ ↦ hrest

theorem twins_lowerSet (ops : List Operand) : Moved ρ ctx o (lowerSet · ops) := by
  refine (twins_operandAt ops 0).bind fun target ↦ (twins_operandAt ops 1).bind fun source ↦ ?_
  refine (twins_nameOf .set target).bind fun name ↦ (twins_resolve h name).bind fun p ↦ ?_
  exact (twins_operand h source).bind fun _ ↦ twins_store p

theorem twins_lowerDefine (ops : List Operand) : Moved ρ ctx o (lowerDefine · ops) := by
  refine (twins_operandAt ops 0).bind fun x ↦ (twins_nameOf .define x).bind fun name ↦ ?_
  refine (twins_operandAt ops 1).bind fun form ↦ .check fun _ ↦
    (twins_operandAt ops 2).bind fun y ↦ ?_
  refine (twins_nameOf .define y).bind fun typeName ↦ .check fun _ ↦ .get_bind fun s code ↦
    .check fun _ ↦ ?_
  refine (twins_resolveType h typeName).bind fun t ↦ (twins_declare name t).bind fun l ↦ ?_
  exact (twins_emitConstant t.zero).bind fun _ ↦ twins_emit rfl

theorem twins_lowerWrite (r : Register) (ops : List Operand) : Moved ρ ctx o (lowerWrite · r ops) :=
  (twins_operandAt ops 0).bind fun x ↦ (twins_operand h x).bind fun t ↦ twins_writeRegister r t

theorem twins_lowerCall (ops : List Operand) : Moved ρ ctx o (lowerCall · ops) := by
  refine (twins_operandAt ops 0).bind fun x ↦ (twins_nameOf .call x).bind fun name ↦ ?_
  dsimp only
  obtain ⟨hi, hi'⟩ | ⟨i, i', p, hi, hi', hmethods, hp, hp'⟩ := h.callee name
  · rw [hi, hi']
    exact twins_fail
  · rw [hi, hi']
    dsimp only
    rw [hp, hp']
    refine (twins_emit_counterpart (.call hmethods)).bind fun _ ↦ .ite (fun _ ↦ ?_) fun _ ↦
      twins_pure ()
    exact (twins_push p.returns).bind fun _ ↦ twins_writeRegister .result p.returns

theorem twins_lowerPrint (ops : List Operand) : Moved ρ ctx o (lowerPrint · ops) :=
  (twins_operandAt ops 0).bind fun x ↦ (twins_operand h x).bind fun _ ↦ .bind
  (twins_emit rfl) fun _ ↦ twins_pop 1

theorem twins_lowerReturn (ops : List Operand) : Moved ρ ctx o (lowerReturn · ops) := by
  refine twins_unreachable.bind fun _ ↦ ?_
  cases ops with
  | nil => exact .check fun _ ↦ twins_emit rfl
  | cons x rest =>
    refine .check fun _ ↦ (twins_operand h x).bind fun t ↦ .check fun _ ↦
      (twins_convertTop _).bind fun _ ↦ ?_
    exact .bind (twins_emit rfl) fun _ ↦ twins_pop 1

theorem twins_lowerNewArray (p : Place) (typeName : String) (t : Ty) (size : Operand) :
    Moved ρ ctx o (lowerNewArray · p typeName t size) := by
  refine (twins_operand h size).bind fun sizeType ↦ .check fun _ ↦
    (twins_convertTop .int).bind fun _ ↦ ?_
  refine (twins_typeIndex _).bind fun i ↦ .bind (twins_emit rfl) fun _ ↦
    (twins_pop 1).bind fun _ ↦ ?_
  exact (twins_push _).bind fun _ ↦ twins_store p

theorem twins_lowerNewObject (p : Place) (typeName : String) (t : Ty) :
    Moved ρ ctx o (lowerNewObject · p typeName t) := by
  cases t with
  | object className =>
    dsimp only [Moved, lowerNewObject]
    obtain ⟨hc, hc'⟩ | ⟨c, c', hc, hc', hclasses, -, -, habstract, -⟩ := h.found className
    · rw [hc, hc']
      exact twins_stop
    · rw [hc, hc']
      dsimp only
      rw [habstract]
      refine .check fun _ ↦ (twins_emit_counterpart (.new hclasses)).bind fun _ ↦
        (twins_push _).bind fun _ ↦ ?_
      exact twins_store p
  | _ => exact twins_fail

theorem twins_lowerNew (ops : List Operand) : Moved ρ ctx o (lowerNew · ops) := by
  refine (twins_operandAt ops 0).bind fun x ↦ (twins_nameOf .new x).bind fun name ↦ ?_
  refine (twins_operandAt ops 1).bind fun y ↦ (twins_nameOf .new y).bind fun typeName ↦ ?_
  refine (twins_resolveType h typeName).bind fun t ↦ (twins_resolve h name).bind fun p ↦ ?_
  split
  · exact twins_lowerNewArray h p typeName t _
  · exact twins_lowerNewObject h p typeName t

/-- **An instruction is generated in the same way.** -/
theorem twins_lower (i : Nat) (instr : Instruction) : Moved ρ ctx o (lower · i instr) := by
  unfold lower
  cases instr.op with
  | set => exact twins_lowerSet h _
  | define => exact twins_lowerDefine h _
  | delete => exact twins_lowerDelete _
  | select | compare => exact twins_lowerWrite h _ _
  | add | sub | mul | div | rem => exact twins_lowerArith h _ instr
  | isTrue | isFalse => exact (twins_lowerTruth h _ instr).bind fun _ ↦ twins_skipNext i
  | isEqual => exact .bind (twins_lowerComparison h rfl false instr) fun _ ↦ twins_skipNext i
  | isUnequal => exact .bind (twins_lowerComparison h rfl false instr) fun _ ↦ twins_skipNext i
  | isGreater => exact .bind (twins_lowerComparison h rfl true instr) fun _ ↦ twins_skipNext i
  | isLess => exact .bind (twins_lowerComparison h rfl true instr) fun _ ↦ twins_skipNext i
  | goto | jump => exact twins_lowerJump instr
  | loop => exact twins_lowerLoop i
  | repeatLoop => exact twins_lowerRepeat
  | breakLoop => exact twins_lowerBreak
  | call => exact twins_lowerCall h _
  | print => exact twins_lowerPrint h _
  | ret => exact twins_lowerReturn h _
  | new => exact twins_lowerNew h _
  | defLabel | unknown => exact twins_throw

end Instructions

/-! ## Blocks -/

theorem twins_checkJumps (body : Block) : Common ρ (checkJumps body) := by
  unfold checkJumps
  cases lostJump? body with
  | none => exact twins_pure ()
  | some target => exact twins_stop

theorem twins_epilogue (returns : Ty) : Common ρ (epilogue returns) := by
  refine (twins_modify_size (fun size s ↦ { s with offsets := s.offsets.push size })
    fun _ _ ↦ ⟨rfl, rfl, fun _ ↦ rfl⟩).bind fun _ ↦ ?_
  refine .ite (fun _ ↦ twins_emit rfl) fun _ ↦ ?_
  exact (twins_emitConstant returns.zero).bind fun _ ↦ twins_emit rfl

theorem twins_instruction (h : Peers ρ ctx.owner o) (i : Nat) (instr : Instruction) :
    Moved ρ ctx o (instruction · i instr) := by
  have henter : Moved ρ ctx o (enter · i) := twins_modify fun _ ↦ ⟨rfl, rfl, fun _ ↦ rfl⟩
  refine henter.bind fun _ ↦ ?_
  refine (twins_modify_size (fun size s ↦
    { s with offsets := s.offsets.push size, line := instr.line }) fun _ _ ↦
    ⟨rfl, rfl, fun _ ↦ rfl⟩).bind fun _ ↦ ?_
  refine (twins_lower h i instr).bind fun _ ↦ .get_bind fun s code ↦ ?_
  exact .ite (fun _ ↦ twins_throw) fun _ ↦ twins_pure ()

theorem twins_instructionsFrom (h : Peers ρ ctx.owner o) (i : Nat) (instrs : List Instruction) :
    Moved ρ ctx o (instructionsFrom · i instrs) := by
  induction instrs generalizing i with
  | nil => exact twins_pure ()
  | cons instr rest ih => exact (twins_instruction h i instr).bind fun _ ↦ ih (i + 1)

/-- As the passes go the same way, both come to rest after the same number of them. -/
theorem twins_settle (h : Peers ρ ctx.owner o) (fuel : Nat) (back : Flow) :
    Moved ρ ctx o fun ctx s ↦ (settle ctx s fuel back).map fun t ↦ ((), t) := by
  induction fuel generalizing back with
  | zero => exact fun _ _ _ _ ↦ .error
  | succ fuel ih =>
    intro s code hcode hs
    have hpass :
        Twin ρ (pass { ctx with back } s) (pass { ctx with owner := o, back } { s with code }) :=
      twins_instructionsFrom (show Peers ρ { ctx with back }.owner o from h) 0 _ s code hcode hs
    dsimp only
    rw [settle, settle]
    generalize pass { ctx with back } s = r at hpass
    generalize pass { ctx with owner := o, back } { s with code } = r' at hpass
    cases hpass with
    | error => exact .error
    | @ok _ t code' hcode' ht =>
      show Twin ρ ((if back.merge t.backward = back then _ else _ : Except Error State).map _)
        ((if back.merge t.backward = back then _ else _ : Except Error State).map _)
      -- What jumps back carry is the same, so both are at rest or neither is.
      by_cases hback : back.merge t.backward = back
      · rw [if_pos hback, if_pos hback]
        exact .ok hcode' ht
      · rw [if_neg hback, if_neg hback]
        exact ih _ s code hcode hs

theorem twins_body (h : Peers ρ ctx.owner o) : Moved ρ ctx o body := by
  intro s code hcode hs
  unfold body
  dsimp only
  cases strayLabel? ctx.body with
  | some name => exact .error
  | none =>
    exact twins_settle h _ _ { s with forward := .empty _, backward := .empty _ } code hcode hs

/-! ## Procedures -/

/-- Two results that are related, or two complaints. -/
inductive Both {α β : Type} (R : α → β → Prop) : Except Error α → Except Error β → Prop where
  | ok {a : α} {b : β} : R a b → Both R (.ok a) (.ok b)
  | error {e e' : Error} : Both R (.error e) (.error e')

section Procedures

theorem both_applyPatches {offsets : Array Nat} {code' : Array Word} {ps : List Patch}
    (h : Counterparts ρ.classes ρ.methods code code')
    (hps : ∀ p ∈ ps, ∃ w, code[p.position]? = some w ∧ w.Plain) :
    Both (Counterparts ρ.classes ρ.methods) (applyPatches offsets code ps)
    (applyPatches offsets code' ps) := by
  induction ps generalizing code code' with
  | nil => exact .ok h
  | cons p ps ih =>
    obtain ⟨⟨w, hw, hplain⟩, hps⟩ := List.forall_mem_cons.1 hps
    have hlt : p.position < code.size := (Array.getElem?_eq_some_iff.1 hw).1
    rw [applyPatches, applyPatches]
    unfold Patch.apply
    cases offsets[min p.target (offsets.size - 1)]? with
    | none => exact .error
    | some offset =>
      dsimp only
      rw [if_pos hlt, if_pos (h.size ▸ hlt)]
      refine ih (h.modify hw hplain (hplain.pack offset)) fun q hq ↦ ?_
      obtain ⟨v, hv, hv_plain⟩ := hps q hq
      rw [Array.getElem?_modify, hv]
      by_cases hqp : p.position = q.position
      · rw [if_pos hqp]
        exact ⟨_, rfl, hv_plain.pack offset⟩
      · rw [if_neg hqp]
        exact ⟨v, rfl, hv_plain⟩

theorem both_finish (signature : Procedure) {s : State}
    (h : Counterparts ρ.classes ρ.methods s.code code) (hs : s.Patchable) :
    Both (Procedure.Counterpart ρ.classes ρ.methods) (finish signature s)
    (finish signature { s with code }) := by
  have hpatches :
    Both (Counterparts ρ.classes ρ.methods) (applyPatches s.offsets s.code s.patches.toList)
      (applyPatches s.offsets code s.patches.toList) :=
    both_applyPatches h fun p hp ↦ hs p (Array.mem_toList_iff.1 hp)
  rw [finish, finish]
  generalize applyPatches s.offsets s.code s.patches.toList = r at hpatches
  generalize applyPatches s.offsets code s.patches.toList = r' at hpatches
  cases hpatches with
  | ok h => exact .ok ⟨rfl, h⟩
  | error => exact .error

theorem twins_literalAs (x : Operand) (t : Ty) (name : String) : Common ρ (literalAs x t name) := by
  refine (twins_literal x).bind fun ⟨v, source⟩ ↦ .check fun _ ↦ ?_
  refine .ite (fun _ ↦ ?_) fun _ ↦ ?_
  · cases overflowsByte x with
    | some i => exact .fail_bind
    | none =>
      dsimp only
      cases Heap.convert? {} v t with
      | some c => exact twins_pure c
      | none => exact twins_fail
  · cases Heap.convert? {} v t with
    | some c => exact twins_pure c
    | none => exact twins_fail

theorem twins_arrayItems (f : FieldDecl) (elem : Ty) (i : Nat) (items : List Operand) :
    Common ρ (arrayItems f elem i items) := by
  induction items generalizing i with
  | nil => exact twins_pure ()
  | cons x rest ih =>
    refine (twins_literalAs x elem f.name).bind fun v ↦ .bind (twins_emit rfl) fun _ ↦ ?_
    refine (twins_emitConstant _).bind fun _ ↦ (twins_emitConstant v).bind fun _ ↦
      .bind (twins_emit rfl) fun _ ↦ ?_
    exact ih (i + 1)

theorem twins_singleDefault (f : FieldDecl) (t : Ty) : Common ρ (singleDefault f t) := by
  unfold singleDefault
  split
  · exact (twins_literalAs _ t f.name).bind fun v ↦ twins_emitConstant v
  · exact twins_stop
  · exact twins_fail

theorem twins_fieldDefault (index : Nat) (f : FieldDecl) (t : Ty) :
    Common ρ (fieldDefault index f t) := by
  have hstore : Common ρ (emit .storeField index) := twins_emit rfl
  have hsingle : Common ρ (do singleDefault f t; emit .storeField index) :=
    (twins_singleDefault f t).bind fun _ ↦ hstore
  refine .ite (fun _ ↦ twins_pure ()) fun _ ↦ ?_
  refine .bind (twins_modify fun _ ↦ ⟨rfl, rfl, fun _ ↦ rfl⟩) fun _ ↦
    .bind (twins_emit rfl) fun _ ↦ ?_
  split
  · exact hsingle
  · exact hsingle
  · refine (twins_emitConstant _).bind fun _ ↦ (twins_typeIndex _).bind fun i ↦
      .bind (twins_emit rfl) fun _ ↦ ?_
    exact (twins_arrayItems f _ 0 _).bind fun _ ↦ hstore
  · exact fun _ _ _ _ ↦ .error
  · exact hsingle

theorem twins_prologue (slots : Array FieldSlot) (i : Nat) (fs : List FieldDecl) :
    Common ρ (prologue slots i fs) := by
  induction fs generalizing i with
  | nil => exact twins_pure ()
  | cons f rest ih =>
    rw [prologue]
    cases slots[i]? with
    | none => exact fun _ _ _ _ ↦ .error
    | some slot => exact (twins_fieldDefault i f slot.type).bind fun _ ↦ ih (i + 1)

variable {c c' : Program.ClassDecl}

theorem twins_memberCode (h : Peers ρ ctx.owner o) (hfields : c'.fields = c.fields) (m : Member) :
    Twins ρ (memberCode ctx c m) (memberCode { ctx with owner := o } c' m) := by
  have hprologue : Twins ρ (prologue ctx.owner.get.fields 0 c.fields.toList)
      (prologue o.get.fields 0 c'.fields.toList) := by
    rw [h.fields, hfields]
    exact twins_prologue _ 0 _
  have hend : Common ρ (epilogue ctx.signature.returns) := twins_epilogue ctx.signature.returns
  unfold memberCode
  cases m.isConstructor <;> cases m.isAbstract
  · exact (twins_body h).bind fun _ ↦ hend.bind fun _ ↦ twins_checkJumps m.body
  · exact hend.bind fun _ ↦ twins_pure ()
  · exact hprologue.bind fun _ ↦ (twins_body h).bind fun _ ↦ hend.bind fun _ ↦
      twins_checkJumps m.body
  · exact hprologue.bind fun _ ↦ hend.bind fun _ ↦ twins_pure ()

/-- **A procedure is generated in the same way.** -/
theorem both_procedure {o' : ClassRef} (h : Peers ρ o o') (hfields : c'.fields = c.fields)
    (m : Member) (signature : Procedure) :
    Both (Procedure.Counterpart ρ.classes ρ.methods) (procedure o c m signature)
    (procedure o' c' m signature) := by
  have hcode : Twin ρ (memberCode ⟨o, signature, m.body, #[]⟩ c m { line := m.line })
      (memberCode ⟨o', signature, m.body, #[]⟩ c' m { line := m.line }) :=
    twins_memberCode (show Peers ρ (Context.mk o signature m.body #[]).owner o' from h) hfields m
      { line := m.line } #[] .empty fun p hp ↦ (Array.not_mem_empty p hp).elim
  rw [procedure, procedure]
  generalize memberCode ⟨o, signature, m.body, #[]⟩ c m { line := m.line } = r at hcode
  generalize memberCode ⟨o', signature, m.body, #[]⟩ c' m { line := m.line } = r' at hcode
  cases hcode with
  | ok hcode hs => exact both_finish signature hcode hs
  | error => exact .error

end Procedures

end Codegen

end ClassAsm
