import ClassAsm.Proofs.Codegen.Chains
import ClassAsm.Proofs.Codegen.Outcome
import ClassAsm.Proofs.Reference.Statement
import ClassAsm.Proofs.TypeNames

/-!
# The code of identifiers and operands

The generator resolves a chain while it emits code; `Names.resolve?` resolves it by the text alone.
Here the two are brought together: `resolve_ends` says that the generator ends with a complaint, or
with the code of the path that the chain stands for, and `operand_ends` says so for operands.

That no step of a chain meets an array type without items rests on `Ty.Proper`: the types that a
program can write.
-/

namespace ClassAsm

/-- The types that a program can write, where `isClass` says which classes exist. -/
def Ty.Proper (isClass : String → Bool) : Ty → Prop
  | .bool | .byte | .int | .float | .double | .string => True
  | .array elem => elem.Proper isClass
  | .object className => isClass className = true
  | .void | .null | .bareArray | .other _ => False

theorem Ty.proper_of_ofName? {isClass : String → Bool} {name : String} {t : Ty}
    (h : Ty.ofName? isClass name = some t) : t.Proper isClass := by
  have ht := (ofName?_eq_some_iff.1 h).1
  clear h
  induction ht with
  | @scalar t ht =>
    have hall : ∀ t ∈ scalars, t.Proper isClass := by simp [scalars, Proper]
    exact hall t ht
  | object hclass => exact hclass
  | array _ ih => exact ih

namespace Bytecode

variable {i n : Nat} {α : Type} {p : α → Bool} {xs : Array α} {x : α} {name : String}

theorem lastBelow?_spec (h : lastBelow? p xs n = some i) :
    i < n ∧ ∃ x, xs[i]? = some x ∧ p x = true := by
  induction n with
  | zero => cases h
  | succ n ih =>
    rw [lastBelow?] at h
    split at h
    · rename_i hany
      cases h
      obtain ⟨x, hx, hp⟩ := (Option.any_eq_true _ _).1 hany
      exact ⟨Nat.lt_succ_self _, x, hx, hp⟩
    · obtain ⟨hlt, hx⟩ := ih h
      exact ⟨Nat.lt_succ_of_lt hlt, hx⟩

theorem lastIndex?_spec (h : lastIndex? p xs = some i) : ∃ x, xs[i]? = some x ∧ p x = true :=
  (lastBelow?_spec h).2

theorem lastBelow?_isSome (hi : i < n) (hx : xs[i]? = some x) (hp : p x = true) :
    (lastBelow? p xs n).isSome := by
  induction n with
  | zero => omega
  | succ n ih =>
    rw [lastBelow?]
    split
    · rfl
    · rename_i hany
      refine ih (Nat.lt_of_le_of_ne (Nat.le_of_lt_succ hi) fun hin ↦ hany ?_)
      rw [← hin, hx]
      exact hp

theorem lastIndex?_isSome (hx : xs[i]? = some x) (hp : p x = true) : (lastIndex? p xs).isSome :=
  lastBelow?_isSome (Array.getElem?_eq_some_iff.1 hx).1 hx hp

theorem ClassRef.classIndex?_isSome (c : ClassRef) : (c.home.classIndex? c.name).isSome :=
  lastIndex?_isSome (Array.getElem?_eq_getElem c.index.isLt) (decide_eq_true rfl)

variable {m : CompiledModule}

theorem CompiledModule.class?_home {c : ClassRef} (h : m.class? name = some c) : c.home = m := by
  obtain ⟨i, hi, h⟩ := Option.bind_eq_some_iff.1 h
  rw [classAt?] at h
  split at h
  · exact Option.some.inj h ▸ rfl
  · cases h

theorem CompiledModule.class?_of_index {k : Nat} (h : m.classIndex? name = some k) :
    ∃ c, m.class? name = some c ∧ c.index.val = k := by
  have hk : k < m.classes.size := (lastBelow?_spec h).1
  refine ⟨⟨m, k, hk⟩, ?_, rfl⟩
  rw [class?, h, Option.bind_some, classAt?, dif_pos hk]

theorem ClassRef.get_mem (c : ClassRef) : c.get ∈ c.home.classes := Array.getElem_mem c.index.isLt

/-- All types of fields are proper, and those of results too where there is a result. -/
structure CompiledModule.Proper (m : CompiledModule) : Prop where
  fields : ∀ c ∈ m.classes, ∀ f ∈ c.fields, f.type.Proper fun name ↦ (m.classIndex? name).isSome
  results : ∀ c ∈ m.classes, ∀ p ∈ c.methods,
    p.returns = .void ∨ p.returns.Proper fun name ↦ (m.classIndex? name).isSome

end Bytecode

namespace Reference

open Bytecode

/-- All types that names stand for are proper. -/
structure Names.Proper (n : Names) : Prop where
  home : n.owner.home.Proper
  scope : ∀ v ∈ n.scope.vars, v.2.type.Proper n.isClass

namespace Names

variable {n : Names} {e e' : Expr} {i : Nat} {seg : List Char} {name : String}

theorem Proper.field {f : FieldSlot} {c : ClassRef} (hn : n.Proper) (hc : c.home = n.owner.home)
    (hf : c.get.fields[i]? = some f) : f.type.Proper n.isClass :=
  hn.home.fields c.get (hc ▸ c.get_mem) f (Array.mem_of_getElem? hf)

theorem Proper.root? (hn : n.Proper) (h : n.root? name = some e) : e.type.Proper n.isClass := by
  rw [Names.root?] at h
  split at h
  · rename_i v hv
    cases h
    obtain ⟨w, hw, rfl⟩ := Option.map_eq_some_iff.1 hv
    exact hn.scope w (List.mem_of_find?_eq_some hw)
  · obtain ⟨⟨i, t⟩, hi, rfl⟩ := Option.map_eq_some_iff.1 h
    obtain ⟨j, -, hj⟩ := Option.bind_eq_some_iff.1 hi
    obtain ⟨f, hf, hft⟩ := Option.bind_eq_some_iff.1 hj
    cases hft
    exact hn.field rfl hf

theorem Proper.first? (hn : n.Proper) (h : n.first? seg = some e) : e.type.Proper n.isClass := by
  unfold Names.first? at h
  split at h
  · cases h
  · cases h
  · split at h
    · cases h
      exact n.owner.classIndex?_isSome
    · exact hn.root? h

theorem Proper.member? (hn : n.Proper) {a t : Ty} (h : n.member? a name = some (i, t)) :
    t.Proper n.isClass := by
  unfold Names.member? at h
  split at h
  · obtain ⟨c, hc, h⟩ := Option.bind_eq_some_iff.1 h
    obtain ⟨j, -, h⟩ := Option.bind_eq_some_iff.1 h
    obtain ⟨f, hf, h⟩ := Option.bind_eq_some_iff.1 h
    split at h
    · cases h
    · cases h
      exact hn.field (CompiledModule.class?_home hc) hf
  · cases h

theorem Proper.next? (hn : n.Proper) {resolve : List Char → Option Expr}
    (he : e.type.Proper n.isClass) (h : n.next? resolve e seg = some e') :
    e'.type.Proper n.isClass := by
  unfold Names.next? at h
  split at h
  · cases h
  · split at h
    · rename_i elem helem
      obtain ⟨i, -, rfl⟩ := Option.map_eq_some_iff.1 h
      rw [helem] at he
      exact he
    · cases h
  · split at h
    · cases h
    · obtain ⟨⟨i, t⟩, hi, rfl⟩ := Option.map_eq_some_iff.1 h
      exact hn.member? hi

end Names

end Reference

namespace Codegen

open Bytecode
open Program (Operand)
open Reference

variable {E : Int → Cause → Prop} {ctx : Context} {n : Names} {s t : State} {e : Expr}
  {seg : List Char} {a : Ty} {chain name : String} {res : List Char → Gen Place}
  {segments : List (List Char)} {p : Place} {res? : List Char → Option Expr} {L : List Instr}
  {τ : List Ty} {o : Operand} {before : String}

/-! ## Names and the generator's state -/

/-- The type of a register, when it is known. -/
def Fact.type? : Fact → Option Ty
  | typed t => some t
  | _ => none

/-- The scope that the state of the generator stands for. -/
structure Scoped (sc : Scope) (s : State) : Prop where
  locals : s.locals = sc.vars.map fun v ↦ (v.1, ⟨v.2.cell + registerCount, v.2.type⟩)
  next : s.nextLocal = sc.count + registerCount
  loops : s.loops.map LoopTop.index = sc.loops

/-- The names that the state of the generator stands for. -/
structure Describes (n : Names) (ctx : Context) (s : State) : Prop extends Scoped n.scope s where
  owner : n.owner = ctx.owner
  registers : ∀ r, n.registers r = (s.registers.get r).type?

theorem Describes.local? (hn : Describes n ctx s) (name : String) :
    s.local? name = (n.scope.find? name).map fun v ↦ ⟨v.cell + registerCount, v.type⟩ := by
  rw [State.local?, hn.locals, Scope.find?, List.find?_map, Option.map_map, Option.map_map]
  rfl

theorem Describes.isClass (hn : Describes n ctx s) : n.isClass = ctx.isClass := by
  funext name
  rw [Names.isClass, hn.owner, Context.isClass]

/-- A state in which chains can be resolved. -/
structure Ready (E : Int → Cause → Prop) (ctx : Context) (n : Names) (s : State) : Prop where
  proper : n.Proper
  tidy : s.Tidy
  describes : Describes n ctx s
  permits : s.Permits E

theorem Ready.emits (h : Ready E ctx n s) (ht : Emits s L τ t) : Ready E ctx n t :=
  ⟨h.proper, ht.tidy, ⟨⟨ht.locals.trans h.describes.locals, ht.nextLocal.trans h.describes.next,
    ht.loops ▸ h.describes.loops⟩, h.describes.owner, ht.registers ▸ h.describes.registers⟩,
    ht.permits h.permits⟩

/-! ## Places -/

/-- How the last step of a path is made; the values of literals, registers and conversions are no
places. -/
def accessOf? : Expr → Option Access
  | .cell k _ => some (.slot (k + registerCount))
  | .this _ => some .this
  | .field _ i _ => some (.field i)
  | .item _ _ _ => some .item
  | _ => none

/-- The generator is left with the last access of a path to make. -/
structure Leads (s : State) (e : Expr) (p : Place) (t : State) : Prop where
  access : accessOf? e = some p.access
  type : p.type = e.type
  emits : Emits s e.lead (e.leadTypes ++ s.stack) t

/-- The access of a place as a read completes the code of the path. -/
theorem load_ends (h : Leads s e p t) :
    Ends E (load p) t fun _ u ↦ Emits s e.code (e.type :: s.stack) u := by
  obtain ⟨hacc, htype, ht⟩ := h
  rw [e.code_eq, ← htype]
  unfold load
  cases e with
  | const | register | convert => cases hacc
  | cell k a =>
    rw [← Option.some.inj hacc]
    refine (ht.emit_ends (x := .pushLocal (k + registerCount)) rfl rfl rfl).bind fun _ u hu ↦ ?_
    exact hu.push_ends
  | this c =>
    rw [← Option.some.inj hacc]
    refine (ht.emit_ends (x := .this) rfl trivial rfl).bind fun _ u hu ↦ ?_
    exact hu.push_ends
  | field o i a =>
    rw [← Option.some.inj hacc]
    refine (ht.emit_ends (x := .loadField i) rfl rfl rfl).bind fun _ u hu ↦ ?_
    exact (hu.pop_ends (by simp [Expr.leadTypes])).bind fun _ v hv ↦ hv.push_ends
  | item a i b =>
    rw [← Option.some.inj hacc]
    refine (ht.emit_ends (x := .loadItem) rfl trivial rfl).bind fun _ u hu ↦ ?_
    exact (hu.pop_ends (by simp [Expr.leadTypes])).bind fun _ v hv ↦ hv.push_ends

/-- The access of a place as a write: the value on top of the stack is converted and stored, if its
type may be stored there. -/
theorem Emits.store_ends (ht : Emits s L (a :: (e.leadTypes ++ τ)) t) (hE : s.Permits E)
    (hacc : accessOf? e = some p.access) (htype : p.type = e.type) :
    Ends E (store p) t fun _ u ↦ e.type.accepts a = true ∧ ∃ x, e.store? = some x ∧
      Emits s (L ++ conversion a e.type ++ [x]) τ u := by
  have hE := ht.permits hE
  unfold store
  refine ht.peek_bind rfl ?_
  refine Ends.check hE rfl trivial fun hthis ↦ ?_
  refine Ends.check hE rfl trivial fun haccepts ↦ ?_
  rw [htype] at haccepts ⊢
  replace haccepts : e.type.accepts a = true := by simpa using haccepts
  refine ht.convertTop_ends.bind fun _ u hu ↦ ?_
  cases e with
  | const | register | convert => cases hacc
  | this c => exact absurd (Option.some.inj hacc).symm hthis
  | cell k b =>
    rw [← Option.some.inj hacc]
    refine (hu.emit_ends (x := .popLocal (k + registerCount)) rfl rfl rfl).bind fun _ v hv ↦ ?_
    exact (hv.pop_ends (by simp)).mono fun _ w hw ↦ ⟨haccepts, _, rfl, hw⟩
  | field o i b =>
    rw [← Option.some.inj hacc]
    refine (hu.emit_ends (x := .storeField i) rfl rfl rfl).bind fun _ v hv ↦ ?_
    exact (hv.pop_ends (by simp [Expr.leadTypes])).mono fun _ w hw ↦ ⟨haccepts, _, rfl, hw⟩
  | item o i b =>
    rw [← Option.some.inj hacc]
    refine (hu.emit_ends (x := .storeItem) rfl trivial rfl).bind fun _ v hv ↦ ?_
    exact (hv.pop_ends (by simp [Expr.leadTypes])).mono fun _ w hw ↦ ⟨haccepts, _, rfl, hw⟩

/-! ## Segments -/

theorem member_ends (h : Ready E ctx n s) :
    Ends E (member ctx a name) s fun p u ↦ u = s ∧ ∃ i, n.member? a name = some (i, p.type) ∧
      p.access = .field i := by
  have hE := h.permits
  unfold member Names.member?
  rw [h.describes.owner]
  cases a with
  | object className =>
    dsimp only
    cases hc : ctx.owner.home.class? className with
    | none => exact ends_fail hE rfl trivial
    | some c =>
      cases hi : c.get.fieldIndex? name with
      | none =>
        simp only [hi]
        exact ends_fail hE rfl trivial
      | some i =>
        obtain ⟨f, hf, -⟩ := lastIndex?_spec hi
        simp only [hi, hf]
        split
        · exact ends_fail hE rfl trivial
        · rename_i hprivate
          refine ends_pure ⟨rfl, i, ?_, rfl⟩
          simpa [hi, hf] using hprivate
  | _ => exact ends_fail hE rfl trivial

theorem root_ends (h : Ready E ctx n s) :
    Ends E (root ctx name) s fun p u ↦ ∃ e, n.root? name = some e ∧ Leads s e p u := by
  unfold root Names.root? Names.ownField?
  refine Ends.get_bind ?_
  rw [h.describes.local? name, h.describes.owner]
  cases n.scope.find? name with
  | some v => exact ends_pure ⟨_, rfl, rfl, rfl, .refl h.tidy⟩
  | none =>
    cases hi : ctx.owner.get.fieldIndex? name with
    | none =>
      simp only [hi]
      exact ends_fail h.permits rfl trivial
    | some i =>
      obtain ⟨f, hf, -⟩ := lastIndex?_spec hi
      simp only [hi, hf, Option.map_none]
      refine ((Emits.refl h.tidy).emit_ends (x := .this) rfl trivial rfl).bind fun _ u hu ↦ ?_
      refine hu.push_ends.bind fun _ v hv ↦ ?_
      exact ends_pure ⟨.field (.this ctx.owner.name) i f.type, by simp [hf], rfl, rfl, hv⟩

/-- A step that resolves a chain: it ends with the last access of the path that `found` gives. -/
def Resolves (E : Int → Cause → Prop) (n : Names) (ctx : Context) (g : Gen Place)
    (found : Option Expr) : Prop :=
  ∀ s : State, Ready E ctx n s → Ends E g s fun p u ↦ ∃ e, found = some e ∧ Leads s e p u

theorem Emits.subscript_ends {text : List Char} (ht : Emits s L τ t) (h : Ready E ctx n s)
    (hres : Resolves E n ctx (res text) (res? text)) :
    Ends E (subscript res text) t fun _ u ↦ ∃ e, Names.subscript? res? text = some e ∧
      Emits s (L ++ e.code) (e.type :: τ) u := by
  obtain rfl := ht.stack
  have hE := ht.permits h.permits
  unfold subscript Names.subscript?
  cases Number.readInt64? text with
  | some i =>
    refine (ht.emitConstant_ends (.inl ⟨by simp [Value.ofInt], rfl⟩)).bind fun _ u hu ↦ ?_
    exact hu.push_ends.mono fun _ v hv ↦ ⟨_, rfl, hv⟩
  | none =>
    refine Ends.check hE rfl trivial fun hempty ↦ ?_
    simp only [hempty]
    refine (hres t (h.emits ht)).bind ?_
    rintro p u ⟨e, he, hu⟩
    refine (load_ends hu).bind fun _ v hv ↦ ?_
    refine hv.peek_bind rfl ?_
    refine Ends.check (hv.permits hE) rfl trivial fun hnumeric ↦ ?_
    refine hv.convertTop_ends.mono fun _ w hw ↦ ⟨e.coerced .int, ?_, ?_⟩
    · simpa [he] using hnumeric
    · rw [e.code_coerced, e.type_coerced]
      exact ht.trans hw

theorem segment_none_ends (h : Ready E ctx n s) (hseg : seg ≠ []) :
    Ends E (segment ctx res chain none seg) s fun p u ↦
      ∃ e, n.first? seg = some e ∧ Leads s e p u := by
  unfold segment
  dsimp only
  split
  · exact absurd rfl hseg
  · exact ends_fail h.permits rfl trivial
  · cases ‹none = some _›
  · rename_i hbracket _
    rw [n.first?_of_name hseg hbracket]
    split
    · exact ends_pure ⟨_, rfl, rfl, by rw [h.describes.owner]; rfl, .refl h.tidy⟩
    · exact root_ends h
  · cases ‹none = some _›

/-- A segment behind the path `e`, whose value is on the stack. -/
theorem segment_some_ends (h : Ready E ctx n s) (he : e.type.Proper n.isClass) (hseg : seg ≠ [])
    (hres : ∀ text, text.length < seg.length → Resolves E n ctx (res text) (res? text))
    (ht : Emits s e.code (e.type :: s.stack) t) :
    Ends E (segment ctx res chain (some before) seg) t fun p u ↦
      ∃ e', n.next? res? e seg = some e' ∧ Leads s e' p u := by
  have h' := h.emits ht
  unfold segment
  dsimp only
  split
  · exact absurd rfl hseg
  · cases ‹some _ = none›
  · rename_i inner _ _
    refine ht.peek_bind rfl ?_
    rw [Names.next?]
    cases htype : e.type with
    | array elem =>
      have hlen : inner.dropLast.length < ('[' :: inner).length := by
        simp only [List.length_dropLast, List.length_cons]
        omega
      refine (ht.subscript_ends h (hres _ hlen)).bind ?_
      rintro _ u ⟨i, hi, hu⟩
      exact ends_pure ⟨.item e i elem, by simp [hi], rfl, rfl, hu⟩
    | bareArray =>
      rw [htype] at he
      exact he.elim
    | _ => exact ends_fail h'.permits rfl trivial
  · cases ‹some _ = none›
  · rename_i hbracket _
    rw [n.next?_of_name res? e hseg hbracket]
    refine Ends.check h'.permits rfl trivial fun hthis ↦ ?_
    rw [if_neg hthis]
    refine ht.peek_bind rfl ((member_ends h').mono ?_)
    rintro p _ ⟨rfl, i, hi, hp⟩
    exact ⟨.field e i p.type, by rw [hi]; rfl, by rw [hp]; rfl, rfl, ht⟩

theorem segmentsFrom_ends {rest : List (List Char)} (h : Ready E ctx n s)
    (hrest : ∀ seg ∈ rest, seg ≠ []) (hres : ∀ seg ∈ rest, ∀ text, text.length < seg.length →
      Resolves E n ctx (res text) (res? text))
    (he : e.type.Proper n.isClass) (hp : Leads s e p t) :
    Ends E (segmentsFrom ctx res chain p before rest) t fun q u ↦
      ∃ e', n.extend? res? e rest = some e' ∧ Leads s e' q u := by
  induction rest generalizing e p before t with
  | nil => exact ends_pure ⟨e, rfl, hp⟩
  | cons seg rest ih =>
    rw [segmentsFrom, Names.extend?]
    refine (load_ends hp).bind fun _ u hu ↦ ?_
    refine (segment_some_ends h he (hrest seg List.mem_cons_self)
      (hres seg List.mem_cons_self) hu).bind ?_
    rintro q v ⟨e', he', hq⟩
    rw [he', Option.bind_some]
    exact ih (fun seg h ↦ hrest seg (List.mem_cons_of_mem _ h))
      (fun seg h ↦ hres seg (List.mem_cons_of_mem _ h)) (h.proper.next? he he') hq

/-- Resolution nests no deeper than the chain is long. -/
theorem resolveWithin_ends {fuel : Nat} {chain : List Char} (hfuel : chain.length < fuel) :
    Resolves E n ctx (resolveWithin ctx fuel chain) (n.resolveWithin? fuel chain) := by
  induction fuel generalizing chain with
  | zero => omega
  | succ fuel ih =>
    intro s h
    rw [resolveWithin, Names.resolveWithin?]
    cases hsplit : splitChain chain with
    | none => exact ends_fail h.permits rfl trivial
    | some segments =>
      cases segments with
      | nil => exact ends_fail h.permits rfl trivial
      | cons seg rest =>
        have hmem := splitChain_mem hsplit
        refine (segment_none_ends h (hmem seg List.mem_cons_self).1).bind ?_
        rintro p t ⟨e, he, hp⟩
        simp only [he, Option.bind_some]
        refine segmentsFrom_ends h (fun seg h ↦ (hmem seg (List.mem_cons_of_mem _ h)).1) ?_
          (h.proper.first? he) hp
        -- A chain inside brackets is shorter than the segment that holds it.
        intro seg hseg text htext
        have := (hmem seg (List.mem_cons_of_mem _ hseg)).2
        exact ih (by omega)

/-- **A chain is resolved by the text alone**: the generator complains, or it is left with the last
access of the path that the chain stands for. -/
theorem resolve_ends (chain : String) : Resolves E n ctx (resolve ctx chain) (n.resolve? chain) :=
  resolveWithin_ends (Nat.lt_succ_self _)

/-! ## Operands -/

theorem Emits.readRegister_ends {r : Register} {construct : String} (ht : Emits s L τ t)
    (h : Ready E ctx n s) :
    Ends E (readRegister r construct) t fun a u ↦ ∃ e, n.register? r = some e ∧ a = e.type ∧
      Emits s (L ++ e.code) (e.type :: τ) u := by
  have h := h.emits ht
  unfold readRegister
  refine Ends.get_bind ?_
  rw [Names.register?, h.describes.registers r]
  cases hfact : t.registers.get r with
  | unset => exact ends_fail h.permits rfl hfact
  | mixed => exact Ends.get_bind (ends_fail h.permits rfl hfact)
  | typed a =>
    refine (ht.emit_ends (x := .pushLocal r.slot) rfl rfl rfl).bind fun _ u hu ↦ ?_
    exact hu.push_ends.bind fun _ v hv ↦ ends_pure ⟨_, rfl, rfl, hv⟩

theorem literal?_plain {v : Value} (h : literal? o = some (v, a)) : v.Plain := by
  cases o with
  | string s =>
    cases h
    exact .inr ⟨s, rfl⟩
  | identifier | returnValue | unknown => cases h
  | _ =>
    cases h
    exact .inl ⟨nofun, rfl⟩

/-- **The code of an operand** is that of the expression it stands for. -/
theorem Emits.operand_ends (ht : Emits s L τ t) (h : Ready E ctx n s)
    (ho : ∀ code, o ≠ .unknown code) :
    Ends E (operand ctx o) t fun a u ↦ ∃ e, n.operand? o = some e ∧ a = e.type ∧
      Emits s (L ++ e.code) (e.type :: τ) u := by
  have hlit {v : Value} {a : Ty} (hv : literal? o = some (v, a)) :
      Ends E (do emitConstant v; push a; return a) t fun b u ↦
        ∃ e, ((literal? o).map fun l ↦ Expr.const l.1 l.2) = some e ∧ b = e.type ∧
          Emits s (L ++ e.code) (e.type :: τ) u := by
    refine (ht.emitConstant_ends (literal?_plain hv)).bind fun _ u hu ↦ ?_
    refine hu.push_ends.bind fun _ w hw ↦ ?_
    exact ends_pure ⟨.const v a, by rw [hv]; rfl, rfl, hw⟩
  cases o with
  | identifier chain =>
    refine (resolve_ends chain t (h.emits ht)).bind ?_
    rintro p u ⟨e, he, hp⟩
    refine (load_ends hp).bind fun _ v hv ↦ ?_
    exact ends_pure ⟨e, he, hp.type, ht.stack ▸ ht.trans hv⟩
  | returnValue => exact ht.readRegister_ends h
  | unknown code => exact absurd rfl (ho code)
  | _ => exact hlit rfl

end Codegen

end ClassAsm
