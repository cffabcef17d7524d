import ClassAsm.Proofs.Codegen.Loaded
import ClassAsm.Proofs.Codegen.Passes
import ClassAsm.Proofs.Codegen.Chains
import ClassAsm.Proofs.TypeNames

/-!
# The names of an accepted program

What names may stand for is said here about the text alone.  A variable is in scope where a define
precedes it with no delete of it in between; a chain such as `this.rows[i].name` starts with the
object itself, a variable in scope or a field of the class, and goes on with members and items of
what precedes, which `Denotes` gives a type.  An instruction is `Resolved` if all its chains denote
something, and its labels, methods and types are declared.

The generator looks names up in its own tables: it cuts a chain into segments, keeps a list of
locals, and finds fields in the layout of the module.  `Speaks.resolved` says that an instruction
which it can read is resolved.
-/

namespace ClassAsm

namespace Reference

open Codegen Program

/-! ## What names may stand for -/

/-- The instruction with index `i` defines a variable. -/
def Defines (b : Block) (i : Nat) (name typeName : String) : Prop :=
  ∃ x o, b.code[i]? = some x ∧ x.op = .define ∧
  x.operands = [.identifier name, o, .identifier typeName]

/-- The instruction with index `i` deletes a variable. -/
def Deletes (b : Block) (i : Nat) (name : String) : Prop :=
  ∃ x, b.code[i]? = some x ∧ x.op = .delete ∧ x.operands = [.identifier name]

/-- The instruction with index `i` defines or deletes a variable. -/
def Rebinds (b : Block) (i : Nat) (name : String) : Prop :=
  Deletes b i name ∨ ∃ typeName, Defines b i name typeName

/-- A variable is in scope at the instruction with index `i`: it is defined before, and neither
deleted nor defined again since. -/
def InScope (b : Block) (i : Nat) (name typeName : String) : Prop :=
  ∃ j, j < i ∧ Defines b j name typeName ∧ ∀ k, j < k → k < i → ¬Rebinds b k name

/-- A text that names a type: a builtin one, a class of the program, or an array. -/
def TypeName (p : Program) (s : String) (t : Ty) : Prop := t.Nameable (declares p) ∧ t.name = s

/-- The field `f` is called `name` and has the type `t`. -/
def FieldNamed (p : Program) (f : FieldDecl) (name : List Char) (t : Ty) : Prop :=
  SimpleName name ∧ f.name = String.ofList name ∧ fieldType (declares p) f = .ok t

/-- The chain denotes something of the type `t` at the instruction with index `i` of a block of the
class `cd`.  A variable hides a field of its name.  The dot before a name can only be left out
behind a bracket. -/
inductive Denotes (p : Program) (cd : ClassDecl) (b : Block) (i : Nat) : List Char → Ty → Prop where
  | this : Denotes p cd b i "this".toList (.object cd.name)
  | variable : ∀ {name typeName t}, SimpleName name → name ≠ "this".toList →
      InScope b i (String.ofList name) typeName → TypeName p typeName t → Denotes p cd b i name t
  | field : ∀ {name f t}, name ≠ "this".toList →
      (∀ typeName, ¬InScope b i (String.ofList name) typeName) → f ∈ cd.fields →
      FieldNamed p f name t → Denotes p cd b i name t
  | member : ∀ {chain s name c f t},
      Denotes p cd b i chain (.object c.name) → s = ['.'] ∨ (s = [] ∧ chain.getLast? = some ']') →
      c ∈ p.classes → f ∈ c.fields → FieldNamed p f name t → f.isPublic = true ∨ c.name = cd.name →
      Denotes p cd b i (chain ++ (s ++ name)) t
  | itemAt : ∀ {chain s text k t}, Denotes p cd b i chain (.array t) → s = ['.'] ∨ s = [] →
      Number.readInt64? text = some k → Denotes p cd b i (chain ++ (s ++ '[' :: (text ++ [']']))) t
  | item : ∀ {chain s index t u}, Denotes p cd b i chain (.array t) → s = ['.'] ∨ s = [] →
      Denotes p cd b i index u → u.tag.isNumeric = true →
      Denotes p cd b i (chain ++ (s ++ '[' :: (index ++ [']']))) t

/-- The operands of an instruction that are chains. -/
def chainOperands (x : Instruction) : List Operand :=
  match x.op, x.operands with
  | .define, _ | .delete, _ | .goto, _ | .jump, _ | .call, _ => []
  | .new, target :: _ :: rest => target :: rest
  | _, os => os

/-- All names of an instruction stand for something. -/
structure Resolved (p : Program) (cd : ClassDecl) (b : Block) (i : Nat) (x : Instruction) :
    Prop where
  chains : ∀ chain, .identifier chain ∈ chainOperands x → ∃ t, Denotes p cd b i chain.toList t
  label : x.op = .goto ∨ x.op = .jump → ∃ name, x.operands = [.identifier name] ∧
    ∃ l ∈ b.labels, l.1 = name
  method : x.op = .call → ∃ name, x.operands = [.identifier name] ∧ ∃ m ∈ cd.methods, m.name = name
  defined : x.op = .define → ∃ name o typeName t,
    x.operands = [.identifier name, o, .identifier typeName] ∧ TypeName p typeName t
  deleted : x.op = .delete → ∃ name typeName, x.operands = [.identifier name] ∧
    InScope b i name typeName
  created : x.op = .new → ∃ target typeName rest t,
    x.operands = .identifier target :: .identifier typeName :: rest ∧ TypeName p typeName t

/-! ## Variables -/

section Scopes

variable {isClass : String → Bool} {b : Block} {i : Nat} {name typeName : String} {sc : Scope}
  {x : Instruction} {t : Ty}

theorem inScope_succ : InScope b (i + 1) name typeName ↔
      Defines b i name typeName ∨ (InScope b i name typeName ∧ ¬Rebinds b i name) := by
  constructor
  · rintro ⟨j, hj, hdefines, hkept⟩
    rcases Nat.eq_or_lt_of_le (Nat.le_of_lt_succ hj) with rfl | hj
    · exact .inl hdefines
    · exact .inr ⟨⟨j, hj, hdefines, fun k hjk hk ↦ hkept k hjk (Nat.lt_succ_of_lt hk)⟩,
        hkept i hj (Nat.lt_succ_self i)⟩
  · rintro (hdefines | ⟨⟨j, hj, hdefines, hkept⟩, hi⟩)
    · exact ⟨i, Nat.lt_succ_self i, hdefines, fun k hik hk ↦ absurd hk (by omega)⟩
    · refine ⟨j, Nat.lt_succ_of_lt hj, hdefines, fun k hjk hk ↦ ?_⟩
      rcases Nat.eq_or_lt_of_le (Nat.le_of_lt_succ hk) with rfl | hk
      · exact hi
      · exact hkept k hjk hk

theorem find?_after_of_defines (hx : b.code[i]? = some x) (h : Defines b i name typeName)
    (ht : Ty.ofName? isClass typeName = some t) :
    (sc.after isClass i x).find? name = some ⟨sc.count, t⟩ := by
  obtain ⟨y, o, hy, hop, hoperands⟩ := h
  cases hx.symm.trans hy
  simp [Scope.after, hop, hoperands, ht, Scope.define, Scope.find?]

theorem find?_after_of_deletes (hx : b.code[i]? = some x) (h : Deletes b i name) :
    (sc.after isClass i x).find? name = none := by
  obtain ⟨y, hy, hop, hoperands⟩ := h
  cases hx.symm.trans hy
  simp [Scope.after, hop, hoperands, Scope.delete, Scope.find?]

theorem find?_after_of_not_rebinds (hx : b.code[i]? = some x) (h : ¬Rebinds b i name) :
    (sc.after isClass i x).find? name = sc.find? name := by
  unfold Scope.after
  split
  · rename_i other o typeName hop hoperands
    have hne : other ≠ name := fun heq ↦ h (.inr ⟨typeName, x, o, hx, hop, heq ▸ hoperands⟩)
    split
    · simp [Scope.define, Scope.find?, hne]
    · rfl
  · rename_i other hop hoperands
    have hne : other ≠ name := fun heq ↦ h (.inl ⟨x, hx, hop, heq ▸ hoperands⟩)
    rw [Scope.delete, Scope.find?, List.find?_filter, Scope.find?]
    congr 2
    funext v
    grind
  · rfl
  · rfl
  · rfl

/-- **The generator's scope is that of the text.** -/
theorem find?_before_iff (hi : i ≤ b.code.size)
    (htypes : ∀ j name typeName, j < i → Defines b j name typeName →
      ∃ u, Ty.ofName? isClass typeName = some u) :
    (∃ v, (Scope.before isClass b i).find? name = some v ∧ v.type = t) ↔
      ∃ typeName, InScope b i name typeName ∧ Ty.ofName? isClass typeName = some t := by
  induction i with
  | zero =>
    constructor
    · rintro ⟨v, hv, -⟩
      cases hv
    · rintro ⟨_, ⟨j, hj, -⟩, -⟩
      exact absurd hj (Nat.not_lt_zero j)
  | succ i ih =>
    have hx : b.code[i]? = some b.code[i] := Array.getElem?_eq_getElem hi
    have ih := ih (Nat.le_of_succ_le hi) fun j name typeName hj ↦
      htypes j name typeName (Nat.lt_succ_of_lt hj)
    simp only [Scope.before_succ hx, inScope_succ]
    by_cases hrebinds : Rebinds b i name
    · rcases hrebinds with hdeletes | ⟨typeName, hdefines⟩
      · rw [find?_after_of_deletes hx hdeletes]
        constructor
        · rintro ⟨v, hv, -⟩
          cases hv
        · rintro ⟨typeName, ⟨y, o, hy, hdefine, -⟩ | ⟨-, hkept⟩, -⟩
          · obtain ⟨z, hz, hdelete, -⟩ := hdeletes
            cases hy.symm.trans hz
            cases hdefine.symm.trans hdelete
          · exact absurd (.inl hdeletes) hkept
      · obtain ⟨u, hu⟩ := htypes i name typeName (Nat.lt_succ_self i) hdefines
        rw [find?_after_of_defines hx hdefines hu]
        constructor
        · rintro ⟨v, hv, rfl⟩
          cases hv
          exact ⟨typeName, .inl hdefines, hu⟩
        · rintro ⟨typeName', ⟨y, o, hy, -, hoperands⟩ | ⟨-, hkept⟩, ht⟩
          · obtain ⟨z, o', hz, -, hoperands'⟩ := hdefines
            cases hy.symm.trans hz
            cases hoperands.symm.trans hoperands'
            exact ⟨_, rfl, Option.some.inj (hu.symm.trans ht)⟩
          · exact absurd (.inr ⟨typeName, hdefines⟩) hkept
    · rw [find?_after_of_not_rebinds hx hrebinds, ih]
      refine exists_congr fun typeName ↦ and_congr_left fun _ ↦ ⟨fun h ↦ .inr ⟨h, hrebinds⟩, ?_⟩
      rintro (hdefines | ⟨h, -⟩)
      · exact absurd (.inr ⟨typeName, hdefines⟩) hrebinds
      · exact h

end Scopes

end Reference

namespace Codegen

open Bytecode Program Reference

/-! ## Declarations -/

section Layouts

variable {isClass : String → Bool} {cd : ClassDecl} {c : CompiledClass} {name : String} {k : Nat}

theorem LayoutOf.exists_field (h : LayoutOf isClass cd c) {f : FieldSlot}
    (hk : c.fieldIndex? name = some k) (hf : c.fields[k]? = some f) :
    ∃ d ∈ cd.fields, d.name = name ∧ d.isPublic = f.isPublic ∧
    fieldType isClass d = .ok f.type := by
  obtain ⟨f', hf', hname⟩ := lastIndex?_spec hk
  cases hf.symm.trans hf'
  obtain ⟨d, hd, hslot⟩ := exists_left_of_forall₂ h.fields (Array.getElem?_toList ▸ hf)
  exact ⟨d, Array.mem_of_getElem? (Array.getElem?_toList ▸ hd),
    hslot.name ▸ of_decide_eq_true hname, hslot.isPublic.symm, hslot.type⟩

theorem LayoutOf.exists_method (h : LayoutOf isClass cd c) (hk : c.methodIndex? name = some k) :
    ∃ m ∈ cd.methods, m.name = name := by
  obtain ⟨q, hq, hname⟩ := lastIndex?_spec hk
  obtain ⟨m, hm, hsignature⟩ := exists_left_of_forall₂ h.methods (Array.getElem?_toList ▸ hq)
  refine ⟨m, Array.mem_of_getElem? (Array.getElem?_toList ▸ hm), ?_⟩
  rw [← of_decide_eq_true hname, hsignature.eq]

theorem exists_label {b : Block} {j : Int} (h : b.label? name = some j) :
    ∃ l ∈ b.labels, l.1 = name := by
  obtain ⟨l, hl, -⟩ := Option.map_eq_some_iff.1 h
  exact ⟨l, List.mem_of_find?_eq_some hl, by simpa using List.find?_some hl⟩

end Layouts

/-! ## What the generator finds -/

theorem SimpleName.ne_cons {name : List Char} (h : SimpleName name) (inner : List Char) :
    name ≠ '[' :: inner := by
  rintro rfl
  exact (h '[' List.mem_cons_self).2.1 rfl

/-- The names of the instruction with index `i` of a block of the class `cd` are those of the
text. -/
structure Speaks (p : Program) (cd : ClassDecl) (b : Block) (i : Nat) (n : Names) : Prop where
  laid : List.Forall₂ (LayoutOf (declares p)) p.classes.toList n.owner.home.classes.toList
  decl : p.classes[n.owner.index.val]? = some cd
  scope : n.scope = Scope.before (declares p) b i
  le : i ≤ b.code.size
  types : ∀ j name typeName, j < i → Defines b j name typeName →
    ∃ t, Ty.ofName? (declares p) typeName = some t

namespace Speaks

variable {p : Program} {cd : ClassDecl} {b : Block} {i : Nat} {n : Names} {chain : List Char}
  {e e' : Expr} {t : Ty} (h : Speaks p cd b i n)

include h

theorem exists_decl {c : ClassRef} (hc : c.home = n.owner.home) :
    ∃ d, p.classes[c.index.val]? = some d ∧ LayoutOf (declares p) d c.get := by
  have hget : n.owner.home.classes.toList[c.index.val]? = some c.get := by
    rw [← hc, Array.getElem?_toList]
    exact Array.getElem?_eq_getElem c.index.isLt
  obtain ⟨d, hd, hlayout⟩ := exists_left_of_forall₂ h.laid hget
  exact ⟨d, Array.getElem?_toList ▸ hd, hlayout⟩

theorem owner : LayoutOf (declares p) cd n.owner.get := by
  obtain ⟨d, hd, hlayout⟩ := h.exists_decl rfl
  cases hd.symm.trans h.decl
  exact hlayout

theorem isClass : n.isClass = declares p := funext (isClass_eq_declares h.laid)

theorem find? {name : String} : (∃ v, n.scope.find? name = some v ∧ v.type = t) ↔
      ∃ typeName, InScope b i name typeName ∧ Ty.ofName? (declares p) typeName = some t :=
  h.scope ▸ find?_before_iff h.le h.types

theorem not_inScope {name typeName : String} (hnone : n.scope.find? name = none) :
    ¬InScope b i name typeName := by
  intro hscope
  obtain ⟨j, hj, hdefines, -⟩ := id hscope
  obtain ⟨t, ht⟩ := h.types j name typeName hj hdefines
  obtain ⟨v, hv, -⟩ := h.find?.2 ⟨typeName, hscope, ht⟩
  cases hnone.symm.trans hv

theorem first {seg : List Char} (hne : seg ≠ []) (hsimple : SimpleName seg)
    (he : n.first? seg = some e) : Denotes p cd b i seg e.type := by
  rw [n.first?_of_name hne hsimple.ne_cons] at he
  split at he
  · rename_i hthis
    cases he
    obtain rfl : seg = "this".toList := by rw [← hthis, String.toList_ofList]
    have hname : n.owner.name = cd.name := h.owner.name
    exact show Denotes p cd b i _ (.object n.owner.name) from hname ▸ .this
  · rename_i hthis
    have hthis : seg ≠ "this".toList := fun heq ↦ hthis (by rw [heq, String.ofList_toList])
    unfold Names.root? at he
    split at he
    · rename_i v hv
      cases he
      obtain ⟨typeName, hscope, ht⟩ := h.find?.1 ⟨v, hv, rfl⟩
      exact .variable hsimple hthis hscope (Ty.ofName?_eq_some_iff.1 ht)
    · rename_i hnone
      obtain ⟨⟨k, t⟩, hfield, rfl⟩ := Option.map_eq_some_iff.1 he
      obtain ⟨k', hk, hfield⟩ := Option.bind_eq_some_iff.1 hfield
      obtain ⟨f, hf, hfield⟩ := Option.bind_eq_some_iff.1 hfield
      cases hfield
      obtain ⟨d, hd, hname, -, ht⟩ := h.owner.exists_field hk hf
      exact .field hthis (fun typeName ↦ h.not_inScope hnone) hd ⟨hsimple, hname, ht⟩

theorem member {name : String} {k : Nat} {u : Ty} (hmember : n.member? t name = some (k, u)) :
    ∃ c ∈ p.classes, t = .object c.name ∧ ∃ f ∈ c.fields, f.name = name ∧
    fieldType (declares p) f = .ok u ∧
      (f.isPublic = true ∨ c.name = cd.name) := by
  unfold Names.member? at hmember
  split at hmember
  · rename_i className
    obtain ⟨c, hc, hmember⟩ := Option.bind_eq_some_iff.1 hmember
    obtain ⟨k', hk, hmember⟩ := Option.bind_eq_some_iff.1 hmember
    obtain ⟨f, hf, hmember⟩ := Option.bind_eq_some_iff.1 hmember
    split at hmember
    · cases hmember
    · rename_i hprivate
      cases hmember
      obtain ⟨d, hd, hlayout⟩ := h.exists_decl (CompiledModule.class?_home hc)
      obtain ⟨g, hg, hname, hpublic, ht⟩ := hlayout.exists_field hk hf
      have hclass : className = d.name := (CompiledModule.name_of_class? hc).symm.trans hlayout.name
      refine ⟨d, Array.mem_of_getElem? hd, by rw [hclass], g, hg, hname, ht, ?_⟩
      rw [hpublic, or_iff_not_imp_left]
      intro hhidden
      -- A field that is not public is one of the class itself.
      have hindex : c.index.val = n.owner.index.val := by simpa [hhidden] using hprivate
      rw [hindex, h.decl] at hd
      rw [Option.some.inj hd]
  · cases hmember

/-- **A chain that goes on denotes something of the type that is found for it.** -/
theorem extend {resolve : List Char → Option Expr}
    (hresolve : ∀ {text e}, resolve text = some e → Denotes p cd b i text e.type) {closed : Bool}
    {text : List Char} {segments : List (List Char)} (hc : Continued closed text segments)
    (hchain : Denotes p cd b i chain e.type) (hclosed : closed = true → chain.getLast? = some ']')
    (he : n.extend? resolve e segments = some e') : Denotes p cd b i (chain ++ text) e'.type := by
  induction hc generalizing chain e with
  | done =>
    cases he
    rwa [List.append_nil]
  | @name closed s name text segments hs hne hsimple _ ih =>
    obtain ⟨e₁, hnext, he⟩ := Option.bind_eq_some_iff.1 he
    rw [n.next?_of_name _ _ hne hsimple.ne_cons] at hnext
    split at hnext
    · cases hnext
    · obtain ⟨⟨k, t⟩, hmember, rfl⟩ := Option.map_eq_some_iff.1 hnext
      obtain ⟨c, hc, htype, f, hf, hname, ht, haccess⟩ := h.member hmember
      have hnext : Denotes p cd b i (chain ++ (s ++ name)) t :=
        .member (htype ▸ hchain) (hs.imp_right fun hs ↦ ⟨hs.1, hclosed hs.2⟩) hc hf ⟨hsimple, hname,
          ht⟩ haccess
      have hrest := ih hnext (fun h ↦ by cases h) he
      simpa only [List.append_assoc] using hrest
  | @group closed s inner text segments hs _ _ ih =>
    obtain ⟨e₁, hnext, he⟩ := Option.bind_eq_some_iff.1 he
    rw [Names.next?] at hnext
    split at hnext
    · rename_i elem helem
      rw [helem] at hchain
      obtain ⟨index, hindex, rfl⟩ := Option.map_eq_some_iff.1 hnext
      rw [List.dropLast_concat, Names.subscript?] at hindex
      have hitem : Denotes p cd b i (chain ++ (s ++ '[' :: (inner ++ [']']))) elem := by
        split at hindex
        · rename_i k hk
          exact .itemAt hchain hs hk
        · split at hindex
          · cases hindex
          · obtain ⟨u, hu, hindex⟩ := Option.bind_eq_some_iff.1 hindex
            split at hindex
            · rename_i hnumeric
              exact .item hchain hs (hresolve hu) hnumeric
            · cases hindex
      have hlast : (chain ++ (s ++ '[' :: (inner ++ [']']))).getLast? = some ']' := by
        simp [List.getLast?_append, List.getLast?_cons]
      have hrest := ih hitem (fun _ ↦ hlast) he
      simpa only [List.append_assoc, List.cons_append, List.nil_append] using hrest
    · cases hnext

/-- **A chain that is resolved denotes something**, and so do all chains inside its brackets. -/
theorem denotes {depth : Nat} (he : n.resolveWithin? depth chain = some e) :
    Denotes p cd b i chain e.type := by
  induction depth generalizing chain e with
  | zero => cases he
  | succ depth ih =>
    rw [Names.resolveWithin?] at he
    split at he
    · cases he
    · cases he
    · rename_i seg rest hsplit
      obtain ⟨e₀, hfirst, he⟩ := Option.bind_eq_some_iff.1 he
      obtain ⟨hchain, hsplit⟩ := splitChain_eq_some_iff.1 hsplit
      have hcontinued := continued_of_splitFrom hchain hsplit
      generalize hdot : '.' :: chain = text at hcontinued
      cases hcontinued with
      | name hs hne hsimple hrest =>
        obtain rfl | ⟨-, hclosed⟩ := hs
        · cases hdot
          have hdenotes := h.extend ih hrest (h.first hne hsimple hfirst) (fun h ↦ by cases h) he
          exact hdenotes
        · cases hclosed
      | group => cases hfirst

end Speaks

/-! ## Instructions -/

variable {x : Instruction} {st : Statement}

/-- The chains of an instruction that says something are resolved. -/
theorem operand?_of_statement? {n : Names} {b : Block} (hx : x.WellFormed)
    (h : n.statement? b x = some st) : ∀ o ∈ chainOperands x, ∃ e, n.operand? o = some e := by
  have hmost := hx.most
  cases Names.statement?_eq_some_iff.1 h with
  | define | call => exact List.forall_mem_nil _
  | jump _ hop => rcases hop with rfl | rfl <;> exact List.forall_mem_nil _
  | stop => exact List.forall_mem_nil _
  | skip ops _ hop =>
    rcases hop with rfl | rfl | rfl
    · exact List.forall_mem_nil _
    all_goals
      obtain rfl : ops = [] := List.eq_nil_of_length_eq_zero (Nat.le_zero.1 hmost)
      exact List.forall_mem_nil _
  | again ops =>
    obtain rfl : ops = [] := List.eq_nil_of_length_eq_zero (Nat.le_zero.1 hmost)
    exact List.forall_mem_nil _
  | select _ he | comparing _ he | print _ he | ret _ he =>
    exact List.forall_mem_singleton.2 ⟨_, he⟩
  | assign _ hp he => exact List.forall_mem_cons.2 ⟨⟨_, hp⟩, List.forall_mem_singleton.2 ⟨_, he⟩⟩
  | @arith op _ ops _ _ line hop hpair | @compare op _ ops _ _ line hop hpair =>
    have hchain : chainOperands ⟨op, ops, line⟩ = ops := by cases op <;> cases hop <;> rfl
    rw [hchain]
    rcases Names.pair?_eq_some_iff.1 hpair with ⟨right, rfl, -, hr⟩ | ⟨left, right, rfl, hl, hr⟩
    · exact List.forall_mem_singleton.2 ⟨_, hr⟩
    · exact List.forall_mem_cons.2 ⟨⟨_, hl⟩, List.forall_mem_singleton.2 ⟨_, hr⟩⟩
  | isTrue _ he | isFalse _ he =>
    rcases he with ⟨rfl, -⟩ | ⟨o, rfl, he⟩
    · exact List.forall_mem_nil _
    · exact List.forall_mem_singleton.2 ⟨_, he⟩
  | newObject _ _ hp => exact List.forall_mem_singleton.2 ⟨_, hp⟩
  | newArray _ _ hp he =>
    exact List.forall_mem_cons.2 ⟨⟨_, hp⟩, List.forall_mem_singleton.2 ⟨_, he⟩⟩

/-- **An instruction that says something is resolved.**  Nothing is said about a deletion. -/
theorem Speaks.resolved {p : Program} {cd : ClassDecl} {b : Block} {i : Nat} {n : Names}
    (h : Speaks p cd b i n) (hx : x.WellFormed) (hst : n.statement? b x = some st)
    (hdeleted : x.op = .delete → ∃ name typeName, x.operands = [.identifier name] ∧
      InScope b i name typeName) :
    Resolved p cd b i x where
  chains chain hchain := by
    obtain ⟨e, he⟩ := operand?_of_statement? hx hst _ hchain
    exact ⟨e.type, h.denotes he⟩
  label hop := by
    cases Names.statement?_eq_some_iff.1 hst with
    | jump _ _ hj => exact ⟨_, rfl, exists_label hj⟩
    | _ => grind [Names.arith?, Names.test?]
  method hop := by
    cases Names.statement?_eq_some_iff.1 hst with
    | call _ hk => exact ⟨_, rfl, h.owner.exists_method hk⟩
    | _ => grind [Names.arith?, Names.test?]
  defined hop := by
    cases Names.statement?_eq_some_iff.1 hst with
    | define name o _ ht =>
      exact ⟨name, o, _, _, rfl, Ty.ofName?_eq_some_iff.1 (h.isClass ▸ ht)⟩
    | _ => grind [Names.arith?, Names.test?]
  deleted := hdeleted
  created hop := by
    cases Names.statement?_eq_some_iff.1 hst with
    | newObject _ ht => exact ⟨_, _, [], _, rfl, Ty.ofName?_eq_some_iff.1 (h.isClass ▸ ht)⟩
    | newArray _ ht => exact ⟨_, _, [_], _, rfl, Ty.ofName?_eq_some_iff.1 (h.isClass ▸ ht)⟩
    | _ => grind [Names.arith?, Names.test?]

end Codegen

end ClassAsm
