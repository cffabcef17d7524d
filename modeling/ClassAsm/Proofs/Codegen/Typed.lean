import ClassAsm.Proofs.Codegen.Module
import ClassAsm.Proofs.Reference.Typing

/-!
# Typed machine code

A `Shape` is what is known at one point of code: the types of the registers that have been written,
of the cells that have been defined, and of the values on the stack.  `Types` says what an
instruction needs and what it leaves behind, and `Typed` the same of a piece of code.

All generated code is typed: that of a statement by `Statement.typed`, that of defaults by
`typed_defaultsCode`, and the return at the end by `typed_epilogueCode`.  What the instructions do
to values of these types is another matter, and is left to `ClassAsm.Proofs.Machine.Conformance`.
-/

namespace ClassAsm

/-- The type has the given constant, whatever the heap. -/
def Ty.Admits (t : Ty) (v : Value) : Prop :=
  match t with
  | .bool | .byte | .int | .float | .double => v.tag = t.tag ∧ v.payload = .none
  | .string => (∃ text, v = .ofString text) ∨ v = .null
  | .null | .array _ | .object _ => v = .null
  | .void | .bareArray | .other _ => False

namespace Codegen

open Bytecode Reference

variable {o : Program.Operand} {n : Names} {rs : Registers} {cs τ : List Ty}
  {isClass : String → Bool} {k : Nat}

/-! ## Instructions -/

/-- What code relies on throughout: the class that it belongs to, and the type of its result. -/
structure Setting where
  owner : ClassRef
  returns : Ty

/-- What is known at one point of code.  The stack is that above the base of the frame, top
first. -/
structure Shape where
  registers : Registers
  cells : List Ty
  stack : List Ty

/-- The instruction turns one shape into another. -/
inductive Types (σ : Setting) : Shape → Instr → Shape → Prop where
  | const : ∀ {rs cs τ t v}, t.Admits v → Types σ ⟨rs, cs, τ⟩ (.const v) ⟨rs, cs, t :: τ⟩
  | readRegister : ∀ {rs cs τ t r}, rs.get r = .typed t →
      Types σ ⟨rs, cs, τ⟩ (.pushLocal r.slot) ⟨rs, cs, t :: τ⟩
  | writeRegister : ∀ {rs cs τ t r},
      Types σ ⟨rs, cs, t :: τ⟩ (.popLocal r.slot) ⟨rs.set r (.typed t), cs, τ⟩
  | readCell : ∀ {rs cs τ t k}, cs[k]? = some t →
      Types σ ⟨rs, cs, τ⟩ (.pushLocal (k + registerCount)) ⟨rs, cs, t :: τ⟩
  | writeCell : ∀ {rs cs τ s t k}, cs[k]? = some t → suits s t = true →
      Types σ ⟨rs, cs, s :: τ⟩ (.popLocal (k + registerCount)) ⟨rs, cs, τ⟩
  | define : ∀ {rs cs τ t},
      Types σ ⟨rs, cs, t :: τ⟩ (.popLocal (cs.length + registerCount)) ⟨rs, cs ++ [t], τ⟩
  | this : ∀ {rs cs τ}, Types σ ⟨rs, cs, τ⟩ .this ⟨rs, cs, .object σ.owner.name :: τ⟩
  | dup : ∀ {rs cs τ t}, Types σ ⟨rs, cs, t :: τ⟩ .dup ⟨rs, cs, t :: t :: τ⟩
  | swap : ∀ {rs cs τ s t}, Types σ ⟨rs, cs, s :: t :: τ⟩ .swap ⟨rs, cs, t :: s :: τ⟩
  | convert : ∀ {rs cs τ s t}, t.accepts s = true →
      Types σ ⟨rs, cs, s :: τ⟩ (.convert t) ⟨rs, cs, t :: τ⟩
  | loadField : ∀ {rs cs τ c i t}, HasField σ.owner c i t →
      Types σ ⟨rs, cs, .object c :: τ⟩ (.loadField i) ⟨rs, cs, t :: τ⟩
  | storeField : ∀ {rs cs τ c i s t}, HasField σ.owner c i t → suits s t = true →
      Types σ ⟨rs, cs, s :: .object c :: τ⟩ (.storeField i) ⟨rs, cs, τ⟩
  | loadItem : ∀ {rs cs τ t}, Types σ ⟨rs, cs, .int :: .array t :: τ⟩ .loadItem ⟨rs, cs, t :: τ⟩
  | storeItem : ∀ {rs cs τ s t}, suits s t = true →
      Types σ ⟨rs, cs, s :: .int :: .array t :: τ⟩ .storeItem ⟨rs, cs, τ⟩
  | intArith : ∀ {rs cs τ a}, Types σ ⟨rs, cs, .int :: .int :: τ⟩ (.intArith a) ⟨rs, cs, .int :: τ⟩
  | floatArith : ∀ {rs cs τ a single l r},
      bothNumeric l r = true → Types σ ⟨rs, cs, r :: l :: τ⟩ (.floatArith a single)
        ⟨rs, cs, (if single then .float else .double) :: τ⟩
  | test : ∀ {rs cs τ x l r}, (ordered x = true → bothNumeric l r = true) →
      Types σ ⟨rs, cs, r :: l :: τ⟩ (.test x) ⟨rs, cs, .bool :: τ⟩
  | not : ∀ {rs cs τ}, Types σ ⟨rs, cs, .bool :: τ⟩ .not ⟨rs, cs, .bool :: τ⟩
  | newArray : ∀ {rs cs τ t}, t.Proper (fun name ↦ (σ.owner.home.classIndex? name).isSome) →
      Types σ ⟨rs, cs, .int :: τ⟩ (.newArray t) ⟨rs, cs, .array t :: τ⟩
  | print : ∀ {rs cs τ t}, Types σ ⟨rs, cs, t :: τ⟩ .print ⟨rs, cs, τ⟩
  | jump : ∀ {rs cs j}, Types σ ⟨rs, cs, []⟩ (.jump j) ⟨rs, cs, []⟩
  | jumpFalse : ∀ {rs cs j}, Types σ ⟨rs, cs, [.bool]⟩ (.jumpFalse j) ⟨rs, cs, []⟩
  | call : ∀ {rs cs k callee},
      σ.owner.get.methods[k]? = some callee → Types σ ⟨rs, cs, []⟩ (.call k)
        ⟨rs, cs, if callee.returns = .void then [] else [callee.returns]⟩
  | new : ∀ {rs cs τ c cls}, σ.owner.home.class? c = some cls → cls.get.isAbstract = false →
      τ.length ≤ 2 → Types σ ⟨rs, cs, τ⟩ (.new cls.index.val) ⟨rs, cs, .object c :: τ⟩
  | ret : ∀ {rs cs}, σ.returns = .void → Types σ ⟨rs, cs, []⟩ (.ret false) ⟨rs, cs, []⟩
  | result : ∀ {rs cs t}, σ.returns ≠ .void → suits t σ.returns = true →
      Types σ ⟨rs, cs, [t]⟩ (.ret true) ⟨rs, cs, []⟩

/-- The code turns one shape into another. -/
inductive Typed (σ : Setting) : Shape → List Instr → Shape → Prop where
  | nil {s : Shape} : Typed σ s [] s
  | cons {s t u : Shape} {x : Instr} {xs : List Instr} : Types σ s x t → Typed σ t xs u →
      Typed σ s (x :: xs) u

section Typed

variable {σ : Setting} {s t u : Shape} {xs ys : List Instr} {x : Instr}

theorem Typed.append (h : Typed σ s xs t) (h' : Typed σ t ys u) : Typed σ s (xs ++ ys) u := by
  induction h with
  | nil => exact h'
  | cons hx _ ih => exact .cons hx (ih h')

theorem Typed.of_append (h : Typed σ s (xs ++ ys) u) : ∃ t, Typed σ s xs t ∧ Typed σ t ys u := by
  induction xs generalizing s with
  | nil => exact ⟨s, .nil, h⟩
  | cons x xs ih =>
    cases h with
    | cons hx hxs =>
      obtain ⟨t, hxs, hys⟩ := ih hxs
      exact ⟨t, .cons hx hxs, hys⟩

theorem Types.typed (h : Types σ s x t) : Typed σ s [x] t := .cons h .nil

theorem Types.cells_le (h : Types σ s x t) : s.cells.length ≤ t.cells.length := by
  cases h with
  | define => simp
  | _ => exact Nat.le_refl _

theorem Typed.cells_le (h : Typed σ s xs t) : s.cells.length ≤ t.cells.length := by
  induction h with
  | nil => exact Nat.le_refl _
  | cons hx _ ih => exact Nat.le_trans hx.cells_le ih

end Typed

/-! ## Expressions -/

variable {v : Value}

section Code

variable {σ : Setting} {e : Expr} {t s : Ty}

/-- The names are those of the setting, and they know no more about registers and cells than is
true. -/
structure Fits (σ : Setting) (n : Names) (rs : Registers) (cs : List Ty) : Prop where
  owner : n.owner = σ.owner
  registers : ∀ r t, n.registers r = some t → rs.get r = .typed t
  scope : n.scope.Knows cs

theorem literal?_admits (h : literal? o = some (v, t)) : t.Admits v := by
  cases o with
  | string => cases h; exact .inl ⟨_, rfl⟩
  | bool | byte | int | float | double => cases h; exact ⟨rfl, rfl⟩
  | null => cases h; rfl
  | identifier | returnValue | unknown => cases h

/-- **The code of an expression leaves a value of its type.** -/
theorem typed_code (hn : Fits σ n rs cs) (he : e.Sound n) :
    Typed σ ⟨rs, cs, τ⟩ e.code ⟨rs, cs, e.type :: τ⟩ := by
  induction e generalizing τ with
  | const v t =>
    refine (Types.const ?_).typed
    rcases he with ⟨o, ho⟩ | ⟨rfl, i, rfl⟩
    · exact literal?_admits ho
    · exact ⟨rfl, rfl⟩
  | register r t => exact (Types.readRegister (hn.registers r t he)).typed
  | cell k t =>
    obtain ⟨name, hname⟩ := he
    exact (Types.readCell (hn.scope.cells _ hname)).typed
  | this className =>
    obtain rfl : className = n.owner.name := he
    rw [hn.owner]
    exact Types.this.typed
  | field o i t ih =>
    obtain ⟨ho, c, hc, hfield⟩ := he
    rw [hn.owner] at hfield
    have hcode : Typed σ ⟨rs, cs, τ⟩ o.code ⟨rs, cs, .object c :: τ⟩ := hc ▸ ih ho
    exact hcode.append (Types.loadField hfield).typed
  | item a i t iha ihi =>
    obtain ⟨ha, hi, hat, hit⟩ := he
    have harray : Typed σ ⟨rs, cs, τ⟩ a.code ⟨rs, cs, .array t :: τ⟩ := hat ▸ iha ha
    have hindex : Typed σ ⟨rs, cs, .array t :: τ⟩ i.code ⟨rs, cs, .int :: .array t :: τ⟩ :=
      hit ▸ ihi hi
    exact (harray.append hindex).append Types.loadItem.typed
  | convert e t ih =>
    obtain ⟨he, hnum, rfl⟩ := he
    have haccepts : Ty.int.accepts e.type = true := hnum
    exact (ih he).append (Types.convert haccepts).typed

/-- What leads to a place leaves the values that it takes. -/
theorem typed_lead (hn : Fits σ n rs cs) (he : e.Sound n) :
    Typed σ ⟨rs, cs, τ⟩ e.lead ⟨rs, cs, e.leadTypes ++ τ⟩ := by
  cases e with
  | const | register | cell | this => exact .nil
  | field o i t => exact typed_code hn he.1
  | item a i t => exact (typed_code hn he.1).append (typed_code hn he.2.1)
  | convert e t => exact typed_code hn he.1

/-- A value of a type that is accepted is converted where this is needed. -/
theorem typed_conversion (h : t.accepts s = true) :
    Typed σ ⟨rs, cs, s :: τ⟩ (conversion s t) ⟨rs, cs, converted s t :: τ⟩ := by
  rw [conversion, converted]
  split
  · exact .nil
  · exact (Types.convert h).typed

theorem suits_converted (s t : Ty) : suits (converted s t) t = true := by
  rw [converted]
  split
  · assumption
  · simp [suits]

/-- A place takes a value that suits it. -/
theorem typed_store (hn : Fits σ n rs cs) (he : e.Sound n) (hs : suits s e.type = true)
    (hstore : e.store?.isSome) :
    Typed σ ⟨rs, cs, s :: (e.leadTypes ++ τ)⟩ e.store?.toList ⟨rs, cs, τ⟩ := by
  cases e with
  | const | register | this | convert => cases hstore
  | cell k t =>
    obtain ⟨name, hname⟩ := he
    exact (Types.writeCell (hn.scope.cells _ hname) hs).typed
  | field o i t =>
    obtain ⟨-, c, hc, hfield⟩ := he
    rw [hn.owner] at hfield
    rw [Expr.leadTypes, hc]
    exact (Types.storeField hfield hs).typed
  | item a i t =>
    obtain ⟨-, -, hat, hit⟩ := he
    rw [Expr.leadTypes, hat, hit]
    exact (Types.storeItem hs).typed

theorem commonType_cases (l r : Ty) :
    commonType l r = .int ∨ commonType l r = .float ∨ commonType l r = .double := by
  rw [commonType]
  split
  · exact .inr (.inr rfl)
  · split
    · exact .inr (.inl rfl)
    · exact .inl rfl

theorem commonType_accepts {l r : Ty} (h : s.tag.isNumeric = true) :
    (commonType l r).accepts s = true := by
  rcases commonType_cases l r with hc | hc | hc <;> rw [hc] <;> exact h

theorem converted_commonType (s l r : Ty) : converted s (commonType l r) = commonType l r := by
  rw [converted]
  split
  · rename_i h
    rcases commonType_cases l r with hc | hc | hc <;> rw [hc] at h ⊢ <;>
      simpa [suits, Ty.tag, Tag.isReference] using h
  · rfl

theorem typed_promotion {l r : Ty} (h : bothNumeric l r = true) :
    Typed σ ⟨rs, cs, r :: l :: τ⟩ (promotion l r)
      ⟨rs, cs, commonType l r :: commonType l r :: τ⟩ := by
  obtain ⟨hl, hr⟩ : l.tag.isNumeric = true ∧ r.tag.isNumeric = true := by
    simpa [bothNumeric] using h
  have hright : Typed σ ⟨rs, cs, r :: l :: τ⟩ (conversion r (commonType l r))
      ⟨rs, cs, converted r (commonType l r) :: l :: τ⟩ := typed_conversion (commonType_accepts hr)
  rw [converted_commonType] at hright
  refine hright.append ?_
  split
  · rename_i heq
    rw [← heq]
    exact .nil
  · exact .cons .swap (.cons (.convert (commonType_accepts hl)) (.cons .swap .nil))

/-- The result of a computation has the common type. -/
theorem typed_computation (a : Arith) (l r : Ty) :
    Types σ ⟨rs, cs, commonType l r :: commonType l r :: τ⟩ (computation a (commonType l r))
      ⟨rs, cs, commonType l r :: τ⟩ := by
  rcases commonType_cases l r with hc | hc | hc <;> rw [hc]
  · exact .intArith
  · show Types σ _ (.floatArith a true) ⟨rs, cs, (if true then .float else .double) :: τ⟩
    exact .floatArith rfl
  · show Types σ _ (.floatArith a false) ⟨rs, cs, (if false then .float else .double) :: τ⟩
    exact .floatArith rfl

end Code

/-! ## Statements -/

theorem zero_admits {t : Ty} (h : t.Proper isClass) : t.Admits t.zero := by
  cases t with
  | bool | byte | int | float | double => exact ⟨rfl, rfl⟩
  | string => exact .inl ⟨"", rfl⟩
  | array | object => rfl
  | void | null | bareArray | other => exact h.elim

variable {i : Nat} {p l r : Expr} {elem : Ty}

section Statements

variable {σ : Setting}

section

variable (hn : Fits σ n rs cs)

include hn

theorem typed_arith {a : Arith} (hl : l.Sound n) (hr : r.Sound n)
    (h : bothNumeric l.type r.type = true) :
    Typed σ ⟨rs, cs, []⟩ ((Statement.arith a l r).code σ.returns i)
      ⟨rs.set .result (.typed .float), cs, []⟩ := by
  have hfloat : Ty.float.accepts (commonType l.type r.type) = true := by
    rcases commonType_cases l.type r.type with hc | hc | hc <;> rw [hc] <;> rfl
  have hconverted : converted (commonType l.type r.type) .float = .float := by
    rcases commonType_cases l.type r.type with hc | hc | hc <;> rw [hc] <;> rfl
  have hconvert : Typed σ ⟨rs, cs, [commonType l.type r.type]⟩
    (conversion (commonType l.type r.type) .float)
      ⟨rs, cs, [converted (commonType l.type r.type) .float]⟩ := typed_conversion hfloat
  rw [hconverted] at hconvert
  exact (((((typed_code hn hl).append (typed_code hn hr)).append (typed_promotion h)).append
    (typed_computation a _ _).typed).append hconvert).append Types.writeRegister.typed

theorem typed_compare {x : Test} (hl : l.Sound n) (hr : r.Sound n)
    (h : bothNumeric l.type r.type = true ∨ ordered x = false) :
    Typed σ ⟨rs, cs, []⟩ ((Statement.compare x l r).code σ.returns i) ⟨rs, cs, []⟩ := by
  have hoperands : Typed σ ⟨rs, cs, []⟩ (l.code ++ r.code) ⟨rs, cs, [r.type, l.type]⟩ :=
    (typed_code hn hl).append (typed_code hn hr)
  cases hnum : bothNumeric l.type r.type with
  | true =>
    have htest : Typed σ ⟨rs, cs, [commonType l.type r.type, commonType l.type r.type]⟩
        [.test x, .jumpFalse (i + 2)] ⟨rs, cs, []⟩ := by
      refine .cons (.test fun _ ↦ ?_) (.cons .jumpFalse .nil)
      rcases commonType_cases l.type r.type with hc | hc | hc <;> rw [hc] <;> rfl
    rw [Statement.code, hnum]
    exact (hoperands.append (typed_promotion hnum)).append htest
  | false =>
    have hordered : ordered x = false := h.resolve_left (by simp [hnum])
    have htest : Typed σ ⟨rs, cs, [r.type, l.type]⟩ [.test x, .jumpFalse (i + 2)] ⟨rs, cs, []⟩ :=
      .cons (.test fun hx ↦ by simp [hordered] at hx) (.cons .jumpFalse .nil)
    rw [Statement.code, hnum]
    exact (hoperands.append .nil).append htest

theorem typed_assign {v : Expr} (hp : p.Sound n) (hv : v.Sound n)
    (haccepts : p.type.accepts v.type = true) (hstore : p.store?.isSome) :
    Typed σ ⟨rs, cs, []⟩ ((Statement.assign p v).code σ.returns i) ⟨rs, cs, []⟩ := by
  have hplace : Typed σ ⟨rs, cs, []⟩ p.lead ⟨rs, cs, p.leadTypes ++ []⟩ := typed_lead hn hp
  exact ((hplace.append (typed_code hn hv)).append (typed_conversion haccepts)).append
    (typed_store hn hp (suits_converted _ _) hstore)

theorem typed_newArray {size : Expr} (hp : p.Sound n) (hsize : size.Sound n)
    (helem : elem.Proper n.isClass) (hnum : size.type.tag.isNumeric = true)
    (haccepts : p.type.accepts (.array elem) = true) (hstore : p.store?.isSome) :
    Typed σ ⟨rs, cs, []⟩ ((Statement.newArray p elem size).code σ.returns i) ⟨rs, cs, []⟩ := by
  have hplace : Typed σ ⟨rs, cs, []⟩ p.lead ⟨rs, cs, p.leadTypes ++ []⟩ := typed_lead hn hp
  have hint : Ty.int.accepts size.type = true := hnum
  have hconvert {τ : List Ty} : Typed σ ⟨rs, cs, size.type :: τ⟩ (conversion size.type .int)
      ⟨rs, cs, .int :: τ⟩ := by
    have hconverted : converted size.type .int = .int := by
      rw [converted]
      split
      · rename_i h
        simpa [suits, Ty.tag, Tag.isReference] using h
      · rfl
    have h : Typed σ ⟨rs, cs, size.type :: τ⟩ (conversion size.type .int)
      ⟨rs, cs, converted size.type .int :: τ⟩ := typed_conversion hint
    rwa [hconverted] at h
  have hclass : elem.Proper fun name ↦ (σ.owner.home.classIndex? name).isSome := hn.owner ▸ helem
  exact ((((hplace.append (typed_code hn hsize)).append hconvert).append
    (Types.newArray hclass).typed).append (typed_conversion haccepts)).append
      (typed_store hn hp (suits_converted _ _) hstore)

theorem typed_newObject {c : String} (hp : p.Sound n) (haccepts : p.type.accepts (.object c) = true)
    (hstore : p.store?.isSome) {cls : ClassRef} (hcls : σ.owner.home.class? c = some cls)
    (hk : cls.index.val = k) (habs : cls.get.isAbstract = false) :
    Typed σ ⟨rs, cs, []⟩ ((Statement.newObject p k c).code σ.returns i) ⟨rs, cs, []⟩ := by
  have hplace : Typed σ ⟨rs, cs, []⟩ p.lead ⟨rs, cs, p.leadTypes ++ []⟩ := typed_lead hn hp
  have hlength : (p.leadTypes ++ []).length ≤ 2 := (List.append_nil _).symm ▸ p.length_leadTypes
  subst hk
  exact ((hplace.append (Types.new hcls habs hlength).typed).append
    (typed_conversion haccepts)).append (typed_store hn hp (suits_converted _ _) hstore)

theorem typed_truth {v : Expr} {negated : Bool} (hv : v.Sound n) (hbool : v.type = .bool) :
    Typed σ ⟨rs, cs, []⟩ ((Statement.truth negated v).code σ.returns i) ⟨rs, cs, []⟩ := by
  have hcode : Typed σ ⟨rs, cs, []⟩ v.code ⟨rs, cs, [.bool]⟩ := hbool ▸ typed_code hn hv
  have hnot : Typed σ ⟨rs, cs, [.bool]⟩ (if negated then [.not] else []) ⟨rs, cs, [.bool]⟩ := by
    split
    · exact Types.not.typed
    · exact .nil
  exact (hcode.append hnot).append Types.jumpFalse.typed

end

theorem typed_call {callee : Procedure} (h : σ.owner.get.methods[k]? = some callee) :
    Typed σ ⟨rs, cs, []⟩ ((Statement.call k callee.returns).code σ.returns i)
      ⟨(Statement.call k callee.returns).after rs, cs, []⟩ := by
  refine .cons (.call h) ?_
  rw [Statement.after]
  by_cases hvoid : callee.returns = .void
  · rw [if_pos hvoid, if_pos hvoid, if_pos hvoid]
    exact .nil
  · rw [if_neg hvoid, if_neg hvoid, if_neg hvoid]
    exact Types.writeRegister.typed

/-- **The code of a statement is typed.**  It leaves nothing on the stack. -/
theorem typed_statement {st : Statement} (hn : Fits σ n rs cs) (hs : st.Sound n)
    (hc : st.Checked σ.owner.home σ.returns) :
    Typed σ ⟨rs, cs, []⟩ (st.code σ.returns i) ⟨st.after rs, cs ++ st.cells, []⟩ := by
  have hsame {code : List Instr} {rs' : Registers}
      (h : Typed σ ⟨rs, cs, []⟩ code ⟨rs', cs, []⟩) :
      Typed σ ⟨rs, cs, []⟩ code ⟨rs', cs ++ [], []⟩ := (List.append_nil cs).symm ▸ h
  cases st with
  | define k t =>
    obtain ⟨rfl, ht⟩ := hs
    rw [hn.scope.count]
    exact .cons (.const (zero_admits ht)) Types.define.typed
  | skip => exact hsame .nil
  | assign p v => exact hsame (typed_assign hn hs.1 hs.2 hc.1 hc.2)
  | write r v => exact hsame ((typed_code hn hs).append Types.writeRegister.typed)
  | arith a l r => exact hsame (typed_arith hn hs.1 hs.2 hc)
  | truth negated v => exact hsame (typed_truth hn hs hc)
  | compare x l r => exact hsame (typed_compare hn hs.1 hs.2 (hc.imp_right fun h ↦ h.1))
  | jump j => exact hsame Types.jump.typed
  | call k t =>
    obtain ⟨callee, hcallee, rfl⟩ := hs
    exact hsame (typed_call (hn.owner ▸ hcallee))
  | print v => exact hsame ((typed_code hn hs).append Types.print.typed)
  | ret v =>
    cases v with
    | none => exact hsame (Types.ret hc).typed
    | some v =>
      exact hsame (((typed_code hn hs).append (typed_conversion hc.2)).append
        (Types.result hc.1 (suits_converted _ _)).typed)
  | newArray p elem size =>
    exact hsame (typed_newArray hn hs.1 hs.2.1 hs.2.2 hc.1 hc.2.1 hc.2.2)
  | newObject p k c =>
    obtain ⟨haccepts, hstore, cls, hcls, hk, habs⟩ := hc
    exact hsame (typed_newObject hn hs.1 haccepts hstore hcls hk habs)

end Statements

/-! ## Defaults and the end -/

/-- A default is one for a field of type `t`. -/
def DefaultFor (t : Ty) : Default → Prop
  | .zero => True
  | .value v => t.Admits v
  | .items elem vs => t = .array elem ∧ ∀ v ∈ vs, elem.Admits v

variable {d : Default} {ds : List Default}

section Defaults

variable {σ : Setting} {t : Ty}

theorem constantAs?_admits (ht : t.Proper isClass) (h : constantAs? t o = some v) : t.Admits v := by
  obtain ⟨⟨l, s⟩, hl, hv⟩ := Option.bind_eq_some_iff.1 h
  have hnull (hnull : l.isNull = true) : l = .null := by
    cases o with
    | null => cases hl; rfl
    | string | bool | byte | int | float | double => cases hl; cases hnull
    | identifier | returnValue | unknown => cases hl
  have hplain := literal?_plain hl
  cases Heap.conversion_of_convert? hv with
  | number _ htag hpayload _ hnumber =>
    cases t with
    | byte | int | float | double => exact ⟨htag, hpayload⟩
    | _ => cases hnumber
  | bool htag =>
    rcases hplain with ⟨-, hp⟩ | ⟨text, rfl⟩
    · exact ⟨htag, hp⟩
    · cases htag
  | text htext => exact htext.imp (fun htag ↦ hplain.resolve_left fun hp ↦ hp.1 htag) hnull
  | printed => exact .inl ⟨_, rfl⟩
  | null _ htag =>
    cases t with
    | array | object => rfl
    | bareArray => exact ht.elim
    | _ => simp [Ty.tag] at htag
  | array _ hcell =>
    rcases hplain with ⟨-, hp⟩ | ⟨text, rfl⟩
    · simp [Heap.array?, hp] at hcell
    · cases hcell
  | object _ hname =>
    rcases hplain with ⟨-, hp⟩ | ⟨text, rfl⟩
    · simp [Heap.className?, hp] at hname
    · cases hname

/-- What the declaration of a field gives is a default for its type. -/
theorem defaultOf?_for (ht : t.Proper isClass) {f : Program.FieldDecl}
    (h : defaultOf? f t = some d) : DefaultFor t d := by
  rw [defaultOf?] at h
  split at h
  · unfold given? at h
    split at h
    · cases h
      rfl
    · rename_i elem _
      have helem : elem.Proper isClass := ht
      obtain ⟨vs, hvs, rfl⟩ := Option.map_eq_some_iff.1 h
      refine ⟨rfl, fun v hv ↦ ?_⟩
      obtain ⟨j, hj⟩ := List.getElem?_of_mem hv
      obtain ⟨o, -, ho⟩ := exists_left_of_forall₂ (forall₂_of_mapM hvs) hj
      exact constantAs?_admits helem ho
    · obtain ⟨v, hv, rfl⟩ := Option.map_eq_some_iff.1 h
      exact constantAs?_admits ht hv
    · cases h
  · cases h
    trivial

theorem defaultsOf?_for {fs : List Program.FieldDecl} {ts : List Ty}
    (hts : ∀ t ∈ ts, t.Proper isClass) (h : defaultsOf? fs ts = some ds) {j : Nat}
    (hd : ds[j]? = some d) : ∃ t, ts[j]? = some t ∧ DefaultFor t d := by
  induction fs generalizing ts ds j with
  | nil =>
    cases h
    cases hd
  | cons f fs ih =>
    cases ts with
    | nil => cases h
    | cons t ts =>
      obtain ⟨d', hd', h⟩ := Option.bind_eq_some_iff.1 h
      obtain ⟨ds', hds', h⟩ := Option.bind_eq_some_iff.1 h
      cases h
      cases j with
      | zero =>
        cases hd
        exact ⟨t, rfl, defaultOf?_for (hts t List.mem_cons_self) hd'⟩
      | succ j => exact ih (fun t ht ↦ hts t (List.mem_cons_of_mem _ ht)) hds' hd

theorem typed_itemsCode {vs : List Value} (h : ∀ v ∈ vs, elem.Admits v) (i : Nat) :
    Typed σ ⟨rs, cs, .array elem :: τ⟩ (itemsCode i vs) ⟨rs, cs, .array elem :: τ⟩ := by
  induction vs generalizing i with
  | nil => exact .nil
  | cons v vs ih =>
    have hindex : Ty.int.Admits (.ofInt (Int64.ofNat i)) := ⟨rfl, rfl⟩
    have hitem : Typed σ ⟨rs, cs, .array elem :: τ⟩
        [.dup, .const (.ofInt (Int64.ofNat i)), .const v, .storeItem] ⟨rs, cs, .array elem :: τ⟩ :=
      .cons .dup (.cons (.const hindex) (.cons (.const (h v List.mem_cons_self))
        (Types.storeItem (by simp [suits])).typed))
    exact hitem.append (ih (fun v hv ↦ h v (List.mem_cons_of_mem _ hv)) (i + 1))

/-- **The code of the defaults is typed.** -/
theorem typed_defaultsCode (h : ∀ j d, ds[j]? = some d →
      ∃ t, HasField σ.owner σ.owner.name (i + j) t ∧ DefaultFor t d ∧
        t.Proper fun name ↦ (σ.owner.home.classIndex? name).isSome) :
    Typed σ ⟨rs, cs, []⟩ (defaultsCode i ds) ⟨rs, cs, []⟩ := by
  induction ds generalizing i with
  | nil => exact .nil
  | cons d ds ih =>
    have hrest : Typed σ ⟨rs, cs, []⟩ (defaultsCode (i + 1) ds) ⟨rs, cs, []⟩ := by
      refine ih fun j d hd ↦ ?_
      rw [Nat.add_assoc, Nat.add_comm 1 j]
      exact h (j + 1) d hd
    refine Typed.append ?_ hrest
    obtain ⟨t, hfield, hd, ht⟩ := h 0 d rfl
    cases d with
    | zero => exact .nil
    | value v =>
      exact .cons .this (.cons (.const hd) (Types.storeField hfield (by simp [suits])).typed)
    | items elem vs =>
      obtain ⟨rfl, hvs⟩ := hd
      have hsize : Ty.int.Admits (.ofInt (Int64.ofNat vs.length)) := ⟨rfl, rfl⟩
      have helem : elem.Proper fun name ↦ (σ.owner.home.classIndex? name).isSome := ht
      have hnew : Typed σ ⟨rs, cs, []⟩ [.this, .const (.ofInt (Int64.ofNat vs.length)),
        .newArray elem]
          ⟨rs, cs, [.array elem, .object σ.owner.name]⟩ :=
        .cons .this (.cons (.const hsize) (Types.newArray helem).typed)
      exact (hnew.append (typed_itemsCode hvs 0)).append
        (Types.storeField hfield (by simp [suits])).typed

theorem typed_epilogueCode (h : σ.returns = .void ∨ σ.returns.Proper isClass) :
    Typed σ ⟨rs, cs, []⟩ (epilogueCode σ.returns) ⟨rs, cs, []⟩ := by
  rw [epilogueCode]
  split
  · rename_i hvoid
    exact (Types.ret hvoid).typed
  · rename_i hne
    have hproper := h.resolve_left hne
    exact .cons (.const (zero_admits hproper)) (Types.result hne (by simp [suits])).typed

end Defaults

end Codegen

end ClassAsm
