import ClassAsm.Proofs.Codegen.Lowering

/-!
# The types of expressions

What a name stands for carries its type along.  `Expr.Sound` says that these types are the true
ones: a field has the type of its slot in the class of the object, an item the element type of its
array, a variable the type of its define and a register the type it is known to have.
`statement?_sound` is the fact that names are resolved so.

The cells of a block have their types once and for all: `defines` lists them in the order of the
text, and every variable in scope is one of them.
-/

namespace ClassAsm.Reference

open Bytecode Codegen Program

variable {i : Nat} {instr : Instruction} {n : Names} {name : String} {t : Ty} {r : Register}

/-! ## Cells -/

/-- The type that an instruction gives to a new cell. -/
def defined? (isClass : String → Bool) (instr : Instruction) : Option Ty :=
  match instr.op, instr.operands with
  | .define, [.identifier _, _, .identifier typeName] => Ty.ofName? isClass typeName
  | _, _ => none

/-- The types of the cells of a list of instructions, in order. -/
def defines (isClass : String → Bool) (code : List Instruction) : List Ty :=
  code.filterMap (defined? isClass)

theorem defines_cons (isClass : String → Bool) (instr : Instruction) (rest : List Instruction) :
    defines isClass (instr :: rest) = (defined? isClass instr).toList ++ defines isClass rest := by
  rw [defines, List.filterMap_cons]
  cases defined? isClass instr <;> rfl

theorem defines_append (isClass : String → Bool) (xs ys : List Instruction) :
    defines isClass (xs ++ ys) = defines isClass xs ++ defines isClass ys :=
  List.filterMap_append

theorem defines_take_succ (isClass : String → Bool) {code : List Instruction}
    (h : code[i]? = some instr) : defines isClass (code.take (i + 1)) =
      defines isClass (code.take i) ++ (defined? isClass instr).toList := by
  rw [List.take_add_one, h, defines_append, Option.toList_some, defines_cons]
  exact congrArg _ (List.append_nil _)

namespace Scope

/-- The scope knows of the cells `ts`: it has counted them, and its variables are among them. -/
structure Knows (sc : Scope) (ts : List Ty) : Prop where
  count : sc.count = ts.length
  cells : ∀ v ∈ sc.vars, ts[v.2.cell]? = some v.2.type

variable {sc : Scope} {ts : List Ty}

theorem Knows.after (h : sc.Knows ts) (isClass : String → Bool) (i : Nat) (instr : Instruction) :
    (sc.after isClass i instr).Knows (ts ++ (defined? isClass instr).toList) := by
  have hsame {sc' : Scope} (hcount : sc'.count = sc.count)
      (hvars : ∀ v ∈ sc'.vars, v ∈ sc.vars) : sc'.Knows (ts ++ (none : Option Ty).toList) :=
    (List.append_nil ts).symm ▸ ⟨hcount.trans h.count, fun v hv ↦ h.cells v (hvars v hv)⟩
  obtain ⟨op, ops, line⟩ := instr
  unfold Scope.after defined?
  dsimp only
  split
  · dsimp only
    split
    · rename_i t ht
      rw [ht]
      refine ⟨by simp [define, h.count], fun v hv ↦ ?_⟩
      rcases List.mem_cons.1 hv with rfl | hv
      · simp [h.count]
      · have hcell := h.cells v hv
        rw [List.getElem?_append_left (List.getElem?_eq_some_iff.1 hcell).1]
        exact hcell
    · rename_i ht
      rw [ht]
      exact hsame rfl fun _ hv ↦ hv
  · exact hsame rfl fun _ hv ↦ List.mem_of_mem_filter hv
  · exact hsame rfl fun _ hv ↦ hv
  · exact hsame rfl fun _ hv ↦ hv
  · split
    · rename_i hdefine _
      exact (hdefine _ _ _ rfl rfl).elim
    · exact hsame rfl fun _ hv ↦ hv

theorem Knows.through (h : sc.Knows ts) (isClass : String → Bool) (i : Nat)
    (code : List Instruction) : (sc.through isClass i code).Knows (ts ++ defines isClass code) := by
  induction code generalizing sc ts i with
  | nil => rw [defines, List.filterMap_nil, List.append_nil]; exact h
  | cons instr rest ih =>
    have hrest := ih (h.after isClass i instr) (i + 1)
    rw [through, defines_cons, ← List.append_assoc]
    exact hrest

/-- **The variables at an instruction are cells of the text before it.** -/
theorem before_knows (isClass : String → Bool) (b : Block) (i : Nat) :
    (before isClass b i).Knows (defines isClass (b.code.toList.take i)) := by
  have hempty : ({} : Scope).Knows [] := ⟨rfl, fun _ hv ↦ nomatch hv⟩
  exact hempty.through isClass 0 (b.code.toList.take i)

end Scope

/-! ## Expressions -/

/-- The class named `className` has a field of type `t` at index `i`, which the class `owner` may
use. -/
def HasField (owner : ClassRef) (className : String) (i : Nat) (t : Ty) : Prop :=
  ∃ c slot, owner.home.class? className = some c ∧ c.get.fields[i]? = some slot ∧
    slot.type = t ∧ (c.index.val = owner.index.val ∨ slot.isPublic = true)

/-- The types of an expression are those of what it names. -/
def Expr.Sound (n : Names) : Expr → Prop
  | const v t => (∃ o, literal? o = some (v, t)) ∨ (t = .int ∧ ∃ i, v = .ofInt i)
  | register r t => n.registers r = some t
  | cell k t => ∃ name, (name, ⟨k, t⟩) ∈ n.scope.vars
  | this className => className = n.owner.name
  | field o i t =>
    o.Sound n ∧ ∃ className, o.type = .object className ∧ HasField n.owner className i t
  | item a i t => a.Sound n ∧ i.Sound n ∧ a.type = .array t ∧ i.type = .int
  | convert e t => e.Sound n ∧ e.type.tag.isNumeric = true ∧ t = .int

namespace Names

/-- The class that the names belong to is the one with its name. -/
def Proud (n : Names) : Prop := n.owner.home.class? n.owner.name = some n.owner

variable {e e' : Expr} {seg : List Char} {resolve : List Char → Option Expr}

theorem root?_sound (hn : n.Proud) (h : n.root? name = some e) : e.Sound n := by
  rw [root?] at h
  split at h
  · rename_i v hv
    cases h
    obtain ⟨⟨x, w⟩, hw, rfl⟩ := Option.map_eq_some_iff.1 hv
    exact ⟨x, List.mem_of_find?_eq_some hw⟩
  · obtain ⟨⟨i, t⟩, hi, rfl⟩ := Option.map_eq_some_iff.1 h
    obtain ⟨j, -, hj⟩ := Option.bind_eq_some_iff.1 hi
    obtain ⟨slot, hslot, ht⟩ := Option.bind_eq_some_iff.1 hj
    cases ht
    exact ⟨rfl, n.owner.name, rfl, n.owner, slot, hn, hslot, rfl, .inl rfl⟩

theorem first?_sound (hn : n.Proud) (h : n.first? seg = some e) : e.Sound n := by
  unfold first? at h
  split at h
  · cases h
  · cases h
  · split at h
    · cases h
      rfl
    · exact root?_sound hn h

theorem member?_hasField {a : Ty} (h : n.member? a name = some (i, t)) :
    ∃ className, a = .object className ∧ HasField n.owner className i t := by
  unfold member? at h
  split at h
  · rename_i className
    obtain ⟨c, hc, h⟩ := Option.bind_eq_some_iff.1 h
    obtain ⟨j, -, h⟩ := Option.bind_eq_some_iff.1 h
    obtain ⟨slot, hslot, h⟩ := Option.bind_eq_some_iff.1 h
    split at h
    · cases h
    · rename_i hvisible
      cases h
      refine ⟨className, rfl, c, slot, hc, hslot, rfl, ?_⟩
      by_cases hown : c.index.val = n.owner.index.val
      · exact .inl hown
      · exact .inr (by simpa [hown] using hvisible)
  · cases h

section

variable (hres : ∀ chain e, resolve chain = some e → e.Sound n)

include hres

theorem subscript?_sound {text : List Char} (h : subscript? resolve text = some e) :
    e.Sound n ∧ e.type = .int := by
  unfold subscript? at h
  split at h
  · rename_i i _
    cases h
    exact ⟨.inr ⟨rfl, i, rfl⟩, rfl⟩
  · split at h
    · cases h
    · obtain ⟨e', he', h⟩ := Option.bind_eq_some_iff.1 h
      split at h
      · rename_i hnum
        cases h
        rw [Expr.type_coerced, converted, Expr.coerced]
        split
        · rename_i hsuits
          exact ⟨hres _ _ he', by simpa [suits, Ty.tag, Tag.isReference] using hsuits⟩
        · exact ⟨⟨hres _ _ he', hnum, rfl⟩, rfl⟩
      · cases h

theorem next?_sound (he : e.Sound n) (h : n.next? resolve e seg = some e') : e'.Sound n := by
  unfold next? at h
  split at h
  · cases h
  · split at h
    · rename_i elem helem
      obtain ⟨i, hi, rfl⟩ := Option.map_eq_some_iff.1 h
      obtain ⟨hsound, htype⟩ := subscript?_sound hres hi
      exact ⟨he, hsound, helem, htype⟩
    · cases h
  · split at h
    · cases h
    · obtain ⟨⟨i, t⟩, hi, rfl⟩ := Option.map_eq_some_iff.1 h
      exact ⟨he, member?_hasField hi⟩

theorem extend?_sound {segments : List (List Char)} (he : e.Sound n)
    (h : n.extend? resolve e segments = some e') : e'.Sound n := by
  induction segments generalizing e with
  | nil => exact Option.some.inj h ▸ he
  | cons seg rest ih =>
    obtain ⟨f, hf, h⟩ := Option.bind_eq_some_iff.1 h
    exact ih (next?_sound hres he hf) h

end

theorem resolveWithin?_sound (hn : n.Proud) {depth : Nat} {chain : List Char}
    (h : n.resolveWithin? depth chain = some e) : e.Sound n := by
  induction depth generalizing chain e with
  | zero => cases h
  | succ depth ih =>
    rw [resolveWithin?] at h
    split at h
    · cases h
    · cases h
    · obtain ⟨f, hf, h⟩ := Option.bind_eq_some_iff.1 h
      exact extend?_sound (fun _ _ ↦ ih) (first?_sound hn hf) h

theorem register?_sound (h : n.register? r = some e) : e.Sound n := by
  obtain ⟨t, ht, rfl⟩ := Option.map_eq_some_iff.1 h
  exact ht

/-- **What an operand stands for has the type that it says.** -/
theorem operand?_sound (hn : n.Proud) {o : Operand} (h : n.operand? o = some e) : e.Sound n := by
  cases o with
  | identifier chain => exact resolveWithin?_sound hn h
  | returnValue => exact register?_sound h
  | string _ | bool _ | byte _ | int _ | float _ | double _ | null | unknown _ =>
    rw [operand?] at h
    · obtain ⟨⟨v, t⟩, hl, rfl⟩ := Option.map_eq_some_iff.1 h
      exact .inl ⟨_, hl⟩
    · nofun
    · nofun

end Names

/-! ## Statements -/

/-- The type of the cell that a statement defines, if it defines one. -/
def Statement.cells : Statement → List Ty
  | define _ t => [t]
  | _ => []

/-- The types of a statement are those of what it names. -/
def Statement.Sound (n : Names) : Statement → Prop
  | skip | jump _ | ret none => True
  | assign p v => p.Sound n ∧ v.Sound n
  | define k t => k = n.scope.count ∧ t.Proper n.isClass
  | write _ v | truth _ v | print v | ret (some v) => v.Sound n
  | arith _ l r | compare _ l r => l.Sound n ∧ r.Sound n
  | call k t => ∃ callee, n.owner.get.methods[k]? = some callee ∧ callee.returns = t
  | newArray p elem size => p.Sound n ∧ size.Sound n ∧ elem.Proper n.isClass
  | newObject p k className => p.Sound n ∧ n.owner.home.classIndex? className = some k

namespace Names

variable {st : Statement} {ops : List Operand} {b : Block}

theorem pair?_sound (hn : n.Proud) {p : Expr × Expr} (h : n.pair? r ops = some p) :
    p.1.Sound n ∧ p.2.Sound n := by
  rcases pair?_eq_some_iff.1 h with ⟨right, -, hl, hr⟩ | ⟨left, right, -, hl, hr⟩
  · exact ⟨register?_sound hl, operand?_sound hn hr⟩
  · exact ⟨operand?_sound hn hl, operand?_sound hn hr⟩

theorem itemType_proper {isClass : String → Bool} (h : t.Proper isClass) :
    (itemType t).Proper isClass := by
  unfold itemType
  split <;> exact h

/-- **The types of what an instruction says are the true ones.** -/
theorem statement?_sound (hn : n.Proud) (h : n.statement? b instr = some st) : st.Sound n := by
  cases statement?_eq_some_iff.1 h with
  | skip | jump | again | stop => trivial
  | assign _ hp he => exact ⟨resolveWithin?_sound hn hp, operand?_sound hn he⟩
  | define _ _ _ ht => exact ⟨rfl, Ty.proper_of_ofName? ht⟩
  | select _ he | comparing _ he | print _ he | ret _ he => exact operand?_sound hn he
  | arith _ _ hp | compare _ _ hp => exact pair?_sound hn hp
  | isTrue _ he | isFalse _ he =>
    rcases he with ⟨-, he⟩ | ⟨o, -, he⟩
    · exact register?_sound he
    · exact operand?_sound hn he
  | call _ _ hcallee => exact ⟨_, hcallee, rfl⟩
  | newObject _ _ hp hk => exact ⟨resolveWithin?_sound hn hp, hk⟩
  | newArray _ ht hp he =>
    exact ⟨resolveWithin?_sound hn hp, operand?_sound hn he,
      itemType_proper (Ty.proper_of_ofName? ht)⟩

theorem cells_of_statement? (h : n.statement? b instr = some st) :
    st.cells = (defined? n.isClass instr).toList := by
  cases statement?_eq_some_iff.1 h with
  | define _ _ _ ht =>
    simp only [defined?, ht]
    rfl
  | skip _ _ hop => rcases hop with rfl | rfl | rfl <;> rfl
  | @arith op _ _ _ _ _ hop | @compare op _ _ _ _ _ hop => cases op <;> cases hop <;> rfl
  | jump _ hop => rcases hop with rfl | rfl <;> rfl
  | _ => rfl

end Names

end ClassAsm.Reference
