import ClassAsm.Proofs.Codegen.Procedure

/-!
# Modules without their code

Code is generated against the layout of a module, in which no procedure has code yet, and it runs in
the finished module.  The layout is the outline of the finished module: the same classes, fields and
signatures, with all code left out.  What names mean only depends on the outline, and so does
everything that is said about a translated procedure: `Translated.of_outline`.
-/

namespace ClassAsm

namespace Bytecode

/-- A procedure without its code. -/
def Procedure.outline (p : Procedure) : Procedure :=
  { p with code := #[], lines := #[], consts := #[], types := #[], locals := 0 }

/-- A class without code. -/
def CompiledClass.outline (c : CompiledClass) : CompiledClass :=
  { c with
    constructors := c.constructors.map Procedure.outline
    methods := c.methods.map Procedure.outline }

/-- A module without code. -/
def CompiledModule.outline (m : CompiledModule) : CompiledModule :=
  ⟨m.classes.map CompiledClass.outline⟩

theorem CompiledModule.size_outline (m : CompiledModule) :
    m.outline.classes.size = m.classes.size := Array.size_map

/-- A class in the outline of its module. -/
def ClassRef.outline (c : ClassRef) : ClassRef :=
  ⟨c.home.outline, c.index.cast c.home.size_outline.symm⟩

variable {α β : Type}

theorem lastBelow?_map (f : α → β) (p : β → Bool) (xs : Array α) (n : Nat) :
    lastBelow? p (xs.map f) n = lastBelow? (fun x ↦ p (f x)) xs n := by
  induction n with
  | zero => rfl
  | succ n ih =>
    rw [lastBelow?, lastBelow?, ih, Array.getElem?_map, Option.any_map]

theorem lastIndex?_map (f : α → β) (p : β → Bool) (xs : Array α) :
    lastIndex? p (xs.map f) = lastIndex? (fun x ↦ p (f x)) xs := by
  rw [lastIndex?, lastIndex?, Array.size_map, lastBelow?_map]

@[simp] theorem CompiledModule.classIndex?_outline (m : CompiledModule) (name : String) :
    m.outline.classIndex? name = m.classIndex? name := lastIndex?_map _ _ _

@[simp] theorem ClassRef.get_outline (c : ClassRef) : c.outline.get = c.get.outline :=
  Array.getElem_map ..

@[simp] theorem ClassRef.name_outline (c : ClassRef) : c.outline.name = c.name := by
  rw [name, get_outline]
  rfl

theorem CompiledModule.classAt?_outline (m : CompiledModule) (i : Nat) :
    m.outline.classAt? i = (m.classAt? i).map ClassRef.outline := by
  rw [classAt?, classAt?]
  by_cases hi : i < m.classes.size
  · have hi' : i < m.outline.classes.size := m.size_outline ▸ hi
    rw [dif_pos hi, dif_pos hi']
    rfl
  · have hi' : ¬i < m.outline.classes.size := m.size_outline ▸ hi
    rw [dif_neg hi, dif_neg hi']
    rfl

@[simp] theorem CompiledModule.class?_outline (m : CompiledModule) (name : String) :
    m.outline.class? name = (m.class? name).map ClassRef.outline := by
  rw [class?, class?, classIndex?_outline, Option.map_bind]
  exact congrArg _ (funext fun i ↦ m.classAt?_outline i)

@[simp] theorem CompiledClass.methodIndex?_outline (c : CompiledClass) (name : String) :
    c.outline.methodIndex? name = c.methodIndex? name := lastIndex?_map _ _ _

end Bytecode

namespace Reference.Names

open Program Codegen

/-- The names in the outline of the module. -/
def outline (n : Names) : Names := { n with owner := n.owner.outline }

variable (n : Names)

@[simp] theorem isClass_outline : n.outline.isClass = n.isClass := by
  funext name
  simp [isClass, outline, Bytecode.ClassRef.outline]

@[simp] theorem ownField?_outline (name : String) :
    n.outline.ownField? name = n.ownField? name := by
  rw [ownField?, ownField?, outline, Bytecode.ClassRef.get_outline]
  rfl

@[simp] theorem member?_outline (t : Ty) (name : String) :
    n.outline.member? t name = n.member? t name := by
  cases t with
  | object className =>
    show (n.owner.home.outline.class? className).bind _ = (n.owner.home.class? className).bind _
    rw [Bytecode.CompiledModule.class?_outline, Option.bind_map]
    refine congrArg _ (funext fun c ↦ ?_)
    show (c.outline.get.fieldIndex? name).bind _ = (c.get.fieldIndex? name).bind _
    rw [Bytecode.ClassRef.get_outline]
    rfl
  | _ => rfl

theorem name_outline : n.outline.owner.name = n.owner.name := n.owner.name_outline

@[simp] theorem root?_outline (name : String) : n.outline.root? name = n.root? name := by
  rw [root?, root?, ownField?_outline, name_outline]
  rfl

@[simp] theorem first?_outline (seg : List Char) : n.outline.first? seg = n.first? seg := by
  unfold first?
  simp only [root?_outline, name_outline]

@[simp] theorem next?_outline (resolve : List Char → Option Expr) (e : Expr) (seg : List Char) :
    n.outline.next? resolve e seg = n.next? resolve e seg := by
  unfold next?
  simp only [member?_outline]

@[simp] theorem extend?_outline (resolve : List Char → Option Expr) (e : Expr)
    (segments : List (List Char)) :
    n.outline.extend? resolve e segments = n.extend? resolve e segments := by
  induction segments generalizing e with
  | nil => rfl
  | cons seg rest ih =>
    rw [extend?, extend?, next?_outline]
    exact congrArg _ (funext ih)

@[simp] theorem resolveWithin?_outline (depth : Nat) :
    n.outline.resolveWithin? depth = n.resolveWithin? depth := by
  induction depth with
  | zero => rfl
  | succ depth ih =>
    funext chain
    simp only [resolveWithin?, ih, first?_outline, extend?_outline]

@[simp] theorem resolve?_outline (chain : String) :
    n.outline.resolve? chain = n.resolve? chain := by
  rw [resolve?, resolveWithin?_outline]
  rfl

@[simp] theorem register?_outline (r : Register) : n.outline.register? r = n.register? r := rfl

@[simp] theorem operand?_outline (o : Operand) : n.outline.operand? o = n.operand? o := by
  cases o with
  | identifier chain => exact n.resolve?_outline chain
  | _ => rfl

@[simp] theorem pair?_outline (r : Register) (ops : List Operand) :
    n.outline.pair? r ops = n.pair? r ops := by
  unfold pair?
  simp only [register?_outline, operand?_outline]

@[simp] theorem call?_outline (ops : List Operand) : n.outline.call? ops = n.call? ops := by
  unfold call?
  split
  · rename_i name
    show (n.owner.outline.get.methodIndex? name).bind _ = (n.owner.get.methodIndex? name).bind _
    rw [Bytecode.ClassRef.get_outline, Bytecode.CompiledClass.methodIndex?_outline]
    refine congrArg _ (funext fun k ↦ ?_)
    show (n.owner.outline.get.methods[k]?).bind _ = (n.owner.get.methods[k]?).bind _
    rw [Bytecode.ClassRef.get_outline, Bytecode.CompiledClass.outline, Array.getElem?_map,
      Option.bind_map]
    rfl
  · rfl

@[simp] theorem creation?_outline (ops : List Operand) :
    n.outline.creation? ops = n.creation? ops := by
  have hindex : n.outline.owner.home.classIndex? = n.owner.home.classIndex? :=
    funext fun name ↦ n.owner.home.classIndex?_outline name
  unfold creation?
  simp only [isClass_outline, resolve?_outline, operand?_outline, hindex]

/-- **What an instruction says only depends on the outline of the module.** -/
theorem statement?_outline (b : Block) (instr : Instruction) :
    n.outline.statement? b instr = n.statement? b instr := by
  unfold statement? assignment? definition? writing? condition? printing? return?
  simp only [resolve?_outline, operand?_outline, isClass_outline, register?_outline, pair?_outline,
    call?_outline, creation?_outline]
  rfl

end Reference.Names

/-- The types of a statement fit in the module if they fit in its outline. -/
theorem Reference.Statement.Checked.of_outline {m : Bytecode.CompiledModule} {returns : Ty}
    {st : Reference.Statement} (h : st.Checked m.outline returns) : st.Checked m returns := by
  cases st with
  | newObject p k c =>
    obtain ⟨haccepts, hstore, cls, hcls, hk, habstract⟩ := h
    rw [Bytecode.CompiledModule.class?_outline] at hcls
    obtain ⟨found, hfound, rfl⟩ := Option.map_eq_some_iff.1 hcls
    rw [Bytecode.ClassRef.get_outline] at habstract
    exact ⟨haccepts, hstore, found, hfound, hk, habstract⟩
  | ret v => cases v <;> exact h
  | _ => exact h

namespace Codegen

open Bytecode Reference

theorem Context.isClass_outline (c : ClassRef) (p q : Procedure) (b : Program.Block) (back : Flow) :
    Context.isClass ⟨c.outline, p, b, back⟩ = Context.isClass ⟨c, q, b, back⟩ :=
  funext fun name ↦ congrArg Option.isSome (c.home.classIndex?_outline name)

/-- **A procedure that is translated against the outline is translated in the module itself.** -/
theorem Translated.of_outline {c : ClassRef} {signature p : Procedure} {b : Program.Block}
    {back : Flow} {ds : List Default} {ps : List Point} {offs : Array Nat}
    (h : Translated ⟨c.outline, signature, b, back⟩ ds ps offs p) :
    Translated ⟨c, p, b, back⟩ ds ps offs p := by
  have hreturns : p.returns = signature.returns := by rw [h.signature]
  have hclass := Context.isClass_outline c signature p b back
  have hnames (k : Nat) (rs : Registers) : Context.namesAt ⟨c.outline, signature, b, back⟩ k rs =
        (Context.namesAt ⟨c, p, b, back⟩ k rs).outline := by
    rw [Context.namesAt, hclass]
    rfl
  exact {
    signature := rfl
    plain := h.plain
    limit := h.limit
    locals := by rw [h.locals, hclass]
    length := h.length
    offsets := h.offsets
    first := h.first
    start := h.start
    reads := by
      intro k q hq
      obtain ⟨instr, hinstr, hst⟩ := h.reads k q hq
      rw [hnames, Reference.Names.statement?_outline] at hst
      exact ⟨instr, hinstr, hst⟩
    checked := by
      intro k q hq
      have hst := (h.checked k q hq).of_outline
      rwa [← hreturns] at hst
    code := by
      intro k q hq
      have hcode := h.code k q hq
      rwa [← hreturns] at hcode
    last := by
      have hlast := h.last
      rwa [← hreturns] at hlast
    enters := h.enters
    branches := h.branches }

end Codegen

end ClassAsm
