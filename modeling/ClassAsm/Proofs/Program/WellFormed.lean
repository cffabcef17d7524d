import ClassAsm.Program.Decl

/-!
# Well-formed programs

Code generation relies on the shape of a parsed program: every instruction is one of the table with
as many operands as it takes, labels stand inside their block, and defaults are literals.
-/

namespace ClassAsm.Program

/-- An operand of a kind that the table has. -/
def Operand.Known : Operand → Prop
  | .unknown _ => False
  | _ => True

variable {o : Operand}

theorem Operand.Known.text (h : o.Known) : ∃ text, o.text? = .ok text := by
  cases o with
  | unknown code => exact h.elim
  | _ => exact ⟨_, rfl⟩

theorem Operand.Known.ne_unknown (h : o.Known) (code : UInt8) : o ≠ .unknown code := by
  rintro rfl
  exact h

/-- An instruction of the table with operands that fit it. -/
structure Instruction.WellFormed (instr : Instruction) : Prop where
  code : instr.op ≠ .defLabel ∧ ∀ n, instr.op ≠ .unknown n
  least : instr.op.arity.1 ≤ instr.operands.length
  most : instr.operands.length ≤ instr.op.arity.2
  known : ∀ o ∈ instr.operands, o.Known

/-- A block of such instructions, with its labels inside it. -/
structure Block.WellFormed (b : Block) : Prop where
  code : ∀ instr ∈ b.code, instr.WellFormed
  labels : ∀ l ∈ b.labels, 0 ≤ l.2 ∧ l.2 ≤ b.code.size

/-- An operand that is a literal. -/
def Operand.IsLiteral : Operand → Prop
  | .identifier _ | .returnValue | .unknown _ => False
  | _ => True

theorem Operand.IsLiteral.known (h : o.IsLiteral) : o.Known := by
  cases o with
  | unknown code => exact h.elim
  | _ => trivial

/-! ## Declarations

The lines that are mentioned satisfy `ok`, which stands for the lines of the source text. -/

variable (ok : Int → Prop)

/-- A field whose defaults are literals, of which there is one where the type has to be inferred. -/
structure FieldDecl.WellFormed (f : FieldDecl) : Prop where
  line : ok f.line
  literals : ∀ o ∈ f.defaults, o.IsLiteral
  value : f.hasValue = true → f.defaults ≠ []
  inferred : f.typeName = none → f.hasValue = true

/-- A member with a block that can be generated; an abstract one has no code. -/
structure Member.WellFormed (m : Member) : Prop where
  line : ok m.line
  block : m.body.WellFormed
  lines : ∀ x ∈ m.body.code, ok x.line
  empty : m.isAbstract = true → m.body.code = #[]

/-- A class with well-formed fields and members and with different names for its methods; only an
abstract class has abstract methods. -/
structure ClassDecl.WellFormed (c : ClassDecl) : Prop where
  line : ok c.line
  fields : ∀ f ∈ c.fields, f.WellFormed ok
  constructors : ∀ m ∈ c.constructors, m.WellFormed ok ∧ m.isConstructor = true
  methods : ∀ m ∈ c.methods, m.WellFormed ok ∧ m.isConstructor = false
  concrete : c.isAbstract = false → ∀ m ∈ c.methods, m.isAbstract = false
  names : (c.methods.toList.map fun m ↦ m.name).Nodup

end ClassAsm.Program

/-- A program of well-formed classes with different names. -/
structure ClassAsm.Program.WellFormed (ok : Int → Prop) (p : ClassAsm.Program) : Prop where
  classes : ∀ c ∈ p.classes, c.WellFormed ok
  names : (p.classes.toList.map fun c ↦ c.name).Nodup

namespace ClassAsm.Program

variable {m : Member} {c : ClassDecl}

section Lines

variable {ok ok' : Int → Prop} (hok : ∀ line, ok line → ok' line)

include hok

theorem Member.WellFormed.mono (h : m.WellFormed ok) : m.WellFormed ok' :=
  ⟨hok _ h.line, h.block, fun x hx ↦ hok _ (h.lines x hx), h.empty⟩

theorem ClassDecl.WellFormed.mono (h : c.WellFormed ok) : c.WellFormed ok' where
  line := hok _ h.line
  fields f hf := ⟨hok _ (h.fields f hf).line, (h.fields f hf).literals, (h.fields f hf).value,
    (h.fields f hf).inferred⟩
  constructors m hm := ⟨(h.constructors m hm).1.mono hok, (h.constructors m hm).2⟩
  methods m hm := ⟨(h.methods m hm).1.mono hok, (h.methods m hm).2⟩
  concrete := h.concrete
  names := h.names

theorem WellFormed.mono {p : Program} (h : p.WellFormed ok) : p.WellFormed ok' :=
  ⟨fun c hc ↦ (h.classes c hc).mono hok, h.names⟩

end Lines

/-- An instruction word of the table. -/
theorem Opcode.ne_unknown_of_ofWord? {word : String} {op : Opcode} (h : ofWord? word = some op)
    (code : UInt8) : op ≠ .unknown code := by
  have hmem : op ∈ all := by
    unfold ofWord? at h
    dsimp only at h
    split at h
    · rename_i hfind
      exact Option.some.inj h ▸ List.mem_of_find?_eq_some hfind
    · exact List.mem_of_find?_eq_some h
  rintro rfl
  simp [all] at hmem

/-! ## Names -/

/-- The methods of the class have different names. -/
def ClassDecl.Distinct (c : ClassDecl) : Prop := (c.methods.toList.map (·.name)).Nodup

/-- The classes have different names, and so have the methods of each. -/
structure Distinct (p : Program) : Prop where
  names : (p.classes.toList.map (·.name)).Nodup
  classes : ∀ c ∈ p.classes, c.Distinct

end ClassAsm.Program
