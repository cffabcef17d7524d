import ClassAsm.Proofs.Program.Parsed

/-!
# The programs that are parsed

Not every program can be written down: names have to be different and not empty, operands have to be
of a kind that has a token, labels have to stand inside their block.  `Program.Writable` lists what
is needed, and `parsed_iff_writable` says that it is exactly what the parser yields.

The parser keeps the labels of a block in the order of their places, while which label stands first
does not matter to a program.  So the programs that are parsed are `InOrder` as well, and any other
writable program is parsed as `Program.ordered` has it.

## How it is proved

* For each kind of syntax tree there is a lemma that says which declarations have such a tree, from
  `exists_operand` to `exists_unit`.  These are equivalences, so that each of them serves both
  directions of the main result.
* The labels and the instructions of a body are kept apart by the parser.  They are written in one
  go: a label once all instructions before its place have been written (`exists_rest`).
* Members are written kind by kind (`exists_members`), as the parser has a list for each kind.
-/

namespace ClassAsm.Program

/-! ## What can be written -/

/-- An operand of a kind that has a token.  Four words do not name anything. -/
def Operand.Writable : Operand → Prop
  | .identifier name => name ≠ "" ∧ name ∉ ["true", "false", "null", "ret"]
  | .string _ | .bool _ | .int _ | .float _ | .null | .returnValue => True
  | .byte _ | .double _ | .unknown _ => False

/-- An instruction of the table with as many operands as it takes. -/
structure Instruction.Writable (i : Instruction) : Prop where
  code : i.op ≠ .defLabel ∧ ∀ n, i.op ≠ .unknown n
  least : i.op.arity.1 ≤ i.operands.length
  most : i.operands.length ≤ i.op.arity.2
  operands : ∀ o ∈ i.operands, o.Writable

/-- A block with different labels that stand inside it. -/
structure Block.Writable (b : Block) : Prop where
  code : ∀ i ∈ b.code, i.Writable
  names : (b.labels.map (·.1)).Nodup
  labels : ∀ l ∈ b.labels, l.1 ≠ "" ∧ 0 ≤ l.2 ∧ l.2 ≤ b.code.size

/-- A field with a type or exactly one default.  Defaults are literals. -/
structure FieldDecl.Writable (f : FieldDecl) : Prop where
  name : f.name ≠ ""
  type : f.typeName ≠ some ""
  value : f.hasValue = true ↔ f.defaults ≠ []
  literals : ∀ o ∈ f.defaults, o.Writable ∧ o.IsLiteral
  inferred : f.typeName = none → f.defaults.length = 1

/-- A method with a name, or a constructor without a name and a result.  It has no code if it is
abstract. -/
structure Member.Writable (m : Member) : Prop where
  body : m.body.Writable
  empty : m.isAbstract = true → m.body.code = #[]
  method : m.isConstructor = false → m.name ≠ "" ∧ m.returns ≠ some ""
  constructor : m.isConstructor = true → m.name = "" ∧ m.returns = none

/-- A class whose fields and methods have different names.  Abstract methods need an abstract
class. -/
structure ClassDecl.Writable (c : ClassDecl) : Prop where
  name : c.name ≠ ""
  fields : ∀ f ∈ c.fields, f.Writable
  constructors : ∀ m ∈ c.constructors, m.isConstructor = true ∧ m.Writable
  methods : ∀ m ∈ c.methods, m.isConstructor = false ∧ m.Writable
  fieldNames : (c.fields.toList.map (·.name)).Nodup
  methodNames : (c.methods.toList.map (·.name)).Nodup
  concrete : c.isAbstract = false → ∀ m ∈ c.methods, m.isAbstract = false

end ClassAsm.Program

/-- Classes with different names. -/
structure ClassAsm.Program.Writable (p : ClassAsm.Program) : Prop where
  classes : ∀ c ∈ p.classes, c.Writable
  names : (p.classes.toList.map (·.name)).Nodup

namespace ClassAsm.Program

/-! ## The order of labels -/

/-- The labels are in the order of their places. -/
def Block.InOrder (b : Block) : Prop := b.labels.Pairwise (·.2 ≤ ·.2)

/-- The labels of all members are in the order of their places. -/
def ClassDecl.InOrder (c : ClassDecl) : Prop :=
  (∀ m ∈ c.constructors, m.body.InOrder) ∧ ∀ m ∈ c.methods, m.body.InOrder

/-- The block with its labels in the order of their places. -/
def Block.ordered (b : Block) : Block :=
  { b with labels := b.labels.mergeSort fun l l' ↦ decide (l.2 ≤ l'.2) }

def Member.ordered (m : Member) : Member := { m with body := m.body.ordered }

def ClassDecl.ordered (c : ClassDecl) : ClassDecl :=
  { c with
    constructors := c.constructors.map Member.ordered
    methods := c.methods.map Member.ordered }

end ClassAsm.Program

def ClassAsm.Program.InOrder (p : ClassAsm.Program) : Prop := ∀ c ∈ p.classes, c.InOrder

/-- The program with all labels in the order of their places. -/
def ClassAsm.Program.ordered (p : ClassAsm.Program) : ClassAsm.Program :=
  ⟨p.classes.map ClassAsm.Program.ClassDecl.ordered⟩

namespace ClassAsm.Program

theorem Block.ordered_perm (b : Block) : b.ordered.labels.Perm b.labels := List.mergeSort_perm ..

theorem Block.ordered_inOrder (b : Block) : b.ordered.InOrder := by
  let le (l l' : String × Int) : Bool := decide (l.2 ≤ l'.2)
  have htrans (a b c : String × Int) (hab : le a b = true) (hbc : le b c = true) : le a c = true :=
    decide_eq_true (Int.le_trans (of_decide_eq_true hab) (of_decide_eq_true hbc))
  have htotal (a b : String × Int) : (le a b || le b a) = true := by
    simpa [le] using Int.le_total a.2 b.2
  exact (List.pairwise_mergeSort htrans htotal b.labels).imp of_decide_eq_true

theorem Block.writable_ordered {b : Block} : b.ordered.Writable ↔ b.Writable := by
  have hperm := b.ordered_perm
  constructor
  · rintro ⟨hcode, hnames, hlabels⟩
    exact ⟨hcode, (hperm.map _).nodup_iff.1 hnames, fun l hl ↦ hlabels l (hperm.mem_iff.2 hl)⟩
  · rintro ⟨hcode, hnames, hlabels⟩
    exact ⟨hcode, (hperm.map _).nodup_iff.2 hnames, fun l hl ↦ hlabels l (hperm.mem_iff.1 hl)⟩

theorem Member.writable_ordered {m : Member} : m.ordered.Writable ↔ m.Writable :=
  ⟨fun h ↦ ⟨Block.writable_ordered.1 h.body, h.empty, h.method, h.constructor⟩,
    fun h ↦ ⟨Block.writable_ordered.2 h.body, h.empty, h.method, h.constructor⟩⟩

theorem ClassDecl.writable_ordered {c : ClassDecl} : c.ordered.Writable ↔ c.Writable := by
  have hnames : c.ordered.methods.toList.map (·.name) = c.methods.toList.map (·.name) := by
    simp [ClassDecl.ordered, Member.ordered, Function.comp_def]
  have hall (ms : Array Member) (b : Bool) : (∀ m ∈ ms.map Member.ordered, m.isConstructor = b ∧
    m.Writable) ↔
      ∀ m ∈ ms, m.isConstructor = b ∧ m.Writable := by
    rw [Array.forall_mem_map]
    exact forall₂_congr fun m _ ↦ and_congr_right' Member.writable_ordered
  have hconcrete : (∀ m ∈ c.methods.map Member.ordered, m.isAbstract = false) ↔
    ∀ m ∈ c.methods, m.isAbstract = false := Array.forall_mem_map
  constructor
  · rintro ⟨h₁, h₂, h₃, h₄, h₅, h₆, h₇⟩
    exact ⟨h₁, h₂, (hall _ _).1 h₃, (hall _ _).1 h₄, h₅, hnames ▸ h₆, fun h ↦ hconcrete.1 (h₇ h)⟩
  · rintro ⟨h₁, h₂, h₃, h₄, h₅, h₆, h₇⟩
    exact ⟨h₁, h₂, (hall _ _).2 h₃, (hall _ _).2 h₄, h₅, hnames.symm ▸ h₆, fun h ↦
      hconcrete.2 (h₇ h)⟩

theorem writable_ordered {p : Program} : p.ordered.Writable ↔ p.Writable := by
  have hnames : p.ordered.classes.toList.map (·.name) = p.classes.toList.map (·.name) := by
    simp [ordered, ClassDecl.ordered, Function.comp_def]
  have hall : (∀ c ∈ p.ordered.classes, c.Writable) ↔ ∀ c ∈ p.classes, c.Writable := by
    rw [ordered, Array.forall_mem_map]
    exact forall₂_congr fun c _ ↦ ClassDecl.writable_ordered
  exact ⟨fun h ↦ ⟨hall.1 h.classes, hnames ▸ h.names⟩, fun h ↦
    ⟨hall.2 h.classes, hnames.symm ▸ h.names⟩⟩

theorem inOrder_ordered (p : Program) : p.ordered.InOrder := by
  intro c hc
  obtain ⟨c, -, rfl⟩ := Array.mem_map.1 hc
  exact ⟨Array.forall_mem_map.2 fun m _ ↦ m.body.ordered_inOrder,
    Array.forall_mem_map.2 fun m _ ↦ m.body.ordered_inOrder⟩

end ClassAsm.Program

namespace ClassAsm.Grammar

open Program

/-! ## Parts of a row -/

/-- A token with a text, if it is a name. -/
def HasText (t : Token) : Prop := t.kind = .identifier → t.text ≠ ""

theorem Keyword.hasText {k : Token.Kind} (t : Keyword k) (hk : k ≠ .identifier) : HasText t.1 :=
  fun h ↦ (hk (t.2.symm.trans h)).elim

theorem Terminal.hasText {test : Token.Kind → Bool} (t : Terminal test)
    (htest : test .identifier = false) : HasText t.1 := by
  intro h
  have := t.2
  rw [h, htest] at this
  cases this

variable {α β : Type}

theorem exists_operand {o : Operand} :
    (∃ t : Terminal isOperand, HasText t.1 ∧ operandValue t = o) ↔ o.Writable := by
  constructor
  · rintro ⟨⟨⟨kind, text, line⟩, h⟩, htext, rfl⟩
    cases kind with
    | identifier =>
      unfold operandValue
      dsimp only
      split
      case h_5 h₁ h₂ h₃ h₄ => exact ⟨htext rfl, by simpa using ⟨h₁, h₂, h₃, h₄⟩⟩
      all_goals trivial
    | string | int | float => trivial
    | _ => cases h
  · intro h
    cases o with
    | identifier name =>
      obtain ⟨hname, hwords⟩ := h
      refine ⟨⟨⟨.identifier, name, 0⟩, rfl⟩, fun _ ↦ hname, ?_⟩
      unfold operandValue
      dsimp only
      split <;> simp_all
    | string text => exact ⟨⟨⟨.string, text, 0⟩, rfl⟩, nofun, rfl⟩
    | int i => exact ⟨⟨⟨.int i, "", 0⟩, rfl⟩, nofun, rfl⟩
    | float x => exact ⟨⟨⟨.float x, "", 0⟩, rfl⟩, nofun, rfl⟩
    | bool b =>
      cases b with
      | true => exact ⟨⟨⟨.identifier, "true", 0⟩, rfl⟩, fun _ ↦ by decide, rfl⟩
      | false => exact ⟨⟨⟨.identifier, "false", 0⟩, rfl⟩, fun _ ↦ by decide, rfl⟩
    | null => exact ⟨⟨⟨.identifier, "null", 0⟩, rfl⟩, fun _ ↦ by decide, rfl⟩
    | returnValue => exact ⟨⟨⟨.identifier, "ret", 0⟩, rfl⟩, fun _ ↦ by decide, rfl⟩
    | byte | double | unknown => exact h.elim

variable {os : List Operand}

theorem exists_operands :
    (∃ ts : List (Terminal isOperand), (∀ t ∈ ts, HasText t.1) ∧ ts.map operandValue = os) ↔
    ∀ o ∈ os, o.Writable :=
  exists_map_eq.trans (forall₂_congr fun _ _ ↦ exists_operand)

theorem exists_name {name : String} : (∃ n : Name, HasText n.1 ∧ n.1.text = name) ↔ name ≠ "" := by
  constructor
  · rintro ⟨n, hn, rfl⟩
    exact hn n.2
  · intro h
    exact ⟨⟨⟨.identifier, name, 0⟩, rfl⟩, fun _ ↦ h, rfl⟩

theorem exists_type {type : Option String} :
    (∃ c : Option TypeClause, (∀ t ∈ typeTokens c, HasText t) ∧ c.map (·.name.1.text) = type) ↔
    type ≠ some "" := by
  constructor
  · rintro ⟨_ | c, hc, rfl⟩
    · intro h
      cases h
    · intro h
      exact hc c.name.1 (by simp [typeTokens]) c.name.2 (Option.some.inj h)
  · intro h
    cases type with
    | none => exact ⟨none, List.forall_mem_nil _, rfl⟩
    | some type =>
      obtain ⟨n, hn, rfl⟩ := exists_name.2 fun htype ↦ h (congrArg some htype)
      refine ⟨some ⟨⟨⟨.colon, ":", 0⟩, rfl⟩, n⟩, ?_, rfl⟩
      exact List.forall_mem_cons.2 ⟨fun h ↦ (by cases h), List.forall_mem_singleton.2 hn⟩

theorem exists_attributes (test : Token.Kind → Bool) (shown abstract override : Bool)
    (hshown : test .publicKw = true) (habstract : abstract = true → test .abstractKw = true)
    (hoverride : override = true → test .overrideKw = true) :
    ∃ as : List (Terminal test), visible false (as.map (·.1)) = shown ∧
      marked .abstractKw (as.map (·.1)) = abstract ∧
      marked .overrideKw (as.map (·.1)) = override := by
  refine ⟨(if shown then [⟨⟨.publicKw, "public", 0⟩, hshown⟩] else []) ++
    ((if h : abstract = true then [⟨⟨.abstractKw, "abstract", 0⟩, habstract h⟩] else []) ++
      if h : override = true then [⟨⟨.overrideKw, "override", 0⟩, hoverride h⟩] else []), ?_⟩
  cases shown <;> cases abstract <;> cases override <;> exact ⟨rfl, rfl, rfl⟩

/-! ## Bodies -/

theorem ofWord?_name {op : Opcode} (h : ∀ n, op ≠ .unknown n) :
    Opcode.ofWord? op.name = some op := by
  have hall : ∀ op ∈ Opcode.all, Opcode.ofWord? op.name = some op := by decide +kernel
  refine hall op ?_
  cases op with
  | unknown n => exact (h n rfl).elim
  | _ => decide

theorem exists_instruction {i : Instruction} :
    (∃ r : InstructionRow, (∀ t ∈ (BodyRow.instruction r).tokens, HasText t) ∧ r.instruction = i) ↔
    i.Writable := by
  constructor
  · rintro ⟨r, htext, rfl⟩
    have hoperands : ∀ t ∈ r.operands, HasText t.1 := fun t ht ↦
      htext t.1 (List.mem_cons_of_mem _ (List.mem_map_of_mem ht))
    obtain ⟨hcode, hleast, hmost, -⟩ := r.wellFormed
    exact ⟨hcode, hleast, hmost, exists_operands.1 ⟨_, hoperands, rfl⟩⟩
  · rintro ⟨⟨hlabel, hknown⟩, hleast, hmost, hoperands⟩
    obtain ⟨op, os, line⟩ := i
    obtain ⟨ts, hts, rfl⟩ := exists_operands.2 hoperands
    rw [List.length_map] at hleast hmost
    have hword : op.name ≠ "" := by cases op <;> simp [Opcode.name]
    refine ⟨⟨⟨⟨.identifier, op.name, line⟩, rfl⟩, op, ts, ofWord?_name hknown, hlabel,
      hleast, hmost⟩, List.forall_mem_cons.2 ⟨fun _ ↦ hword, fun t ht ↦ ?_⟩, rfl⟩
    obtain ⟨a, ha, rfl⟩ := List.mem_map.1 ht
    exact hts a ha

theorem exists_label {name : String} :
    (∃ r : LabelRow, (∀ t ∈ (BodyRow.label r).tokens, HasText t) ∧ r.name.1.text = name) ↔
    name ≠ "" := by
  constructor
  · rintro ⟨r, htext, rfl⟩
    exact htext r.name.1 (by simp [BodyRow.tokens]) r.name.2
  · intro h
    obtain ⟨n, hn, rfl⟩ := exists_name.2 h
    have hword : Opcode.defLabel.name ≠ "" := by decide
    have hop : Opcode.ofWord? Opcode.defLabel.name = some .defLabel := ofWord?_name fun _ h ↦
      nomatch h
    refine ⟨⟨⟨⟨.identifier, Opcode.defLabel.name, 0⟩, rfl⟩, n, hop⟩, ?_, rfl⟩
    exact List.forall_mem_cons.2 ⟨fun _ ↦ hword, List.forall_mem_singleton.2 hn⟩

variable {b : Block}

theorem labels_foldl (b : Block) (body : List BodyRow) :
    (body.foldl BodyRow.add b).labels.map (·.1) = b.labels.map
    (·.1) ++ body.filterMap BodyRow.label? := by
  induction body generalizing b with
  | nil => simp
  | cons r body ih =>
    rw [List.foldl_cons, ih, labels_add, List.append_assoc, List.filterMap_cons]
    cases r.label? <;> rfl

/-- Instructions and labels can be written behind a block, if the labels name places from its end
on. -/
theorem exists_rest {labels : List (String × Int)} {code : List Instruction}
    (hcode : ∀ i ∈ code, i.Writable) (hlabels : ∀ l ∈ labels, l.1 ≠ "" ∧ b.code.size ≤ l.2 ∧
      l.2 ≤ b.code.size + code.length)
    (horder : labels.Pairwise (·.2 ≤ ·.2)) :
    ∃ body : List BodyRow, (∀ r ∈ body, ∀ t ∈ r.tokens, HasText t) ∧
      body.foldl BodyRow.add b = ⟨b.labels ++ labels, b.code ++ code.toArray⟩ := by
  induction hn : labels.length + code.length generalizing b labels code with
  | zero =>
    obtain ⟨hlabels, hcode⟩ := Nat.add_eq_zero_iff.1 hn
    rw [List.length_eq_zero_iff.1 hlabels, List.length_eq_zero_iff.1 hcode]
    exact ⟨[], fun _ hr ↦ (List.not_mem_nil hr).elim, by simp⟩
  | succ n ih =>
    -- A label is written once the instructions before its place are.
    by_cases hfirst : ∃ l rest, labels = l :: rest ∧ l.2 = b.code.size
    · obtain ⟨l, rest, rfl, hplace⟩ := hfirst
      obtain ⟨hl, hrest⟩ := List.forall_mem_cons.1 hlabels
      obtain ⟨r, hr, hname⟩ := exists_label.2 hl.1
      obtain ⟨body, hbody, hadd⟩ :=
        ih (b := (BodyRow.label r).add b) hcode hrest (List.pairwise_cons.1 horder).2
        (by simp at hn; omega)
      refine ⟨.label r :: body, List.forall_mem_cons.2 ⟨hr, hbody⟩, hadd.trans ?_⟩
      simp [BodyRow.add, hname, ← hplace]
    · have hlate : ∀ l ∈ labels, (b.code.size : Int) + 1 ≤ l.2 := by
        intro l hl
        cases labels with
        | nil => exact (List.not_mem_nil hl).elim
        | cons l' rest =>
          have hl' : (b.code.size : Int) < l'.2 := Int.lt_iff_le_and_ne.2
            ⟨(hlabels l' List.mem_cons_self).2.1, fun h ↦ hfirst ⟨l', rest, rfl, h.symm⟩⟩
          obtain rfl | hl := List.mem_cons.1 hl
          · exact hl'
          · exact Int.le_trans hl' ((List.pairwise_cons.1 horder).1 l hl)
      cases code with
      | nil =>
        obtain ⟨l, rest, rfl⟩ := List.exists_cons_of_length_pos (l := labels) (by simp at hn; omega)
        have := hlate l List.mem_cons_self
        have := (hlabels l List.mem_cons_self).2.2
        simp at this
        omega
      | cons i code =>
        obtain ⟨hi, hrest⟩ := List.forall_mem_cons.1 hcode
        obtain ⟨r, hr, rfl⟩ := exists_instruction.2 hi
        have hlabels' : ∀ l ∈ labels, l.1 ≠ "" ∧ ((BodyRow.instruction r).add b).code.size ≤ l.2 ∧
            l.2 ≤ ((BodyRow.instruction r).add b).code.size + code.length := by
          intro l hl
          obtain ⟨hname, -, hmost⟩ := hlabels l hl
          have := hlate l hl
          simp [BodyRow.add] at hmost ⊢
          exact ⟨hname, by omega, by omega⟩
        obtain ⟨body, hbody, hadd⟩ := ih hrest hlabels' horder (by simp at hn; omega)
        refine ⟨.instruction r :: body, List.forall_mem_cons.2 ⟨hr, hbody⟩, hadd.trans ?_⟩
        rw [← List.push_append_toArray]
        rfl

theorem exists_body :
    (∃ body : List BodyRow, (∀ r ∈ body, ∀ t ∈ r.tokens, HasText t) ∧
      (body.filterMap BodyRow.label?).Nodup ∧ body.foldl BodyRow.add {} = b) ↔ b.Writable ∧
      b.InOrder := by
  constructor
  · rintro ⟨body, hbody, hnames, rfl⟩
    obtain ⟨hcode, hlabels, horder⟩ :
      Layout Instruction.Writable (· ≠ "") (body.foldl BodyRow.add {}) := by
      refine .foldl .empty fun r hr ↦ ?_
      cases r with
      | instruction r => exact exists_instruction.1 ⟨r, hbody _ hr, rfl⟩
      | label r => exact exists_label.1 ⟨r, hbody _ hr, rfl⟩
    exact ⟨⟨hcode, by rwa [labels_foldl], hlabels⟩, horder⟩
  · rintro ⟨⟨hcode, hnames, hlabels⟩, horder⟩
    have hcode' : ∀ i ∈ b.code.toList, i.Writable := by simpa using hcode
    obtain ⟨body, hbody, hadd⟩ := exists_rest (b := {}) hcode' (by simpa using hlabels) horder
    have hb : body.foldl BodyRow.add {} = b := hadd.trans (by simp)
    have hlabels_eq : b.labels.map (·.1) = body.filterMap BodyRow.label? := by
      rw [← hb, labels_foldl]; rfl
    exact ⟨body, hbody, hlabels_eq ▸ hnames, hb⟩

/-! ## Members -/

theorem exists_defaults {hasValue : Bool} :
    (∃ d : Option DefaultClause, (∀ t ∈ defaultTokens d, HasText t) ∧
      (∀ c, d = some c → ∀ t ∈ c.items, (operandValue t).IsLiteral) ∧
      d.elim [] (fun c ↦ c.items.map operandValue) = os ∧ d.isSome = hasValue) ↔
      (hasValue = true ↔ os ≠ []) ∧ ∀ o ∈ os, o.Writable ∧ o.IsLiteral := by
  constructor
  · rintro ⟨_ | d, htext, hliterals, rfl, rfl⟩
    · exact ⟨by simp, fun _ ho ↦ (List.not_mem_nil ho).elim⟩
    · refine ⟨by simp [DefaultClause.items], fun o ho ↦ ?_⟩
      obtain ⟨t, ht, rfl⟩ := List.mem_map.1 ho
      exact ⟨exists_operand.1 ⟨t, htext t.1 (List.mem_cons_of_mem _ (List.mem_map_of_mem ht)), rfl⟩,
        hliterals d rfl t ht⟩
  · rintro ⟨hvalue, hos⟩
    obtain ⟨ts, hts, rfl⟩ := exists_operands.2 fun o ho ↦ (hos o ho).1
    cases ts with
    | nil =>
      exact ⟨none, List.forall_mem_nil _, by simp, rfl,
        (Bool.eq_false_iff.2 fun h ↦ hvalue.1 h rfl).symm⟩
    | cons t ts =>
      refine ⟨some ⟨⟨⟨.assign, "=", 0⟩, rfl⟩, t, ts⟩,
        List.forall_mem_cons.2 ⟨by simp [HasText], fun t' ht' ↦ ?_⟩, ?_, rfl,
        (hvalue.2 (List.cons_ne_nil _ _)).symm⟩
      · obtain ⟨a, ha, rfl⟩ := List.mem_map.1 ht'
        exact hts a ha
      · intro c hc t' ht'
        cases hc
        exact (hos _ (List.mem_map_of_mem ht')).2

variable {f : FieldDecl}

theorem exists_field :
    (∃ r : FieldRow, (∀ t ∈ r.tokens, HasText t) ∧ r.Admissible ∧ r.decl = f) ↔ f.Writable := by
  constructor
  · rintro ⟨r, htext, ⟨hliterals, huntyped⟩, rfl⟩
    have htokens (t : Token)
      (ht : t ∈ typeTokens r.type ++ (r.attributes.map (·.1) ++ defaultTokens r.defaults)) :
        HasText t := htext t (List.mem_cons_of_mem _ (List.mem_cons_of_mem _ ht))
    obtain ⟨hvalue, hdefaults⟩ := exists_defaults.1 ⟨r.defaults,
      fun t ht ↦ htokens t (List.mem_append_right _ (List.mem_append_right _ ht)),
      fun d hd t ht ↦ isLiteral_operandValue.2 (hliterals d hd t ht), rfl, rfl⟩
    refine ⟨exists_name.1 ⟨r.name, htext _ (by simp [FieldRow.tokens]), rfl⟩,
      exists_type.1 ⟨r.type, fun t ht ↦ htokens t (List.mem_append_left _ ht), rfl⟩, hvalue,
      hdefaults, fun h ↦ ?_⟩
    obtain ⟨d, hd, hothers⟩ := huntyped (Option.map_eq_none_iff.1 h)
    simp [FieldRow.decl, hd, DefaultClause.items, hothers]
  · rintro ⟨hname, htype, hvalue, hliterals, hinferred⟩
    obtain ⟨name, line, isPublic, typeName, defaults, hasValue⟩ := f
    obtain ⟨n, hn, rfl⟩ := exists_name.2 hname
    obtain ⟨type, hts, rfl⟩ := exists_type.2 htype
    obtain ⟨as, rfl, -⟩ :=
      exists_attributes isFieldAttribute isPublic false false rfl (by simp) (by simp)
    obtain ⟨d, hds, hd, rfl, rfl⟩ := exists_defaults.2 ⟨hvalue, hliterals⟩
    refine ⟨⟨⟨⟨.fieldKw, "field", line⟩, rfl⟩, n, type, as, d⟩, fun t ht ↦ ?_, ⟨?_, ?_⟩, rfl⟩
    · simp only [FieldRow.tokens, List.mem_cons, List.mem_append, List.mem_map] at ht
      obtain rfl | rfl | ht | ⟨a, -, rfl⟩ | ht := ht
      · simp [HasText]
      · exact hn
      · exact hts t ht
      · exact a.hasText rfl
      · exact hds t ht
    · exact fun c hc t ht ↦ isLiteral_operandValue.1 (hd c hc t ht)
    · intro h
      have hsingle := hinferred (Option.map_eq_none_iff.2 h)
      cases d with
      | none => cases hsingle
      | some c => exact ⟨c, rfl, by simpa [DefaultClause.items] using hsingle⟩

variable {m : Member}

theorem exists_head :
    (∃ h : RoutineHead, (∀ t ∈ h.tokens, HasText t) ∧ { h.member with body := m.body } = m) ↔
      (m.isConstructor = false → m.name ≠ "" ∧ m.returns ≠ some "") ∧
        (m.isConstructor = true → m.name = "" ∧ m.returns = none) := by
  constructor
  · rintro ⟨h, htext, hm⟩
    rw [← hm]
    cases h with
    | func r =>
      refine ⟨fun _ ↦
        ⟨exists_name.1 ⟨r.name, htext _ (by simp [RoutineHead.tokens, FuncRow.tokens]), rfl⟩,
          exists_type.1 ⟨r.result, fun t ht ↦ htext t ?_, rfl⟩⟩, fun h ↦ by cases h⟩
      simp [RoutineHead.tokens, FuncRow.tokens, ht]
    | constructor r => exact ⟨fun h ↦ (by cases h), fun _ ↦ ⟨rfl, rfl⟩⟩
  · rintro ⟨hmethod, hconstructor⟩
    obtain ⟨name, line, isPublic, isAbstract, isOverride, isConstructor, returns, body⟩ := m
    obtain ⟨as, rfl, rfl, rfl⟩ :=
      exists_attributes Token.Kind.isAttribute isPublic isAbstract isOverride rfl (fun _ ↦ rfl)
      fun _ ↦ rfl
    cases isConstructor with
    | false =>
      obtain ⟨hname, htype⟩ := hmethod rfl
      obtain ⟨n, hn, rfl⟩ := exists_name.2 hname
      obtain ⟨type, hts, rfl⟩ := exists_type.2 htype
      refine ⟨.func ⟨⟨⟨.funcKw, "func", line⟩, rfl⟩, n, type, as⟩, fun t ht ↦ ?_, rfl⟩
      simp only [RoutineHead.tokens, FuncRow.tokens, List.mem_cons, List.mem_append,
        List.mem_map] at ht
      obtain rfl | rfl | ht | ⟨a, -, rfl⟩ := ht
      · exact fun h ↦ by cases h
      · exact hn
      · exact hts t ht
      · exact a.hasText rfl
    | true =>
      obtain ⟨rfl, rfl⟩ := hconstructor rfl
      refine ⟨.constructor ⟨⟨⟨.constructorKw, "constructor", line⟩, rfl⟩, as⟩, fun t ht ↦ ?_, rfl⟩
      simp only [RoutineHead.tokens, ConstructorRow.tokens, List.mem_cons, List.mem_map] at ht
      obtain rfl | ⟨a, -, rfl⟩ := ht
      · exact fun h ↦ by cases h
      · exact a.hasText rfl

theorem named_routine {r : Routine} :
    Named r.rows ↔ (∀ t ∈ r.head.tokens, HasText t) ∧ ∀ b ∈ r.body, ∀ t ∈ b.tokens, HasText t := by
  have hclose : ∀ t ∈ [r.close.1], HasText t := List.forall_mem_singleton.2 (r.close.hasText nofun)
  simp only [Named, Routine.rows, List.forall_mem_cons, List.forall_mem_append, List.forall_mem_map]
  exact and_congr_right'
    (and_iff_left ⟨List.forall_mem_cons.1 hclose, fun _ h ↦ (List.not_mem_nil h).elim⟩)

theorem exists_routine :
    (∃ r : Routine, Named r.rows ∧ r.Admissible ∧ r.member = m) ↔ m.Writable ∧ m.body.InOrder := by
  constructor
  · rintro ⟨r, hnamed, ⟨hlabels, hempty⟩, rfl⟩
    obtain ⟨hhead, htext⟩ := named_routine.1 hnamed
    obtain ⟨hbody, horder⟩ := exists_body.1 ⟨r.body, htext, hlabels, rfl⟩
    obtain ⟨hmethod, hconstructor⟩ := (exists_head (m := r.member)).1 ⟨r.head, hhead, rfl⟩
    exact ⟨⟨hbody, fun h ↦ empty_foldl_iff.2 ⟨rfl, hempty h⟩, hmethod, hconstructor⟩, horder⟩
  · rintro ⟨⟨hbody, hempty, hmethod, hconstructor⟩, horder⟩
    obtain ⟨h, hhead, hm⟩ := exists_head.2 ⟨hmethod, hconstructor⟩
    obtain ⟨body, htext, hlabels, hb⟩ := exists_body.2 ⟨hbody, horder⟩
    have habstract : m.isAbstract = h.member.isAbstract := by rw [← hm]
    refine ⟨⟨h, body, ⟨⟨.endKw, "end", 0⟩, rfl⟩⟩, named_routine.2 ⟨hhead, htext⟩,
      ⟨hlabels, fun habs ↦ ?_⟩, ?_⟩
    · rw [← hb, habstract] at hempty
      exact (empty_foldl_iff.1 (hempty habs)).2
    · rw [Routine.member, hb]
      exact hm

/-! ## Classes -/

variable {c : ClassTree}

theorem named_class : Named c.rows ↔ HasText c.head.name.1 ∧ ∀ m ∈ c.members, Named m.rows := by
  have hhead : (∀ t ∈ c.head.tokens, HasText t) ↔ HasText c.head.name.1 := by
    simp only [ClassRow.tokens, List.forall_mem_cons, List.forall_mem_map]
    exact (and_iff_right (c.head.keyword.hasText nofun)).trans (and_iff_left fun a _ ↦
      a.hasText rfl)
  have hclose : ∀ row ∈ [[c.close.1]], ∀ t ∈ row, HasText t :=
    List.forall_mem_singleton.2 (List.forall_mem_singleton.2 (c.close.hasText nofun))
  rw [← hhead]
  refine List.forall_mem_cons.trans (and_congr_right' ?_)
  rw [List.forall_mem_append, List.forall_mem_flatMap]
  exact and_iff_left hclose

/-- Members can be written one kind after the other. -/
theorem exists_members {fs : List FieldDecl} {cs ms : List Member} {inAbstract : Bool}
    (hfs : ∀ f ∈ fs, f.Writable) (hcs : ∀ m ∈ cs, m.isConstructor = true ∧ m.Writable ∧
      m.body.InOrder)
    (hms : ∀ m ∈ ms, m.isConstructor = false ∧ (m.isAbstract = true → inAbstract = true) ∧
      m.Writable ∧ m.body.InOrder) : ∃ members : List MemberTree,
      (∀ m ∈ members, Named m.rows ∧ m.Admissible inAbstract) ∧
      members.filterMap MemberTree.field? = fs ∧ members.filterMap MemberTree.constructor? = cs ∧
      members.filterMap MemberTree.method? = ms := by
  have hfield (f : FieldDecl) (hf : f ∈ fs) :
      ∃ r : FieldRow, ((∀ t ∈ r.tokens, HasText t) ∧ r.Admissible) ∧ r.decl = f := by
    simpa only [and_assoc] using exists_field.2 (hfs f hf)
  have hroutine (m : Member) (hm : m.Writable ∧ m.body.InOrder) :
      ∃ r : Routine, (Named r.rows ∧ r.Admissible) ∧ r.member = m := by
    simpa only [and_assoc] using exists_routine.2 hm
  obtain ⟨fts, hfts, rfl⟩ := exists_map_eq.2 hfield
  obtain ⟨cts, hcts, rfl⟩ := exists_map_eq.2 fun m hm ↦ hroutine m (hcs m hm).2
  obtain ⟨mts, hmts, rfl⟩ := exists_map_eq.2 fun m hm ↦ hroutine m (hms m hm).2.2
  rw [List.forall_mem_map] at hcs hms
  have hparts {β : Type} (g : MemberTree → Option β) {xs ys zs : List β}
      (hx : fts.filterMap (fun r ↦ g (.field r)) = xs)
      (hy : cts.filterMap (fun r ↦ g (.routine r)) = ys)
      (hz : mts.filterMap (fun r ↦ g (.routine r)) = zs) :
      (fts.map MemberTree.field ++
        (cts.map MemberTree.routine ++ mts.map MemberTree.routine)).filterMap g =
        xs ++ (ys ++ zs) := by
    rw [← hx, ← hy, ← hz, List.filterMap_append, List.filterMap_append, List.filterMap_map,
      List.filterMap_map, List.filterMap_map]
    rfl
  refine ⟨fts.map .field ++ (cts.map .routine ++ mts.map .routine), ?_, ?_, ?_, ?_⟩
  · simp only [List.forall_mem_append, List.forall_mem_map]
    refine ⟨fun r hr ↦ ?_, fun r hr ↦ ?_, fun r hr ↦ ?_⟩
    · exact ⟨List.forall_mem_singleton.2 (hfts r hr).1, (hfts r hr).2⟩
    · exact ⟨(hcts r hr).1, (hcts r hr).2, fun h ↦ nomatch h.symm.trans (hcs r hr).1⟩
    · exact ⟨(hmts r hr).1, (hmts r hr).2, fun _ ↦ (hms r hr).2.1⟩
  · exact (hparts MemberTree.field? (List.filterMap_eq_map_iff_forall_eq_some.2 fun _ _ ↦ rfl)
      (List.filterMap_eq_nil_iff.2 fun _ _ ↦ rfl) (List.filterMap_eq_nil_iff.2 fun _ _ ↦ rfl)).trans
      (List.append_nil _)
  · exact (hparts MemberTree.constructor? (List.filterMap_eq_nil_iff.2 fun _ _ ↦ rfl)
      (List.filterMap_eq_map_iff_forall_eq_some.2 fun r hr ↦ if_pos (hcs r hr).1)
      (List.filterMap_eq_nil_iff.2 fun r hr ↦ if_neg (Bool.eq_false_iff.1 (hms r hr).1))).trans
      (List.append_nil _)
  · exact hparts MemberTree.method? (List.filterMap_eq_nil_iff.2 fun _ _ ↦ rfl)
      (List.filterMap_eq_nil_iff.2 fun r hr ↦ if_pos (hcs r hr).1)
      (List.filterMap_eq_map_iff_forall_eq_some.2 fun r hr ↦
        if_neg (Bool.eq_false_iff.1 (hms r hr).1))

theorem ClassTree.writable (hnamed : Named c.rows) (hc : c.Admissible) :
    c.decl.Writable ∧ c.decl.InOrder := by
  obtain ⟨hname, hnamed⟩ := named_class.1 hnamed
  have hwell : c.decl.WellFormed fun _ ↦ True := hc.wellFormed fun _ _ _ _ ↦ trivial
  obtain ⟨hfields, hconstructors, hmethods⟩ := forall_members (F := FieldDecl.Writable)
    (M := fun m ↦ m.Writable ∧ m.body.InOrder)
    (fun r hr ↦ exists_field.1 ⟨r, hnamed _ hr _ List.mem_cons_self, hc.members _ hr, rfl⟩)
    fun r hr ↦ exists_routine.1 ⟨r, hnamed _ hr, (hc.members _ hr).1, rfl⟩
  refine ⟨⟨exists_name.1 ⟨c.head.name, hname, rfl⟩, hfields, fun x hx ↦
    ⟨(hconstructors x hx).1, (hconstructors x hx).2.1⟩, fun x hx ↦
    ⟨(hmethods x hx).1, (hmethods x hx).2.1⟩, ?_, hwell.names, hwell.concrete⟩, fun x hx ↦
    (hconstructors x hx).2.2, fun x hx ↦ (hmethods x hx).2.2⟩
  simpa [ClassTree.decl, extend, ClassRow.decl] using hc.fields

theorem exists_class {d : ClassDecl} :
    (∃ c : ClassTree, Named c.rows ∧ c.Admissible ∧ c.decl = d) ↔ d.Writable ∧ d.InOrder := by
  constructor
  · rintro ⟨c, hnamed, hc, rfl⟩
    exact c.writable hnamed hc
  · rintro ⟨hd, horder⟩
    obtain ⟨name, line, isPublic, isAbstract, ⟨fs⟩, ⟨cs⟩, ⟨ms⟩⟩ := d
    obtain ⟨n, hn, rfl⟩ := exists_name.2 hd.name
    obtain ⟨as, rfl, rfl, -⟩ :=
      exists_attributes isClassAttribute isPublic isAbstract false rfl (fun _ ↦ rfl) nofun
    have hcs (m : Member) (hm : m ∈ cs) : m.isConstructor = true ∧ m.Writable ∧ m.body.InOrder :=
      ⟨(hd.constructors m (by simpa using hm)).1, (hd.constructors m (by simpa using hm)).2,
        horder.1 m (by simpa using hm)⟩
    have hms (m : Member) (hm : m ∈ ms) : m.isConstructor = false ∧
        (m.isAbstract = true → marked .abstractKw (as.map (·.1)) = true) ∧ m.Writable ∧
        m.body.InOrder := by
      have hm : m ∈ ms.toArray := by simpa using hm
      refine ⟨(hd.methods m hm).1, fun habs ↦ ?_, (hd.methods m hm).2, horder.2 m hm⟩
      exact Decidable.by_contra fun h ↦
        Bool.eq_false_iff.1 (hd.concrete (Bool.eq_false_iff.2 h) m hm) habs
    obtain ⟨members, hmembers, rfl, rfl, rfl⟩ :=
      exists_members (fun f hf ↦ hd.fields f (by simpa using hf)) hcs hms
    refine ⟨⟨⟨⟨⟨.classKw, "class", line⟩, rfl⟩, n, as⟩, members, ⟨⟨.endKw, "end", 0⟩, rfl⟩⟩,
      named_class.2 ⟨hn, fun m hm ↦ (hmembers m hm).1⟩,
      ⟨hd.fieldNames, hd.methodNames, fun m hm ↦ (hmembers m hm).2⟩, ?_⟩
    simp [ClassTree.decl, extend, ClassRow.decl]

/-! ## Units -/

variable {p : Program}

theorem exists_unit :
    (∃ u : UnitTree, Named u.rows ∧ u.Admissible ∧ u.program = p) ↔ p.Writable ∧ p.InOrder := by
  have hnamed (u : UnitTree) : Named u.rows ↔ ∀ c ∈ u, Named c.rows := List.forall_mem_flatMap
  have hnames (u : UnitTree) : (u.map ClassTree.decl).map (·.name) = u.map fun c ↦
    c.head.name.1.text := by
    rw [List.map_map]
    rfl
  constructor
  · rintro ⟨u, hu, ⟨hdifferent, hclasses⟩, rfl⟩
    have hall : ∀ d ∈ u.program.classes, d.Writable ∧ d.InOrder := by
      intro d hd
      obtain ⟨c, hc, rfl⟩ := List.mem_map.1 (List.mem_toArray.1 hd)
      exact c.writable ((hnamed u).1 hu c hc) (hclasses c hc)
    exact ⟨⟨fun d hd ↦ (hall d hd).1, (hnames u).symm ▸ hdifferent⟩, fun d hd ↦ (hall d hd).2⟩
  · rintro ⟨⟨hclasses, hdifferent⟩, horder⟩
    obtain ⟨⟨ds⟩⟩ := p
    have hclass (d : ClassDecl) (hd : d ∈ ds) : ∃ c : ClassTree, (Named c.rows ∧ c.Admissible) ∧
      c.decl = d := by
      have hd : d ∈ ds.toArray := List.mem_toArray.2 hd
      simpa only [and_assoc] using exists_class.2 ⟨hclasses d hd, horder d hd⟩
    obtain ⟨u, hu, rfl⟩ := exists_map_eq.2 hclass
    exact ⟨u, (hnamed u).2 fun c hc ↦ (hu c hc).1,
      ⟨(hnames u) ▸ hdifferent, fun c hc ↦ (hu c hc).2⟩, rfl⟩

theorem UnitTree.filter_rows (u : UnitTree) : u.rows.filter (!·.isEmpty) = u.rows := by
  have hmember (m : MemberTree) : ∀ row ∈ m.rows, (!row.isEmpty) = true := by
    cases m with
    | field r => exact List.forall_mem_singleton.2 rfl
    | routine r =>
      refine List.forall_mem_cons.2 ⟨by cases r.head <;> rfl,
        List.forall_mem_append.2 ⟨?_, List.forall_mem_singleton.2 rfl⟩⟩
      exact List.forall_mem_map.2 fun b _ ↦ by cases b <;> rfl
  refine List.filter_eq_self.2 (List.forall_mem_flatMap.2 fun c _ ↦
    List.forall_mem_cons.2 ⟨rfl, ?_⟩)
  exact List.forall_mem_append.2 ⟨List.forall_mem_flatMap.2 fun m _ ↦ hmember m,
    List.forall_mem_singleton.2 rfl⟩

theorem writable_of_parse {rows : List (List Token)} (hnamed : Named rows)
    (h : parse rows = .ok p) : p.Writable := by
  obtain ⟨u, hrows, hu, hp⟩ := (parse_eq_ok_iff hnamed).1 h
  exact (exists_unit.1 ⟨u, fun row hrow ↦ hnamed row (List.mem_filter.1 (hrows ▸ hrow)).1,
    hu, hp⟩).1

/-- **The programs that are parsed are those that can be written**, with the labels of each block in
the order of their places; and any other order is as good for writing. -/
theorem parsed_iff_writable (p : Program) :
    ((∃ rows, Named rows ∧ parse rows = .ok p) ↔ p.Writable ∧ p.InOrder) ∧
      (p.Writable ↔ ∃ rows, Named rows ∧ parse rows = .ok p.ordered) := by
  have hparsed (p : Program) : (∃ rows, Named rows ∧ parse rows = .ok p) ↔ p.Writable ∧
    p.InOrder := by
    rw [← exists_unit]
    constructor
    · rintro ⟨rows, hnamed, hp⟩
      obtain ⟨u, hrows, hu, rfl⟩ := (parse_eq_ok_iff hnamed).1 hp
      exact ⟨u, fun row hrow ↦ hnamed row (List.mem_filter.1 (hrows ▸ hrow)).1, hu, rfl⟩
    · rintro ⟨u, hnamed, hu, rfl⟩
      exact ⟨u.rows, hnamed, (parse_eq_ok_iff hnamed).2 ⟨u, u.filter_rows.symm, hu, rfl⟩⟩
  refine ⟨hparsed p, ?_⟩
  rw [hparsed, writable_ordered, and_iff_left (inOrder_ordered p)]

end ClassAsm.Grammar
