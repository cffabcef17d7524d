import ClassAsm.Proofs.Program.Acceptance

/-!
# What parsing guarantees

`parse_parses` says that every parsed program is well formed, and that every error is on a line of
the rows.  A parsed program is that of a syntax tree, so its shape is read off the tree, from its
operands to its classes.
-/

namespace ClassAsm.Grammar

open Program

/-! ## Bodies -/

theorem InstructionRow.wellFormed (r : InstructionRow) : r.instruction.WellFormed where
  code := ⟨r.notLabel, Opcode.ne_unknown_of_ofWord? r.names⟩
  least := by simpa [instruction] using r.least
  most := by simpa [instruction] using r.most
  known := List.forall_mem_map.2 fun t _ ↦ known_operandValue t

/-- A block that is written up to some row.  Its instructions satisfy `P` and the names of its
labels `Q`, which name places in it, in their order. -/
structure Layout (P : Instruction → Prop) (Q : String → Prop) (b : Block) : Prop where
  code : ∀ i ∈ b.code, P i
  labels : ∀ l ∈ b.labels, Q l.1 ∧ 0 ≤ l.2 ∧ l.2 ≤ b.code.size
  inOrder : b.labels.Pairwise (·.2 ≤ ·.2)

/-- The instruction of the row satisfies `P`, or the name of its label `Q`. -/
def BodyRow.Declares (P : Instruction → Prop) (Q : String → Prop) : BodyRow → Prop
  | instruction r => P r.instruction
  | label r => Q r.name.1.text

namespace Layout

variable {P : Instruction → Prop} {Q : String → Prop} {b : Block}

theorem empty : Layout P Q {} :=
  ⟨fun _ hi ↦ (Array.not_mem_empty _ hi).elim, fun _ hl ↦ (List.not_mem_nil hl).elim, .nil⟩

theorem add {r : BodyRow} (h : Layout P Q b) (hr : r.Declares P Q) : Layout P Q (r.add b) := by
  cases r with
  | instruction r =>
    refine ⟨fun i hi ↦ ?_, fun l hl ↦ ?_, h.inOrder⟩
    · obtain hi | rfl := Array.mem_push.1 hi
      · exact h.code i hi
      · exact hr
    · obtain ⟨hname, hleast, hmost⟩ := h.labels l hl
      refine ⟨hname, hleast, Int.le_trans hmost ?_⟩
      rw [BodyRow.add, Array.size_push]
      omega
  | label r =>
    refine ⟨h.code, fun l hl ↦ ?_, ?_⟩
    · obtain hl | hl := List.mem_append.1 hl
      · exact h.labels l hl
      · rw [List.mem_singleton.1 hl]
        exact ⟨hr, Int.natCast_nonneg _, Int.le_refl _⟩
    · refine List.pairwise_append.2 ⟨h.inOrder, List.pairwise_singleton _ _, fun l hl l' hl' ↦ ?_⟩
      rw [List.mem_singleton.1 hl']
      exact (h.labels l hl).2.2

theorem foldl {body : List BodyRow} (h : Layout P Q b) (hbody : ∀ r ∈ body, r.Declares P Q) :
    Layout P Q (body.foldl BodyRow.add b) := by
  induction body generalizing b with
  | nil => exact h
  | cons r body ih =>
    obtain ⟨hr, hbody⟩ := List.forall_mem_cons.1 hbody
    exact ih (h.add hr) hbody

end Layout

theorem empty_foldl_iff {b : Block} {body : List BodyRow} :
    (body.foldl BodyRow.add b).code = #[] ↔ b.code = #[] ∧ ∀ i, .instruction i ∉ body := by
  induction body generalizing b with
  | nil => exact (and_iff_left fun _ ↦ List.not_mem_nil).symm
  | cons r body ih => rw [List.foldl_cons, ih, empty_add_iff]

/-! ## Members -/

variable {ok : Int → Prop}

theorem FieldRow.Admissible.wellFormed {r : FieldRow} (h : r.Admissible)
    (hl : ok r.keyword.1.line) : r.decl.WellFormed ok := by
  refine ⟨hl, fun o ho ↦ ?_, fun hvalue ↦ ?_, fun htype ↦ ?_⟩
  · obtain ⟨d, hd, ho⟩ : ∃ d, r.defaults = some d ∧ o ∈ d.items.map operandValue := by
      cases hd : r.defaults <;> simp_all [FieldRow.decl]
    obtain ⟨t, ht, rfl⟩ := List.mem_map.1 ho
    exact isLiteral_operandValue.2 (h.literals d hd t ht)
  · obtain ⟨d, hd⟩ := Option.isSome_iff_exists.1 hvalue
    simp [FieldRow.decl, hd, DefaultClause.items]
  · obtain ⟨d, hd, -⟩ := h.untyped (Option.map_eq_none_iff.1 htype)
    exact Option.isSome_iff_exists.2 ⟨d, hd⟩

theorem Routine.Admissible.wellFormed {r : Routine} (h : r.Admissible)
    (hok : ∀ row ∈ r.rows, ∀ t ∈ row, ok t.line) : r.member.WellFormed ok := by
  obtain ⟨hhead, hrows⟩ := List.forall_mem_cons.1 hok
  have hlayout : Layout (fun i ↦ i.WellFormed ∧ ok i.line) (fun _ ↦ True) r.member.body := by
    refine .foldl .empty fun b hb ↦ ?_
    cases b with
    | instruction i =>
      have hrow := hrows _ (List.mem_append_left _ (List.mem_map_of_mem hb))
      exact ⟨i.wellFormed, hrow i.word.1 List.mem_cons_self⟩
    | label l => trivial
  refine ⟨?_, ⟨fun i hi ↦ (hlayout.code i hi).1, fun l hl ↦ (hlayout.labels l hl).2⟩,
    fun i hi ↦ (hlayout.code i hi).2, fun habstract ↦ empty_foldl_iff.2 ⟨rfl, h.empty habstract⟩⟩
  rw [Routine.member]
  cases hr : r.head with
  | func f => exact hhead _ (hr ▸ List.mem_cons_self)
  | constructor c => exact hhead _ (hr ▸ List.mem_cons_self)

/-! ## Classes -/

variable {c : ClassTree}

/-- The fields of a class are those of its field rows, and its other members those of its
routines. -/
theorem ClassTree.forall_members {F : FieldDecl → Prop} {M : Member → Prop}
    (hfields : ∀ r, .field r ∈ c.members → F r.decl)
    (hroutines : ∀ r, .routine r ∈ c.members → M r.member) :
    (∀ f ∈ c.decl.fields, F f) ∧ (∀ m ∈ c.decl.constructors, m.isConstructor = true ∧ M m) ∧
      ∀ m ∈ c.decl.methods, m.isConstructor = false ∧ M m := by
  simp only [ClassTree.decl, extend, ClassRow.decl, Array.empty_append, List.mem_toArray,
    List.mem_filterMap]
  refine ⟨?_, ?_, ?_⟩
  · rintro f ⟨m, hm, hf⟩
    cases m with
    | field r =>
      cases hf
      exact hfields r hm
    | routine r => cases hf
  · rintro x ⟨m, hm, hx⟩
    cases m with
    | field r => cases hx
    | routine r =>
      obtain ⟨hconstructor, hx⟩ := Option.ite_none_right_eq_some.1 hx
      cases hx
      exact ⟨hconstructor, hroutines r hm⟩
  · rintro x ⟨m, hm, hx⟩
    cases m with
    | field r => cases hx
    | routine r =>
      obtain ⟨hmethod, hx⟩ := Option.ite_none_left_eq_some.1 hx
      cases hx
      exact ⟨Bool.eq_false_iff.2 hmethod, hroutines r hm⟩

theorem ClassTree.Admissible.wellFormed (h : c.Admissible)
    (hok : ∀ row ∈ c.rows, ∀ t ∈ row, ok t.line) : c.decl.WellFormed ok := by
  obtain ⟨hhead, hrows⟩ := List.forall_mem_cons.1 hok
  have hmember {m : MemberTree} (hm : m ∈ c.members) : ∀ row ∈ m.rows, ∀ t ∈ row, ok t.line :=
    fun row hrow ↦ hrows row (List.mem_append_left _ (List.mem_flatMap.2 ⟨m, hm, hrow⟩))
  obtain ⟨hfields, hconstructors, hmethods⟩ :=
    forall_members (c := c) (F := FieldDecl.WellFormed ok) (M := fun m ↦ m.WellFormed ok ∧
      (m.isConstructor = false → m.isAbstract = true → c.decl.isAbstract = true))
    (fun r hr ↦ (h.members _ hr).wellFormed (hmember hr _ List.mem_cons_self _ List.mem_cons_self))
    fun r hr ↦ ⟨(h.members _ hr).1.wellFormed (hmember hr), (h.members _ hr).2⟩
  refine ⟨hhead _ List.mem_cons_self, hfields, fun m hm ↦
    ⟨(hconstructors m hm).2.1, (hconstructors m hm).1⟩, fun m hm ↦
    ⟨(hmethods m hm).2.1, (hmethods m hm).1⟩, fun hconcrete m hm ↦ ?_, ?_⟩
  · obtain ⟨hmethod, -, habstract⟩ := hmethods m hm
    exact Bool.eq_false_iff.2 fun hm ↦ Bool.eq_false_iff.1 hconcrete (habstract hmethod hm)
  · simpa [ClassTree.decl, extend, ClassRow.decl] using h.methods

theorem UnitTree.Admissible.wellFormed {u : UnitTree} (h : u.Admissible)
    (hok : ∀ row ∈ u.rows, ∀ t ∈ row, ok t.line) : u.program.WellFormed ok := by
  refine ⟨fun d hd ↦ ?_, ?_⟩
  · obtain ⟨c, hc, rfl⟩ := List.mem_map.1 (List.mem_toArray.1 hd)
    exact (h.classes c hc).wellFormed fun row hrow ↦ hok row (List.mem_flatMap.2 ⟨c, hc, hrow⟩)
  · have hnames : u.program.classes.toList.map (fun c ↦ c.name) = u.map fun c ↦
      c.head.name.1.text := List.map_map
    exact hnames ▸ h.names

end ClassAsm.Grammar

namespace ClassAsm.Program

/-! ## Programs -/

/-- A result of the parser: it satisfies `Q`, or the error is on a line that satisfies `ok`. -/
def Parses {α : Type} (ok : Int → Prop) (r : Except ParseError α) (Q : α → Prop) : Prop :=
  match r with
  | .ok a => Q a
  | .error e => ok e.line

/-- The lines of a state matter only where a scope is open. -/
def ParseState.Located (ok : Int → Prop) (s : ParseState) : Prop := s.scope ≠ .outside → ok s.line

variable {ok : Int → Prop} {s : ParseState} {rows : List (List Token)} {p : Program}

theorem parseRow_located {row : List Token} (hs : s.Located ok) (hrow : ∀ t ∈ row, ok t.line) :
    Parses ok (parseRow s row) (ParseState.Located ok) := by
  cases row with
  | nil => exact hs
  | cons head args =>
    have hl := hrow head List.mem_cons_self
    rw [parseRow]
    cases parseTokens s head args with
    | ok t => exact fun _ ↦ hl
    | error e => exact hl

theorem parseRows_located (hs : s.Located ok) (hrows : ∀ row ∈ rows, ∀ t ∈ row, ok t.line) :
    Parses ok (parseRows s rows) (ParseState.Located ok) := by
  induction rows generalizing s with
  | nil => exact hs
  | cons row rest ih =>
    obtain ⟨hrow, hrest⟩ := List.forall_mem_cons.1 hrows
    have hlocated := parseRow_located hs hrow
    rw [parseRows]
    cases hr : parseRow s row with
    | ok t =>
      rw [hr] at hlocated
      exact ih hlocated hrest
    | error e =>
      rw [hr] at hlocated
      exact hlocated

/-- **Every parsed program is well formed, and every error is on a line of the rows.** -/
theorem parse_parses (hrows : ∀ row ∈ rows, ∀ t ∈ row, ok t.line) :
    Parses ok (parse rows) (WellFormed ok) := by
  cases hp : parse rows with
  | ok p =>
    obtain ⟨u, hread, -, hu, rfl⟩ := Grammar.exists_unit_of_parse hp
    refine hu.wellFormed fun row' hrow' t ht ↦ ?_
    obtain ⟨row, hrow, hread⟩ := hread row' hrow'
    exact hrows row hrow t (hread.mem ht)
  | error e =>
    have hlocated : Parses ok (parseRows {} rows) (ParseState.Located ok) :=
      parseRows_located (fun hne ↦ absurd rfl hne) hrows
    rw [parse] at hp
    cases hr : parseRows {} rows with
    | error e' =>
      rw [hr] at hp hlocated
      cases hp
      exact hlocated
    | ok s =>
      rw [hr] at hp hlocated
      have hfinish : s.finish = .error e := hp
      rw [ParseState.finish] at hfinish
      cases hscope : s.scope with
      | outside =>
        rw [hscope] at hfinish
        cases hfinish
      | inClass | inMember =>
        rw [hscope] at hfinish
        cases hfinish
        exact hlocated fun houtside ↦ by cases hscope.symm.trans houtside

theorem wellFormed_of_parse (h : parse rows = .ok p) : p.WellFormed fun _ ↦ True := by
  have hparses : Parses (fun _ ↦ True) (parse rows) (WellFormed fun _ ↦ True) :=
    parse_parses fun _ _ _ _ ↦ trivial
  rw [h] at hparses
  exact hparses

/-- **A parsed program declares every name once.** -/
theorem parse_distinct (h : parse rows = .ok p) : p.Distinct :=
  have hp := wellFormed_of_parse h
  ⟨hp.names, fun c hc ↦ (hp.classes c hc).names⟩

end ClassAsm.Program
