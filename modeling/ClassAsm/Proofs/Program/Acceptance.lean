import ClassAsm.Proofs.Program.Reading

/-!
# Parsing accepts the grammar

The parser has no more memory than the open class and the open member, while the grammar is nested.
`parse_eq_ok_iff` says that the parser yields exactly the programs of admissible syntax trees.

The rows that can be read from some point on are cut where a scope ends: the rows of a body
(`completes_body`), of a member (`completes_member`), of all members of a class
(`completes_members`), and of all classes (`completes_unit`).  That names are different is carried
along for what has been read, together with what follows (`Suits`).
-/

namespace ClassAsm.Grammar

open Program

/-! ## Bodies -/

variable {b : Block} {name : String}

theorem label?_eq_none_iff : b.label? name = none ↔ name ∉ b.labels.map (·.1) := by
  rw [Block.label?, Option.map_eq_none_iff, List.find?_eq_none]
  simp only [decide_eq_true_eq, List.mem_map, not_exists, not_and]

theorem labels_add (b : Block) (r : BodyRow) :
    (r.add b).labels.map (·.1) = b.labels.map (·.1) ++ r.label?.toList := by
  cases r <;> simp [BodyRow.add, BodyRow.label?]

theorem empty_add_iff {r : BodyRow} {body : List BodyRow} :
    ((r.add b).code = #[] ∧ ∀ i, .instruction i ∉ body) ↔ b.code = #[] ∧
    ∀ i, .instruction i ∉ r :: body := by
  cases r with
  | instruction r =>
    refine iff_of_false (fun h ↦ ?_) fun h ↦ h.2 r List.mem_cons_self
    exact Array.push_ne_empty h.1
  | label r => simp [BodyRow.add]

variable {c : ClassDecl} {p : Program} {rows : List (List Token)} {closed : Array ClassDecl}

theorem completes_body {m : Member} (hm : (m.body.labels.map (·.1)).Nodup) :
    Completes rows closed (.inMember c m) p ↔
    ∃ (body : List BodyRow) (e : EndRow) (rest : List (List Token)),
      rows = body.map BodyRow.tokens ++ [e.1] :: rest ∧
      (m.body.labels.map (·.1) ++ body.filterMap BodyRow.label?).Nodup ∧
      (m.isAbstract = true → m.body.code = #[] ∧ ∀ i, .instruction i ∉ body) ∧
      Completes rest closed
      (.inClass (c.addMember { m with body := body.foldl BodyRow.add m.body })) p := by
  -- The member grows with each row, and with it the labels that are taken.
  induction rows generalizing m with
  | nil => exact iff_of_false nofun (by rintro ⟨_ | _, e, rest, h, -⟩ <;> cases h)
  | cons row rows ih =>
    have hcons (r : BodyRow) (body : List BodyRow) : m.body.labels.map (·.1) ++
      (r :: body).filterMap BodyRow.label? =
          (r.add m.body).labels.map (·.1) ++ body.filterMap BodyRow.label? := by
      rw [labels_add, List.append_assoc]
      cases hr : r.label? <;> simp [hr]
    constructor
    · intro h
      cases h with
      | cons hstep hrest =>
        cases hstep with
        | body r hnew =>
          have hm' : ((r.add m.body).labels.map (·.1)).Nodup := by
            rw [labels_add]
            cases hr : r.label? with
            | none => simpa using hm
            | some name =>
              exact List.nodup_append.2 ⟨hm, List.pairwise_singleton _ _, fun a ha b hb hab ↦
                label?_eq_none_iff.1 (hnew name hr) (List.mem_singleton.1 hb ▸ hab ▸ ha)⟩
          obtain ⟨body, e, rest, rfl, hlabels, hempty, hdone⟩ :=
            (ih (m := { m with body := r.add m.body }) hm').1 hrest
          refine ⟨r :: body, e, rest, rfl, ?_, fun h ↦ empty_add_iff.1 (hempty h), hdone⟩
          rw [hcons]
          exact hlabels
        | closeRoutine e hempty =>
          exact ⟨[], e, rows, rfl, by simpa using hm, fun h ↦
            ⟨hempty h, fun _ ↦ List.not_mem_nil⟩, hrest⟩
    · rintro ⟨body, e, rest, hrows, hlabels, hempty, hdone⟩
      cases body with
      | nil =>
        obtain ⟨rfl, rfl⟩ := List.cons.inj hrows
        exact .cons (.closeRoutine e fun h ↦ (hempty h).1) hdone
      | cons r body =>
        obtain ⟨rfl, rfl⟩ := List.cons.inj hrows
        rw [hcons] at hlabels
        have hm' := (List.nodup_append.1 hlabels).1
        refine .cons (.body r fun name hname ↦ label?_eq_none_iff.2 fun hmem ↦ ?_)
          ((ih (m := { m with body := r.add m.body }) hm').2
            ⟨body, e, rest, rfl, hlabels, fun h ↦ empty_add_iff.2 (hempty h), hdone⟩)
        rw [labels_add, hname] at hm'
        exact (List.nodup_append.1 hm').2.2 name hmem name List.mem_cons_self rfl

/-! ## Classes -/

/-- The names of the fields of a class. -/
def fieldNames (c : ClassDecl) : List String := c.fields.toList.map (·.name)

/-- The names of the methods of a class. -/
def methodNames (c : ClassDecl) : List String := c.methods.toList.map (·.name)

theorem hasField_eq_false_iff : c.hasField name = false ↔ name ∉ fieldNames c := by
  rw [ClassDecl.hasField, ← Array.any_toList, List.any_eq_false]
  simp only [decide_eq_true_eq, fieldNames, List.mem_map, not_exists, not_and]

theorem hasMethod_eq_false_iff : c.hasMethod name = false ↔ name ∉ methodNames c := by
  rw [ClassDecl.hasMethod, ← Array.any_toList, List.any_eq_false]
  simp only [decide_eq_true_eq, methodNames, List.mem_map, not_exists, not_and]

/-- The class with one more member. -/
def MemberTree.add (c : ClassDecl) : MemberTree → ClassDecl
  | field r => { c with fields := c.fields.push r.decl }
  | routine r => c.addMember r.member

theorem extend_nil (c : ClassDecl) : extend c [] = c := by simp [extend]

theorem extend_cons (c : ClassDecl) (m : MemberTree) (members : List MemberTree) :
    extend c (m :: members) = extend (m.add c) members := by
  cases m with
  | field r =>
    simp only [extend, MemberTree.add, List.filterMap_cons, MemberTree.field?,
      MemberTree.constructor?, MemberTree.method?, ← List.push_append_toArray]
  | routine r =>
    cases h : r.member.isConstructor <;>
      simp only [extend, MemberTree.add, List.filterMap_cons, MemberTree.field?,
        MemberTree.constructor?, MemberTree.method?, ClassDecl.addMember, h, if_true,
        ← List.push_append_toArray, Bool.false_eq_true, if_false]

theorem fieldNames_add (c : ClassDecl) (m : MemberTree) :
    fieldNames (m.add c) = fieldNames c ++ (m.field?.toList.map (·.name)) := by
  cases m with
  | field r => simp [fieldNames, MemberTree.add, MemberTree.field?]
  | routine r => cases h : r.member.isConstructor <;>
      simp [fieldNames, MemberTree.add, MemberTree.field?, ClassDecl.addMember, h]

theorem methodNames_add (c : ClassDecl) (m : MemberTree) :
    methodNames (m.add c) = methodNames c ++ (m.method?.toList.map (·.name)) := by
  cases m with
  | field r => simp [methodNames, MemberTree.add, MemberTree.method?]
  | routine r => cases h : r.member.isConstructor <;>
      simp [methodNames, MemberTree.add, MemberTree.method?, ClassDecl.addMember, h]

theorem isAbstract_add (c : ClassDecl) (m : MemberTree) : (m.add c).isAbstract = c.isAbstract := by
  cases m with
  | field r => rfl
  | routine r =>
    rw [MemberTree.add, ClassDecl.addMember]
    split <;> rfl

/-- Members that may be added to a class. -/
structure Suits (c : ClassDecl) (members : List MemberTree) : Prop where
  fields : (fieldNames c ++ (members.filterMap MemberTree.field?).map (·.name)).Nodup
  methods : (methodNames c ++ (members.filterMap MemberTree.method?).map (·.name)).Nodup
  members : ∀ m ∈ members, m.Admissible c.isAbstract

variable {m : MemberTree}

theorem suits_cons {members : List MemberTree} :
    Suits c (m :: members) ↔ m.Admissible c.isAbstract ∧ Suits (m.add c) members := by
  have hfields : fieldNames c ++ ((m :: members).filterMap MemberTree.field?).map (·.name) =
      fieldNames (m.add c) ++ (members.filterMap MemberTree.field?).map (·.name) := by
    rw [fieldNames_add, List.append_assoc, List.filterMap_cons]
    cases m.field? <;> rfl
  have hmethods : methodNames c ++ ((m :: members).filterMap MemberTree.method?).map (·.name) =
      methodNames (m.add c) ++ (members.filterMap MemberTree.method?).map (·.name) := by
    rw [methodNames_add, List.append_assoc, List.filterMap_cons]
    cases m.method? <;> rfl
  constructor
  · rintro ⟨h₁, h₂, h₃⟩
    obtain ⟨hm, hmembers⟩ := List.forall_mem_cons.1 h₃
    exact ⟨hm, hfields ▸ h₁, hmethods ▸ h₂, isAbstract_add c m ▸ hmembers⟩
  · rintro ⟨hm, h₁, h₂, h₃⟩
    rw [isAbstract_add] at h₃
    exact ⟨hfields.symm ▸ h₁, hmethods.symm ▸ h₂, List.forall_mem_cons.2 ⟨hm, h₃⟩⟩

theorem suits_nil : Suits c [] ↔ (fieldNames c).Nodup ∧ (methodNames c).Nodup :=
  ⟨fun h ↦ ⟨by simpa using h.fields, by simpa using h.methods⟩,
    fun h ↦ ⟨by simpa using h.1, by simpa using h.2, fun _ hm ↦ (List.not_mem_nil hm).elim⟩⟩

/-- A member keeps the names of a class different if its own name is new. -/
theorem suits_add_iff (hc : Suits c []) :
    Suits (m.add c) [] ↔ (∀ f, m.field? = some f → c.hasField f.name = false) ∧
      ∀ f, m.method? = some f → c.hasMethod f.name = false := by
  have hnew (names : List String) (name? : Option String) (hnames : names.Nodup) :
      (names ++ name?.toList).Nodup ↔ ∀ name, name? = some name → name ∉ names := by
    cases name? with
    | none => simpa using hnames
    | some name =>
      simp only [List.nodup_append, hnames, Option.toList_some, List.mem_singleton, forall_eq,
        Option.some.injEq, forall_eq', true_and]
      exact ⟨fun h hname ↦ h.2 name hname rfl, fun h ↦
        ⟨List.pairwise_singleton _ _, fun a ha hname ↦ h (hname ▸ ha)⟩⟩
  obtain ⟨hfields, hmethods⟩ := suits_nil.1 hc
  rw [suits_nil, fieldNames_add, methodNames_add, ← Option.toList_map, ← Option.toList_map,
    hnew _ _ hfields, hnew _ _ hmethods]
  simp [hasField_eq_false_iff, hasMethod_eq_false_iff]

theorem completes_member (hc : Suits c []) : Completes rows closed (.inClass c) p ↔
      (∃ (e : EndRow) (rest : List (List Token)), rows = [e.1] :: rest ∧
        Completes rest (closed.push c) .outside p) ∨
      ∃ (m : MemberTree) (rest : List (List Token)), rows = m.rows ++ rest ∧
      m.Admissible c.isAbstract ∧
        Suits (m.add c) [] ∧ Completes rest closed (.inClass (m.add c)) p := by
  have hbody (h : RoutineHead) : h.member.body = {} := by cases h <;> rfl
  constructor
  · intro h
    cases h with
    | @cons _ rows _ _ _ _ _ hstep hrest =>
      cases hstep with
      | closeClass e => exact .inl ⟨e, rows, rfl, hrest⟩
      | field r hadmissible hnew =>
        refine .inr ⟨.field r, rows, rfl, hadmissible,
          (suits_add_iff hc).2 ⟨fun f hf ↦ ?_, nofun⟩, hrest⟩
        cases hf
        exact hnew
      | openRoutine h hfits =>
        rw [completes_body (by rw [hbody]; exact .nil), hbody] at hrest
        obtain ⟨body, e, rest, rfl, hlabels, hempty, hdone⟩ := hrest
        refine .inr ⟨.routine ⟨h, body, e⟩, rest, by simp [MemberTree.rows, Routine.rows],
          ⟨⟨hlabels, fun h ↦ (hempty h).2⟩, fun hm ↦ (hfits hm).1⟩,
          (suits_add_iff hc).2 ⟨nofun, fun f hf ↦ ?_⟩, hdone⟩
        obtain ⟨hm, hf⟩ := Option.ite_none_left_eq_some.1 hf
        cases hf
        exact (hfits (Bool.eq_false_iff.2 hm)).2
  · rintro (⟨e, rest, rfl, hdone⟩ | ⟨m, rest, rfl, hadmissible, hsuits, hdone⟩)
    · exact .cons (.closeClass e) hdone
    · obtain ⟨hfield, hmethod⟩ := (suits_add_iff hc).1 hsuits
      cases m with
      | field r => exact .cons (.field r hadmissible (hfield _ rfl)) hdone
      | routine r =>
        obtain ⟨⟨hlabels, hempty⟩, habstract⟩ := hadmissible
        refine .cons (.openRoutine r.head fun hm ↦
          ⟨habstract hm, hmethod r.member (if_neg (Bool.eq_false_iff.1 hm))⟩) ?_
        rw [completes_body (by rw [hbody]; exact .nil), hbody]
        exact ⟨r.body, r.close, rest, by simp, hlabels, fun h ↦ ⟨rfl, hempty h⟩, hdone⟩

theorem completes_members (hc : Suits c []) :
    Completes rows closed (.inClass c) p ↔
    ∃ (members : List MemberTree) (e : EndRow) (rest : List (List Token)),
      rows = members.flatMap MemberTree.rows ++ [e.1] :: rest ∧ Suits c members ∧
      Completes rest (closed.push (extend c members)) .outside p := by
  constructor
  · intro h
    induction hn : rows.length using Nat.strongRecOn generalizing rows c with
    | ind n ih =>
      obtain ⟨e, rest, rfl, hdone⟩ | ⟨m, rest, rfl, hadmissible, hsuits, hdone⟩ :=
        (completes_member hc).1 h
      · exact ⟨[], e, rest, rfl, hc, (extend_nil c).symm ▸ hdone⟩
      · have hrows : 0 < m.rows.length := by cases m <;> exact Nat.succ_pos _
        rw [List.length_append] at hn
        obtain ⟨members, e, rest', rfl, hmembers, hdone⟩ :=
          ih rest.length (by omega) hsuits hdone rfl
        exact ⟨m :: members, e, rest', by rw [List.flatMap_cons, List.append_assoc],
          suits_cons.2 ⟨hadmissible, hmembers⟩, (extend_cons c m members).symm ▸ hdone⟩
  · rintro ⟨members, e, rest, rfl, hmembers, hdone⟩
    induction members generalizing c with
    | nil =>
      rw [extend_nil] at hdone
      exact .cons (.closeClass e) hdone
    | cons m members ih =>
      obtain ⟨hadmissible, hmembers⟩ := suits_cons.1 hmembers
      have hsuits : Suits (m.add c) [] := suits_nil.2
        ⟨(List.nodup_append.1 hmembers.fields).1, (List.nodup_append.1 hmembers.methods).1⟩
      rw [extend_cons] at hdone
      rw [List.flatMap_cons, List.append_assoc]
      exact (completes_member hc).2
        (.inr ⟨m, _, rfl, hadmissible, hsuits, ih hsuits hmembers hdone⟩)

/-! ## Units -/

theorem completes_class : Completes rows closed .outside p ↔ (rows = [] ∧ p = ⟨closed⟩) ∨
      ∃ (c : ClassTree) (rest : List (List Token)), rows = c.rows ++ rest ∧
        (∀ d ∈ closed, d.name ≠ c.head.name.1.text) ∧ c.Admissible ∧
          Completes rest (closed.push c.decl) .outside p := by
  have hnew (r : ClassRow) : Suits r.decl [] := suits_nil.2 ⟨.nil, .nil⟩
  have hsuits (r : ClassRow) (members : List MemberTree) (e : EndRow) :
      Suits r.decl members ↔ ClassTree.Admissible ⟨r, members, e⟩ :=
    ⟨fun ⟨h₁, h₂, h₃⟩ ↦ ⟨h₁, h₂, h₃⟩, fun ⟨h₁, h₂, h₃⟩ ↦ ⟨h₁, h₂, h₃⟩⟩
  constructor
  · intro h
    cases h with
    | nil => exact .inl ⟨rfl, rfl⟩
    | cons hstep hrest =>
      cases hstep with
      | openClass r hfree =>
        obtain ⟨members, e, rest, rfl, hmembers, hdone⟩ := (completes_members (hnew r)).1 hrest
        exact .inr ⟨⟨r, members, e⟩, rest, by simp [ClassTree.rows], hfree,
          (hsuits _ _ e).1 hmembers, hdone⟩
  · rintro (⟨rfl, rfl⟩ | ⟨⟨r, members, e⟩, rest, rfl, hfree, hadmissible, hdone⟩)
    · exact .nil
    · refine .cons (.openClass r hfree) ((completes_members (hnew r)).2
        ⟨members, e, rest, by simp, (hsuits _ _ e).2 hadmissible, hdone⟩)

theorem completes_unit (hclosed : (closed.toList.map (·.name)).Nodup) :
    Completes rows closed .outside p ↔ ∃ u : UnitTree, u.rows = rows ∧
      (closed.toList.map (·.name) ++ u.map fun c ↦ c.head.name.1.text).Nodup ∧
      (∀ c ∈ u, c.Admissible) ∧ p = ⟨closed ++ (u.map ClassTree.decl).toArray⟩ := by
  have hname (c : ClassTree) : c.decl.name = c.head.name.1.text := rfl
  constructor
  · intro h
    induction hn : rows.length using Nat.strongRecOn generalizing rows closed with
    | ind n ih =>
      obtain ⟨rfl, rfl⟩ | ⟨c, rest, rfl, hfree, hadmissible, hdone⟩ := completes_class.1 h
      · exact ⟨[], rfl, by simpa using hclosed, fun _ hc ↦ (List.not_mem_nil hc).elim, by simp⟩
      · have hrows : 0 < c.rows.length := Nat.succ_pos _
        rw [List.length_append] at hn
        have hpush : ((closed.push c.decl).toList.map (·.name)).Nodup := by
          rw [Array.toList_push, List.map_append, List.nodup_append]
          refine ⟨hclosed, List.pairwise_singleton _ _, fun a ha b hb ↦ ?_⟩
          obtain ⟨d, hd, rfl⟩ := List.mem_map.1 ha
          rw [List.mem_singleton.1 hb]
          exact hfree d (Array.mem_toList_iff.1 hd)
        obtain ⟨u, rfl, hnames, hu, rfl⟩ := ih rest.length (by omega) hpush hdone rfl
        refine ⟨c :: u, rfl, ?_, List.forall_mem_cons.2 ⟨hadmissible, hu⟩, ?_⟩
        · simpa [hname] using hnames
        · rw [List.map_cons, ← List.push_append_toArray]
  · rintro ⟨u, rfl, hnames, hu, rfl⟩
    induction u generalizing closed with
    | nil => exact completes_class.2 (.inl ⟨rfl, by simp⟩)
    | cons c u ih =>
      obtain ⟨hadmissible, hu⟩ := List.forall_mem_cons.1 hu
      have hpush : ((closed.push c.decl).toList.map (·.name) ++ u.map fun c ↦
        c.head.name.1.text).Nodup := by
        simpa [hname] using hnames
      rw [List.map_cons, ← List.push_append_toArray]
      refine completes_class.2 (.inr ⟨c, UnitTree.rows u, rfl, fun d hd ↦ ?_, hadmissible,
        ih (List.nodup_append.1 hpush).1 hpush hu⟩)
      exact (List.nodup_append.1 hnames).2.2 d.name
        (List.mem_map_of_mem (Array.mem_toList_iff.2 hd)) _ List.mem_cons_self

theorem parse_eq_ok : parse rows = .ok p ↔ ∃ t, parseRows {} rows = .ok t ∧ t.finish = .ok p := by
  rw [parse]
  cases parseRows {} rows with
  | ok t => simp
  | error e => simp

/-- All rows of an input that are not empty are those of an admissible unit. -/
theorem completes_iff_exists : Completes rows #[] .outside p ↔
    ∃ u : UnitTree, u.rows = rows ∧ u.Admissible ∧ u.program = p := by
  have hempty : ((#[] : Array ClassDecl).toList.map (·.name)).Nodup := .nil
  refine (completes_unit hempty).trans ?_
  constructor
  · rintro ⟨u, hrows, hnames, hu, rfl⟩
    exact ⟨u, hrows, ⟨hnames, hu⟩, by simp [UnitTree.program]⟩
  · rintro ⟨u, hrows, ⟨hnames, hu⟩, rfl⟩
    exact ⟨u, hrows, hnames, hu, by simp [UnitTree.program]⟩

/-- **The parser answers with the program of an admissible unit only.** -/
theorem exists_unit_of_parse (h : parse rows = .ok p) :
    ∃ u : UnitTree, (∀ row' ∈ u.rows, ∃ row ∈ rows, ReadAs row row') ∧
    (Named rows → u.rows = rows.filter (!·.isEmpty)) ∧ u.Admissible ∧ u.program = p := by
  obtain ⟨t, ht, hfinish⟩ := parse_eq_ok.1 h
  obtain ⟨rows', hread, heq, hdone⟩ := completes_of_parseRows ht hfinish
  obtain ⟨u, rfl, hu⟩ := completes_iff_exists.1 hdone
  exact ⟨u, hread, heq, hu⟩

/-- **The parser answers with the program of an admissible unit, written in the rows that are not
empty.** -/
theorem parse_eq_ok_iff (hnamed : Named rows) :
    parse rows = .ok p ↔ ∃ u : UnitTree, u.rows = rows.filter (!·.isEmpty) ∧ u.Admissible ∧
    u.program = p := by
  refine ⟨fun h ↦ ?_, fun h ↦
    parse_eq_ok.2 (parseRows_of_completes hnamed (completes_iff_exists.2 h))⟩
  obtain ⟨u, -, heq, hu⟩ := exists_unit_of_parse h
  exact ⟨u, heq hnamed, hu⟩

/-! ## What is accepted -/

/-- **Exactly the rows of admissible units are accepted**, as the program of the unit, and all
others are refused with a structural error. -/
theorem accepted_iff_derived (rows : List (List Token)) (hnamed : Named rows) :
    ((∃ p, parse rows = .ok p) ↔ ∃ u : UnitTree, u.rows = rows.filter (!·.isEmpty) ∧ u.Admissible) ∧
      (∀ u : UnitTree, u.rows = rows.filter (!·.isEmpty) → u.Admissible →
        parse rows = .ok u.program) ∧
      ((¬∃ u : UnitTree, u.rows = rows.filter (!·.isEmpty) ∧ u.Admissible) →
        ∃ e, parse rows = .error e ∧ e.diagnostic.kind = .structural) := by
  have hyields (u : UnitTree) (hrows : u.rows = rows.filter (!·.isEmpty)) (hu : u.Admissible) :
      parse rows = .ok u.program := (parse_eq_ok_iff hnamed).2 ⟨u, hrows, hu, rfl⟩
  refine ⟨⟨?_, ?_⟩, hyields, fun hnone ↦ ?_⟩
  · rintro ⟨p, hp⟩
    obtain ⟨u, hrows, hu, -⟩ := (parse_eq_ok_iff hnamed).1 hp
    exact ⟨u, hrows, hu⟩
  · rintro ⟨u, hrows, hu⟩
    exact ⟨u.program, hyields u hrows hu⟩
  · cases hparse : parse rows with
    | error e => exact ⟨e, rfl, rfl⟩
    | ok p =>
      obtain ⟨u, hrows, hu, -⟩ := (parse_eq_ok_iff hnamed).1 hparse
      exact (hnone ⟨u, hrows, hu⟩).elim

/-- A class with a field and an abstract method, and an empty row. -/
def sampleRows (mark : Token.Kind) : List (List Token) :=
  [[⟨.classKw, "class", 1⟩, ⟨.identifier, "Shape", 1⟩, ⟨mark, "", 1⟩],
    [⟨.fieldKw, "field", 2⟩, ⟨.identifier, "id", 2⟩, ⟨.publicKw, "public", 2⟩, ⟨.assign, "=", 2⟩,
      ⟨.int 1, "1", 2⟩],
    [],
    [⟨.funcKw, "func", 4⟩, ⟨.identifier, "area", 4⟩, ⟨.colon, ":", 4⟩, ⟨.identifier, "float", 4⟩,
      ⟨.abstractKw, "abstract", 4⟩],
    [⟨.identifier, "def_label", 5⟩, ⟨.identifier, "start", 5⟩],
    [⟨.endKw, "end", 6⟩], [⟨.endKw, "end", 7⟩]]

/-- The class has to be abstract. -/
theorem sampleRows_derived : (∀ k ∈ [Token.Kind.abstractKw, .publicKw], Named (sampleRows k)) ∧
    (∃ u : UnitTree, u.rows = (sampleRows .abstractKw).filter (!·.isEmpty) ∧ u.Admissible) ∧
    ¬∃ u : UnitTree, u.rows = (sampleRows .publicKw).filter (!·.isEmpty) ∧ u.Admissible := by
  have hnamed : ∀ k ∈ [Token.Kind.abstractKw, .publicKw], Named (sampleRows k) := by
    unfold Named
    decide
  have hread : (parse (sampleRows .abstractKw)).isOk = true := by decide +kernel
  have hrefused : (parse (sampleRows .publicKw)).isOk = false := by decide +kernel
  refine ⟨hnamed, (accepted_iff_derived _ (hnamed _ (by simp))).1.1 ?_, fun h ↦ ?_⟩
  · cases hp : parse (sampleRows .abstractKw) with
    | ok p => exact ⟨p, rfl⟩
    | error e =>
      rw [hp] at hread
      cases hread
  · obtain ⟨p, hp⟩ := (accepted_iff_derived _ (hnamed _ (by simp))).1.2 h
    rw [hp] at hrefused
    cases hrefused

end ClassAsm.Grammar
