import ClassAsm.Program.Parse
import ClassAsm.Proofs.Lists
import ClassAsm.Proofs.Program.Grammar
import ClassAsm.Proofs.Program.WellFormed

/-!
# Reading rows

`RowStep` is what one row of the grammar can do to what has been read before it.  The parser does
nothing else (`rowStep_of_parseTokens`), and it does that if all names have a text
(`parseTokens_of_rowStep`).  The same is said for all rows: an input is parsed if its rows can be
read one after the other and no scope is left open (`Completes`).

## How it is proved

The parts of a row are read one after the other, and for each of them there is a lemma that says
which tokens it takes and what it makes of them.  A lemma `x_eq_ok` is an equivalence, so that it
serves both directions.  Only rows that can have a type need two lemmas: a colon before a name
without text gives no type, and the row is read as another one (`ReadAs`).  This is what the
condition on names excludes.

A step keeps the closed classes and the open scope apart.  That a name has not been declared before
is a condition of the step, as it depends on both, while all that can be seen from the row alone is
said by the syntax trees of `ClassAsm.Proofs.Program.Grammar`.
-/

namespace ClassAsm.Grammar

open Program

variable {name : String} {rest args : List Token} {s : ParseState} {scope : Scope}
  {closed : Array ClassDecl} {line : Int}

/-! ## Parts of a row -/

variable {ts : List Token} {t : Token} {k : Token.Kind} {f f' : FieldDecl} {e : ParseCause}
  {what : String} {c : ClassDecl} {o : Operand} {os : List Operand}

section Parts

variable {α β : Type}

theorem Named.type (h : Named [ts]) {c : Option TypeClause} (hc : ∀ t ∈ typeTokens c, t ∈ ts) :
    c.map (·.name.1.text) ≠ some "" := by
  intro hname
  obtain ⟨c, rfl, htext⟩ := Option.map_eq_some_iff.1 hname
  exact h ts List.mem_cons_self c.name.1 (hc _ (by simp [typeTokens])) c.name.2 htext

theorem map_eq_ok {r : ParseM α} {f : α → β} {b : β} :
    r.map f = .ok b ↔ ∃ a, r = .ok a ∧ f a = b := by
  cases r with
  | error e => simp [Except.map]
  | ok a => simp [Except.map]

theorem guard_eq_ok {b : Prop} [Decidable b] {f : PUnit → ParseM α} {a : α} :
    (if b then (throw e : ParseM PUnit) >>= f else f ⟨⟩) = .ok a ↔ ¬b ∧ f ⟨⟩ = .ok a := by
  by_cases hb : b
  · rw [if_pos hb]
    exact iff_of_false nofun fun h ↦ h.1 hb
  · rw [if_neg hb]
    exact (and_iff_right hb).symm

theorem declaredName_eq_ok :
    declaredName what ts = .ok name ↔ ∃ (n : Name) (rest : List Token), ts = n.1 :: rest ∧
    n.1.text = name := by
  unfold declaredName
  split
  · rename_i text line rest
    rw [Except.ok.injEq]
    refine ⟨fun h ↦ ⟨⟨⟨.identifier, text, line⟩, rfl⟩, rest, rfl, h⟩, ?_⟩
    rintro ⟨⟨n, hn⟩, rest', hts, rfl⟩
    cases hts
    rfl
  · rename_i hts
    refine iff_of_false nofun ?_
    rintro ⟨⟨⟨kind, text, line⟩, hn⟩, rest, rfl, -⟩
    cases hn
    exact hts text line rest rfl

theorem exists_terminals {test : Token.Kind → Bool} :
    (∃ as : List (Terminal test), as.map (·.1) = ts) ↔ ∀ t ∈ ts, test t.kind = true := by
  constructor
  · rintro ⟨as, rfl⟩ t ht
    obtain ⟨a, -, rfl⟩ := List.mem_map.1 ht
    exact a.2
  · intro h
    exact ⟨ts.attach.map fun t ↦ ⟨t.1, h t.1 t.2⟩, by simp⟩

theorem isClassAttribute_iff :
    isClassAttribute k = true ↔ k = .publicKw ∨ k = .privateKw ∨ k = .abstractKw := by
  cases k <;> simp [isClassAttribute]

theorem isAttribute_iff :
    k.isAttribute = true ↔ k = .publicKw ∨ k = .privateKw ∨ k = .abstractKw ∨ k = .overrideKw := by
  cases k <;> simp [Token.Kind.isAttribute]

theorem isFieldAttribute_iff : isFieldAttribute k = true ↔ k = .publicKw ∨ k = .privateKw := by
  cases k <;> simp [isFieldAttribute]

theorem classAttributes_eq_ok {c' : ClassDecl} :
    classAttributes c ts = .ok c' ↔ (∀ t ∈ ts, isClassAttribute t.kind = true) ∧
      c' = { c with
        isPublic := visible c.isPublic ts
        isAbstract := c.isAbstract || marked .abstractKw ts } := by
  induction ts generalizing c with
  | nil =>
    have hsame : { c with
        isPublic := visible c.isPublic []
        isAbstract := c.isAbstract || marked .abstractKw [] } = c := by simp [visible, marked]
    rw [classAttributes, hsame, Except.ok.injEq]
    exact ⟨fun h ↦ ⟨List.forall_mem_nil _, h.symm⟩, fun h ↦ h.2.symm⟩
  | cons t ts ih =>
    rw [List.forall_mem_cons, isClassAttribute_iff]
    unfold classAttributes
    split
    case h_1 ht | h_2 ht | h_3 ht => simp [ih, visible, marked, ht]
    case h_4 h₁ h₂ h₃ =>
      exact iff_of_false (fun h ↦ by cases h) fun h ↦ h.1.1.elim h₁ fun h ↦ h.elim h₂ h₃

theorem memberAttributes_eq_ok {m m' : Member} :
    memberAttributes m ts = .ok m' ↔ (∀ t ∈ ts, t.kind.isAttribute = true) ∧
      m' = { m with
        isPublic := visible m.isPublic ts
        isAbstract := m.isAbstract || marked .abstractKw ts
        isOverride := m.isOverride || marked .overrideKw ts } := by
  induction ts generalizing m with
  | nil =>
    have hsame : { m with
        isPublic := visible m.isPublic []
        isAbstract := m.isAbstract || marked .abstractKw []
        isOverride := m.isOverride || marked .overrideKw [] } = m := by simp [visible, marked]
    rw [memberAttributes, hsame, Except.ok.injEq]
    exact ⟨fun h ↦ ⟨List.forall_mem_nil _, h.symm⟩, fun h ↦ h.2.symm⟩
  | cons t ts ih =>
    rw [List.forall_mem_cons, isAttribute_iff]
    unfold memberAttributes
    split
    case h_1 ht | h_2 ht | h_3 ht | h_4 ht => simp [ih, visible, marked, ht]
    case h_5 h₁ h₂ h₃ h₄ =>
      exact iff_of_false (fun h ↦ by cases h) fun h ↦ h.1.1.elim h₁ fun h ↦ h.elim h₂ fun h ↦
        h.elim h₃ h₄

theorem fieldAttributes_cons (f : FieldDecl) (t : Token) (ts : List Token) :
    fieldAttributes f (t :: ts) =
      if isFieldAttribute t.kind then
        fieldAttributes { f with isPublic := visible f.isPublic [t] } ts
      else if t.kind.isAttribute then .error (.fieldAttribute t.kind f.name)
      else .ok (f, t :: ts) := by
  rw [fieldAttributes]
  split
  case h_1 ht | h_2 ht => simp [isFieldAttribute, visible, ht]
  case h_3 h₁ h₂ =>
    have hno : ¬isFieldAttribute t.kind = true := fun h ↦ (isFieldAttribute_iff.1 h).elim h₁ h₂
    rw [if_neg hno]

theorem fieldAttributes_eq_ok :
    fieldAttributes f ts = .ok (f', rest) ↔ ∃ as, ts = as ++ rest ∧
    (∀ t ∈ as, isFieldAttribute t.kind = true) ∧
      (∀ t ∈ rest.head?, t.kind.isAttribute = false) ∧
      f' = { f with isPublic := visible f.isPublic as } := by
  induction ts generalizing f with
  | nil =>
    rw [fieldAttributes, Except.ok.injEq, Prod.mk.injEq]
    constructor
    · rintro ⟨rfl, rfl⟩
      exact ⟨[], rfl, nofun, nofun, rfl⟩
    · rintro ⟨as, hts, -, -, rfl⟩
      obtain ⟨rfl, rfl⟩ := List.nil_eq_append_iff.1 hts
      exact ⟨rfl, rfl⟩
  | cons t ts ih =>
    rw [fieldAttributes_cons]
    constructor
    · intro h
      split at h
      · rename_i hfield
        obtain ⟨as, rfl, has, hrest, rfl⟩ := ih.1 h
        exact ⟨t :: as, rfl, List.forall_mem_cons.2 ⟨hfield, has⟩, hrest, rfl⟩
      · split at h
        · cases h
        · rename_i hattribute
          cases h
          refine ⟨[], rfl, nofun, fun t' ht' ↦ ?_, rfl⟩
          cases ht'
          exact Bool.eq_false_iff.2 hattribute
    · rintro ⟨as, hts, has, hrest, rfl⟩
      cases as with
      | nil =>
        -- No attribute is read, so the first token is none.
        obtain rfl : t :: ts = rest := hts
        have hattribute := hrest t rfl
        rw [if_neg fun hfield ↦ ?_, if_neg (Bool.eq_false_iff.1 hattribute)]
        · rfl
        · rcases isFieldAttribute_iff.1 hfield with hk | hk <;> rw [hk] at hattribute <;>
            cases hattribute
      | cons a as =>
        obtain ⟨rfl, rfl⟩ := List.cons.inj hts
        rw [if_pos (has t List.mem_cons_self), ih]
        exact ⟨as, rfl, fun t ht ↦ has t (List.mem_cons_of_mem _ ht), hrest, rfl⟩

/-- The first row is read as the second one: a colon before a name without text is no type. -/
inductive ReadAs : List Token → List Token → Prop where
  | same (row : List Token) : ReadAs row row
  | untyped {head name colon empty : Token} {rest : List Token} : empty.kind = .identifier →
      empty.text = "" → ReadAs (head :: name :: colon :: empty :: rest) (head :: name :: rest)

section ReadAs

variable {row row' : List Token}

theorem ReadAs.mem (h : ReadAs row row') (ht : t ∈ row') : t ∈ row := by
  cases h with
  | same => exact ht
  | untyped =>
    simp only [List.mem_cons] at ht ⊢
    exact ht.imp_right fun h ↦ h.imp_right fun h ↦ .inr (.inr h)

theorem ReadAs.eq_of_named (h : ReadAs row row')
    (hnamed : ∀ t ∈ row, t.kind = .identifier → t.text ≠ "") : row' = row := by
  cases h with
  | same => rfl
  | untyped hkind htext => exact (hnamed _ (by simp) hkind htext).elim

end ReadAs

section Types

variable {missing : ParseCause}

theorem exists_type_of_splitType {type : Option String}
    (h : splitType missing ts = .ok (type, rest)) (head name : Token) : ∃ c : Option TypeClause,
      ReadAs (head :: name :: ts) (head :: name :: (typeTokens c ++ rest)) ∧
      type = c.map (·.name.1.text) := by
  unfold splitType at h
  split at h
  · rename_i text _ _
    cases h
    by_cases htext : text = ""
    · exact ⟨none, .untyped rfl htext, if_pos htext⟩
    · exact ⟨some ⟨⟨_, rfl⟩, ⟨_, rfl⟩⟩, .same _, if_neg htext⟩
  · cases h
  · cases h
    exact ⟨none, .same _, rfl⟩

theorem splitType_typeTokens (c : Option TypeClause) (hname : c.map (·.name.1.text) ≠ some "")
    (hcolon : ∀ t ∈ rest.head?, t.kind ≠ .colon) :
    splitType missing (typeTokens c ++ rest) = .ok (c.map (·.name.1.text), rest) := by
  cases c with
  | none =>
    rw [typeTokens, List.nil_append]
    unfold splitType
    split
    · exact (hcolon _ rfl rfl).elim
    · exact (hcolon _ rfl rfl).elim
    · rfl
  | some c =>
    obtain ⟨⟨⟨kind, text, line⟩, hkind⟩, ⟨⟨kind', name, line'⟩, hkind'⟩⟩ := c
    cases hkind
    cases hkind'
    have hname : name ≠ "" := fun h ↦ hname (congrArg some h)
    show Except.ok (if name = "" then none else some name, rest) = _
    rw [if_neg hname]
    rfl

end Types

theorem operandOf_terminal (a : Terminal isOperand) : operandOf a.1 = .ok (operandValue a) := by
  obtain ⟨⟨kind, text, line⟩, h⟩ := a
  cases kind with
  | identifier =>
    unfold operandOf operandValue
    dsimp only
    split <;> simp_all
  | string | int | float => rfl
  | _ => cases h

theorem operandOf_eq_ok : operandOf t = .ok o ↔
    ∃ a : Terminal isOperand, a.1 = t ∧ operandValue a = o := by
  constructor
  · intro h
    have hkind : isOperand t.kind = true := by
      unfold operandOf at h
      split at h
      case h_5 => cases h
      case h_1 hk | h_2 hk | h_3 hk | h_4 hk => rw [hk]; rfl
    exact ⟨⟨t, hkind⟩, rfl, Except.ok.inj ((operandOf_terminal ⟨t, hkind⟩).symm.trans h)⟩
  · rintro ⟨a, rfl, rfl⟩
    exact operandOf_terminal a

theorem known_operandValue (a : Terminal isOperand) : (operandValue a).Known := by
  unfold operandValue
  split
  case h_4 => split <;> trivial
  all_goals trivial

theorem isLiteral_operandValue {a : Terminal isOperand} : (operandValue a).IsLiteral ↔
    (a.1.kind = .identifier → a.1.text = "true" ∨ a.1.text = "false" ∨ a.1.text = "null") := by
  obtain ⟨⟨kind, text, line⟩, h⟩ := a
  cases kind with
  | identifier =>
    unfold operandValue
    dsimp only
    split <;> simp_all [Operand.IsLiteral]
  | string | int | float => exact iff_of_true trivial nofun
  | _ => cases h

theorem defaultOf_eq_ok : defaultOf name t = .ok o ↔
      ∃ a : Terminal isOperand, a.1 = t ∧ (operandValue a).IsLiteral ∧ operandValue a = o := by
  rw [defaultOf, bind_eq_ok]
  constructor
  · rintro ⟨o', ho', h⟩
    obtain ⟨a, rfl, rfl⟩ := operandOf_eq_ok.1 ho'
    have hknown := known_operandValue a
    refine ⟨a, rfl, ?_⟩
    generalize operandValue a = o' at h hknown
    cases o' with
    | unknown => exact hknown.elim
    | identifier | returnValue => cases h
    | _ => exact ⟨trivial, Except.ok.inj h⟩
  · rintro ⟨a, rfl, hlit, rfl⟩
    refine ⟨_, operandOf_terminal a, ?_⟩
    generalize operandValue a = o' at hlit
    cases o' with
    | identifier | returnValue | unknown => exact hlit.elim
    | _ => rfl

theorem operands_eq_ok : ts.mapM operandOf = .ok os ↔
      ∃ as : List (Terminal isOperand), as.map (·.1) = ts ∧ as.map operandValue = os := by
  have hread (t : Token) (o : Operand) : operandOf t = .ok o ↔
      ∃ a : Terminal isOperand, a.1 = t ∧ True ∧ operandValue a = o := by
    simp only [operandOf_eq_ok, true_and]
  rw [mapM_eq_ok_iff_exists_map hread]
  simp

theorem fieldDefaults_eq_ok (hf : f.defaults = [] ∧ f.hasValue = false) :
    fieldDefaults f ts = .ok f' ↔ ∃ d : Option DefaultClause, defaultTokens d = ts ∧
      (∀ d', d = some d' → ∀ a ∈ d'.items, (operandValue a).IsLiteral) ∧
      f' = { f with
        defaults := d.elim [] fun d ↦ d.items.map operandValue
        hasValue := d.isSome } := by
  cases ts with
  | nil =>
    rw [fieldDefaults, Except.ok.injEq]
    constructor
    · rintro rfl
      refine ⟨none, rfl, by simp, ?_⟩
      rw [Option.elim_none, Option.isSome_none, ← hf.1, ← hf.2]
    · rintro ⟨_ | d, hts, -, rfl⟩
      · rw [Option.elim_none, Option.isSome_none, ← hf.1, ← hf.2]
      · cases hts
  | cons t ts =>
    rw [fieldDefaults]
    split
    · rename_i hassign
      rw [guard_eq_ok, bind_eq_ok]
      constructor
      · rintro ⟨hne, os, hos, h⟩
        cases h
        obtain ⟨as, rfl, has, rfl⟩ := (mapM_eq_ok_iff_exists_map fun t o ↦ defaultOf_eq_ok).1 hos
        cases as with
        | nil => exact (hne rfl).elim
        | cons a as =>
          refine ⟨some ⟨⟨t, hassign⟩, a, as⟩, rfl, ?_, rfl⟩
          intro d' hd'
          cases hd'
          exact has
      · rintro ⟨_ | d, hts, hlits, rfl⟩
        · cases hts
        · obtain ⟨-, rfl⟩ := List.cons.inj hts
          refine ⟨Bool.false_ne_true, _, ?_, rfl⟩
          exact (mapM_eq_ok_iff_exists_map fun t o ↦ defaultOf_eq_ok).2 ⟨_, rfl, hlits d rfl, rfl⟩
    · rename_i hno
      refine iff_of_false (fun h ↦ by cases h) ?_
      rintro ⟨_ | d, hts, -, -⟩
      · cases hts
      · obtain ⟨rfl, -⟩ := List.cons.inj hts
        exact hno d.assign.2

/-- A field without a type needs exactly one default. -/
theorem typed_eq_ok {e' : ParseCause} {a b : α} : (do
      if f.typeName.isNone then
        if !f.hasValue then throw e
        if 1 < f.defaults.length then throw e'
      return a : ParseM α) = .ok b ↔
      (f.typeName = none → f.hasValue = true ∧ f.defaults.length ≤ 1) ∧ a = b := by
  cases f.typeName with
  | some type => exact ⟨fun h ↦ ⟨nofun, Except.ok.inj h⟩, fun h ↦ congrArg _ h.2⟩
  | none =>
    dsimp only [Option.isNone_none]
    rw [if_pos rfl, guard_eq_ok, guard_eq_ok]
    simp only [Bool.not_eq_true', Bool.not_eq_false, Nat.not_lt, forall_const, and_assoc]
    exact and_congr_right' (and_congr_right' ⟨Except.ok.inj, congrArg _⟩)

end Parts

/-! ## Rows -/

variable {s' : ParseState}

theorem parseClass_eq_ok {k : Keyword .classKw} :
    parseClass s k.1.line args = .ok scope ↔ ∃ r : ClassRow, r.tokens = k.1 :: args ∧
    s.scope = .outside ∧
      (∀ c ∈ s.closed, c.name ≠ r.name.1.text) ∧ scope = .inClass r.decl := by
  have hfree (name : String) : ¬(s.closed.any fun c ↦ c.name = name) = true ↔
    ∀ c ∈ s.closed, c.name ≠ name := by
    simp only [Array.any_eq_true', decide_eq_true_eq, not_exists, not_and, ne_eq]
  rw [parseClass, bind_eq_ok]
  constructor
  · rintro ⟨name, hname, h⟩
    obtain ⟨n, rest, rfl, rfl⟩ := declaredName_eq_ok.1 hname
    cases hscope : s.scope with
    | inClass | inMember =>
      rw [hscope] at h
      cases h
    | outside =>
      rw [hscope] at h
      obtain ⟨hnew, h⟩ := guard_eq_ok.1 h
      obtain ⟨c, hc, h⟩ := bind_eq_ok.1 h
      cases h
      obtain ⟨has, rfl⟩ := classAttributes_eq_ok.1 hc
      obtain ⟨as, rfl⟩ := exists_terminals.2 has
      exact ⟨⟨k, n, as⟩, rfl, rfl, (hfree _).1 hnew, rfl⟩
  · rintro ⟨⟨k', n, as⟩, htokens, hscope, hnew, rfl⟩
    obtain ⟨hk, rfl⟩ := List.cons.inj htokens
    obtain rfl : k' = k := Subtype.ext hk
    refine ⟨n.1.text, declaredName_eq_ok.2 ⟨n, _, rfl, rfl⟩, ?_⟩
    rw [hscope]
    exact guard_eq_ok.2 ⟨(hfree _).2 hnew,
      bind_eq_ok.2 ⟨_, classAttributes_eq_ok.2 ⟨exists_terminals.1 ⟨as, rfl⟩, rfl⟩, rfl⟩⟩

theorem memberScope_eq_ok : memberScope what s.scope = .ok c ↔ s.scope = .inClass c := by
  cases s.scope with
  | outside | inMember => exact iff_of_false nofun nofun
  | inClass c' =>
    exact ⟨fun h ↦ congrArg _ (Except.ok.inj h), fun h ↦ congrArg _ (Scope.inClass.inj h)⟩

/-- Whether a method or constructor may be declared in a class. -/
def RoutineHead.Fits (c : ClassDecl) (h : RoutineHead) : Prop :=
  h.member.isConstructor = false →
    (h.member.isAbstract = true → c.isAbstract = true) ∧ c.hasMethod h.member.name = false

theorem funcRow_of_parseFunc {k : Keyword .funcKw} (h : parseFunc s k.1.line args = .ok scope) :
    ∃ (c : ClassDecl) (r : FuncRow), ReadAs (k.1 :: args) r.tokens ∧ s.scope = .inClass c ∧
      (RoutineHead.func r).Fits c ∧ scope = .inMember c (RoutineHead.func r).member := by
  obtain ⟨name, hname, h⟩ := bind_eq_ok.1 h
  obtain ⟨n, rest, rfl, rfl⟩ := declaredName_eq_ok.1 hname
  obtain ⟨c, hc, h⟩ := bind_eq_ok.1 h
  obtain ⟨⟨returns, rest'⟩, hsplit, h⟩ := bind_eq_ok.1 h
  obtain ⟨m, hm, h⟩ := bind_eq_ok.1 h
  obtain ⟨habs, h⟩ := guard_eq_ok.1 h
  obtain ⟨hnew, h⟩ := guard_eq_ok.1 h
  cases h
  obtain ⟨type, hread, rfl⟩ := exists_type_of_splitType hsplit k.1 n.1
  obtain ⟨has, rfl⟩ := memberAttributes_eq_ok.1 hm
  obtain ⟨as, rfl⟩ := exists_terminals.2 has
  refine ⟨c, ⟨k, n, type, as⟩, hread, memberScope_eq_ok.1 hc, fun _ ↦
    ⟨fun hm ↦ ?_, Bool.eq_false_iff.2 hnew⟩, rfl⟩
  exact (Bool.eq_false_or_eq_true c.isAbstract).resolve_right fun hc ↦
    habs (by simp_all [RoutineHead.member])

theorem parseFunc_of_funcRow {r : FuncRow} (hnamed : Named [r.tokens])
    (hscope : s.scope = .inClass c) (hfits : (RoutineHead.func r).Fits c) :
    parseFunc s r.keyword.1.line (r.name.1 :: (typeTokens r.result ++ r.attributes.map (·.1))) =
      .ok (.inMember c (RoutineHead.func r).member) := by
  obtain ⟨habs, hnew⟩ := hfits rfl
  have hattributes : ∀ t ∈ r.attributes.map (·.1), t.kind.isAttribute = true :=
    exists_terminals.1 ⟨_, rfl⟩
  have hcolon : ∀ t ∈ (r.attributes.map (·.1)).head?, t.kind ≠ .colon := by
    intro t ht hkind
    have := hattributes t (List.mem_of_mem_head? ht)
    rw [hkind] at this
    cases this
  have htype := hnamed.type (c := r.result) fun t ht ↦ by simp [FuncRow.tokens, ht]
  refine bind_eq_ok.2 ⟨r.name.1.text, declaredName_eq_ok.2 ⟨r.name, _, rfl, rfl⟩,
    bind_eq_ok.2 ⟨c, memberScope_eq_ok.2 hscope,
      bind_eq_ok.2 ⟨(_, _), splitType_typeTokens _ htype hcolon,
        bind_eq_ok.2 ⟨_, memberAttributes_eq_ok.2 ⟨hattributes, rfl⟩,
          guard_eq_ok.2 ⟨fun h ↦ ?_, guard_eq_ok.2 ⟨Bool.eq_false_iff.1 hnew, rfl⟩⟩⟩⟩⟩⟩
  obtain ⟨hm, hc⟩ := Bool.and_eq_true_iff.1 h
  rw [habs hm] at hc
  cases hc

theorem parseConstructor_eq_ok {k : Keyword .constructorKw} :
    parseConstructor s k.1.line args = .ok scope ↔ ∃ (c : ClassDecl) (r : ConstructorRow),
    r.tokens = k.1 :: args ∧
      s.scope = .inClass c ∧ scope = .inMember c (RoutineHead.constructor r).member := by
  rw [parseConstructor, bind_eq_ok]
  constructor
  · rintro ⟨c, hc, h⟩
    obtain ⟨m, hm, h⟩ := bind_eq_ok.1 h
    cases h
    obtain ⟨has, rfl⟩ := memberAttributes_eq_ok.1 hm
    obtain ⟨as, rfl⟩ := exists_terminals.2 has
    exact ⟨c, ⟨k, as⟩, rfl, memberScope_eq_ok.1 hc, rfl⟩
  · rintro ⟨c, ⟨k', as⟩, htokens, hscope, rfl⟩
    obtain ⟨hk, rfl⟩ := List.cons.inj htokens
    obtain rfl : k' = k := Subtype.ext hk
    exact ⟨c, memberScope_eq_ok.2 hscope,
      bind_eq_ok.2 ⟨_, memberAttributes_eq_ok.2 ⟨exists_terminals.1 ⟨as, rfl⟩, rfl⟩, rfl⟩⟩

theorem fieldRow_of_parseField {k : Keyword .fieldKw} (h : parseField s k.1.line args = .ok scope) :
    ∃ (c : ClassDecl) (r : FieldRow), ReadAs (k.1 :: args) r.tokens ∧ s.scope = .inClass c ∧
    r.Admissible ∧
      c.hasField r.name.1.text = false ∧
      scope = .inClass { c with fields := c.fields.push r.decl } := by
  obtain ⟨name, hname, h⟩ := bind_eq_ok.1 h
  obtain ⟨n, rest, rfl, rfl⟩ := declaredName_eq_ok.1 hname
  cases hscope : s.scope with
  | outside | inMember =>
    rw [hscope] at h
    cases h
  | inClass c =>
    rw [hscope] at h
    obtain ⟨hnew, h⟩ := guard_eq_ok.1 h
    obtain ⟨⟨type', rest₁⟩, hsplit, h⟩ := bind_eq_ok.1 h
    obtain ⟨⟨f₁, rest₂⟩, hattributes, h⟩ := bind_eq_ok.1 h
    obtain ⟨f, hdefaults, h⟩ := bind_eq_ok.1 h
    obtain ⟨type, hread, rfl⟩ := exists_type_of_splitType hsplit k.1 n.1
    obtain ⟨ts, rfl, hts, -, rfl⟩ := fieldAttributes_eq_ok.1 hattributes
    obtain ⟨as, rfl⟩ := exists_terminals.2 hts
    obtain ⟨d, rfl, hlits, rfl⟩ := (fieldDefaults_eq_ok ⟨rfl, rfl⟩).1 hdefaults
    obtain ⟨huntyped, rfl⟩ := typed_eq_ok.1 h
    refine ⟨c, ⟨k, n, type, as, d⟩, hread, rfl,
      ⟨fun d' hd' t ht ↦ isLiteral_operandValue.1 (hlits d' hd' t ht), ?_⟩,
      Bool.eq_false_iff.2 hnew, rfl⟩
    rintro rfl
    obtain ⟨hvalue, hsingle⟩ := huntyped rfl
    obtain ⟨d, rfl⟩ := Option.isSome_iff_exists.1 hvalue
    refine ⟨d, rfl, List.length_eq_zero_iff.1 (Nat.le_zero.1 ?_)⟩
    rwa [Option.elim_some, List.length_map, DefaultClause.items, List.length_cons,
      Nat.succ_le_succ_iff] at hsingle

theorem parseField_of_fieldRow {r : FieldRow} (hnamed : Named [r.tokens])
    (hscope : s.scope = .inClass c) (hadmissible : r.Admissible)
    (hnew : c.hasField r.name.1.text = false) : parseField s r.keyword.1.line
        (r.name.1 :: (typeTokens r.type ++ (r.attributes.map (·.1) ++ defaultTokens r.defaults))) =
      .ok (.inClass { c with fields := c.fields.push r.decl }) := by
  have hattributes : ∀ t ∈ r.attributes.map (·.1), isFieldAttribute t.kind = true :=
    exists_terminals.1 ⟨_, rfl⟩
  have hassign : ∀ t ∈ (defaultTokens r.defaults).head?, t.kind = .assign := by
    cases r.defaults with
    | none => exact nofun
    | some d =>
      intro t ht
      cases ht
      exact d.assign.2
  have hcolon : ∀ t ∈ (r.attributes.map (·.1) ++ defaultTokens r.defaults).head?,
      t.kind ≠ .colon := by
    intro t ht hkind
    cases has : r.attributes with
    | nil =>
      rw [has] at ht
      cases hkind.symm.trans (hassign t ht)
    | cons a as =>
      rw [has] at ht
      cases ht
      have := a.2
      rw [hkind] at this
      cases this
  have htype := hnamed.type (c := r.type) fun t ht ↦ by simp [FieldRow.tokens, ht]
  refine bind_eq_ok.2 ⟨r.name.1.text, declaredName_eq_ok.2 ⟨r.name, _, rfl, rfl⟩, ?_⟩
  rw [hscope]
  refine guard_eq_ok.2 ⟨Bool.eq_false_iff.1 hnew,
    bind_eq_ok.2 ⟨(_, _), splitType_typeTokens _ htype hcolon, bind_eq_ok.2 ⟨(_, _),
      fieldAttributes_eq_ok.2 ⟨_, rfl, hattributes, fun t ht ↦ by rw [hassign t ht]; rfl, rfl⟩,
      bind_eq_ok.2 ⟨_, (fieldDefaults_eq_ok ⟨rfl, rfl⟩).2 ⟨r.defaults, rfl, fun d' hd' t ht ↦
        isLiteral_operandValue.2 (hadmissible.literals d' hd' t ht), rfl⟩,
        typed_eq_ok.2 ⟨fun htype ↦ ?_, rfl⟩⟩⟩⟩⟩
  obtain ⟨d, hd, hothers⟩ := hadmissible.untyped (Option.map_eq_none_iff.1 htype)
  simp [hd, DefaultClause.items, hothers]

theorem arity_iff {op : Opcode} {n : Nat} :
    ¬(decide (n < op.arity.1) || decide (op.arity.2 < n)) = true ↔ op.arity.1 ≤ n ∧
    n ≤ op.arity.2 := by
  simp

theorem parseInstruction_eq_ok {w : Name} :
    parseInstruction s w.1.line w.1.text args = .ok scope ↔
    ∃ (c : ClassDecl) (m : Member) (r : BodyRow),
      r.tokens = w.1 :: args ∧ s.scope = .inMember c m ∧
      (∀ name, r.label? = some name → m.body.label? name = none) ∧
      scope = .inMember c { m with body := r.add m.body } := by
  constructor
  · intro h
    unfold parseInstruction at h
    split at h
    · rename_i op hop
      cases hscope : s.scope with
      | outside | inClass =>
        rw [hscope] at h
        cases h
      | inMember c m =>
        rw [hscope] at h
        obtain ⟨harity, h⟩ := guard_eq_ok.1 h
        obtain ⟨hleast, hmost⟩ := arity_iff.1 harity
        split at h
        · rename_i t rest _
          obtain ⟨hkind, h⟩ := guard_eq_ok.1 h
          obtain ⟨hnew, h⟩ := guard_eq_ok.1 h
          cases h
          obtain rfl : rest = [] :=
            List.length_eq_zero_iff.1 (Nat.le_zero.1 (Nat.le_of_succ_le_succ hmost))
          refine ⟨c, m, .label ⟨w, ⟨t, Decidable.not_not.1 hkind⟩, hop⟩, rfl, rfl,
            fun name hname ↦ ?_, rfl⟩
          cases hname
          exact Option.not_isSome_iff_eq_none.1 hnew
        · rename_i hlabel
          obtain ⟨os, hos, h⟩ := bind_eq_ok.1 h
          cases h
          obtain ⟨as, rfl, rfl⟩ := operands_eq_ok.1 hos
          rw [List.length_map] at hleast hmost
          refine ⟨c, m, .instruction ⟨w, op, as, hop, ?_, hleast, hmost⟩, rfl, rfl, nofun, rfl⟩
          rintro rfl
          obtain ⟨a, as, rfl⟩ := List.exists_cons_of_length_pos hleast
          exact hlabel a.1 _ rfl rfl
    · cases h
  · rintro ⟨c, m, r, htokens, hscope, hnew, rfl⟩
    unfold parseInstruction
    cases r with
    | instruction r =>
      obtain ⟨hw, rfl⟩ := List.cons.inj htokens
      obtain rfl : r.word = w := Subtype.ext hw
      rw [r.names, hscope]
      refine guard_eq_ok.2 ⟨arity_iff.2 (by rw [List.length_map]; exact ⟨r.least, r.most⟩), ?_⟩
      split
      · rename_i hop _
        exact (r.notLabel hop).elim
      · exact bind_eq_ok.2 ⟨_, operands_eq_ok.2 ⟨r.operands, rfl, rfl⟩, rfl⟩
    | label r =>
      obtain ⟨hw, rfl⟩ := List.cons.inj htokens
      obtain rfl : r.word = w := Subtype.ext hw
      rw [r.names, hscope]
      exact guard_eq_ok.2 ⟨Bool.false_ne_true, guard_eq_ok.2 ⟨Decidable.not_not.2 r.name.2,
        guard_eq_ok.2 ⟨Option.not_isSome_iff_eq_none.2 (hnew _ rfl), rfl⟩⟩⟩

theorem parseEnd_eq_ok : parseEnd s args = .ok s' ↔ args = [] ∧
      ((∃ c, s.scope = .inClass c ∧ s' = { s with closed := s.closed.push c, scope := .outside }) ∨
        ∃ c m, s.scope = .inMember c m ∧ (m.isAbstract = true → m.body.code = #[]) ∧
          s' = { s with scope := .inClass (c.addMember m) }) := by
  cases args with
  | cons t ts => exact iff_of_false nofun fun h ↦ nomatch h.1
  | nil =>
    unfold parseEnd
    cases hscope : s.scope with
    | outside => exact iff_of_false nofun (by rintro ⟨-, ⟨c, hc, -⟩ | ⟨c, m, hc, -⟩⟩ <;> cases hc)
    | inClass c =>
      constructor
      · intro h
        cases h
        exact ⟨rfl, .inl ⟨c, rfl, rfl⟩⟩
      · rintro ⟨-, ⟨c', hc, rfl⟩ | ⟨c', m, hc, -⟩⟩
        · cases hc
          rfl
        · cases hc
    | inMember c m =>
      have hempty : ¬(m.isAbstract && !m.body.code.isEmpty) = true ↔
        (m.isAbstract = true → m.body.code = #[]) := by
        cases m.isAbstract <;> simp
      dsimp only
      rw [guard_eq_ok, hempty]
      constructor
      · rintro ⟨hcode, h⟩
        cases h
        exact ⟨rfl, .inr ⟨c, m, rfl, hcode, rfl⟩⟩
      · rintro ⟨-, ⟨c', hc, -⟩ | ⟨c', m', hc, hcode, rfl⟩⟩
        · cases hc
        · cases hc
          exact ⟨hcode, rfl⟩

/-- What a row does to the closed classes and the open scope. -/
inductive RowStep : List Token → Array ClassDecl → Scope → Array ClassDecl → Scope → Prop where
  | openClass : ∀ {closed} (r : ClassRow), (∀ c ∈ closed, c.name ≠ r.name.1.text) →
      RowStep r.tokens closed .outside closed (.inClass r.decl)
  | closeClass : ∀ {closed c} (e : EndRow),
      RowStep [e.1] closed (.inClass c) (closed.push c) .outside
  | field : ∀ {closed c} (r : FieldRow), r.Admissible → c.hasField r.name.1.text = false →
      RowStep r.tokens closed (.inClass c) closed
        (.inClass { c with fields := c.fields.push r.decl })
  | openRoutine : ∀ {closed c} (h : RoutineHead), h.Fits c →
      RowStep h.tokens closed (.inClass c) closed (.inMember c h.member)
  | body : ∀ {closed c m} (r : BodyRow),
      (∀ name, r.label? = some name → m.body.label? name = none) →
      RowStep r.tokens closed (.inMember c m) closed (.inMember c { m with body := r.add m.body })
  | closeRoutine : ∀ {closed c m} (e : EndRow), (m.isAbstract = true → m.body.code = #[]) →
      RowStep [e.1] closed (.inMember c m) closed (.inClass (c.addMember m))

section Tokens

variable {head : Token}

/-- **The parser reads a row only as the grammar says.** -/
theorem rowStep_of_parseTokens (h : parseTokens s head args = .ok s') :
    ∃ row, ReadAs (head :: args) row ∧ RowStep row s.closed s.scope s'.closed s'.scope := by
  unfold parseTokens at h
  dsimp only at h
  split at h
  case h_1 hk =>
    obtain ⟨scope, hscope, rfl⟩ := map_eq_ok.1 h
    obtain ⟨r, htokens, hs, hnew, rfl⟩ := (parseClass_eq_ok (k := ⟨head, hk⟩)).1 hscope
    rw [← htokens, hs]
    exact ⟨_, .same _, .openClass r hnew⟩
  case h_2 hk =>
    obtain ⟨scope, hscope, rfl⟩ := map_eq_ok.1 h
    obtain ⟨c, r, hread, hs, hfits, rfl⟩ := funcRow_of_parseFunc (k := ⟨head, hk⟩) hscope
    rw [hs]
    exact ⟨_, hread, .openRoutine (.func r) hfits⟩
  case h_3 hk =>
    obtain ⟨scope, hscope, rfl⟩ := map_eq_ok.1 h
    obtain ⟨c, r, htokens, hs, rfl⟩ := (parseConstructor_eq_ok (k := ⟨head, hk⟩)).1 hscope
    rw [← htokens, hs]
    exact ⟨_, .same _, .openRoutine (.constructor r) nofun⟩
  case h_4 hk =>
    obtain ⟨scope, hscope, rfl⟩ := map_eq_ok.1 h
    obtain ⟨c, r, hread, hs, hadmissible, hnew, rfl⟩ :=
      fieldRow_of_parseField (k := ⟨head, hk⟩) hscope
    rw [hs]
    exact ⟨_, hread, .field r hadmissible hnew⟩
  case h_5 hk =>
    obtain ⟨rfl, ⟨c, hs, rfl⟩ | ⟨c, m, hs, hempty, rfl⟩⟩ := parseEnd_eq_ok.1 h
    · rw [hs]
      exact ⟨_, .same _, .closeClass ⟨head, hk⟩⟩
    · rw [hs]
      exact ⟨_, .same _, .closeRoutine ⟨head, hk⟩ hempty⟩
  case h_6 hk =>
    obtain ⟨scope, hscope, rfl⟩ := map_eq_ok.1 h
    obtain ⟨c, m, r, htokens, hs, hnew, rfl⟩ := (parseInstruction_eq_ok (w := ⟨head, hk⟩)).1 hscope
    rw [← htokens, hs]
    exact ⟨_, .same _, .body r hnew⟩
  case h_7 => cases h

/-- **The parser reads a row as the grammar says.** -/
theorem parseTokens_of_rowStep {closed' : Array ClassDecl} {scope' : Scope}
    (hnamed : Named [head :: args]) (hstep : RowStep (head :: args) closed scope closed' scope') :
    parseTokens ⟨closed, scope, line⟩ head args = .ok ⟨closed', scope', line⟩ := by
  generalize hrow : head :: args = row at hstep hnamed
  unfold parseTokens
  cases hstep with
  | openClass r hnew =>
    have hk : head.kind = .classKw := (List.cons.inj hrow).1 ▸ r.keyword.2
    rw [hk]
    exact map_eq_ok.2 ⟨_, (parseClass_eq_ok (k := ⟨head, hk⟩)).2 ⟨r, hrow.symm, rfl, hnew,
      rfl⟩, rfl⟩
  | closeClass e =>
    obtain ⟨hhead, rfl⟩ := List.cons.inj hrow
    have hk : head.kind = .endKw := hhead ▸ e.2
    rw [hk]
    exact parseEnd_eq_ok.2 ⟨rfl, .inl ⟨_, rfl, rfl⟩⟩
  | field r hadmissible hnew =>
    obtain ⟨rfl, rfl⟩ := List.cons.inj hrow
    rw [r.keyword.2]
    exact map_eq_ok.2 ⟨_, parseField_of_fieldRow hnamed rfl hadmissible hnew, rfl⟩
  | openRoutine h hfits =>
    cases h with
    | func r =>
      obtain ⟨rfl, rfl⟩ := List.cons.inj hrow
      rw [r.keyword.2]
      exact map_eq_ok.2 ⟨_, parseFunc_of_funcRow hnamed rfl hfits, rfl⟩
    | constructor r =>
      have hk : head.kind = .constructorKw := (List.cons.inj hrow).1 ▸ r.keyword.2
      rw [hk]
      exact map_eq_ok.2 ⟨_, (parseConstructor_eq_ok (k := ⟨head, hk⟩)).2 ⟨_, r, hrow.symm, rfl,
        rfl⟩, rfl⟩
  | body r hnew =>
    have hk : head.kind = .identifier := by
      cases r with
      | instruction r => exact (List.cons.inj hrow).1 ▸ r.word.2
      | label r => exact (List.cons.inj hrow).1 ▸ r.word.2
    rw [hk]
    exact map_eq_ok.2 ⟨_, (parseInstruction_eq_ok (w := ⟨head, hk⟩)).2 ⟨_, _, r, hrow.symm, rfl,
      hnew, rfl⟩, rfl⟩
  | closeRoutine e hempty =>
    obtain ⟨hhead, rfl⟩ := List.cons.inj hrow
    have hk : head.kind = .endKw := hhead ▸ e.2
    rw [hk]
    exact parseEnd_eq_ok.2 ⟨rfl, .inr ⟨_, _, rfl, hempty, rfl⟩⟩

end Tokens

/-- The rows can be read one after the other, and then no scope is open. -/
inductive Completes : List (List Token) → Array ClassDecl → Scope → Program → Prop where
  | nil {closed : Array ClassDecl} : Completes [] closed .outside ⟨closed⟩
  | cons {row : List Token} {rows : List (List Token)} {closed closed' : Array ClassDecl}
      {scope scope' : Scope} {p : Program} :
      RowStep row closed scope closed' scope' → Completes rows closed' scope' p →
      Completes (row :: rows) closed scope p

variable {rows : List (List Token)} {p : Program}

/-- **The parser reads rows only as the grammar says.** -/
theorem completes_of_parseRows {t : ParseState} (ht : parseRows s rows = .ok t)
    (hfinish : t.finish = .ok p) : ∃ rows', (∀ row' ∈ rows', ∃ row ∈ rows, ReadAs row row') ∧
    (Named rows → rows' = rows.filter (!·.isEmpty)) ∧
      Completes rows' s.closed s.scope p := by
  induction rows generalizing s with
  | nil =>
    cases ht
    rw [ParseState.finish] at hfinish
    cases hscope : t.scope with
    | outside =>
      rw [hscope] at hfinish
      cases hfinish
      exact ⟨[], List.forall_mem_nil _, fun _ ↦ rfl, .nil⟩
    | inClass | inMember =>
      rw [hscope] at hfinish
      cases hfinish
  | cons row rows ih =>
    have htail {rows' : List (List Token)} (h : ∀ row' ∈ rows', ∃ row ∈ rows, ReadAs row row') :
        ∀ row' ∈ rows', ∃ row₁ ∈ row :: rows, ReadAs row₁ row' := fun row' hrow' ↦
      (h row' hrow').imp fun _ h ↦ ⟨List.mem_cons_of_mem _ h.1, h.2⟩
    cases row with
    | nil =>
      obtain ⟨rows', hread, heq, hdone⟩ := ih ht
      exact ⟨rows', htail hread, fun hnamed ↦ heq (List.forall_mem_cons.1 hnamed).2, hdone⟩
    | cons head args =>
      rw [parseRows, parseRow] at ht
      cases hhead : parseTokens s head args with
      | error e =>
        rw [hhead] at ht
        cases ht
      | ok s' =>
        rw [hhead] at ht
        obtain ⟨row, hread, hstep⟩ := rowStep_of_parseTokens hhead
        obtain ⟨rows', hrest, heq, hdone⟩ := ih ht
        refine ⟨row :: rows', List.forall_mem_cons.2 ⟨⟨_, List.mem_cons_self, hread⟩, htail hrest⟩,
          fun hnamed ↦ ?_, .cons hstep hdone⟩
        obtain ⟨hrow, hrows⟩ := List.forall_mem_cons.1 hnamed
        rw [List.filter_cons_of_pos rfl, hread.eq_of_named hrow, heq hrows]

/-- **The parser reads rows as the grammar says.** -/
theorem parseRows_of_completes (hnamed : Named rows)
    (h : Completes (rows.filter (!·.isEmpty)) closed scope p) :
    ∃ t, parseRows ⟨closed, scope, line⟩ rows = .ok t ∧ t.finish = .ok p := by
  induction rows generalizing closed scope line with
  | nil =>
    cases h
    exact ⟨_, rfl, rfl⟩
  | cons row rows ih =>
    obtain ⟨hrow, hrows⟩ := List.forall_mem_cons.1 hnamed
    cases row with
    | nil => exact ih hrows h
    | cons head args =>
      rw [List.filter_cons_of_pos rfl] at h
      cases h with
      | cons hstep hrest =>
        rw [parseRows, parseRow, parseTokens_of_rowStep (List.forall_mem_singleton.2 hrow) hstep]
        exact ih hrows hrest

end ClassAsm.Grammar
