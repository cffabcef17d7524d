import ClassAsm.Proofs.Codegen.Outline
import ClassAsm.Proofs.Lists

/-!
# The code of a unit

`Compiled p m` says that the module `m` is the code of the program `p`: its classes are laid out as
declared, and every constructor and method is the translation of its block.  `generate_concludes`
says that the generator, given a well-formed program, ends with such a module or with a complaint.
-/

namespace ClassAsm.Codegen

open Bytecode Program Reference

variable {E : Int → Cause → Prop} {α β : Type} {i : Nat} {f : α → Except Error β} {P : α → β → Prop}

/-! ## Results of a list of steps -/

theorem Concludes.map {r : Except Error α} {f : α → β} {P : α → Prop} {Q : β → Prop}
    (h : Concludes E r P) (hf : ∀ a, P a → Q (f a)) : Concludes E (f <$> r) Q := by
  cases r with
  | ok a => exact hf a h
  | error e => exact h

theorem Concludes.mapM {xs : List α} (h : ∀ x ∈ xs, Concludes E (f x) (P x)) :
    Concludes E (xs.mapM f) fun ys ↦ List.Forall₂ P xs ys := by
  induction xs with
  | nil => exact .nil
  | cons x xs ih =>
    rw [List.mapM_cons]
    refine (h x List.mem_cons_self).bind fun y hy ↦ ?_
    refine (ih fun z hz ↦ h z (List.mem_cons_of_mem _ hz)).bind fun ys hys ↦ ?_
    exact .cons hy hys

theorem Concludes.mapM_array {xs : Array α} (h : ∀ x ∈ xs, Concludes E (f x) (P x)) :
    Concludes E (xs.mapM f) fun ys ↦ List.Forall₂ P xs.toList ys.toList := by
  rw [Array.mapM_eq_mapM_toList]
  exact (Concludes.mapM fun x hx ↦ h x (Array.mem_toList_iff.1 hx)).map fun _ hys ↦ hys

/-! ## Layout -/

/-- Whether a program declares a class with the given name. -/
def declares (p : Program) (name : String) : Bool := p.classes.any fun c ↦ c.name = name

/-- A slot is that of a declared field. -/
structure SlotOf (isClass : String → Bool) (f : FieldDecl) (slot : FieldSlot) : Prop where
  name : slot.name = f.name
  isPublic : slot.isPublic = f.isPublic
  type : fieldType isClass f = .ok slot.type
  proper : slot.type.Proper isClass

/-- A procedure has the signature of a declared method. -/
structure SignatureOf (isClass : String → Bool) (m : Member) (p : Procedure) : Prop where
  eq : p = {
    name := m.name, isPublic := m.isPublic, isAbstract := m.isAbstract, returns := p.returns }
  type : resultType isClass m = .ok p.returns
  proper : p.returns = .void ∨ p.returns.Proper isClass

/-- A class is laid out as declared. -/
structure LayoutOf (isClass : String → Bool) (cd : ClassDecl) (c : CompiledClass) : Prop where
  name : c.name = cd.name
  isPublic : c.isPublic = cd.isPublic
  isAbstract : c.isAbstract = cd.isAbstract
  fields : List.Forall₂ (SlotOf isClass) cd.fields.toList c.fields.toList
  constructors : c.constructors = (constructorsOf cd).map constructorSignature
  methods : List.Forall₂ (SignatureOf isClass) cd.methods.toList c.methods.toList

variable {isClass : String → Bool} {cd : ClassDecl} {ok : Int → Prop} {f : FieldDecl} {c : ClassRef}
  {b : Program.Block}

theorem typeNamed_concludes {line : Int} {name : String} (hl : Admits E line) :
    Concludes E (typeNamed isClass line name) fun t ↦ t.Proper isClass := by
  rw [typeNamed]
  cases ht : Ty.ofName? isClass name with
  | none => exact ⟨line, _, rfl, hl _ (Cause.shown_of_none rfl) fun _ ↦ trivial⟩
  | some t => exact Ty.proper_of_ofName? ht

theorem inferred?_proper {o : Operand} {t : Ty} (h : inferred? o = some t) : t.Proper isClass := by
  cases o <;> cases h <;> trivial

theorem fieldType_concludes (hf : f.WellFormed (Admits E)) :
    Concludes E (fieldType isClass f) fun t ↦ t.Proper isClass := by
  rw [fieldType]
  cases hname : f.typeName with
  | some name => exact typeNamed_concludes hf.line
  | none =>
    have hne := hf.value (hf.inferred hname)
    cases hd : f.defaults with
    | nil => exact absurd hd hne
    | cons lit rest =>
      dsimp only
      cases ht : inferred? lit with
      | some t => exact inferred?_proper ht
      | none =>
        have hlit := hf.literals lit (by rw [hd]; exact List.mem_cons_self)
        exact ⟨f.line, _, rfl, hf.line _ (fun o ho ↦ Option.some.inj ho ▸ hlit.known.text)
          fun _ ↦ trivial⟩

theorem fieldSlot_concludes (hf : f.WellFormed (Admits E)) :
    Concludes E (fieldSlot isClass f) (SlotOf isClass f) :=
  (fieldType_concludes hf).and_eq.bind fun _ ⟨ht, hproper⟩ ↦ ⟨rfl, rfl, ht, hproper⟩

theorem resultType_concludes {m : Member} (hl : Admits E m.line) :
    Concludes E (resultType isClass m) fun t ↦ t = .void ∨ t.Proper isClass := by
  unfold resultType
  split
  · exact .inl rfl
  · exact .inl rfl
  · exact (typeNamed_concludes hl).mono fun _ ↦ .inr

theorem methodSignature_concludes {m : Member} (hl : Admits E m.line) :
    Concludes E (methodSignature isClass m) (SignatureOf isClass m) :=
  (resultType_concludes hl).and_eq.bind fun _ ⟨ht, hproper⟩ ↦ ⟨rfl, ht, hproper⟩

theorem classLayout_concludes (h : cd.WellFormed (Admits E)) :
    Concludes E (classLayout isClass cd) (LayoutOf isClass cd) := by
  refine (Concludes.mapM_array fun f hf ↦ fieldSlot_concludes (h.fields f hf)).bind
    fun fields hfields ↦ ?_
  refine (Concludes.mapM_array fun m hm ↦ methodSignature_concludes (h.methods m hm).1.line).bind
    fun methods hmethods ↦ ?_
  exact ⟨rfl, rfl, rfl, hfields, rfl, hmethods⟩

theorem layout_concludes {p : Program} (h : p.WellFormed (Admits E)) :
    Concludes E (layout p) fun m ↦
      List.Forall₂ (LayoutOf (declares p)) p.classes.toList m.classes.toList :=
  (Concludes.mapM_array fun c hc ↦ classLayout_concludes (h.classes c hc)).bind fun _ hcs ↦ hcs

theorem isSome_lastIndex? (q : α → Bool) (xs : Array α) : (lastIndex? q xs).isSome = xs.any q := by
  rw [Bool.eq_iff_iff, Array.any_eq_true]
  constructor
  · intro h
    obtain ⟨i, hi⟩ := Option.isSome_iff_exists.1 h
    obtain ⟨x, hx, hq⟩ := lastIndex?_spec hi
    obtain ⟨hlt, rfl⟩ := Array.getElem?_eq_some_iff.1 hx
    exact ⟨i, hlt, hq⟩
  · rintro ⟨i, hlt, hq⟩
    exact lastIndex?_isSome (Array.getElem?_eq_getElem hlt) hq

section Laid

variable {p : Program} {m : CompiledModule}
  (h : List.Forall₂ (LayoutOf (declares p)) p.classes.toList m.classes.toList)

include h

theorem isClass_eq_declares (name : String) : (m.classIndex? name).isSome = declares p name := by
  have hany : ∀ {cds : List ClassDecl} {cs : List CompiledClass},
      List.Forall₂ (LayoutOf (declares p)) cds cs →
        (cs.any fun c ↦ c.name = name) = cds.any fun c ↦ c.name = name := by
    intro cds cs h
    induction h with
    | nil => rfl
    | cons hc _ ih => rw [List.any_cons, List.any_cons, hc.name, ih]
  rw [CompiledModule.classIndex?, isSome_lastIndex?, declares, ← Array.any_toList,
    ← Array.any_toList]
  exact hany h

theorem proper_of_layout : m.Proper := by
  have hclass : (fun name ↦ (m.classIndex? name).isSome) = declares p :=
    funext (isClass_eq_declares h)
  refine ⟨fun c hc f hf ↦ ?_, fun c hc q hq ↦ ?_⟩ <;> rw [hclass] <;>
    obtain ⟨i, hi⟩ := Array.getElem?_of_mem hc <;>
    obtain ⟨cd, -, hlayout⟩ := exists_left_of_forall₂ h (Array.getElem?_toList ▸ hi)
  · obtain ⟨j, hj⟩ := Array.getElem?_of_mem hf
    obtain ⟨_, -, hslot⟩ := exists_left_of_forall₂ hlayout.fields (Array.getElem?_toList ▸ hj)
    exact hslot.proper
  · obtain ⟨j, hj⟩ := Array.getElem?_of_mem hq
    obtain ⟨_, -, hsig⟩ := exists_left_of_forall₂ hlayout.methods (Array.getElem?_toList ▸ hj)
    exact hsig.proper

end Laid

/-! ## Code -/

/-- The procedure `p` is the code of the member `m` of the class `c`, which is declared as `cd`. -/
def Implements (c : ClassRef) (cd : ClassDecl) (m : Member) (p : Procedure) : Prop :=
  ∃ ds ps offs, defaultsFor? c cd m = some ds ∧ Translated ⟨c, p, m.body, #[]⟩ ds ps offs p ∧
  Charted cd m ds ps p

/-- The same against the layout of the module, in which `p` has no code. -/
def Outlines (c : ClassRef) (cd : ClassDecl) (m : Member) (p : Procedure) : Prop :=
  ∃ ds ps offs, defaultsFor? c cd m = some ds ∧
  Translated ⟨c, p.outline, m.body, #[]⟩ ds ps offs p ∧
    Charted cd m ds ps p

theorem Outlines.implements {m : Member} {p : Procedure} (h : Outlines c.outline cd m p) :
    Implements c cd m p := by
  obtain ⟨ds, ps, offs, hds, hp, hlines⟩ := h
  refine ⟨ds, ps, offs, ?_, hp.of_outline, hlines⟩
  rw [defaultsFor?, ClassRef.get_outline] at hds
  exact hds

/-- A procedure keeps its signature when it gets its code. -/
theorem Translated.outline_eq {signature p : Procedure} {ds : List Default} {ps : List Point}
    {offs : Array Nat} (h : Translated ⟨c, signature, b, #[]⟩ ds ps offs p)
    (hs : signature.outline = signature) : p.outline = signature := by
  rw [h.signature]
  exact hs

theorem proceduresFrom_concludes {owner : ClassRef} {signatures : Array Procedure}
    {ms : List Member} (hproper : owner.home.Proper)
    (hfields : ∀ f ∈ cd.fields, f.WellFormed (Admits E))
    (hslots : owner.get.fields.size = cd.fields.size)
    (hsignatures : ∀ s ∈ signatures, s.outline = s)
    (hlength : (signatures.toList.drop i).length = ms.length)
    (hms : ∀ m ∈ ms, m.WellFormed (Admits E)) (hgen : ∀ m ∈ ms, BlockEnds E owner m.body) :
    Concludes E (proceduresFrom owner cd signatures i ms) fun ps ↦
      ps.map Procedure.outline = signatures.toList.drop i ∧
      List.Forall₂ (Outlines owner cd) ms ps := by
  induction ms generalizing i with
  | nil => exact ⟨(List.eq_nil_of_length_eq_zero hlength).symm, .nil⟩
  | cons m ms ih =>
    rw [List.length_drop, List.length_cons, Array.length_toList] at hlength
    have hi : i < signatures.size := by omega
    have hdrop : signatures.toList.drop i = signatures[i] :: signatures.toList.drop (i + 1) :=
      List.drop_eq_getElem_cons hi
    have hrest : (signatures.toList.drop (i + 1)).length = ms.length := by
      rw [List.length_drop, Array.length_toList]
      omega
    rw [proceduresFrom, Array.getElem?_eq_getElem hi]
    dsimp only
    refine (procedure_ends hproper (hms m List.mem_cons_self)
      (hgen m List.mem_cons_self) hfields hslots).bind fun p ⟨ds, ps, offs, hds, hp, hlines⟩ ↦ ?_
    refine (ih hrest (fun m' hm' ↦ hms m' (List.mem_cons_of_mem _ hm')) fun m' hm' ↦
      hgen m' (List.mem_cons_of_mem _ hm')).bind fun qs ⟨hqs, hall⟩ ↦ ?_
    have houtline := hp.outline_eq (hsignatures _ (Array.getElem_mem hi))
    refine ⟨?_, .cons ⟨ds, ps, offs, hds, ?_, hlines⟩ hall⟩
    · rw [List.map_cons, houtline, hqs, hdrop]
    · rwa [houtline]

/-- The code of all members of a class. -/
structure Coded (R : Member → Procedure → Prop) (cd : ClassDecl) (c : CompiledClass) : Prop where
  constructors : List.Forall₂ R (constructorsOf cd).toList c.constructors.toList
  methods : List.Forall₂ R cd.methods.toList c.methods.toList

/-- All constructors of a class are well formed, also the one that is added. -/
theorem constructorsOf_wellFormed (h : cd.WellFormed ok) {m : Member} (hm : m ∈ constructorsOf cd) :
    m.WellFormed ok ∧ m.isConstructor = true := by
  rw [constructorsOf] at hm
  split at hm
  · obtain rfl : m = { line := cd.line, isPublic := true, isConstructor := true } := by
      simpa using hm
    refine ⟨⟨h.line, ⟨?_, ?_⟩, ?_, fun _ ↦ rfl⟩, rfl⟩
    · exact fun x hx ↦ absurd hx (Array.not_mem_empty x)
    · exact fun l hl ↦ absurd hl List.not_mem_nil
    · exact fun x hx ↦ absurd hx (Array.not_mem_empty x)
  · exact h.constructors m hm

theorem SignatureOf.outline_eq {m : Member} {p : Procedure} (h : SignatureOf isClass m p) :
    p.outline = p := by
  rw [h.eq]
  rfl

theorem classCode_concludes {owner : ClassRef} (hproper : owner.home.Proper)
    (hcd : cd.WellFormed (Admits E)) (hlayout : LayoutOf isClass cd owner.get)
    (hgen : ∀ m, m ∈ constructorsOf cd ∨ m ∈ cd.methods → BlockEnds E owner m.body) :
    Concludes E (classCode owner cd) fun c ↦
      c.outline = owner.get ∧ Coded (Outlines owner cd) cd c := by
  have hslots : owner.get.fields.size = cd.fields.size := by
    simpa using hlayout.fields.length_eq.symm
  have hctors : ∀ s ∈ owner.get.constructors, s.outline = s := by
    rw [hlayout.constructors]
    intro s hs
    obtain ⟨m, -, rfl⟩ := Array.mem_map.1 hs
    rfl
  have hmethods : ∀ s ∈ owner.get.methods, s.outline = s := by
    intro s hs
    obtain ⟨i, hi⟩ := Array.getElem?_of_mem hs
    obtain ⟨m, -, hm⟩ := exists_left_of_forall₂ hlayout.methods (Array.getElem?_toList ▸ hi)
    exact hm.outline_eq
  have hctors_length : (owner.get.constructors.toList.drop 0).length =
    (constructorsOf cd).toList.length := by
    rw [hlayout.constructors]
    simp
  have hmethods_length : (owner.get.methods.toList.drop 0).length = cd.methods.toList.length :=
    hlayout.methods.length_eq.symm
  refine (proceduresFrom_concludes hproper hcd.fields hslots hctors hctors_length
    (fun m hm ↦ (constructorsOf_wellFormed hcd (Array.mem_toList_iff.1 hm)).1)
    fun m hm ↦ hgen m (.inl (Array.mem_toList_iff.1 hm))).bind fun cs ⟨hcs, hcoded⟩ ↦ ?_
  refine (proceduresFrom_concludes hproper hcd.fields hslots hmethods hmethods_length
    (fun m hm ↦ (hcd.methods m (Array.mem_toList_iff.1 hm)).1)
    fun m hm ↦ hgen m (.inr (Array.mem_toList_iff.1 hm))).bind fun ms ⟨hms, hcoded'⟩ ↦ ?_
  refine ⟨?_, hcoded, hcoded'⟩
  have hcs' : cs.toArray.map Procedure.outline = owner.get.constructors := by
    rw [← Array.toList_inj, Array.toList_map]
    exact hcs
  have hms' : ms.toArray.map Procedure.outline = owner.get.methods := by
    rw [← Array.toList_inj, Array.toList_map]
    exact hms
  rw [CompiledClass.outline, hcs', hms']

theorem classesFrom_concludes {m : CompiledModule} {cds : List ClassDecl} (hproper : m.Proper)
    (hcds : ∀ cd ∈ cds, cd.WellFormed (Admits E))
    (hlayout : List.Forall₂ (LayoutOf isClass) cds (m.classes.toList.drop i))
    (hgen : ∀ k cd owner member, cds[k]? = some cd → m.classAt? (i + k) = some owner →
      member ∈ constructorsOf cd ∨ member ∈ cd.methods → BlockEnds E owner member.body) :
    Concludes E (classesFrom m i cds) fun cs ↦
      cs.map CompiledClass.outline = m.classes.toList.drop i ∧
        ∀ k cd c owner, cds[k]? = some cd → cs[k]? = some c → m.classAt? (i + k) = some owner →
          Coded (Outlines owner cd) cd c := by
  induction cds generalizing i with
  | nil => exact ⟨(List.forall₂_nil_left_iff.1 hlayout).symm, fun _ _ _ _ hcd ↦ nomatch hcd⟩
  | cons cd cds ih =>
    have hlength := hlayout.length_eq
    have hsize : m.classes.toList.length = m.classes.size := Array.length_toList
    rw [List.length_drop, List.length_cons, hsize] at hlength
    have hi : i < m.classes.size := by omega
    have hdrop : m.classes.toList.drop i = m.classes[i] :: m.classes.toList.drop (i + 1) :=
      List.drop_eq_getElem_cons hi
    rw [hdrop] at hlayout
    obtain ⟨hhead, htail⟩ := List.forall₂_cons.1 hlayout
    have howner : m.classAt? i = some ⟨m, i, hi⟩ := dif_pos hi
    rw [classesFrom, howner]
    dsimp only
    have hclass : LayoutOf isClass cd (ClassRef.get ⟨m, i, hi⟩) := hhead
    refine (classCode_concludes hproper (hcds cd List.mem_cons_self) hclass fun member ↦
      hgen 0 cd _ member rfl howner).bind fun c ⟨hc, hcoded⟩ ↦ ?_
    refine (ih (fun cd' h ↦ hcds cd' (List.mem_cons_of_mem _ h)) htail
      fun k cd' owner member hcd' ho ↦ hgen (k + 1) cd' owner member hcd'
      (by rwa [Nat.add_comm k, ← Nat.add_assoc])).bind fun cs ⟨hcs, hall⟩ ↦ ?_
    refine ⟨by rw [List.map_cons, hc, hcs, hdrop]; rfl, fun k cd' c' owner hcd' hc' ho ↦ ?_⟩
    cases k with
    | zero =>
      cases hcd'
      cases hc'
      cases howner.symm.trans ho
      exact hcoded
    | succ k =>
      rw [Nat.add_comm k, ← Nat.add_assoc] at ho
      exact hall k cd' c' owner hcd' hc' ho

/-- The module `m` is the code of the program `p`: its classes are laid out as declared, and every
constructor and method is the translation of its block. -/
structure Compiled (p : Program) (m : CompiledModule) : Prop where
  layout : List.Forall₂ (LayoutOf (declares p)) p.classes.toList m.outline.classes.toList
  code : ∀ (c : ClassRef) (cd : ClassDecl), c.home = m → p.classes[c.index.val]? = some cd →
    Coded (Implements c cd) cd c.get

theorem Coded.imp {R S : Member → Procedure → Prop} {c : CompiledClass} (h : Coded R cd c)
    (hRS : ∀ m p, R m p → S m p) : Coded S cd c :=
  ⟨h.constructors.imp hRS, h.methods.imp hRS⟩

/-- The block of a constructor or method of a program, in a class of its layout. -/
structure BlockOf (p : Program) (owner : ClassRef) (b : Program.Block) : Prop where
  laid : layout p = .ok owner.home
  member : ∃ cd m, p.classes[owner.index.val]? = some cd ∧
    (m ∈ constructorsOf cd ∨ m ∈ cd.methods) ∧ m.body = b

theorem BlockOf.wellFormed {p : Program} {owner : ClassRef} (h : BlockOf p owner b)
    (hp : p.WellFormed ok) : owner.home.Proper ∧ b.WellFormed ∧ ∀ x ∈ b.code, ok x.line := by
  have hlayout :=
    (layout_concludes (E := fun _ _ ↦ True) (hp.mono fun _ _ _ _ _ ↦ trivial)).of_ok h.laid
  obtain ⟨cd, m, hcd, hm, rfl⟩ := h.member
  have hclass := hp.classes cd (Array.mem_of_getElem? hcd)
  have hmember : m.WellFormed ok :=
    hm.elim (fun hm ↦ (constructorsOf_wellFormed hclass hm).1) fun hm ↦ (hclass.methods m hm).1
  exact ⟨proper_of_layout hlayout, hmember.block, hmember.lines⟩

/-- **A well-formed program is compiled**, or the generator complains about it. -/
theorem generate_concludes {p : Program} (h : p.WellFormed (Admits E))
    (hgen : ∀ owner b, BlockOf p owner b → BlockEnds E owner b) :
    Concludes E (generate p) (Compiled p) := by
  refine (layout_concludes h).and_eq.bind fun m ⟨hlaid, hlayout⟩ ↦ ?_
  refine (classesFrom_concludes (proper_of_layout hlayout) (fun cd hcd ↦
    h.classes cd (Array.mem_toList_iff.1 hcd)) hlayout
    fun k cd owner member hcd howner hmember ↦ ?_).bind fun cs ⟨hcs, hall⟩ ↦ ?_
  · rw [Nat.zero_add, CompiledModule.classAt?] at howner
    split at howner
    · cases howner
      exact hgen _ _ ⟨hlaid, cd, member, Array.getElem?_toList ▸ hcd, hmember, rfl⟩
    · cases howner
  have houtline : CompiledModule.outline ⟨cs.toArray⟩ = m := by
    obtain ⟨classes⟩ := m
    rw [CompiledModule.outline, CompiledModule.mk.injEq, ← Array.toList_inj, Array.toList_map]
    exact hcs
  refine ⟨houtline ▸ hlayout, ?_⟩
  rintro ⟨home, k⟩ cd rfl hcd
  have hc : cs[k.val]? = some (ClassRef.get ⟨⟨cs.toArray⟩, k⟩) := List.getElem?_eq_getElem k.isLt
  have howner : m.classAt? (0 + k.val) = some (ClassRef.outline ⟨⟨cs.toArray⟩, k⟩) := by
    rw [Nat.zero_add, ← houtline, CompiledModule.classAt?_outline, CompiledModule.classAt?,
      dif_pos k.isLt]
    rfl
  have hcoded := hall k.val cd _ _ (Array.getElem?_toList ▸ hcd) hc howner
  exact hcoded.imp fun _ _ hp ↦ hp.implements

/-- The complaints about a well-formed program are about its lines. -/
theorem generate_located {p : Program} (h : p.WellFormed ok) :
    Concludes (fun line c ↦ ok line ∧ c.Shown) (generate p) (Compiled p) := by
  refine generate_concludes (h.mono fun line hl c hc _ ↦ ⟨hl, hc⟩)
    fun owner b hb ctx s ho hbody hs ↦ ?_
  obtain ⟨hproper, hblock, hlines⟩ := hb.wellFormed h
  subst ho hbody
  exact body_ends hs (keepsAll_of_lines fun x hx c hc ↦ ⟨hlines x hx, hc⟩) trivial hproper hblock

end ClassAsm.Codegen
