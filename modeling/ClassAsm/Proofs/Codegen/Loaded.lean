import ClassAsm.Machine.State
import ClassAsm.Proofs.Codegen.Typed
import ClassAsm.Proofs.Compile

/-!
# Modules that the machine can run

An argument of an instruction has 24 bits.  In a module whose tables are no larger than that
(`CompiledModule.Small`) every word is read as it was meant, so that a loaded module does what its
program says.

An `Image` is a procedure of such a module together with the member that it comes from and all that
is known about its translation.  Its code comes in segments: the defaults, one for each instruction
of the block, and the return at the end.  Each of them is read by the machine as it was meant, and
is typed.
-/

namespace ClassAsm

namespace Bytecode

/-- The tables of a procedure are small enough for arguments. -/
structure Procedure.Small (p : Procedure) : Prop where
  code : p.code.size ≤ argumentCount
  consts : p.consts.size ≤ argumentCount
  types : p.types.size ≤ argumentCount

/-- All tables of a module are small enough for arguments. -/
structure CompiledModule.Small (m : CompiledModule) : Prop where
  classes : m.classes.size ≤ argumentCount
  fields : ∀ c ∈ m.classes, c.fields.size ≤ argumentCount
  methods : ∀ c ∈ m.classes, c.methods.size ≤ argumentCount
  procedures : ∀ c ∈ m.classes, ∀ p, p ∈ c.constructors ∨ p ∈ c.methods → p.Small

instance (p : Procedure) : Decidable p.Small :=
  decidable_of_iff (p.code.size ≤ argumentCount ∧ p.consts.size ≤ argumentCount ∧
    p.types.size ≤ argumentCount) ⟨fun ⟨h, h', h''⟩ ↦ ⟨h, h', h''⟩, fun h ↦
    ⟨h.code, h.consts, h.types⟩⟩

instance (m : CompiledModule) : Decidable m.Small :=
  decidable_of_iff (m.classes.size ≤ argumentCount ∧
    ∀ c ∈ m.classes, c.fields.size ≤ argumentCount ∧ c.methods.size ≤ argumentCount ∧
      (∀ p ∈ c.constructors, p.Small) ∧ ∀ p ∈ c.methods, p.Small)
    ⟨fun ⟨h, h'⟩ ↦ ⟨h, fun c hc ↦ (h' c hc).1, fun c hc ↦ (h' c hc).2.1,
        fun c hc p hp ↦ hp.elim ((h' c hc).2.2.1 p) ((h' c hc).2.2.2 p)⟩,
      fun h ↦ ⟨h.classes, fun c hc ↦ ⟨h.fields c hc, h.methods c hc,
        fun p hp ↦ h.procedures c hc p (.inl hp), fun p hp ↦ h.procedures c hc p (.inr hp)⟩⟩⟩

variable {m : CompiledModule} {c : ClassRef}

theorem CompiledModule.home_of_classAt? {k : Nat} (h : m.classAt? k = some c) : c.home = m := by
  rw [classAt?] at h
  split at h
  · exact Option.some.inj h ▸ rfl
  · cases h

theorem CompiledModule.classAt?_of_class? {name : String} (h : m.class? name = some c) :
    m.classAt? c.index.val = some c := by
  obtain ⟨k, -, hc⟩ := Option.bind_eq_some_iff.1 h
  have hindex : c.index.val = k := by
    rw [classAt?] at hc
    split at hc
    · cases hc
      rfl
    · cases hc
  rw [hindex, hc]

theorem CompiledModule.name_of_class? {name : String} (h : m.class? name = some c) :
    c.name = name := by
  obtain ⟨k, hk, hc⟩ := Option.bind_eq_some_iff.1 h
  obtain ⟨x, hx, hname⟩ := lastIndex?_spec hk
  rw [classAt?] at hc
  split at hc
  · rename_i hlt
    cases hc
    rw [Array.getElem?_eq_getElem hlt] at hx
    cases hx
    exact of_decide_eq_true hname
  · cases hc

end Bytecode

namespace Codegen

open Bytecode Machine Program Reference

variable {s t : Shape} {p : Program} {m : CompiledModule} {c : ClassRef} {k : Nat}

/-! ## Indices -/

variable {σ : Setting} {x : Instr}

/-- **An instruction of typed code holds no index that is too large.** -/
theorem Types.index_lt (h : Types σ s x t) (hm : σ.owner.home.Small)
    (hcells : t.cells.length + registerCount ≤ maxLocals) : x.index < argumentCount := by
  have hlocals : maxLocals < argumentCount := by decide
  have hslot (r : Register) : r.slot < argumentCount := by cases r <;> decide
  have hfield {c : String} {i : Nat} {t : Ty} (h : HasField σ.owner c i t) :
      i < argumentCount := by
    obtain ⟨cls, slot, hcls, hslot, -⟩ := h
    have hmem : cls.get ∈ σ.owner.home.classes := CompiledModule.class?_home hcls ▸ cls.get_mem
    exact Nat.lt_of_lt_of_le (Array.getElem?_eq_some_iff.1 hslot).1 (hm.fields _ hmem)
  cases h with
  | readRegister | writeRegister => exact hslot _
  | readCell h | writeCell h =>
    have hk := (List.getElem?_eq_some_iff.1 h).1
    dsimp only [Instr.index] at hcells ⊢
    omega
  | define =>
    rw [List.length_append, List.length_singleton] at hcells
    dsimp only [Instr.index]
    omega
  | loadField h | storeField h => exact hfield h
  | call h =>
    exact Nat.lt_of_lt_of_le (Array.getElem?_eq_some_iff.1 h).1 (hm.methods _ σ.owner.get_mem)
  | @new _ _ _ _ cls hcls _ _ =>
    have hhome := CompiledModule.class?_home hcls
    exact Nat.lt_of_lt_of_le cls.index.isLt (hhome ▸ hm.classes)
  | _ => exact Nat.zero_lt_of_lt hlocals

theorem Typed.types_of_getElem? {code : List Instr} {i : Nat} (h : Typed σ s code t)
    (hx : code[i]? = some x) : ∃ s' t', Types σ s' x t' ∧ t'.cells.length ≤ t.cells.length := by
  induction h generalizing i with
  | nil => cases hx
  | cons hy htail ih =>
    cases i with
    | zero =>
      cases hx
      exact ⟨_, _, hy, htail.cells_le⟩
    | succ i => exact ih hx

/-! ## Loaded modules -/

theorem Compiled.layoutOf (h : Compiled p m) (hc : c.home = m) :
    ∃ decl, p.classes[c.index.val]? = some decl ∧ LayoutOf (declares p) decl c.get.outline := by
  subst hc
  have hget : c.home.outline.classes.toList[c.index.val]? = some c.get.outline := by
    rw [Array.getElem?_toList, CompiledModule.outline, Array.getElem?_map,
      Array.getElem?_eq_getElem c.index.isLt]
    rfl
  obtain ⟨decl, hdecl, hlayout⟩ := exists_left_of_forall₂ h.layout hget
  exact ⟨decl, Array.getElem?_toList ▸ hdecl, hlayout⟩

/-- The module is the code of a well-formed program, and small enough to be run. -/
structure Loaded (p : Program) (m : CompiledModule) : Prop extends Compiled p m where
  wellFormed : ∃ ok, p.WellFormed ok
  small : m.Small

namespace Loaded

theorem proper (h : Loaded p m) (hc : c.home = m) : c.home.Proper := by
  subst hc
  have hproper := proper_of_layout h.layout
  have hmem {x : CompiledClass} (hx : x ∈ c.home.classes) :
      x.outline ∈ c.home.outline.classes := Array.mem_map_of_mem hx
  refine ⟨fun x hx f hf ↦ ?_, fun x hx q hq ↦ ?_⟩
  · simpa using hproper.fields x.outline (hmem hx) f hf
  · have hq' := hproper.results x.outline (hmem hx) q.outline (Array.mem_map_of_mem hq)
    simp only [CompiledModule.classIndex?_outline] at hq'
    exact hq'

theorem names_eq (h : Loaded p m) :
    (m.classes.toList.map fun c ↦ c.name) = p.classes.toList.map fun c ↦ c.name := by
  have hall : ∀ {cds : List ClassDecl} {cs : List CompiledClass},
      List.Forall₂ (LayoutOf (declares p)) cds cs → (cs.map fun c ↦ c.name) = cds.map fun c ↦
      c.name := by
    intro cds cs hcs
    induction hcs with
    | nil => rfl
    | cons hc _ ih => rw [List.map_cons, List.map_cons, hc.name, ih]
  rw [← hall h.layout, CompiledModule.outline, Array.toList_map, List.map_map]
  rfl

/-- **A class is the one with its name.** -/
theorem class?_name (h : Loaded p m) (hc : c.home = m) : c.home.class? c.name = some c := by
  subst hc
  obtain ⟨ok, hwf⟩ := h.wellFormed
  have hnodup : (c.home.classes.toList.map fun c ↦ c.name).Nodup := h.names_eq ▸ hwf.names
  obtain ⟨k, hk⟩ := Option.isSome_iff_exists.1 c.classIndex?_isSome
  obtain ⟨x, hx, hname⟩ := lastIndex?_spec hk
  have hxk : (c.home.classes.toList.map fun c ↦ c.name)[k]? = some c.name := by
    rw [List.getElem?_map, Array.getElem?_toList, hx]
    exact congrArg some (of_decide_eq_true hname)
  have hck : (c.home.classes.toList.map fun c ↦ c.name)[c.index.val]? = some c.name := by
    rw [List.getElem?_map, Array.getElem?_toList, Array.getElem?_eq_getElem c.index.isLt]
    rfl
  have hindex : k = c.index.val :=
    (List.getElem?_inj (List.getElem?_eq_some_iff.1 hxk).1 hnodup).1 (hxk.trans hck.symm)
  rw [CompiledModule.class?, hk, Option.bind_some, hindex, CompiledModule.classAt?,
    dif_pos c.index.isLt]

end Loaded

/-! ## Images -/

/-- A procedure of a module, with the member that it comes from and its translation. -/
structure Image (p : Program) (m : CompiledModule) where
  owner : ClassRef
  decl : ClassDecl
  member : Member
  code : Procedure
  defaults : List Default
  points : List Point
  offsets : Array Nat
  home : owner.home = m
  declared : p.classes[owner.index.val]? = some decl
  belongs : member ∈ constructorsOf decl ∨ member ∈ decl.methods
  given : defaultsFor? owner decl member = some defaults
  translated : Translated ⟨owner, code, member.body, #[]⟩ defaults points offsets code
  charted : Charted decl member defaults points code
  listed : code ∈ owner.get.constructors ∨ code ∈ owner.get.methods
  proper : code.returns = .void ∨ code.returns.Proper fun name ↦
    (owner.home.classIndex? name).isSome

namespace Image

/-- The class and the result type of the procedure. -/
def setting (im : Image p m) : Setting := ⟨im.owner, im.code.returns⟩

/-- The routine that the machine runs. -/
def routine (im : Image p m) : Bytecode.Routine := ⟨im.code, some im.owner⟩

/-- The types of the cells that the text before an instruction defines. -/
def cellsBefore (im : Image p m) (k : Nat) : List Ty :=
  defines (fun name ↦ (im.owner.home.classIndex? name).isSome) (im.member.body.code.toList.take k)

/-- The names at the instruction with index `k`, with some knowledge about the registers. -/
def names (im : Image p m) (k : Nat) (rs : Registers) : Names :=
  Context.namesAt ⟨im.owner, im.code, im.member.body, #[]⟩ k rs

/-- Code stands at an offset, is read as it was meant, and is typed. -/
structure Segment (im : Image p m) (off : Nat) (code : List Instr) (s t : Shape) : Prop where
  reads : ∀ i x, code[i]? = some x → im.code.Reads (target im.offsets) (off + i) x
  typed : Typed im.setting s code t

variable (im : Image p m) {off : Nat} {q : Point}

theorem small (h : Loaded p m) : im.code.Small := by
  have hmem := im.owner.get_mem
  rw [im.home] at hmem
  exact h.small.procedures _ hmem _ im.listed

theorem offset_lt (h : im.offsets[k]? = some off) : off < im.code.code.size := by
  have hsize := im.translated.offsets
  have hlength := im.translated.length
  have hk := (Array.getElem?_eq_some_iff.1 h).1
  dsimp only at hsize hlength
  -- The offsets grow toward the end, where the return stands.
  induction hn : im.member.body.code.size - k generalizing k off with
  | zero =>
    obtain ⟨last, hlast, hcode⟩ := im.translated.last
    obtain rfl : k = im.member.body.code.size := by omega
    cases h.symm.trans hlast
    have hfirst : ∃ x, (epilogueCode im.code.returns)[0]? = some x := by
      rw [epilogueCode]
      split <;> exact ⟨_, rfl⟩
    obtain ⟨x, hx⟩ := hfirst
    obtain ⟨w, hw, -⟩ := hcode 0 x hx
    exact (Array.getElem?_eq_some_iff.1 hw).1
  | succ n ih =>
    have hlt : k < im.points.length := by omega
    obtain ⟨off', hoff', hnext, -⟩ := im.translated.code k _ (List.getElem?_eq_getElem hlt)
    cases h.symm.trans hoff'
    have := ih hnext (Array.getElem?_eq_some_iff.1 hnext).1 (by omega)
    omega

theorem target_lt (h : Loaded p m) {j : Nat} (hj : target im.offsets j off) : off < argumentCount :=
  Nat.lt_of_lt_of_le (im.offset_lt hj) (im.small h).code

theorem knows_cellsBefore (k : Nat) (rs : Registers) :
    (im.names k rs).scope.Knows (im.cellsBefore k) := Scope.before_knows _ im.member.body k

theorem cells_le (k : Nat) : (im.cellsBefore k).length + registerCount ≤ maxLocals := by
  have hlocals : im.code.locals = (im.names im.member.body.code.size {}).scope.count +
    registerCount := im.translated.locals
  have hlimit : im.code.locals ≤ maxLocals := im.translated.limit
  have hcount := (im.knows_cellsBefore im.member.body.code.size {}).count
  have htake : (im.cellsBefore k).length ≤ (im.cellsBefore im.member.body.code.size).length := by
    have hall : im.member.body.code.toList.take im.member.body.code.size =
        im.member.body.code.toList := List.take_of_length_le (Nat.le_of_eq Array.length_toList)
    rw [cellsBefore, cellsBefore, hall]
    exact ((List.take_prefix k _).filterMap _).length_le
  omega

/-- Typed code that stands in the procedure is read as it was meant. -/
theorem segment_of_has (h : Loaded p m) {code : List Instr}
    (hcode : im.code.Has (target im.offsets) off code) (htyped : Typed im.setting s code t)
    (hcells : t.cells.length + registerCount ≤ maxLocals) : im.Segment off code s t := by
  refine ⟨fun i x hx ↦ ?_, htyped⟩
  obtain ⟨s', t', htypes, hle⟩ := htyped.types_of_getElem? hx
  have hsmall := im.small h
  have hindex : x.index < argumentCount := by
    have hhome : im.setting.owner.home.Small := by
      rw [show im.setting.owner.home = m from im.home]
      exact h.small
    exact htypes.index_lt hhome (by omega)
  exact (hcode i x hx).reads hsmall.consts hsmall.types (fun _ _ ↦ im.target_lt h) hindex

/-! ### Segments -/

variable {im} in
theorem Segment.split {xs ys : List Instr} (h : im.Segment off (xs ++ ys) s t) :
    ∃ u, im.Segment off xs s u ∧ im.Segment (off + xs.length) ys u t := by
  obtain ⟨u, hxs, hys⟩ := h.typed.of_append
  refine ⟨u, ⟨fun i x hx ↦ h.reads i x ?_, hxs⟩, ⟨fun i y hy ↦ ?_, hys⟩⟩
  · rw [List.getElem?_append_left (List.getElem?_eq_some_iff.1 hx).1, hx]
  · rw [Nat.add_assoc]
    refine h.reads _ y ?_
    rw [List.getElem?_append_right (Nat.le_add_right _ _), Nat.add_sub_cancel_left, hy]

theorem proud (h : Loaded p m) (k : Nat) (rs : Registers) : (im.names k rs).Proud :=
  h.class?_name im.home

theorem fits (k : Nat) (rs : Registers) :
    Fits im.setting (im.names k rs) rs (im.cellsBefore k) where
  owner := rfl
  registers r t h := by
    have htype : (rs.get r).type? = some t := h
    cases hr : rs.get r with
    | typed u =>
      rw [hr] at htype
      cases htype
      rfl
    | unset | mixed =>
      rw [hr] at htype
      cases htype
  scope := im.knows_cellsBefore k rs

theorem sound (h : Loaded p m) (hq : im.points[k]? = some q) :
    q.stmt.Sound (im.names k q.facts) := by
  obtain ⟨instr, -, hreads⟩ := im.translated.reads k q hq
  exact Names.statement?_sound (im.proud h k q.facts) hreads

theorem cellsBefore_succ (hq : im.points[k]? = some q) :
    im.cellsBefore (k + 1) = im.cellsBefore k ++ q.stmt.cells := by
  obtain ⟨instr, hinstr, hreads⟩ := im.translated.reads k q hq
  rw [Names.cells_of_statement? hreads]
  exact defines_take_succ _ (Array.getElem?_toList ▸ hinstr)

theorem statement_segment (h : Loaded p m) (hq : im.points[k]? = some q)
    (hoff : im.offsets[k]? = some off) :
    im.offsets[k + 1]? = some (off + (q.stmt.code im.code.returns k).length) ∧
      im.Segment off (q.stmt.code im.code.returns k) ⟨q.facts, im.cellsBefore k, []⟩
        ⟨q.out, im.cellsBefore (k + 1), []⟩ := by
  obtain ⟨off', hoff', hnext, hcode⟩ := im.translated.code k q hq
  cases hoff'.symm.trans hoff
  refine ⟨hnext, im.segment_of_has h hcode ?_ (im.cells_le (k + 1))⟩
  rw [im.cellsBefore_succ hq]
  exact typed_statement (im.fits k q.facts) (im.sound h hq) (im.translated.checked k q hq)

theorem proper_fields (h : Loaded p m) : ∀ t ∈ im.owner.get.fields.toList.map fun f ↦ f.type,
    t.Proper fun name ↦ (im.owner.home.classIndex? name).isSome := by
  intro t ht
  obtain ⟨f, hf, rfl⟩ := List.mem_map.1 ht
  exact (h.proper im.home).fields _ im.owner.get_mem f (Array.mem_toList_iff.1 hf)

theorem prologue_segment (h : Loaded p m) :
    im.Segment 0 (defaultsCode 0 im.defaults) ⟨{}, [], []⟩ ⟨{}, [], []⟩ := by
  refine im.segment_of_has h im.translated.start (typed_defaultsCode fun j d hd ↦ ?_) (by decide)
  have hgiven := im.given
  rw [defaultsFor?] at hgiven
  split at hgiven
  · have hproper := im.proper_fields h
    obtain ⟨t, ht, hfor⟩ := defaultsOf?_for hproper hgiven hd
    refine ⟨t, ?_, hfor, hproper t (List.mem_of_getElem? ht)⟩
    rw [List.getElem?_map] at ht
    obtain ⟨slot, hslot, rfl⟩ := Option.map_eq_some_iff.1 ht
    refine ⟨im.owner, slot, h.class?_name im.home, ?_, rfl, .inl rfl⟩
    rw [Nat.zero_add, ← Array.getElem?_toList]
    exact hslot
  · rw [← Option.some.inj hgiven] at hd
    cases hd

theorem epilogue_segment (h : Loaded p m) (rs : Registers)
    (hoff : im.offsets[im.member.body.code.size]? = some off) :
    im.Segment off (epilogueCode im.code.returns) ⟨rs, im.cellsBefore im.member.body.code.size, []⟩
      ⟨rs, im.cellsBefore im.member.body.code.size, []⟩ := by
  obtain ⟨off', hoff', hcode⟩ := im.translated.last
  cases hoff'.symm.trans hoff
  exact im.segment_of_has h hcode (typed_epilogueCode im.proper) (im.cells_le _)

end Image

/-! ### The procedures of a class -/

namespace Loaded

variable {code : Procedure}

/-- **A constructor** is the image of the constructor of the program with its number. -/
theorem image_constructor (h : Loaded p m) (hc : c.home = m)
    (hcode : c.get.constructors[k]? = some code) :
    ∃ im : Image p m, im.owner = c ∧ im.code = code ∧
      (constructorsOf im.decl)[k]? = some im.member ∧ im.member.isConstructor = true ∧
      code.returns = .void ∧ code.isAbstract = false := by
  obtain ⟨decl, hdecl, hlayout⟩ := h.layoutOf hc
  obtain ⟨member, hmember, ds, ps, offs, hds, htranslated, hcharted⟩ :=
    exists_left_of_forall₂ (h.code c decl hc hdecl).constructors (Array.getElem?_toList ▸ hcode)
  rw [Array.getElem?_toList] at hmember
  have hsignature : code.outline = constructorSignature member := by
    have houtline : c.get.outline.constructors[k]? = some code.outline := by
      rw [CompiledClass.outline, Array.getElem?_map, hcode]
      rfl
    rw [hlayout.constructors, Array.getElem?_map, hmember] at houtline
    exact (Option.some.inj houtline).symm
  have hreturns : code.returns = .void := congrArg Procedure.returns hsignature
  have habs : code.isAbstract = false := congrArg Procedure.isAbstract hsignature
  obtain ⟨ok, hwf⟩ := h.wellFormed
  have hctor := (constructorsOf_wellFormed (hwf.classes decl (Array.mem_of_getElem? hdecl))
    (Array.mem_of_getElem? hmember)).2
  exact ⟨⟨c, decl, member, code, ds, ps, offs, hc, hdecl, .inl (Array.mem_of_getElem? hmember), hds,
    htranslated, hcharted, .inl (Array.mem_of_getElem? hcode), .inl hreturns⟩, rfl, rfl, hmember,
    hctor, hreturns, habs⟩

theorem exists_constructor (h : Loaded p m) (hc : c.home = m) :
    ∃ code, c.get.constructors[0]? = some code := by
  obtain ⟨decl, -, hlayout⟩ := h.layoutOf hc
  have hsize : c.get.constructors.size = (constructorsOf decl).size := by
    have := congrArg Array.size hlayout.constructors
    simpa [CompiledClass.outline] using this
  have hpos : 0 < (constructorsOf decl).size := by
    rw [constructorsOf]
    split
    · exact Nat.one_pos
    · rename_i hne
      exact Nat.pos_of_ne_zero (by simpa [Array.isEmpty] using hne)
  exact ⟨_, Array.getElem?_eq_getElem (hsize ▸ hpos)⟩

/-- **A method** is the image of the method of the program with its index. -/
theorem image_method (h : Loaded p m) (hc : c.home = m) (hcode : c.get.methods[k]? = some code) :
    ∃ im : Image p m, im.owner = c ∧ im.code = code ∧ im.decl.methods[k]? = some im.member ∧
      im.member.isConstructor = false ∧ im.member.isAbstract = code.isAbstract := by
  obtain ⟨decl, hdecl, hlayout⟩ := h.layoutOf hc
  obtain ⟨member, hmember, ds, ps, offs, hds, htranslated, hcharted⟩ :=
    exists_left_of_forall₂ (h.code c decl hc hdecl).methods (Array.getElem?_toList ▸ hcode)
  have houtline : c.get.outline.methods.toList[k]? = some code.outline := by
    rw [Array.getElem?_toList, CompiledClass.outline, Array.getElem?_map, hcode]
    rfl
  obtain ⟨member', hmember', hsignature⟩ := exists_left_of_forall₂ hlayout.methods houtline
  cases hmember.symm.trans hmember'
  rw [Array.getElem?_toList] at hmember
  have habs : code.isAbstract = member.isAbstract := congrArg Procedure.isAbstract hsignature.eq
  obtain ⟨ok, hwf⟩ := h.wellFormed
  have hmethod := ((hwf.classes decl (Array.mem_of_getElem? hdecl)).methods member
    (Array.mem_of_getElem? hmember)).2
  have hreturns := (h.proper hc).results _ c.get_mem code (Array.mem_of_getElem? hcode)
  exact ⟨⟨c, decl, member, code, ds, ps, offs, hc, hdecl, .inr (Array.mem_of_getElem? hmember), hds,
    htranslated, hcharted, .inr (Array.mem_of_getElem? hcode), hreturns⟩, rfl, rfl, hmember,
    hmethod, habs.symm⟩

theorem concrete (h : Loaded p m) (hc : c.home = m) (habs : c.get.isAbstract = false)
    (hcode : c.get.methods[k]? = some code) : code.isAbstract = false := by
  obtain ⟨im, rfl, -, hmember, -, hcode'⟩ := h.image_method hc hcode
  obtain ⟨decl, hdecl, hlayout⟩ := h.layoutOf hc
  cases hdecl.symm.trans im.declared
  obtain ⟨ok, hwf⟩ := h.wellFormed
  have hclass : im.decl.isAbstract = false := hlayout.isAbstract.symm.trans habs
  rw [← hcode']
  exact (hwf.classes _ (Array.mem_of_getElem? hdecl)).concrete hclass _
    (Array.mem_of_getElem? hmember)

end Loaded

/-- Every procedure of the module is the image of the member of the program with the same class and
number. -/
def Imaged (p : Program) (m : CompiledModule) : Prop :=
  ∀ c : ClassRef, c.home = m →
  (∀ (k : Nat) code, c.get.constructors[k]? = some code → ∃ im : Image p m,
      im.owner = c ∧ im.code = code ∧ (constructorsOf im.decl)[k]? = some im.member) ∧
    ∀ (k : Nat) code, c.get.methods[k]? = some code → ∃ im : Image p m,
      im.owner = c ∧ im.code = code ∧ im.decl.methods[k]? = some im.member

theorem Loaded.imaged (h : Loaded p m) : Imaged p m := by
  refine fun c hc ↦ ⟨fun k code hcode ↦ ?_, fun k code hcode ↦ ?_⟩
  · obtain ⟨im, howner, hcode, hmember, -⟩ := h.image_constructor hc hcode
    exact ⟨im, howner, hcode, hmember⟩
  · obtain ⟨im, howner, hcode, hmember, -⟩ := h.image_method hc hcode
    exact ⟨im, howner, hcode, hmember⟩

/-! ## Compiled source texts -/

variable {src : String}

/-- **A source text that compiles** parses to a well-formed program that the module is the code
of. -/
theorem compiled_of_compile (h : compile src = .ok m) :
    ∃ p, parseSource src = .ok p ∧ (∃ ok, p.WellFormed ok) ∧ Compiled p m := by
  have hparse := parseSource_parses src
  rw [compile] at h
  cases hp : parseSource src with
  | error e =>
    rw [hp] at h
    cases h
  | ok p =>
    rw [hp] at h hparse
    have hgenerate := generate_located hparse
    dsimp only at h
    cases hg : generate p with
    | error e =>
      rw [hg] at h
      cases h
    | ok m' =>
      rw [hg] at h hgenerate
      cases h
      exact ⟨p, rfl, ⟨_, hparse⟩, hgenerate⟩

/-- **A source text that compiles to a small module** parses to a program that the module is the
code of. -/
theorem loaded_of_compile (h : compile src = .ok m) (hsmall : m.Small) :
    ∃ p, parseSource src = .ok p ∧ Loaded p m := by
  obtain ⟨p, hp, hwf, hcompiled⟩ := compiled_of_compile h
  exact ⟨p, hp, hcompiled, hwf, hsmall⟩

/-- What can be decided about the first class of a small module. -/
theorem exists_class_of_any (src : String) {P : ClassRef → Bool}
    (h : ((compile src).toOption.any fun m ↦ decide m.Small && (m.classAt? 0).any P) = true) :
    ∃ (m : CompiledModule) (c : ClassRef), compile src = .ok m ∧ m.Small ∧ c.home = m ∧
    P c = true := by
  simp only [Option.any_eq_true, Bool.and_eq_true, decide_eq_true_eq] at h
  obtain ⟨m, hm, hsmall, c, hc, hP⟩ := h
  exact ⟨m, c, eq_of_toOption hm, hsmall, CompiledModule.home_of_classAt? hc, hP⟩

/-- A sample: a counter that counts down to zero and prints the numbers on its way. -/
def countdown : String :=
  "class Counter public\nfield n : int public = 2\nfunc down : int public\ndefine x as int\n" ++
  "set x n\nloop\nisgrtn x 0\ngoto more\nreturn x\ndef_label more\nprint x\nsub x 1\n" ++
  "set x ret\ndoop\nend\nend"

theorem countdown_compiles : ∃ (m : CompiledModule) (c : ClassRef) (code : Procedure),
    compile countdown = .ok m ∧ m.Small ∧ c.home = m ∧ c.get.methods[0]? = some code := by
  obtain ⟨m, c, hm, hsmall, hc, hcode⟩ :=
    exists_class_of_any countdown (P := fun c ↦ c.get.methods[0]?.isSome) (by decide +kernel)
  obtain ⟨code, hcode⟩ := Option.isSome_iff_exists.1 hcode
  exact ⟨m, c, code, hm, hsmall, hc, hcode⟩

end Codegen

end ClassAsm
