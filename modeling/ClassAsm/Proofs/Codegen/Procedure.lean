import ClassAsm.Codegen.Unit
import ClassAsm.Proofs.Codegen.Block
import ClassAsm.Proofs.Lists

/-!
# The code of a procedure

A procedure is the defaults of the fields, if it is a constructor, then the code of its block, and
then a return.  Once the targets of all jumps are filled in, `Procedure.Has` says what its words
mean: a jump goes to the offset of the instruction it names, or to the return at the end.

## What is here

* `Procedure.Means` and `Procedure.Reads` are two views of a word: that it is what the generator
  has made of an instruction, and that the machine takes it for this instruction.  An argument is
  cut to 24 bits in between, so the first gives the second if it fits (`Procedure.Means.reads`).
* `applyPatches_filled` follows the list of jumps to be filled in.  `Filled` says what becomes of
  one word, if all entries for it agree on the target.
* `prologue_ends` is about the defaults of the fields.  They do not go through the block of the
  procedure, so they have their own account of code and lines (`Adds`, `Prologue`).
* `procedure_ends` puts the parts together.  Its result, `Translated`, is what the modules about the
  machine know of a procedure, and `Charted` is the same for its line table.
-/

namespace ClassAsm

namespace Bytecode

/-! ## Words -/

theorem Word.toNat_pack (b : UInt8) (arg : Nat) :
    (Word.pack b arg).toNat = b.toNat * 0x1000000 + arg % 0x1000000 := by
  have hb := b.toNat_lt
  have harg := Nat.mod_lt arg (show 0 < 0x1000000 by decide)
  rw [Word.pack, UInt32.toNat_ofNat']
  exact Nat.mod_eq_of_lt (by omega)

@[simp] theorem Word.opByte_pack (b : UInt8) (arg : Nat) : (Word.pack b arg).opByte = b := by
  have harg := Nat.mod_lt arg (show 0 < 0x1000000 by decide)
  have hb := b.toNat_lt
  rw [← UInt8.toNat_inj, Word.opByte, UInt32.toNat_toUInt8, UInt32.toNat_shiftRight,
    Word.toNat_pack, Nat.shiftRight_eq_div_pow]
  simp only [UInt32.reduceToNat, Nat.reduceMod, Nat.reducePow]
  omega

@[simp] theorem Op.opByte_word (op : Op) (arg : Nat) : (op.word arg).opByte = op.byte :=
  Word.opByte_pack _ _

@[simp] theorem Op.arg_word (op : Op) (arg : Nat) : (op.word arg).arg = arg % 0x1000000 := by
  have harg := Nat.mod_lt arg (show 0 < 0x1000000 by decide)
  have hmask : (0x00ffffff : UInt32).toNat = 2 ^ 24 - 1 := rfl
  rw [Op.word, Word.arg, UInt32.toNat_and, Word.toNat_pack, hmask, Nat.and_two_pow_sub_one_eq_mod]
  omega

/-! ## What the words of a procedure mean -/

/-- The word at position `k` means `x`, where `dest` relates the targets of jumps to offsets. -/
def Procedure.Means (p : Procedure) (dest : Nat → Nat → Prop) (k : Nat) (x : Instr) : Prop :=
  ∃ w, p.code[k]? = some w ∧ x.Emitted p.consts p.types dest w

/-- The words from position `k` on mean the given instructions. -/
def Procedure.Has (p : Procedure) (dest : Nat → Nat → Prop) (k : Nat) (code : List Instr) : Prop :=
  ∀ i x, code[i]? = some x → p.Means dest (k + i) x

variable {x : Instr} {dest : Nat → Nat → Prop} {consts : Array Value} {a : Nat} {types : Array Ty}

/-- An instruction that is no jump means the same wherever jumps go. -/
theorem Instr.Refers.of_target_none {dest' : Nat → Nat → Prop} (h : x.Refers consts types dest a)
    (hx : x.target? = none) : x.Refers consts types dest' a := by
  cases x with
  | jump j | jumpFalse j => cases hx
  | _ => exact h

theorem Instr.refers_of_target {j : Nat} (hx : x.target? = some j) (h : dest j a) :
    x.Refers consts types dest a := by
  cases x with
  | jump k | jumpFalse k =>
    cases hx
    exact h
  | _ => cases hx

/-! ## What the machine reads

An argument that is too large for a word has been cut, so that the machine reads something else than
what was meant. -/

/-- The machine reads the word at position `k` as `x`. -/
def Procedure.Reads (p : Procedure) (dest : Nat → Nat → Prop) (k : Nat) (x : Instr) : Prop :=
  ∃ w, p.code[k]? = some w ∧ w.opByte = x.op.byte ∧ x.Refers p.consts p.types dest w.arg

/-- The index that an instruction holds itself. -/
def Instr.index : Instr → Nat
  | pushLocal k | popLocal k | loadField k | storeField k | call k | new k => k
  | _ => 0

/-- How many different arguments a word can have. -/
def argumentCount : Nat := 0x1000000

/-- Whatever fits into a word is read as it was meant. -/
theorem Procedure.Means.reads {p : Procedure} {k : Nat} (h : p.Means dest k x)
    (hconsts : p.consts.size ≤ argumentCount) (htypes : p.types.size ≤ argumentCount)
    (hdest : ∀ j off, dest j off → off < argumentCount) (hx : x.index < argumentCount) :
    p.Reads dest k x := by
  obtain ⟨w, hw, a, rfl, ha⟩ := h
  refine ⟨_, hw, Op.opByte_word _ _, ?_⟩
  suffices hkept : a < argumentCount ∨ ∀ b, x.Refers p.consts p.types dest b by
    rw [Op.arg_word]
    rcases hkept with hlt | hany
    · rw [Nat.mod_eq_of_lt (show a < 0x1000000 from hlt)]
      exact ha
    · exact hany _
  have hlt {α : Type} {xs : Array α} {y : α} (hxs : xs.size ≤ argumentCount)
      (ha : xs[a]? = some y) : a < argumentCount :=
    Nat.lt_of_lt_of_le (Array.getElem?_eq_some_iff.1 ha).1 hxs
  cases x with
  | const c => exact .inl (hlt hconsts ha)
  | convert t | newArray t => exact .inl (hlt htypes ha)
  | pushLocal i | popLocal i | loadField i | storeField i | call i | new i =>
    exact .inl (Nat.lt_of_le_of_lt (Nat.le_of_eq ha) hx)
  | jump j | jumpFalse j => exact .inl (hdest j a ha)
  | floatArith op b | ret b =>
    refine .inl (Nat.lt_of_le_of_lt (Nat.le_of_eq ha) ?_)
    cases b <;> decide
  | print => exact .inl (Nat.lt_of_le_of_lt (Nat.le_of_eq ha) (by decide))
  | this | dup | swap | loadItem | storeItem | intArith _ | test _ | not =>
    exact .inr fun _ ↦ trivial

end Bytecode

namespace Reference

open Bytecode

/-! ## The code of defaults -/

/-- The code that stores items, from index `i` on, into the array on the stack. -/
def itemsCode (i : Nat) : List Value → List Instr
  | [] => []
  | v :: vs =>
    [.dup, .const (.ofInt (Int64.ofNat i)), .const v, .storeItem] ++ itemsCode (i + 1) vs

/-- The code that stores the default of the field with the given index. -/
def Default.code (index : Nat) : Default → List Instr
  | zero => []
  | value v => [.this, .const v, .storeField index]
  | items elem vs =>
    [.this, .const (.ofInt (Int64.ofNat vs.length)), .newArray elem] ++ itemsCode 0 vs ++
    [.storeField index]

/-- The code that stores the defaults of all fields from index `i` on. -/
def defaultsCode (i : Nat) : List Default → List Instr
  | [] => []
  | d :: ds => d.code i ++ defaultsCode (i + 1) ds

end Reference

namespace Codegen

open Bytecode Program Reference

variable {E : Int → Cause → Prop} {s t u start : State} {a elem : Ty} {L K : List Instr}
  {f : FieldDecl} {ctx : Context} {c : ClassDecl} {m : Member} {offsets : Array Nat} {v : Value}
  {o : Operand} {i index : Nat} {os : List Operand} {ls : List Int} {ds : List Default}
  {ps : List Point} {code : Array Word} {name : String}

/-! ## Filling in jumps -/

/-- The targets of jumps, given the offsets of all instructions and of the end. -/
def target (offsets : Array Nat) (j off : Nat) : Prop :=
  offsets[min j (offsets.size - 1)]? = some off

theorem patch_apply {p : Patch} (hoffsets : 0 < offsets.size) (hp : p.position < code.size) :
    ∃ off, target offsets p.target off ∧
      p.apply offsets code = .ok (code.modify p.position fun w ↦ Word.pack w.opByte off) := by
  have hlt : min p.target (offsets.size - 1) < offsets.size := by omega
  refine ⟨offsets[min p.target (offsets.size - 1)], Array.getElem?_eq_getElem hlt, ?_⟩
  rw [Patch.apply, Array.getElem?_eq_getElem hlt]
  simp only
  rw [if_pos hp]

/-- What becomes of a word when jumps are filled in. -/
structure Filled (offsets : Array Nat) (patches : List Patch) (p : Nat) (w w' : Word) : Prop where
  kept : (∀ q ∈ patches, q.position ≠ p) → w' = w
  filled : ∀ j, (∀ q ∈ patches, q.position = p → q.target = j) → (∃ q ∈ patches, q.position = p) →
    ∃ off, target offsets j off ∧ w' = Word.pack w.opByte off

/-- **All jumps can be filled in**, and each word becomes what it should. -/
theorem applyPatches_filled (hoffsets : 0 < offsets.size) {patches : List Patch}
    (hp : ∀ q ∈ patches, q.position < code.size) :
    ∃ code', applyPatches offsets code patches = .ok code' ∧ code'.size = code.size ∧
      ∀ p w, code[p]? = some w → ∃ w', code'[p]? = some w' ∧ Filled offsets patches p w w' := by
  induction patches generalizing code with
  | nil =>
    refine ⟨code, rfl, rfl, fun p w hw ↦ ⟨w, hw, fun _ ↦ rfl, fun j _ ⟨q, hq, _⟩ ↦ ?_⟩⟩
    exact absurd hq List.not_mem_nil
  | cons q rest ih =>
    obtain ⟨off, hoff, happly⟩ := patch_apply hoffsets (hp q List.mem_cons_self)
    have hrest : ∀ r ∈ rest,
        r.position < (code.modify q.position fun w ↦ Word.pack w.opByte off).size := by
      intro r hr
      rw [Array.size_modify]
      exact hp r (List.mem_cons_of_mem _ hr)
    obtain ⟨code', hcode', hsize, hword⟩ := ih hrest
    refine ⟨code', ?_, hsize.trans (Array.size_modify ..), fun p w hw ↦ ?_⟩
    · rw [applyPatches, happly]
      exact hcode'
    · obtain ⟨w', hw', hfilled⟩ := hword p (if q.position = p then Word.pack w.opByte off else w)
        (by rw [Array.getElem?_modify, hw]; split <;> rfl)
      refine ⟨w', hw', ⟨fun hne ↦ ?_, fun j hj hex ↦ ?_⟩⟩
      · have hq := hne q List.mem_cons_self
        rw [if_neg hq] at hfilled
        exact hfilled.kept fun r hr ↦ hne r (List.mem_cons_of_mem _ hr)
      · by_cases hlater : ∃ r ∈ rest, r.position = p
        · -- A later jump at the same place has the same target.
          obtain ⟨off', hoff', hw'⟩ :=
            hfilled.filled j (fun r hr ↦ hj r (List.mem_cons_of_mem _ hr)) hlater
          refine ⟨off', hoff', hw'.trans ?_⟩
          split
          · rw [Word.opByte_pack]
          · rfl
        · obtain ⟨r, hr, hrp⟩ := hex
          rcases List.mem_cons.1 hr with rfl | hr
          · obtain rfl := hj r List.mem_cons_self hrp
            rw [if_pos hrp] at hfilled
            exact ⟨off, hoff, hfilled.kept fun r' hr' h ↦ hlater ⟨r', hr', h⟩⟩
          · exact absurd ⟨r, hr, hrp⟩ hlater

/-- **A procedure is finished**: its words mean what they meant to the generator, and all jumps go
where they should. -/
theorem finish_ok (signature : Procedure) (hs : s.Tidy) (hoffsets : 0 < s.offsets.size) :
    ∃ p, finish signature s = .ok p ∧
      p = { signature with
        code := p.code, lines := s.lines, consts := s.consts, types := s.types
        locals := s.nextLocal } ∧
      p.code.size = s.code.size ∧ ∀ k x, s.Means k x → p.Means (target s.offsets) k x := by
  have hpatches : ∀ q ∈ s.patches.toList, q.position < s.code.size :=
    fun q hq ↦ hs.patches q (Array.mem_toList_iff.1 hq)
  obtain ⟨code, hcode, hsize, hword⟩ := applyPatches_filled hoffsets hpatches
  refine ⟨_, by rw [finish, hcode]; rfl, rfl, hsize, fun k x ⟨a, hw, hx, hj⟩ ↦ ?_⟩
  obtain ⟨w, hw', hfilled⟩ := hword k _ hw
  refine ⟨w, hw', ?_⟩
  rcases hj with hj | ⟨hj, j, hxj, ho⟩
  · cases hxj : x.target? with
    | none =>
      -- No jump is to be filled in here.
      have hnone : ∀ q ∈ s.patches.toList, q.position ≠ k := by
        rintro ⟨_, j⟩ hq rfl
        rw [(hj j).1 (Array.mem_toList_iff.1 hq)] at hxj
        cases hxj
      exact ⟨a, hfilled.kept hnone, hx.of_target_none hxj⟩
    | some j =>
      have honly : ∀ q ∈ s.patches.toList, q.position = k → q.target = j := by
        rintro ⟨_, j'⟩ hq rfl
        rw [(hj j').1 (Array.mem_toList_iff.1 hq)] at hxj
        exact Option.some.inj hxj
      obtain ⟨off, hoff, hw⟩ :=
        hfilled.filled j honly ⟨⟨k, j⟩, Array.mem_toList_iff.2 ((hj j).2 hxj), rfl⟩
      rw [Op.opByte_word] at hw
      exact ⟨off, hw, Instr.refers_of_target hxj hoff⟩
  · -- A jump back has the offset of its target already.
    have hlt := (Array.getElem?_eq_some_iff.1 ho).1
    have htarget : target s.offsets j a := by
      rw [target, Nat.min_eq_left (by omega)]
      exact ho
    exact ⟨a, hfilled.kept fun ⟨p, i⟩ hq hp ↦ hj i (hp ▸ Array.mem_toList_iff.1 hq),
      Instr.refers_of_target hxj htarget⟩

/-! ## Defaults -/

/-- From `s` to `t` the code grows by words that mean `code`, whatever lines they come from. -/
structure Adds (s : State) (code : List Instr) (t : State) : Prop where
  grows : s.Extends t
  size : t.code.size = s.code.size + code.length
  has : t.Has s.code.size code
  tidy : t.Tidy

theorem Codes.adds (h : Codes s L t) : Adds s L t :=
  ⟨h.grows, h.size, h.has, h.tidy⟩

theorem Adds.trans (h : Adds s L t) (h' : Adds t K u) : Adds s (L ++ K) u where
  grows := h.grows.trans h'.grows
  size := by rw [h'.size, h.size, List.length_append, Nat.add_assoc]
  has := (h.has.mono h'.grows).append (h.size ▸ h'.has)
  tidy := h'.tidy

theorem convert?_plain {h : Heap} {c : Value} (hv : v.Plain) (hc : h.convert? v a = some c) :
    c.Plain := by
  cases Heap.conversion_of_convert? hc with
  | number _ htag hpayload _ hnumber =>
    refine .inl ⟨fun hstring ↦ ?_, hpayload⟩
    rw [htag.symm.trans hstring] at hnumber
    cases hnumber
  | bool | text | array | object => exact hv
  | printed => exact .inr ⟨_, rfl⟩
  | null => exact .inl ⟨nofun, rfl⟩

theorem converted_ends {source : Ty} (hlit : literal? o = some (v, source)) (hE : Admits E s.line) :
    Ends E (match Heap.convert? {} v a with
      | some c => pure c
      | none => fail (.conversion name v.tag a)) s
      fun v t ↦ t = s ∧ constantAs? a o = some v ∧ v.Plain := by
  cases hc : Heap.convert? {} v a with
  | none => exact ends_refuse hE (Cause.shown_of_none rfl) fun _ ↦ trivial
  | some c =>
    refine ends_pure ⟨rfl, ?_, convert?_plain (literal?_plain hlit) hc⟩
    rw [constantAs?, hlit]
    exact hc

theorem literalAs_ends (ho : o.IsLiteral) (hE : Admits E s.line) :
    Ends E (literalAs o a name) s fun v t ↦ t = s ∧ constantAs? a o = some v ∧ v.Plain := by
  obtain ⟨⟨v, source⟩, hlit⟩ : ∃ l, literal? o = some l := by
    cases o with
    | identifier | returnValue | unknown => exact ho.elim
    | _ => exact ⟨_, rfl⟩
  have hliteral : literal o s = .ok ((v, source), s) := by
    rw [literal, hlit]
    rfl
  refine (ends_of_eq (Q := fun l t ↦ l = (v, source) ∧ t = s) hliteral ⟨rfl, rfl⟩).bind ?_
  rintro _ s ⟨rfl, rfl⟩
  refine Ends.guard (ends_refuse hE (fun o' ho' ↦ Option.some.inj ho' ▸ ho.known.text)
    fun _ ↦ trivial) fun _ ↦ ?_
  by_cases hbyte : a = .byte
  · rw [if_pos hbyte]
    cases overflowsByte o with
    | none => exact converted_ends hlit hE
    | some i =>
      refine Ends.bind (P := fun _ _ ↦ False) ?_ fun _ _ h ↦ h.elim
      exact ends_refuse hE (Cause.shown_of_none rfl) fun _ ↦ trivial
  · rw [if_neg hbyte]
    exact converted_ends hlit hE

section Defaults

variable {τ : List Ty} (ht : Emits s L τ t) (hE : Admits E s.line)

include hE

/-- The items of an array default are stored one by one. -/
theorem Emits.arrayItems_ends (ht : Emits s L τ t) (hos : ∀ o ∈ os, o.IsLiteral) :
    Ends E (arrayItems f elem i os) t fun _ u ↦
      ∃ vs, os.mapM (constantAs? elem) = some vs ∧ Emits s (L ++ itemsCode i vs) τ u := by
  induction os generalizing i t L with
  | nil => exact ends_pure ⟨[], rfl, (List.append_nil L).symm ▸ ht⟩
  | cons o os ih =>
    refine (literalAs_ends (hos o List.mem_cons_self) (ht.admits hE)).bind ?_
    rintro v _ ⟨rfl, hv, hplain⟩
    refine (ht.emit_ends (x := .dup) rfl trivial rfl).bind fun _ u hu ↦ ?_
    have hindex : (Value.ofInt (Int64.ofNat i)).Plain := .inl ⟨nofun, rfl⟩
    refine (hu.emitConstant_ends hindex).bind fun _ w hw ↦
      (hw.emitConstant_ends hplain).bind fun _ x hx ↦ ?_
    refine (hx.emit_ends (x := .storeItem) rfl trivial rfl).bind fun _ y hy ↦ ?_
    refine (ih hy fun o ho ↦ hos o (List.mem_cons_of_mem _ ho)).mono ?_
    rintro _ z ⟨vs, hvs, hz⟩
    exact ⟨v :: vs, by rw [List.mapM_cons, hv, hvs]; rfl, by simpa [itemsCode] using hz⟩

include ht

theorem Emits.singleDefault_ends (hf : ∀ o ∈ f.defaults, o.IsLiteral) (hne : f.defaults ≠ []) :
    Ends E (singleDefault f a >>= fun _ ↦ emit .storeField index) t
    fun _ u ↦ ∃ o v, f.defaults = [o] ∧
      constantAs? a o = some v ∧ Emits s (L ++ [.const v] ++ [.storeField index]) τ u := by
  unfold singleDefault
  split
  · rename_i o hd
    refine Ends.bind (P := fun _ u ↦ ∃ v, constantAs? a o = some v ∧
      Emits s (L ++ [.const v]) τ u) ?_ ?_
    · refine (literalAs_ends (hf o (by simp [hd])) (ht.admits hE)).bind ?_
      rintro v _ ⟨rfl, hv, hplain⟩
      exact (ht.emitConstant_ends hplain).mono fun _ u hu ↦ ⟨v, hv, hu⟩
    · rintro _ u ⟨v, hv, hu⟩
      exact (hu.emit_ends (x := .storeField index) rfl rfl rfl).mono fun _ w hw ↦ ⟨o, v, hd, hv, hw⟩
  · rename_i hd
    exact absurd hd hne
  · refine Ends.bind (P := fun _ _ ↦ False) ?_ fun _ _ h ↦ h.elim
    exact ends_refuse (ht.admits hE) (Cause.shown_of_none rfl) fun _ ↦ trivial

/-- An array default is a new array that is filled and then stored. -/
theorem Emits.arrayDefault_ends (hos : ∀ o ∈ os, o.IsLiteral) : Ends E (do
      emitConstant (.ofInt (Int64.ofNat os.length))
      emit .newArray (← typeIndex (.array elem))
      arrayItems f elem 0 os
      emit .storeField index) t fun _ u ↦
      ∃ vs, os.mapM (constantAs? elem) = some vs ∧
        Emits s (L ++ [.const (.ofInt (Int64.ofNat vs.length))] ++ [.newArray elem] ++
          itemsCode 0 vs ++ [.storeField index]) τ u := by
  have hlen : (Value.ofInt (Int64.ofNat os.length)).Plain := .inl ⟨nofun, rfl⟩
  refine (ht.emitConstant_ends hlen).bind fun _ u hu ↦ hu.typeIndex_ends.bind fun k v hv ↦ ?_
  refine (hv.1.emit_ends (x := .newArray elem) rfl hv.2 rfl).bind fun _ w hw ↦ ?_
  refine (hw.arrayItems_ends hE hos).bind ?_
  rintro _ x ⟨vs, hvs, hx⟩
  refine (hx.emit_ends (x := .storeField index) rfl rfl rfl).mono fun _ y hy ↦ ⟨vs, hvs, ?_⟩
  rwa [← (forall₂_of_mapM hvs).length_eq]

end Defaults

/-- The lines of the words of defaults, the first of which has index `i`. -/
def defaultLines : Nat → List FieldDecl → List Default → List Int
  | i, f :: fs, d :: ds => List.replicate (d.code i).length f.line ++ defaultLines (i + 1) fs ds
  | _, _, _ => []

/-- The line in effect behind the default of a field. -/
def lineAfter (line : Int) (f : FieldDecl) : Int := if f.hasValue then f.line else line

/-- From `s` to `t` only code is added, and the line may change.  The new words come from the lines
`ls`. -/
structure Prologue (s : State) (code : List Instr) (ls : List Int) (t : State) : Prop
    extends Adds s code t where
  lines : t.lines.toList = s.lines.toList ++ ls
  length : ls.length = code.length
  eq : t = { s with code := t.code, lines := t.lines, consts := t.consts, types := t.types,
                    line := t.line }

theorem Prologue.refl (hs : s.Tidy) : Prologue s [] [] s :=
  ⟨(Codes.refl hs).adds, (List.append_nil _).symm, rfl, rfl⟩

theorem Prologue.trans {ks : List Int} (h : Prologue s L ls t) (h' : Prologue t K ks u) :
    Prologue s (L ++ K) (ls ++ ks) u :=
  ⟨h.toAdds.trans h'.toAdds, by rw [h'.lines, h.lines, List.append_assoc],
    by rw [List.length_append, h.length, h'.length, List.length_append], by rw [h'.eq, h.eq]⟩

theorem Fresh.prologue (hs : Fresh s) (h : Prologue s L ls t) : Fresh t where
  tidy := h.tidy
  stack := by rw [h.eq]; exact hs.stack
  locals := by rw [h.eq]; exact hs.locals
  next := by rw [h.eq]; exact hs.next
  loops := by rw [h.eq]; exact hs.loops
  offsets := by rw [h.eq]; exact hs.offsets
  reachable := by rw [h.eq]; exact hs.reachable
  registers := by rw [h.eq]; exact hs.registers

theorem Emits.prologue {line : Int} (h : Emits { s with line := line } L s.stack t) :
    Prologue s L (List.replicate L.length line) t ∧ t.line = line :=
  ⟨⟨⟨⟨h.grows.code, h.grows.consts, h.grows.types, h.grows.offsets, h.grows.patches⟩, h.size,
    h.has, h.tidy⟩, h.lines, List.length_replicate, by rw [h.eq]⟩, h.line⟩

theorem fieldDefault_ends (hf : f.WellFormed (Admits E)) (ha : a ≠ .bareArray) (hs : s.Tidy) :
    Ends E (fieldDefault index f a) s fun _ t ↦
      ∃ d, defaultOf? f a = some d ∧
      Prologue s (d.code index) (List.replicate (d.code index).length f.line) t ∧
        t.line = lineAfter s.line f := by
  rw [lineAfter]
  cases hvalue : f.hasValue with
  | false =>
    have hzero : defaultOf? f a = some .zero := by simp [defaultOf?, hvalue]
    rw [fieldDefault, hvalue]
    exact ends_pure ⟨.zero, hzero, .refl hs, rfl⟩
  | true =>
    have hgiven : defaultOf? f a = given? a f.defaults := by simp [defaultOf?, hvalue]
    have hne := hf.value hvalue
    rw [if_pos rfl, hgiven, fieldDefault, hvalue]
    refine Ends.modify_bind ?_
    have hstart : Emits { s with line := f.line } [] s.stack { s with line := f.line } :=
      .refl ⟨hs.plain, hs.patches, hs.locals, hs.loops⟩
    refine (hstart.emit_ends (x := .this) rfl trivial rfl).bind fun _ t ht ↦ ?_
    -- A default that is a single constant.
    have hsingle (b : Ty) (hb : ∀ o, f.defaults = [o] →
      given? b f.defaults = (constantAs? b o).map .value) :
        Ends E (singleDefault f b >>= fun _ ↦ emit .storeField index) t fun _ u ↦
          ∃ d, given? b f.defaults = some d ∧
            Prologue s (d.code index) (List.replicate (d.code index).length f.line) u ∧
            u.line = f.line := by
      refine (ht.singleDefault_ends hf.line hf.literals hne).mono ?_
      rintro _ u ⟨o, v, ho, hv, hu⟩
      exact ⟨.value v, by rw [hb o ho, hv]; rfl, hu.prologue⟩
    dsimp only
    split
    · exact hsingle _ fun o ho ↦ by
        obtain rfl : o = .null := by simp_all
        rw [ho, given?_single (.inr rfl)]
    · exact absurd rfl ha
    · rename_i elem hnull
      refine (ht.arrayDefault_ends hf.line hf.literals).mono ?_
      rintro _ u ⟨vs, hvs, hu⟩
      exact ⟨.items elem vs, by rw [given?_items hnull, hvs]; rfl, hu.prologue⟩
    · exact absurd rfl ha
    · rename_i harray _ _ _
      exact hsingle _ fun o ho ↦ by rw [ho, given?_single (.inl harray)]

/-- **The defaults of all fields are stored**, in the order of the fields. -/
theorem prologue_ends {slots : Array FieldSlot} {fs : List FieldDecl}
    (hfs : ∀ f ∈ fs, f.WellFormed (Admits E)) (hslots : (slots.toList.drop i).length = fs.length)
    (hproper : ∀ f ∈ slots, f.type ≠ .bareArray) (hs : s.Tidy) :
    Ends E (prologue slots i fs) s fun _ t ↦
      ∃ ds, defaultsOf? fs ((slots.toList.drop i).map fun f ↦ f.type) = some ds ∧
        Prologue s (defaultsCode i ds) (defaultLines i fs ds) t ∧
        t.line = fs.foldl lineAfter s.line := by
  induction fs generalizing i s with
  | nil => exact ends_pure ⟨[], rfl, .refl hs, rfl⟩
  | cons f fs ih =>
    rw [List.length_drop, List.length_cons, Array.length_toList] at hslots
    have hi : i < slots.size := by omega
    have hdrop : slots.toList.drop i = slots[i] :: slots.toList.drop (i + 1) :=
      List.drop_eq_getElem_cons hi
    rw [prologue, Array.getElem?_eq_getElem hi]
    have hslot := hproper _ (Array.getElem_mem hi)
    refine (fieldDefault_ends (hfs f List.mem_cons_self) hslot hs).bind
      fun _ t ⟨d, hd, ht, hline⟩ ↦ ?_
    have hrest : (slots.toList.drop (i + 1)).length = fs.length := by
      rw [List.length_drop, Array.length_toList]
      omega
    refine (ih (fun g hg ↦ hfs g (List.mem_cons_of_mem _ hg)) hrest ht.tidy).mono
      fun _ u ⟨ds, hds, hu, hlast⟩ ↦ ⟨d :: ds, ?_, ht.trans hu, ?_⟩
    · rw [hdrop, List.map_cons, defaultsOf?, hd, hds]
      rfl
    · rw [hlast, hline, List.foldl_cons]

/-! ## The parts of a procedure -/

/-- The return at the end of a procedure. -/
def epilogueCode (returns : Ty) : List Instr :=
  if returns = .void then [.ret false] else [.const returns.zero, .ret true]

theorem epilogue_ends {returns : Ty} (hs : s.Tidy) :
    Ends E (epilogue returns) s fun _ t ↦ Codes s (epilogueCode returns) t ∧ t.offsets = s.bounds ∧
      t.nextLocal = s.nextLocal := by
  unfold epilogue
  refine Ends.modify_bind ?_
  obtain ⟨s', hs'⟩ : ∃ s' : State, s' = { s with offsets := s.offsets.push s.code.size } :=
    ⟨_, rfl⟩
  have hgrows : s.Extends s' := by
    rw [hs']
    exact ⟨List.prefix_rfl, List.prefix_rfl, List.prefix_rfl, by simp, fun _ _ ↦ Iff.rfl⟩
  have htidy : s'.Tidy := by
    refine ⟨?_, ?_, ?_, fun l hl ↦ ?_⟩
    · exact hs' ▸ hs.plain
    · exact hs' ▸ hs.patches
    · exact hs' ▸ hs.locals
    · rw [hs'] at hl
      exact getElem?_of_prefix hgrows.offsets (hs.loops l hl)
  have hcode : s'.code.size = s.code.size := by rw [hs']
  have hdone {τ : List Ty} {u : State} (hu : Emits s' (epilogueCode returns) τ u) :
      Codes s (epilogueCode returns) u ∧ u.offsets = s.bounds ∧ u.nextLocal = s.nextLocal :=
    ⟨⟨hgrows.trans hu.grows, hcode ▸ hu.size, hcode ▸ hu.has, by rw [hu.lines, hs'], hu.tidy⟩,
      by rw [hu.eq, hs']; rfl, by rw [hu.eq, hs']⟩
  rw [← hs']
  rw [epilogueCode] at hdone ⊢
  by_cases hvoid : returns = .void
  · rw [if_pos hvoid] at hdone ⊢
    rw [if_pos hvoid]
    exact ((Emits.refl htidy).emit_ends (x := .ret false) rfl rfl rfl).mono fun _ u hu ↦ hdone hu
  · rw [if_neg hvoid] at hdone ⊢
    rw [if_neg hvoid]
    refine ((Emits.refl htidy).emitConstant_ends (zero_plain returns)).bind fun _ t ht ↦ ?_
    exact (ht.emit_ends (x := .ret true) rfl rfl rfl).mono fun _ u hu ↦ hdone hu

/-- No jump leads to before a well-formed block. -/
theorem lostJump?_eq_none {b : Block} (h : b.WellFormed) : lostJump? b = none := by
  have hlabel (name : String) : (b.label? name).filter (· < 0) = none := by
    rw [Option.filter_eq_none_iff]
    intro j hj
    obtain ⟨l, hl, rfl⟩ := Option.map_eq_some_iff.1 hj
    have := (h.labels l (List.mem_of_find?_eq_some hl)).1
    simpa using this
  rw [lostJump?, List.findSome?_eq_none_iff]
  intro instr _
  unfold lostTarget?
  split
  · exact hlabel _
  · exact hlabel _
  · rfl

/-- The machine code of a procedure: the defaults `ds`, the statements of the block at the offsets
`offs`, and the return. -/
structure Translated (ctx : Context) (ds : List Default) (ps : List Point) (offs : Array Nat)
    (p : Procedure) : Prop where
  signature : p = { ctx.signature with
    code := p.code, lines := p.lines, consts := p.consts, types := p.types, locals := p.locals }
  plain : ∀ c ∈ p.consts, c.Plain
  limit : p.locals ≤ 64
  locals : p.locals = (Scope.before ctx.isClass ctx.body ctx.body.code.size).count + registerCount
  length : ps.length = ctx.body.code.size
  offsets : offs.size = ctx.body.code.size + 1
  first : offs[0]? = some (defaultsCode 0 ds).length
  start : p.Has (target offs) 0 (defaultsCode 0 ds)
  reads : ∀ k q, ps[k]? = some q → ∃ instr, ctx.body.code[k]? = some instr ∧
    (ctx.namesAt k q.facts).statement? ctx.body instr = some q.stmt
  checked : ∀ (k : Nat) (q : Point), ps[k]? = some q →
    q.stmt.Checked ctx.owner.home ctx.signature.returns
  code : ∀ (k : Nat) (q : Point), ps[k]? = some q → ∃ off, offs[k]? = some off ∧
    offs[k + 1]? = some (off + (q.stmt.code ctx.signature.returns k).length) ∧
    p.Has (target offs) off (q.stmt.code ctx.signature.returns k)
  last : ∃ off, offs[ctx.body.code.size]? = some off ∧
    p.Has (target offs) off (epilogueCode ctx.signature.returns)
  enters : ∀ k q rs, ps[k]? = some q → Enters {} ps k rs → q.facts.Below rs
  branches : ∀ (k j : Nat) (q q' : Point), ps[k]? = some q → q.stmt.branch? k = some j →
    ps[j]? = some q' → q'.facts.Below q.facts

/-- The line in effect behind the last instruction of a member. -/
def lastLine (c : ClassDecl) (m : Member) : Int :=
  lineBehind m.body (if m.isConstructor then c.fields.toList.foldl lineAfter m.line else
    m.line) m.body.code.size

/-- The line table of a procedure: every word comes from the line of its field or its instruction,
and the return at the end from the line in effect there. -/
structure Charted (c : ClassDecl) (m : Member) (ds : List Default) (ps : List Point)
    (p : Procedure) : Prop where
  lines : p.lines.toList = defaultLines 0 c.fields.toList ds ++
    statementLines m.body p.returns 0 ps ++ List.replicate (epilogueCode p.returns).length
    (lastLine c m)
  start : (defaultLines 0 c.fields.toList ds).length = (defaultsCode 0 ds).length
  size : p.code.size = p.lines.size

/-- An empty block takes no code. -/
theorem Fresh.sound_nil (h : Fresh s) (hempty : ctx.body.code = #[]) : Sound ctx s [] s where
  grows := .refl s
  first := by simp [State.bounds, h.offsets]
  tidy := h.tidy
  lined := ⟨(List.append_nil _).symm, rfl, rfl⟩
  stack := h.stack
  length := by simp [hempty]
  offsets := by simp [hempty, h.offsets]
  next := by
    rw [h.next, Scope.before, hempty]
    rfl
  placed := fun _ _ hp ↦ nomatch hp
  enters := fun _ _ _ hp ↦ nomatch hp
  branches := fun _ _ _ _ hp ↦ nomatch hp

/-- The defaults that a member stores: those of the fields, if it is a constructor. -/
def defaultsFor? (owner : ClassRef) (c : ClassDecl) (m : Member) : Option (List Default) :=
  if m.isConstructor then
    defaultsOf? c.fields.toList (owner.get.fields.toList.map fun f ↦ f.type)
  else some []

/-- A member has been generated, up to its jumps: first the defaults, then the block, and then the
return. -/
structure Generated (ctx : Context) (c : ClassDecl) (m : Member) (ds : List Default)
    (ps : List Point) (start s t : State) : Prop where
  defaults : Prologue { line := m.line } (defaultsCode 0 ds)
    (defaultLines 0 c.fields.toList ds) start
  line : start.line = if m.isConstructor then c.fields.toList.foldl lineAfter m.line else m.line
  block : Sound ctx start ps s
  last : Codes s (epilogueCode ctx.signature.returns) t
  offsets : t.offsets = s.bounds
  next : t.nextLocal = s.nextLocal

theorem memberCode_eq (ctx : Context) (c : ClassDecl) (m : Member) : memberCode ctx c m = (do
      (if m.isConstructor then prologue ctx.owner.get.fields 0 c.fields.toList else pure ())
      (if m.isAbstract then pure () else body ctx)
      epilogue ctx.signature.returns
      (if m.isAbstract then pure () else checkJumps m.body)) := by
  unfold memberCode
  cases m.isConstructor <;> cases m.isAbstract <;> rfl

/-- The defaults of a constructor are stored before anything of its block is generated. -/
theorem defaults_ends {owner : ClassRef} (hproper : owner.home.Proper)
    (hfields : ∀ f ∈ c.fields, f.WellFormed (Admits E))
    (hslots : owner.get.fields.size = c.fields.size) :
    Ends E (if m.isConstructor then prologue owner.get.fields 0 c.fields.toList else pure ())
      { line := m.line } fun _ t ↦ Fresh t ∧ ∃ ds, defaultsFor? owner c m = some ds ∧
        Prologue { line := m.line } (defaultsCode 0 ds) (defaultLines 0 c.fields.toList ds) t ∧
        t.line = if m.isConstructor then c.fields.toList.foldl lineAfter m.line else m.line := by
  have hfresh : Fresh { line := m.line } := by
    refine ⟨⟨?_, ?_, ?_, ?_⟩, rfl, rfl, rfl, rfl, rfl, rfl, rfl⟩
    · exact fun c hc ↦ absurd hc (Array.not_mem_empty c)
    · exact fun p hp ↦ absurd hp (Array.not_mem_empty p)
    · exact Nat.le_of_ble_eq_true rfl
    · exact fun l hl ↦ absurd hl List.not_mem_nil
  rw [defaultsFor?]
  cases m.isConstructor with
  | true =>
    have hbare : ∀ f ∈ owner.get.fields, f.type ≠ .bareArray := by
      intro f hf hbare
      have hty := hproper.fields _ owner.get_mem f hf
      rw [hbare] at hty
      exact hty
    refine (prologue_ends (fun f hf ↦ hfields f (Array.mem_toList_iff.1 hf))
      (by simpa using hslots) hbare hfresh.tidy).mono fun _ t ⟨ds, hds, ht, hline⟩ ↦ ?_
    exact ⟨hfresh.prologue ht, ds, hds, ht, hline⟩
  | false =>
    have hnone : defaultLines 0 c.fields.toList [] = [] := by
      cases c.fields.toList <;> rfl
    exact ends_pure ⟨hfresh, [], rfl, hnone.symm ▸ .refl hfresh.tidy, rfl⟩

theorem memberCode_ends (hproper : ctx.owner.home.Proper) (hbody : ctx.body = m.body)
    (hm : m.WellFormed (Admits E)) (hgen : BlockEnds E ctx.owner m.body)
    (hfields : ∀ f ∈ c.fields, f.WellFormed (Admits E))
    (hslots : ctx.owner.get.fields.size = c.fields.size) :
    Ends E (memberCode ctx c m) { line := m.line } fun _ t ↦ ∃ ds ps start s,
      defaultsFor? ctx.owner c m = some ds ∧ Generated ctx c m ds ps start s t := by
  rw [memberCode_eq]
  refine (defaults_ends hproper hfields hslots).bind fun _ start ⟨hfresh, ds, hds, hstart,
    hline⟩ ↦ ?_
  have hbody_ends : Ends E (if m.isAbstract then pure () else body ctx) start fun _ s ↦
      ∃ ps, Sound ctx start ps s := by
    cases habs : m.isAbstract with
    | true => exact ends_pure ⟨[], hfresh.sound_nil (hbody ▸ hm.empty habs)⟩
    | false => exact hgen ctx start rfl hbody hfresh
  refine hbody_ends.bind fun _ s ⟨ps, hs⟩ ↦ ?_
  refine (epilogue_ends hs.tidy).bind fun _ t ⟨hlast, hoff, hnext⟩ ↦ ?_
  have hgen : Generated ctx c m ds ps start s t := ⟨hstart, hline, hs, hlast, hoff, hnext⟩
  rw [checkJumps, lostJump?_eq_none hm.block, ite_self]
  exact ends_pure ⟨ds, ps, start, s, hds, hgen⟩

theorem Generated.charted {p : Procedure} (h : Generated ctx c m ds ps start s t)
    (hbody : ctx.body = m.body) (hlines : p.lines = t.lines)
    (hreturns : p.returns = ctx.signature.returns) (hsize : p.code.size = t.code.size) :
    Charted c m ds ps p := by
  have hdefaults : start.lines.toList = defaultLines 0 c.fields.toList ds := h.defaults.lines
  have hall : p.lines.toList = defaultLines 0 c.fields.toList ds ++
    statementLines m.body p.returns 0 ps ++
      List.replicate (epilogueCode p.returns).length (lastLine c m) := by
    rw [hlines, h.last.lines, h.block.lined.lines, h.block.lined.line, h.line, h.block.length,
      hdefaults, hbody, hreturns, lastLine]
  refine ⟨hall, h.defaults.length, ?_⟩
  have hstart : start.code.size = (defaultsCode 0 ds).length :=
    h.defaults.size.trans (Nat.zero_add _)
  rw [hsize, h.last.size, h.block.lined.size, hstart, ← h.defaults.length, ← p.lines.length_toList,
    hall, List.length_append, List.length_append, List.length_replicate, hbody, hreturns]

theorem Generated.translated (h : Generated ctx c m ds ps start s t) (hbody : ctx.body = m.body) :
    ∃ p, finish ctx.signature t = .ok p ∧
    Translated ctx ds ps t.offsets p ∧ Charted c m ds ps p := by
  have hoff : t.offsets.size = ctx.body.code.size + 1 := by
    rw [h.offsets, State.bounds, Array.size_push, h.block.offsets]
  obtain ⟨p, hp, heq, hsize, hmeans⟩ := finish_ok ctx.signature h.last.tidy (by omega)
  have hhas {k : Nat} {L : List Instr} (hL : t.Has k L) : p.Has (target t.offsets) k L :=
    fun i x hx ↦ hmeans _ x (hL i x hx)
  refine ⟨p, hp, ?_, h.charted hbody (by rw [heq]) (by rw [heq]) hsize⟩
  exact {
    signature := by rw [heq]
    plain := by
      rw [heq]
      exact h.last.tidy.plain
    limit := by
      rw [heq]
      exact h.last.tidy.locals
    locals := by
      rw [heq]
      exact h.next.trans h.block.next
    length := h.block.length
    offsets := hoff
    first := by
      rw [h.offsets, h.block.first, h.defaults.size]
      exact congrArg some (Nat.zero_add _)
    start := hhas (h.defaults.has.mono (h.block.grows.trans h.last.grows))
    reads := fun k q hq ↦ (h.block.placed k q hq).reads
    checked := fun k q hq ↦ (h.block.placed k q hq).checked
    code := by
      intro k q hq
      obtain ⟨off, hk, hk', hcode⟩ := (h.block.placed k q hq).code
      rw [h.offsets]
      exact ⟨off, hk, hk', h.offsets ▸ hhas (hcode.mono h.last.grows)⟩
    last := by
      refine ⟨s.code.size, ?_, hhas h.last.has⟩
      rw [h.offsets, State.bounds, ← h.block.offsets, Array.getElem?_push_size]
    enters := h.block.enters
    branches := h.block.branches }

/-- **A member is generated**, or the generator complains about it. -/
theorem procedure_ends {owner : ClassRef} {signature : Procedure} (hproper : owner.home.Proper)
    (hm : m.WellFormed (Admits E)) (hgen : BlockEnds E owner m.body)
    (hfields : ∀ f ∈ c.fields, f.WellFormed (Admits E))
    (hslots : owner.get.fields.size = c.fields.size) :
    Concludes E (procedure owner c m signature) fun p ↦
      ∃ ds ps offs, defaultsFor? owner c m = some ds ∧
        Translated ⟨owner, signature, m.body, #[]⟩ ds ps offs p ∧ Charted c m ds ps p := by
  refine Concludes.bind (memberCode_ends hproper rfl hm hgen hfields hslots)
    fun ⟨_, t⟩ ⟨ds, ps, start, s, hds, hgen⟩ ↦ ?_
  obtain ⟨p, hp, htranslated⟩ := hgen.translated rfl
  show Concludes E (finish signature t) _
  rw [hp]
  exact ⟨ds, ps, t.offsets, hds, htranslated⟩

end Codegen

end ClassAsm
