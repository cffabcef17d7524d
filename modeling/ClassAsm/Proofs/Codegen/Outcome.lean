import ClassAsm.Proofs.Codegen.Instr
import ClassAsm.Proofs.Conversion

/-!
# How a generation step ends

`Ends E g s Q` says that the step `g`, started in `s`, ends in a result and a state that satisfy
`Q`, or complains about the program, and then `E` holds of the line and the cause; `Concludes` says
so of a result alone.  So a step never stops in the middle of an instruction.  The rules follow the
structure of the step: `Ends.bind` for two steps in a row, one lemma for each primitive step.

A complaint is about the line of the state, and it says of registers only what is known about them
there.  `State.Permits E` says that `E` holds of all such complaints.

What most steps do is said by `Emits s code stack t`: the code grows by words that mean `code`, the
tables of constants and types may grow, the tracked stack becomes `stack`, and nothing else changes.
-/

namespace ClassAsm

/-- A constant of machine code: a scalar, null or a string, so that its tag, its word and its text
determine it. -/
def Value.Plain (v : Value) : Prop := (v.tag ≠ .string ∧ v.payload = .none) ∨ ∃ s, v = .ofString s

namespace Codegen

open Bytecode Program Reference

/-! ## Complaints -/

/-- The operand that a complaint shows. -/
def Cause.operand? : Cause → Option Operand
  | .literalType _ o _ _ => some o
  | .inference _ o => some o
  | .nameOperand _ o => some o
  | _ => none

/-- Every operand that a complaint shows has a text. -/
def Cause.Shown (c : Cause) : Prop := ∀ o, c.operand? = some o → ∃ text, o.text? = .ok text

/-- A complaint says of registers only what the facts `rs` say. -/
def Cause.Blames (rs : Registers) : Cause → Prop
  | .registerUnset r _ => rs.get r = .unset
  | .registerMixed r _ _ => rs.get r = .mixed
  | _ => True

/-- A result that is as `Q` says, or a complaint that is as `E` says. -/
def Concludes {α : Type} (E : Int → Cause → Prop) (r : Except Error α) (Q : α → Prop) : Prop :=
  match r with
  | .ok a => Q a
  | .error e => ∃ line c, e = .diagnostic line c ∧ E line c

/-- `g` started in `s` ends as `Q` says, or complains as `E` says. -/
def Ends {α : Type} (E : Int → Cause → Prop) (g : Gen α) (s : State) (Q : α → State → Prop) :
    Prop :=
  Concludes E (g s) fun p ↦ Q p.1 p.2

/-- `E` holds of every complaint about the line of the state that is fair to what is known there. -/
def State.Permits (E : Int → Cause → Prop) (s : State) : Prop :=
  ∀ c : Cause, c.Shown → c.Blames s.registers → E s.line c

/-- `E` holds of every complaint about the line that is about no register. -/
def Admits (E : Int → Cause → Prop) (line : Int) : Prop :=
  ∀ c : Cause, c.Shown → (∀ rs, c.Blames rs) → E line c

variable {E : Int → Cause → Prop} {α β : Type} {s t u : State} {c : Cause} {a : Ty} {p i : Nat}
  {v : Value} {b : Prop} {x : Instr} {Q : α → State → Prop} {r : Except Error α} {f : Unit → Gen α}
  {g : Gen α} {P : α → Prop} {L K : List Instr} {τ : List Ty}

theorem Concludes.mono {Q : α → Prop} (h : Concludes E r P) (hPQ : ∀ a, P a → Q a) :
    Concludes E r Q := by
  cases r with
  | ok a => exact hPQ a h
  | error e => exact h

theorem Concludes.imp {E' : Int → Cause → Prop} {Q : α → Prop} (h : Concludes E r Q)
    (hE : ∀ line c, E line c → E' line c) : Concludes E' r Q := by
  cases r with
  | ok a => exact h
  | error e =>
    obtain ⟨line, c, he, hc⟩ := h
    exact ⟨line, c, he, hE line c hc⟩

theorem Concludes.bind {f : α → Except Error β} {Q : β → Prop} (h : Concludes E r P)
    (hf : ∀ a, P a → Concludes E (f a) Q) : Concludes E (r >>= f) Q := by
  cases r with
  | ok a => exact hf a h
  | error e => exact h

theorem Concludes.of_ok {Q : α → Prop} (h : Concludes E r Q) {a : α} (hr : r = .ok a) : Q a := by
  rw [hr] at h
  exact h

theorem Concludes.and_eq (h : Concludes E r P) : Concludes E r fun a ↦ r = .ok a ∧ P a := by
  cases r with
  | ok a => exact ⟨rfl, h⟩
  | error e => exact h

theorem ends_of_eq {a : α} (hg : g s = .ok (a, t)) (h : Q a t) : Ends E g s Q := by
  rw [Ends, hg]
  exact h

theorem Ends.mono {P : α → State → Prop} (h : Ends E g s P) (hPQ : ∀ a t, P a t → Q a t) :
    Ends E g s Q :=
  Concludes.mono h fun p ↦ hPQ p.1 p.2

theorem Ends.bind {f : α → Gen β} {P : α → State → Prop} {Q : β → State → Prop} (h : Ends E g s P)
    (hf : ∀ a t, P a t → Ends E (f a) t Q) : Ends E (g >>= f) s Q :=
  Concludes.bind h fun p ↦ hf p.1 p.2

theorem ends_pure {a : α} (h : Q a s) : Ends E (pure a) s Q := h

theorem ends_modify {Q : Unit → State → Prop} {f : State → State} (h : Q () (f s)) :
    Ends E (modify f) s Q := h

theorem Ends.get_bind {f : State → Gen α} (h : Ends E (f s) s Q) : Ends E (get >>= f) s Q := h

theorem Ends.modify_bind {g : State → State} (h : Ends E (f ()) (g s) Q) :
    Ends E (modify g >>= f) s Q := h

theorem Cause.shown_of_none (hc : c.operand? = none) : c.Shown := by
  intro o ho
  rw [hc] at ho
  cases ho

theorem ends_fail (hE : s.Permits E) (hc : c.operand? = none) (hr : c.Blames s.registers) :
    Ends E (fail c) s Q :=
  ⟨s.line, c, rfl, hE c (Cause.shown_of_none hc) hr⟩

theorem ends_refuse (hE : Admits E s.line) (hc : c.Shown) (hr : ∀ rs, c.Blames rs) :
    Ends E (fail c) s Q := ⟨s.line, c, rfl, hE c hc hr⟩

theorem Ends.fail_bind {f : α → Gen β} {Q : β → State → Prop} (hE : s.Permits E) (hc : c.Shown)
    (hr : c.Blames s.registers) : Ends E (fail c >>= f) s Q :=
  Ends.bind (P := fun _ _ ↦ False) ⟨s.line, c, rfl, hE c hc hr⟩ fun _ _ h ↦ h.elim

theorem Ends.guard [Decidable b] (hfail : Ends E (fail c : Gen Unit) s fun _ _ ↦ False)
    (h : ¬b → Ends E (f ()) s Q) : Ends E (if b then fail c >>= f else f ()) s Q := by
  by_cases hb : b
  · rw [if_pos hb]
    exact hfail.bind fun _ _ h ↦ h.elim
  · rw [if_neg hb]
    exact h hb

theorem Ends.check [Decidable b] (hE : s.Permits E) (hc : c.operand? = none)
    (hr : c.Blames s.registers) (h : ¬b → Ends E (f ()) s Q) :
    Ends E (if b then fail c >>= f else f ()) s Q :=
  .guard (ends_fail hE hc hr) h

/-! ## Emission -/

/-- What every state of generation satisfies: the constants are plain, every jump to be filled in
has been emitted, the locals fit a frame, and open loops know the offset of their first
instruction. -/
structure State.Tidy (s : State) : Prop where
  plain : ∀ c ∈ s.consts, c.Plain
  patches : ∀ p ∈ s.patches, p.position < s.code.size
  locals : s.nextLocal ≤ 64
  loops : ∀ l ∈ s.loops, s.offsets[l.index]? = some l.offset

/-- From `s` to `t` the code and the tables grow, and no jump that was there is touched. -/
structure State.Extends (s t : State) : Prop where
  code : s.code.toList <+: t.code.toList
  consts : s.consts.toList <+: t.consts.toList
  types : s.types.toList <+: t.types.toList
  offsets : s.offsets.toList <+: t.offsets.toList
  patches : ∀ p : Patch, p.position < s.code.size → (p ∈ t.patches ↔ p ∈ s.patches)

namespace State.Extends

theorem refl (s : State) : s.Extends s :=
  ⟨List.prefix_rfl, List.prefix_rfl, List.prefix_rfl, List.prefix_rfl, fun _ _ ↦ Iff.rfl⟩

theorem size_le (h : s.Extends t) : s.code.size ≤ t.code.size := by
  simpa using h.code.length_le

theorem trans (h : s.Extends t) (h' : t.Extends u) : s.Extends u :=
  ⟨h.code.trans h'.code, h.consts.trans h'.consts, h.types.trans h'.types,
    h.offsets.trans h'.offsets, fun p hp ↦
    (h'.patches p (Nat.lt_of_lt_of_le hp h.size_le)).trans (h.patches p hp)⟩

end State.Extends

/-- The targets of jumps are not settled while code is generated. -/
def anywhere (_ _ : Nat) : Prop := True

/-- The word at position `p` means `x`: a jump is to be filled in with its target, or it goes back
to an instruction whose offset it already has. -/
def State.Means (s : State) (p : Nat) (x : Instr) : Prop :=
  ∃ a, s.code[p]? = some (x.op.word a) ∧ x.Refers s.consts s.types anywhere a ∧
    ((∀ j, ⟨p, j⟩ ∈ s.patches ↔ x.target? = some j) ∨
      ((∀ j, ⟨p, j⟩ ∉ s.patches) ∧ ∃ j, x.target? = some j ∧ s.offsets[j]? = some a))

/-- The words from position `p` on mean the given instructions. -/
def State.Has (s : State) (p : Nat) (code : List Instr) : Prop :=
  ∀ k x, code[k]? = some x → s.Means (p + k) x

theorem State.Means.mono (h : s.Means p x) (hst : s.Extends t) : t.Means p x := by
  obtain ⟨a, hw, hx, hj⟩ := h
  have hp : p < s.code.size := (Array.getElem?_eq_some_iff.1 hw).1
  have hpatch (j : Nat) : (⟨p, j⟩ : Patch) ∈ t.patches ↔ ⟨p, j⟩ ∈ s.patches := hst.patches ⟨p, j⟩ hp
  refine ⟨a, getElem?_of_prefix hst.code hw, hx.mono hst.consts hst.types, ?_⟩
  rcases hj with hj | ⟨hj, j, hx, ho⟩
  · exact .inl fun j ↦ (hpatch j).trans (hj j)
  · exact .inr ⟨fun j ↦ (hpatch j).not.2 (hj j), j, hx, getElem?_of_prefix hst.offsets ho⟩

theorem State.Has.mono (h : s.Has p L) (hst : s.Extends t) : t.Has p L :=
  fun k x hx ↦ (h k x hx).mono hst

theorem State.has_nil (s : State) (p : Nat) : s.Has p [] := by
  intro k x hx
  cases hx

theorem State.Has.append (hL : s.Has p L) (hK : s.Has (p + L.length) K) : s.Has p (L ++ K) := by
  intro k x hx
  rw [List.getElem?_append] at hx
  split at hx
  · exact hL k x hx
  · rename_i hk
    have := hK _ x hx
    rwa [show p + L.length + (k - L.length) = p + k by omega] at this

/-- From `s` to `t` the code grows by words that mean `code`. -/
structure Codes (s : State) (code : List Instr) (t : State) : Prop where
  grows : s.Extends t
  size : t.code.size = s.code.size + code.length
  has : t.Has s.code.size code
  lines : t.lines.toList = s.lines.toList ++ List.replicate code.length s.line
  tidy : t.Tidy

namespace Codes

theorem refl (hs : s.Tidy) : Codes s [] s := ⟨.refl s, rfl, State.has_nil _ _, by simp, hs⟩

theorem trans (h : Codes s L t) (hl : t.line = s.line) (h' : Codes t K u) : Codes s (L ++ K) u where
  grows := h.grows.trans h'.grows
  size := by rw [h'.size, h.size, List.length_append, Nat.add_assoc]
  has := (h.has.mono h'.grows).append (h.size ▸ h'.has)
  lines := by
    rw [h'.lines, h.lines, hl, List.append_assoc, List.length_append,
      List.replicate_append_replicate]
  tidy := h'.tidy

end Codes

/-- From `s` to `t` the code grows by words that mean `code`, the tracked stack becomes `stack`, and
nothing else changes. -/
structure Emits (s : State) (code : List Instr) (stack : List Ty) (t : State) : Prop
    extends Codes s code t where
  eq : t = { s with code := t.code, lines := t.lines, consts := t.consts, types := t.types,
                    stack := stack }

namespace Emits

variable {υ : List Ty}

section

variable (h : Emits s L τ t)

include h

theorem line : t.line = s.line := by rw [h.eq]
theorem stack : t.stack = τ := by rw [h.eq]
theorem locals : t.locals = s.locals := by rw [h.eq]
theorem nextLocal : t.nextLocal = s.nextLocal := by rw [h.eq]
theorem registers : t.registers = s.registers := by rw [h.eq]
theorem loops : t.loops = s.loops := by rw [h.eq]

theorem admits (hE : Admits E s.line) : Admits E t.line := h.line ▸ hE

theorem permits (hE : s.Permits E) : t.Permits E := by
  rw [State.Permits, h.line, h.registers]
  exact hE

end

/-- Only the tracked stack changes. -/
theorem of_stack (hs : s.Tidy) (τ : List Ty) : Emits s [] τ { s with stack := τ } :=
  ⟨⟨⟨List.prefix_rfl, List.prefix_rfl, List.prefix_rfl, List.prefix_rfl, fun _ _ ↦ Iff.rfl⟩, rfl,
    State.has_nil _ _, by simp, ⟨hs.plain, hs.patches, hs.locals, hs.loops⟩⟩, rfl⟩

theorem refl (hs : s.Tidy) : Emits s [] s.stack s := of_stack hs s.stack

theorem trans (h : Emits s L τ t) (h' : Emits t K υ u) : Emits s (L ++ K) υ u :=
  ⟨h.toCodes.trans h.line h'.toCodes, by rw [h'.eq, h.eq]⟩

theorem trans_nil (h : Emits s L τ t) (h' : Emits t [] υ u) : Emits s L υ u := by
  simpa using h.trans h'

end Emits

/-! ## The primitive steps

What a step does is said behind the code `L` that has been emitted since the state `s`. -/

/-- One word is emitted that is no jump, and its argument refers to what the instruction says. -/
theorem Emits.emit_ends {op : Op} {arg : Nat} (ht : Emits s L τ t) (hop : x.op = op)
    (hx : x.Refers t.consts t.types anywhere arg) (hj : x.target? = none) :
    Ends E (emit op arg) t fun _ u ↦ Emits s (L ++ [x]) τ u := by
  obtain rfl := ht.stack
  have hs := ht.tidy
  have hfresh (j : Nat) : (⟨t.code.size, j⟩ : Patch) ∉ t.patches :=
    fun hp ↦ Nat.lt_irrefl _ (hs.patches _ hp)
  refine ends_of_eq rfl (ht.trans ⟨⟨⟨?_, List.prefix_rfl, List.prefix_rfl, List.prefix_rfl,
    fun _ _ ↦ Iff.rfl⟩, by simp, ?_, by simp, ⟨hs.plain, fun p hp ↦ ?_, hs.locals, hs.loops⟩⟩, rfl⟩)
  · simp
  · intro k y hy
    obtain ⟨rfl, rfl⟩ : k = 0 ∧ x = y := by
      cases k with
      | zero => exact ⟨rfl, Option.some.inj hy⟩
      | succ k => cases hy
    exact ⟨arg, by simp [hop], hx, .inl fun j ↦ by simp [hj, hfresh j]⟩
  · simpa using Nat.lt_succ_of_lt (hs.patches p hp)

theorem Emits.push_ends (ht : Emits s L τ t) :
    Ends E (push a) t fun _ u ↦ Emits s L (a :: τ) u := by
  obtain rfl := ht.stack
  exact ends_of_eq rfl (ht.trans_nil (.of_stack ht.tidy _))

theorem Emits.pop_ends {n : Nat} (ht : Emits s L τ t) (hn : n ≤ τ.length) :
    Ends E (pop n) t fun _ u ↦ Emits s L (τ.drop n) u := by
  obtain rfl := ht.stack
  refine ends_of_eq (a := ()) ?_ (ht.trans_nil (.of_stack ht.tidy _))
  rw [pop, if_pos hn]

theorem Emits.peek_bind {f : Ty → Gen α} (ht : Emits s L τ t) (ha : τ[i]? = some a)
    (h : Ends E (f a) t Q) : Ends E (peek i >>= f) t Q := by
  have hpeek : peek i t = .ok (a, t) := by simp [peek, ht.stack, ha]
  refine (ends_of_eq (Q := fun b u ↦ b = a ∧ u = t) hpeek ⟨rfl, rfl⟩).bind ?_
  rintro _ _ ⟨rfl, rfl⟩
  exact h

theorem Emits.retype_ends (ht : Emits s L τ t) (hi : i < τ.length) :
    Ends E (retype i a) t fun _ u ↦ Emits s L (τ.set i a) u := by
  obtain rfl := ht.stack
  refine ends_of_eq (a := ()) ?_ (ht.trans_nil (.of_stack ht.tidy _))
  rw [retype, if_pos hi]

/-! ### Tables -/

/-- Plain constants that can share a place are the same. -/
theorem eq_of_sharesConstant {w : Value} (hv : v.Plain) (hw : w.Plain)
    (h : sharesConstant v w = true) : w = v := by
  simp only [sharesConstant, Bool.and_eq_true, decide_eq_true_eq, Bool.or_eq_true] at h
  obtain ⟨⟨htag, hword⟩, hstr⟩ := h
  rcases hv with ⟨hvt, hvp⟩ | ⟨a, rfl⟩
  · rcases hw with ⟨-, hwp⟩ | ⟨b, rfl⟩
    · obtain ⟨tag, word, payload⟩ := v
      obtain ⟨tag', word', payload'⟩ := w
      simp_all
    · exact absurd htag hvt
  · rcases hw with ⟨hwt, -⟩ | ⟨b, rfl⟩
    · exact absurd htag.symm hwt
    · have hab : a = b := by
        rcases hstr with hne | he
        · exact absurd rfl hne
        · exact he
      rw [hab]

theorem Emits.constant_ends (ht : Emits s L τ t) (hv : v.Plain) :
    Ends E (constant v) t fun i u ↦ Emits s L τ u ∧ u.consts[i]? = some v := by
  obtain rfl := ht.stack
  have hs := ht.tidy
  cases hj : t.consts.findIdx? (sharesConstant v) with
  | some j =>
    obtain ⟨hlt, hshare, -⟩ := Array.findIdx?_eq_some_iff_getElem.1 hj
    refine ends_of_eq (by rw [constant, hj]) ⟨ht, ?_⟩
    rw [Array.getElem?_eq_getElem hlt,
      eq_of_sharesConstant hv (hs.plain _ (Array.getElem_mem hlt)) hshare]
  | none =>
    have hnew : constant v t = .ok (t.consts.size, { t with consts := t.consts.push v }) := by
      rw [constant, hj]
    refine ends_of_eq hnew ⟨ht.trans_nil ⟨⟨⟨List.prefix_rfl, by simp, List.prefix_rfl,
      List.prefix_rfl, fun _ _ ↦ Iff.rfl⟩, rfl, State.has_nil _ _, by simp,
      ⟨fun c hc ↦ ?_, hs.patches, hs.locals, hs.loops⟩⟩, rfl⟩, by simp⟩
    rcases Array.mem_push.1 hc with hc | rfl
    · exact hs.plain c hc
    · exact hv

theorem Emits.typeIndex_ends (ht : Emits s L τ t) :
    Ends E (typeIndex a) t fun i u ↦ Emits s L τ u ∧ u.types[i]? = some a := by
  obtain rfl := ht.stack
  have hs := ht.tidy
  cases hj : t.types.findIdx? (· = a) with
  | some j =>
    obtain ⟨hlt, heq, -⟩ := Array.findIdx?_eq_some_iff_getElem.1 hj
    refine ends_of_eq (by rw [typeIndex, hj]) ⟨ht, ?_⟩
    rw [Array.getElem?_eq_getElem hlt, of_decide_eq_true heq]
  | none =>
    have hnew : typeIndex a t = .ok (t.types.size, { t with types := t.types.push a }) := by
      rw [typeIndex, hj]
    exact ends_of_eq hnew ⟨ht.trans_nil ⟨⟨⟨List.prefix_rfl, List.prefix_rfl, by simp,
      List.prefix_rfl, fun _ _ ↦ Iff.rfl⟩, rfl, State.has_nil _ _, by simp,
      ⟨hs.plain, hs.patches, hs.locals, hs.loops⟩⟩, rfl⟩, by simp⟩

theorem Emits.emitConstant_ends (ht : Emits s L τ t) (hv : v.Plain) :
    Ends E (emitConstant v) t fun _ u ↦ Emits s (L ++ [.const v]) τ u :=
  (ht.constant_ends hv).bind fun _ _ hu ↦ hu.1.emit_ends rfl hu.2 rfl

/-- The top of the stack is converted, unless it suits the type as it is. -/
theorem Emits.convertTop_ends {b : Ty} (ht : Emits s L (a :: τ) t) :
    Ends E (convertTop b) t fun _ u ↦ Emits s (L ++ conversion a b) (converted a b :: τ) u := by
  refine ht.peek_bind rfl ?_
  show Ends E (if suits a b = true then _ else _) t _
  rw [conversion, converted]
  by_cases h : suits a b = true
  · rw [if_pos h, if_pos h, if_pos h, List.append_nil]
    exact ends_pure ht
  · rw [if_neg h, if_neg h, if_neg h]
    refine ht.typeIndex_ends.bind fun i u hu ↦ ?_
    refine (hu.1.emit_ends (x := .convert b) rfl hu.2 rfl).bind fun _ v hv ↦ ?_
    exact hv.retype_ends (Nat.succ_pos _)

end Codegen

end ClassAsm
