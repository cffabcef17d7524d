import ClassAsm.Proofs.Codegen.Stands

/-!
# The line table of a procedure

`Image.Line` says which line of the source the word at an offset comes from: that of the field whose
default it stores, that of the instruction whose code it is part of, or, for the return at the end,
the line that is in effect there.  `Image.line_lineAt` is that the line table has this line for
every word.
-/

namespace ClassAsm.Codegen

open Bytecode Program Reference

variable {i k off ip : Nat} {q : Point} {x : Instr}

/-! ## Tables -/

variable {n : Nat}

/-- The word of a default comes from the line of its field. -/
theorem exists_field_of_lt {fs : List FieldDecl} {ds : List Default}
    (hn : n < (defaultLines i fs ds).length) : ∃ (j : Nat) (f : FieldDecl), fs[j]? = some f ∧
      (defaultsCode i (ds.take j)).length ≤ n ∧ n < (defaultsCode i (ds.take (j + 1))).length ∧
      (defaultLines i fs ds)[n]? = some f.line := by
  induction ds generalizing i n fs with
  | nil => cases fs <;> exact (Nat.not_lt_zero n hn).elim
  | cons d ds ih =>
    cases fs with
    | nil => exact (Nat.not_lt_zero n hn).elim
    | cons f fs =>
      rw [defaultLines] at hn ⊢
      by_cases hlt : n < (d.code i).length
      · refine ⟨0, f, rfl, Nat.zero_le n, ?_, ?_⟩
        · simpa [defaultsCode] using hlt
        · rw [List.getElem?_append_left (by simpa using hlt), List.getElem?_replicate, if_pos hlt]
      · rw [List.length_append, List.length_replicate] at hn
        have hrest : n - (d.code i).length < (defaultLines (i + 1) fs ds).length := by omega
        obtain ⟨j, g, hg, hle, hlt', hline⟩ := ih hrest
        refine ⟨j + 1, g, hg, ?_, ?_, ?_⟩
        · rw [List.take_succ_cons, defaultsCode, List.length_append]
          omega
        · rw [List.take_succ_cons, defaultsCode, List.length_append]
          omega
        · rw [List.getElem?_append_right (by simp; omega), List.length_replicate]
          exact hline

section Statements

variable {b : Program.Block} {returns : Ty} {offs : Array Nat} {ps : List Point} {k₀ off₀ : Nat}
  {p : Point}

/-- The code of the statements stands at the offsets, the first of which is that with index `k₀`. -/
def Spaced (returns : Ty) (offs : Array Nat) (k₀ : Nat) (ps : List Point) : Prop :=
  ∀ (k : Nat) (q : Point), ps[k]? = some q → ∃ off, offs[k₀ + k]? = some off ∧
    offs[k₀ + k + 1]? = some (off + (q.stmt.code returns (k₀ + k)).length)

theorem Spaced.tail (h : Spaced returns offs k₀ (p :: ps)) : Spaced returns offs (k₀ + 1) ps := by
  intro k q hq
  rw [Nat.add_right_comm]
  exact h (k + 1) q hq

theorem Spaced.head (h : Spaced returns offs k₀ (p :: ps)) (h₀ : offs[k₀]? = some off₀) :
    offs[k₀ + 1]? = some (off₀ + (p.stmt.code returns k₀).length) := by
  obtain ⟨off, hoff, hnext⟩ := h 0 p rfl
  cases h₀.symm.trans hoff
  exact hnext

section

variable (h : Spaced returns offs k₀ ps) (h₀ : offs[k₀]? = some off₀)

include h h₀

theorem Spaced.end :
    offs[k₀ + ps.length]? = some (off₀ + (statementLines b returns k₀ ps).length) := by
  induction ps generalizing k₀ off₀ with
  | nil => exact h₀
  | cons p ps ih =>
    have hrest := ih h.tail (h.head h₀)
    rw [statementLines, List.length_append, List.length_replicate, ← Nat.add_assoc, ← hrest,
      List.length_cons, Nat.add_right_comm, Nat.add_assoc]

theorem Spaced.line (hq : ps[k]? = some q) (hoff : offs[k₀ + k]? = some off)
    (hi : i < (q.stmt.code returns (k₀ + k)).length) :
    off₀ ≤ off ∧ (statementLines b returns k₀ ps)[off - off₀ + i]? = some (lineOf b (k₀ + k)) := by
  induction ps generalizing k₀ off₀ k with
  | nil => cases hq
  | cons p ps ih =>
    rw [statementLines]
    cases k with
    | zero =>
      obtain rfl := Option.some.inj hq
      cases h₀.symm.trans hoff
      have hi : i < (p.stmt.code returns k₀).length := hi
      rw [Nat.sub_self, Nat.zero_add, List.getElem?_append_left (by simpa using hi),
        List.getElem?_replicate, if_pos hi]
      exact ⟨Nat.le_refl _, rfl⟩
    | succ k =>
      have hk : k₀ + (k + 1) = k₀ + 1 + k := by omega
      rw [hk] at hoff hi ⊢
      obtain ⟨hle, hline⟩ := ih h.tail (h.head h₀) hq hoff hi
      refine ⟨by omega, ?_⟩
      rw [List.getElem?_append_right (by simp; omega), List.length_replicate, ← hline]
      congr 1
      omega

/-- Every offset before the end is in the code of a statement. -/
theorem Spaced.exists_statement (hle : off₀ ≤ n)
    (hlt : n < off₀ + (statementLines b returns k₀ ps).length) : ∃ (k : Nat) (q : Point)
    (off i : Nat), ps[k]? = some q ∧ offs[k₀ + k]? = some off ∧ n = off + i ∧
      i < (q.stmt.code returns (k₀ + k)).length := by
  induction ps generalizing k₀ off₀ with
  | nil => exact (Nat.not_lt_of_le hle hlt).elim
  | cons p ps ih =>
    by_cases hin : n < off₀ + (p.stmt.code returns k₀).length
    · exact ⟨0, p, off₀, n - off₀, rfl, h₀, by omega, by simp only [Nat.add_zero]; omega⟩
    · rw [statementLines, List.length_append, List.length_replicate] at hlt
      obtain ⟨k, q, off, i, hq, hoff, hn, hi⟩ := ih h.tail (h.head h₀) (by omega) (by omega)
      have hk : k₀ + (k + 1) = k₀ + 1 + k := by omega
      exact ⟨k + 1, q, off, i, hq, hk ▸ hoff, hn, hk ▸ hi⟩

end

end Statements

/-! ## Entering a procedure -/

/-- A word that is read as an entry into another procedure is not read as anything else. -/
theorem eq_of_reads {code : Procedure} {dest : Nat → Nat → Prop} {y : Instr} (hx : Enterer x)
    (h : code.Reads dest ip x) (h' : code.Reads dest ip y) : y = x := by
  obtain ⟨w, hw, hop, harg⟩ := h
  obtain ⟨w', hw', hop', harg'⟩ := h'
  cases hw.symm.trans hw'
  have hsame : x.op = y.op := by
    have hbyte := congrArg Op.ofByte? (hop.symm.trans hop')
    rwa [Op.ofByte?_byte, Op.ofByte?_byte, Option.some.injEq] at hbyte
  cases x with
  | call k =>
    cases y with
    | call j => exact congrArg Instr.call (harg'.symm.trans harg)
    | test t => cases t <;> cases hsame
    | _ => cases hsame
  | new k =>
    cases y with
    | new j => exact congrArg Instr.new (harg'.symm.trans harg)
    | test t => cases t <;> cases hsame
    | _ => cases hsame
  | _ => exact hx.elim

/-- What leaves a value on the stack is not the end of code that leaves none. -/
theorem Typed.succ_lt {σ : Setting} {s t : Shape} {code : List Instr} (h : Typed σ s code t)
    (hnil : t.stack = []) (hx : code[i]? = some x) (hleaves : ∀ s t, Types σ s x t → t.stack ≠ []) :
    i + 1 < code.length := by
  induction h generalizing i with
  | nil => cases hx
  | cons hy hys ih =>
    rw [List.length_cons]
    cases i with
    | succ i => exact Nat.succ_lt_succ (ih hnil hx)
    | zero =>
      cases hx
      refine Nat.succ_lt_succ (Nat.pos_of_ne_zero fun hzero ↦ hleaves _ _ hy ?_)
      obtain rfl := List.eq_nil_of_length_eq_zero hzero
      rw [hys.eq_of_nil]
      exact hnil

/-! ## Lines -/

variable {p : Program} {m : CompiledModule}

namespace Image

/-- The word at the offset `ip` comes from a line of the source. -/
inductive Line (im : Image p m) (ip : Nat) : Int → Prop where
  /-- It helps to store the default of a field. -/
  | fieldDefault {j : Nat} {f : FieldDecl} : im.decl.fields[j]? = some f →
      (defaultsCode 0 (im.defaults.take j)).length ≤ ip →
      ip < (defaultsCode 0 (im.defaults.take (j + 1))).length → Line im ip f.line
  /-- It is part of the code of an instruction. -/
  | instruction {k off next : Nat} {instr : Instruction} : im.member.body.code[k]? = some instr →
      im.offsets[k]? = some off → im.offsets[k + 1]? = some next → off ≤ ip → ip < next →
      Line im ip instr.line
  /-- It is part of the return at the end. -/
  | epilogue {off : Nat} : im.offsets[im.member.body.code.size]? = some off → off ≤ ip →
      ip < im.code.code.size → Line im ip (lastLine im.decl im.member)

/-- The word at the offset `ip` calls a method without result. -/
def CallsVoid (im : Image p m) (ip : Nat) : Prop :=
  ∃ k callee, im.code.Reads (target im.offsets) ip (.call k) ∧
    im.owner.get.methods[k]? = some callee ∧ callee.returns = .void

variable (im : Image p m)

theorem spaced : Spaced im.code.returns im.offsets 0 im.points := by
  intro k q hq
  obtain ⟨off, hoff, hnext, -⟩ := im.translated.code k q hq
  rw [Nat.zero_add]
  exact ⟨off, hoff, hnext⟩

/-- The line table, read at an offset in its last two parts. -/
theorem lineAt_eq {line : Int}
    (h : (statementLines im.member.body im.code.returns 0 im.points ++ List.replicate
      (epilogueCode im.code.returns).length (lastLine im.decl im.member))[i]? = some line) :
    im.code.lineAt ((defaultsCode 0 im.defaults).length + i) = line := by
  rw [Procedure.lineAt, ← Array.getElem?_toList, im.charted.lines, List.append_assoc,
    ← im.charted.start, List.getElem?_append_right (Nat.le_add_right _ _), Nat.add_sub_cancel_left,
    h, Option.getD_some]

/-- **All words of an instruction have its line in the line table.** -/
theorem lineAt_statement (hq : im.points[k]? = some q) (hoff : im.offsets[k]? = some off)
    (hi : i < (q.stmt.code im.code.returns k).length) :
    im.code.lineAt (off + i) = lineOf im.member.body k := by
  rw [← Nat.zero_add k] at hoff hi
  obtain ⟨hle, hline⟩ := im.spaced.line (b := im.member.body) im.translated.first hq hoff hi
  have hlt := (List.getElem?_eq_some_iff.1 hline).1
  rw [Nat.zero_add] at hline
  have hat : off + i = (defaultsCode 0 im.defaults).length +
    (off - (defaultsCode 0 im.defaults).length + i) := by
    omega
  rw [hat]
  refine im.lineAt_eq ?_
  rw [List.getElem?_append_left hlt, hline]

theorem word_cases (h : ip < im.code.code.size) : ip < (defaultsCode 0 im.defaults).length ∨
      (∃ (k : Nat) (q : Point) (off i : Nat), im.points[k]? = some q ∧ im.offsets[k]? = some off ∧
        ip = off + i ∧ i < (q.stmt.code im.code.returns k).length) ∨
      ∃ off i, im.offsets[im.member.body.code.size]? = some off ∧ ip = off + i ∧
        i < (epilogueCode im.code.returns).length := by
  rcases Nat.lt_or_ge ip (defaultsCode 0 im.defaults).length with hstart | hstart
  · exact .inl hstart
  have hend := im.spaced.end (b := im.member.body) im.translated.first
  rw [Nat.zero_add, im.translated.length] at hend
  rcases Nat.lt_or_ge ip ((defaultsCode 0 im.defaults).length +
    (statementLines im.member.body im.code.returns 0 im.points).length) with hmid | hlast
  · obtain ⟨k, q, off, i, hq, hoff, hip, hi⟩ :=
      im.spaced.exists_statement im.translated.first hstart hmid
    rw [Nat.zero_add] at hoff hi
    exact .inr (.inl ⟨k, q, off, i, hq, hoff, hip, hi⟩)
  · refine .inr (.inr ⟨_, ip - _, hend, (Nat.add_sub_cancel' hlast).symm, ?_⟩)
    rw [im.charted.size, ← Array.length_toList, im.charted.lines, List.length_append,
      List.length_append, List.length_replicate, im.charted.start] at h
    omega

/-- **The line table is right.** -/
theorem line_lineAt (h : ip < im.code.code.size) : im.Line ip (im.code.lineAt ip) := by
  rcases im.word_cases h with hstart | ⟨k, q, off, i, hq, hoff, rfl, hi⟩ | ⟨off, i, hoff, rfl, hi⟩
  · have hlt : ip < (defaultLines 0 im.decl.fields.toList im.defaults).length :=
      im.charted.start ▸ hstart
    obtain ⟨j, f, hf, hle, hlt', hline⟩ := exists_field_of_lt hlt
    have hlineAt : im.code.lineAt ip = f.line := by
      rw [Procedure.lineAt, ← Array.getElem?_toList, im.charted.lines, List.append_assoc,
        List.getElem?_append_left hlt, hline, Option.getD_some]
    rw [hlineAt]
    exact .fieldDefault (Array.getElem?_toList ▸ hf) hle hlt'
  · obtain ⟨instr, hinstr, -⟩ := im.translated.reads k q hq
    obtain ⟨off', hoff', hnext, -⟩ := im.translated.code k q hq
    cases hoff.symm.trans hoff'
    have hline : lineOf im.member.body k = instr.line := by
      rw [lineOf, show im.member.body.code[k]? = some instr from hinstr]
      rfl
    rw [im.lineAt_statement hq hoff hi, hline]
    exact .instruction hinstr hoff hnext (Nat.le_add_right _ _) (Nat.add_lt_add_left hi _)
  · have hend := im.spaced.end (b := im.member.body) im.translated.first
    rw [Nat.zero_add, im.translated.length, hoff] at hend
    have hlineAt : im.code.lineAt (off + i) = lastLine im.decl im.member := by
      rw [Option.some.inj hend, Nat.add_assoc]
      refine im.lineAt_eq ?_
      rw [List.getElem?_append_right (Nat.le_add_right _ _), Nat.add_sub_cancel_left,
        List.getElem?_replicate, if_pos hi]
    rw [hlineAt]
    exact .epilogue hoff (Nat.le_add_right _ _) h

section

variable (hl : Loaded p m) (hx : Enterer x) (hreads : im.code.Reads (target im.offsets) ip x)

include hl hx hreads

theorem exists_statement_of_reads : ∃ (k : Nat) (q : Point) (off i : Nat),
      im.points[k]? = some q ∧ im.offsets[k]? = some off ∧ ip = off + i ∧
      (q.stmt.code im.code.returns k)[i]? = some x := by
  obtain ⟨w, hw, -⟩ := id hreads
  rcases im.word_cases (Array.getElem?_eq_some_iff.1 hw).1 with
    hstart | ⟨k, q, off, i, hq, hoff, rfl, hi⟩ | ⟨off, i, hoff, rfl, hi⟩
  · have hy := (im.prologue_segment hl).reads ip _ (List.getElem?_eq_getElem hstart)
    rw [Nat.zero_add] at hy
    have hmild := mild_defaultsCode 0 im.defaults _ (List.getElem_mem hstart)
    rw [eq_of_reads hx hreads hy] at hmild
    cases x with
    | call | new => exact hmild.elim
    | _ => exact hx.elim
  · have hy := (im.statement_segment hl hq hoff).2.reads i _ (List.getElem?_eq_getElem hi)
    refine ⟨k, q, off, i, hq, hoff, rfl, ?_⟩
    rw [List.getElem?_eq_getElem hi, eq_of_reads hx hreads hy]
  · have hy := (im.epilogue_segment hl {} hoff).reads i _ (List.getElem?_eq_getElem hi)
    have hmem := List.getElem_mem hi
    rw [eq_of_reads hx hreads hy, epilogueCode] at hmem
    have hno : ¬Enterer x := by
      split at hmem <;> simp at hmem
      · rw [hmem]
        exact id
      · rcases hmem with hmem | hmem <;> rw [hmem] <;> exact id
    exact (hno hx).elim

/-- Behind a word that leaves a value to the rest of its statement the line is the same. -/
theorem lineAt_succ (hleaves : ∀ s t, Types im.setting s x t → t.stack ≠ []) :
    im.code.lineAt (ip + 1) = im.code.lineAt ip := by
  obtain ⟨k, q, off, i, hq, hoff, rfl, hi⟩ := im.exists_statement_of_reads hl hx hreads
  have hlt := (im.statement_segment hl hq hoff).2.typed.succ_lt rfl hi hleaves
  rw [im.lineAt_statement hq hoff (Nat.lt_of_succ_lt hlt), Nat.add_assoc,
    im.lineAt_statement hq hoff hlt]

/-- The word behind an entry into another procedure is inside the code. -/
theorem succ_lt_size : ip + 1 < im.code.code.size := by
  obtain ⟨k, q, off, i, hq, hoff, rfl, hi⟩ := im.exists_statement_of_reads hl hx hreads
  obtain ⟨off', hoff', hnext, -⟩ := im.translated.code k q hq
  cases hoff.symm.trans hoff'
  have hlast := im.offset_lt hnext
  have hlength := (List.getElem?_eq_some_iff.1 hi).1
  dsimp only at hlast
  omega

end

end Image

end ClassAsm.Codegen
