import ClassAsm.Compile
import ClassAsm.Proofs.Codegen.Module
import ClassAsm.Proofs.Program.Parsed

/-!
# Every source text compiles or has a located error

Scanning numbers the lines of a source text, parsing keeps those numbers (`parse_parses`), and the
generator complains about lines of the program only (`generate_located`).  So `compile` ends with
the code of the parsed program, or with a diagnostic on a line of the text: no stage gives up in the
middle.
-/

namespace ClassAsm

open Program

/-- The number of lines of a source text. -/
def lineCount (src : String) : Nat := src.toList.count '\n' + 1

/-- A line of a source text, counted from one. -/
def IsLine (src : String) (line : Int) : Prop := 1 ≤ line ∧ line ≤ lineCount src

namespace Token

theorem length_splitOn (sep : Char) (text : List Char) :
    (text.splitOn sep).length = text.count sep + 1 := by
  induction text with
  | nil => rfl
  | cons c rest ih =>
    rw [List.splitOn_cons_eq_if_modifyHead, List.count_cons]
    split
    · rw [List.length_cons, ih]
    · rw [List.length_modifyHead, ih, Nat.add_zero]

theorem number_of_mem_numbered {n : Nat} {raws : List (List Char)} {l : SourceLine}
    (h : l ∈ numbered n raws) : n ≤ l.number ∧ l.number < n + raws.length := by
  induction raws generalizing n with
  | nil => cases h
  | cons raw rest ih =>
    have hrest (h : l ∈ numbered (n + 1) rest) : n ≤ l.number ∧
      l.number < n + (raw :: rest).length := by
      have := ih h
      rw [List.length_cons]
      omega
    rw [numbered] at h
    split at h
    · exact hrest h
    · rcases List.mem_cons.1 h with rfl | h
      · exact ⟨Nat.le_refl n, Nat.lt_add_of_pos_right (Nat.succ_pos _)⟩
      · exact hrest h

theorem isLine_of_mem_scan {src : String} {row : List Token} (hrow : row ∈ scan src) {t : Token}
    (ht : t ∈ row) : IsLine src t.line := by
  obtain ⟨l, hl, rfl⟩ := List.mem_map.1 hrow
  obtain ⟨u, -, rfl⟩ := List.mem_map.1 ht
  obtain ⟨hle, hlt⟩ := number_of_mem_numbered hl
  rw [length_splitOn] at hlt
  rw [IsLine, lineCount]
  dsimp only
  omega

end Token

/-- The complaints that the generator can make are of three kinds. -/
theorem Codegen.Cause.kind_cases (c : Codegen.Cause) :
    c.kind = .structural ∨ c.kind = .resolution ∨ c.kind = .typing := by
  cases c <;> first | exact .inl rfl | exact .inr (.inl rfl) | exact .inr (.inr rfl)

/-- Parsing a source text yields a well-formed program, or an error on a line of the text. -/
theorem parseSource_parses (src : String) :
    Parses (IsLine src) (parseSource src) (WellFormed (IsLine src)) :=
  Program.parse_parses fun _ hrow _ ht ↦ Token.isLine_of_mem_scan hrow ht

theorem eq_of_toOption {ε α : Type} {r : Except ε α} {a : α} (h : r.toOption = some a) :
    r = .ok a := by
  cases r with
  | ok b => exact congrArg _ (Option.some.inj h)
  | error e => cases h

theorem compile_eq_ok_iff {src : String} {m : Bytecode.CompiledModule} :
    compile src = .ok m ↔ ∃ p, parseSource src = .ok p ∧ Codegen.generate p = .ok m := by
  rw [compile]
  cases parseSource src with
  | error e => exact iff_of_false nofun fun ⟨p, hp, _⟩ ↦ nomatch hp
  | ok p =>
    dsimp only
    constructor
    · intro h
      cases hg : Codegen.generate p with
      | error e =>
        rw [hg] at h
        cases h
      | ok m' =>
        rw [hg] at h
        cases h
        exact ⟨p, rfl, hg⟩
    · rintro ⟨p', hp, hg⟩
      cases hp
      rw [hg]

/-- **Every source text compiles or has a located error.**  Either it has a module, which is the
code of the program that the text parses to; or it has none, and the error carries a diagnostic
about the structure, the names or the types of the program, on a line of the text.  Every operand
that such a diagnostic shows has a text. -/
theorem compile_module_or_located_error (src : String) :
    (∃ p m, parseSource src = .ok p ∧ compile src = .ok m ∧ Codegen.Compiled p m) ∨
      ∃ e f d, compile src = .error e ∧ e.failure? = some f ∧ f.diagnostic? = some d ∧
        (d.kind = .structural ∨ d.kind = .resolution ∨ d.kind = .typing) ∧ IsLine src d.line ∧
        ∀ line c, e = .generate (.diagnostic line c) → c.Shown := by
  have hparse := parseSource_parses src
  rw [compile]
  cases hp : parseSource src with
  | error e =>
    rw [hp] at hparse
    exact .inr ⟨.parse e, _, e.diagnostic, rfl, rfl, rfl, .inl rfl, hparse, fun _ _ heq ↦
      nomatch heq⟩
  | ok p =>
    rw [hp] at hparse
    have hgenerate := Codegen.generate_located hparse
    dsimp only
    cases hg : Codegen.generate p with
    | ok m =>
      rw [hg] at hgenerate
      exact .inl ⟨p, m, rfl, rfl, hgenerate⟩
    | error e =>
      rw [hg] at hgenerate
      obtain ⟨line, c, rfl, hline, hshown⟩ := hgenerate
      refine .inr ⟨_, _, ⟨c.kind, line, c.construct, c.message⟩, rfl, rfl, rfl, c.kind_cases,
        hline, ?_⟩
      intro line' c' heq
      cases heq
      exact hshown

end ClassAsm
