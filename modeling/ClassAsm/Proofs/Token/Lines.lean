import ClassAsm.Proofs.Program.Acceptance
import ClassAsm.Proofs.Token.Printing

/-!
# The rows of lines

A text is scanned line by line: `rowsFrom` are the rows of a list of lines, and `scan_eq` and
`scan_joined` say that these are the rows of the text that the lines make up.  Each line has at most
one row, and its first token can be told from its first character that is not blank
(`rowsFrom_of_colon`).
-/

namespace ClassAsm

namespace Text

theorem head?_trim (s : List Char) : (trim s).head? = s.find? (!isBlank ·) := by
  have hdrop : (s.dropWhile isBlank).head? = s.find? (!isBlank ·) := by
    induction s with
    | nil => rfl
    | cons c s ih => cases hc : isBlank c <;> simp [hc, ih]
  rw [← hdrop, trim]
  cases hs : s.dropWhile isBlank with
  | nil => rfl
  | cons c rest =>
    have hc : isBlank c = false := firmFront_dropWhile s c (by rw [hs]; rfl)
    simp only [trimRight, List.reverse_cons, List.dropWhile_append]
    split <;> simp [hc]

end Text

namespace Token

open Text

/-- Lines as a text, each with a newline at its end. -/
def joined (lines : List String) : String :=
  String.ofList (lines.flatMap fun l ↦ l.toList ++ ['\n'])

/-- The lines of a text. -/
def linesOf (src : String) : List String := (src.toList.splitOn '\n').map String.ofList

/-- The rows of lines, where the first of the lines has number `n`. -/
def rowsFrom (n : Nat) (lines : List String) : List (List Token) :=
  (numbered n (lines.map String.toList)).map SourceLine.row

/-- The rows without the numbers of their lines. -/
def unlined (rows : List (List Token)) : List (List Token) :=
  rows.map (·.map fun t ↦ { t with line := 0 })

section Rows

variable {n : Nat} {l : String} {lines : List String} {src : String}

@[simp] theorem rowsFrom_nil (n : Nat) : rowsFrom n [] = [] := rfl

theorem rowsFrom_singleton (n : Nat) (l : String) :
    rowsFrom n [l] = if lineText l.toList = [] then [] else
    [SourceLine.row ⟨n, lineText l.toList⟩] := by
  by_cases h : lineText l.toList = [] <;> simp [rowsFrom, numbered, h]

theorem rowsFrom_append (n : Nat) (ls ls' : List String) :
    rowsFrom n (ls ++ ls') = rowsFrom n ls ++ rowsFrom (n + ls.length) ls' := by
  induction ls generalizing n with
  | nil => simp
  | cons l ls ih =>
    simp only [rowsFrom, numbered, List.map_cons, List.map_append, List.cons_append,
      List.length_cons] at ih ⊢
    rw [show n + (ls.length + 1) = n + 1 + ls.length by omega]
    split <;> simp [ih]

theorem rowsFrom_cons (n : Nat) (l : String) (ls : List String) :
    rowsFrom n (l :: ls) = rowsFrom n [l] ++ rowsFrom (n + 1) ls :=
  rowsFrom_append n [l] ls

theorem rowsFrom_singleton_cases (n : Nat) (l : String) :
    rowsFrom n [l] = [] ∨ ∃ row, rowsFrom n [l] = [row] := by
  rw [rowsFrom_singleton]
  split
  · exact .inl rfl
  · exact .inr ⟨_, rfl⟩

/-- The numbers of the lines are all that depends on the number of the first one. -/
theorem unlined_rowsFrom (n m : Nat) (lines : List String) :
    unlined (rowsFrom n lines) = unlined (rowsFrom m lines) := by
  induction lines generalizing n m with
  | nil => rfl
  | cons l ls ih =>
    have hline : unlined (rowsFrom n [l]) = unlined (rowsFrom m [l]) := by
      simp only [rowsFrom_singleton]
      split
      · rfl
      · simp [unlined, SourceLine.row]
    rw [rowsFrom_cons n, rowsFrom_cons m]
    simp only [unlined, List.map_append] at ih hline ⊢
    rw [hline, ih]

/-- **A text has the rows of its lines.** -/
theorem scan_eq (src : String) : scan src = rowsFrom 1 (linesOf src) := by
  simp [scan, prepare, rowsFrom, linesOf, Function.comp_def]

theorem newline_not_mem_linesOf (h : l ∈ linesOf src) : '\n' ∉ l.toList := by
  obtain ⟨raw, hraw, rfl⟩ := List.mem_map.1 h
  rw [String.toList_ofList]
  exact not_mem_of_mem_splitOn hraw

/-- **The text of lines has their rows.** -/
theorem scan_joined (h : ∀ l ∈ lines, '\n' ∉ l.toList) :
    scan (joined lines) = rowsFrom 1 lines := by
  have hsplit : (joined lines).toList.splitOn '\n' = lines.map String.toList ++ [[]] := by
    rw [← splitOn_flatMap (List.forall_mem_map.2 h), joined, String.toList_ofList, List.flatMap_map]
  have hlast : rowsFrom (1 + lines.length) [""] = [] := rfl
  have hrows : rowsFrom 1 (lines ++ [""]) = rowsFrom 1 lines := by
    rw [rowsFrom_append, hlast, List.append_nil]
  rw [scan, prepare, hsplit, ← hrows, rowsFrom, List.map_append]
  rfl

theorem scan_line (h : '\n' ∉ l.toList) : scan l = rowsFrom 1 [l] := by
  have hlines : linesOf l = [l] := by
    rw [linesOf, List.splitOn_eq_singleton h, List.map_singleton, String.ofList_toList]
  rw [scan_eq, hlines]

theorem named_scan (src : String) : Grammar.Named (scan src) := by
  intro row hrow t ht _ htext
  have hne := ((printable_of_mem_scan hrow).legible t ht).printed_ne_nil
  rw [printed] at hne
  split at hne
  · simp_all
  · exact hne (by rw [htext]; rfl)

theorem filter_scan (src : String) : (scan src).filter (!·.isEmpty) = scan src := by
  refine List.filter_eq_self.2 fun row hrow ↦ ?_
  simpa using (printable_of_mem_scan hrow).nonempty

/-- Blanks in front and a character that starts neither a comment nor a literal are kept. -/
theorem find?_stripComment {c : Char} (hquote : c ≠ '"') (hsemi : c ≠ ';') {s : List Char}
    (h : s.find? (!isBlank ·) = some c) : (stripComment false s).find? (!isBlank ·) = some c := by
  induction s with
  | nil => cases h
  | cons d s ih =>
    cases hd : isBlank d with
    | true =>
      have hne : d ≠ '"' ∧ d ≠ ';' := by constructor <;> (rintro rfl; cases hd)
      rw [stripComment_outside hne.1 hne.2]
      simp only [List.find?_cons, hd, Bool.not_true] at h ⊢
      exact ih h
    | false =>
      obtain rfl : d = c := by simpa [List.find?_cons, hd] using h
      simp [stripComment_outside hquote hsemi, hd]

theorem rowsFrom_of_colon (n : Nat) (h : (trim l.toList).head? = some ':') :
    ∃ ts, rowsFrom n [l] = [⟨.colon, ":", n⟩ :: ts] := by
  have hhead : (lineText l.toList).head? = some ':' := by
    rw [lineText, head?_trim]
    exact find?_stripComment (by decide) (by decide) (head?_trim _ ▸ h)
  obtain ⟨rest, hrest⟩ := List.head?_eq_some_iff.1 hhead
  rw [rowsFrom_singleton, hrest, if_neg (List.cons_ne_nil _ _), SourceLine.row, tokenize,
    lex_mark rfl]
  exact ⟨_, rfl⟩

theorem exists_of_rowsFrom_ne_nil (h : rowsFrom n [l] ≠ []) :
    ∃ c, (trim l.toList).head? = some c := by
  rw [← Option.isSome_iff_exists, Option.isSome_iff_ne_none]
  intro hnone
  refine h ?_
  have hblank : lineText l.toList = [] := by
    rw [← List.head?_eq_none_iff, lineText, head?_trim, List.find?_eq_none]
    rw [head?_trim, List.find?_eq_none] at hnone
    exact fun c hc ↦ hnone c ((stripComment_isPrefix false _).subset hc)
  rw [rowsFrom_singleton, if_pos hblank]

end Rows

end Token

end ClassAsm
