/-!
# Blank characters

Which characters pad and separate text, and the two operations that depend on it: trimming a line
and cutting a line into words.  Everything works on `List Char`, so that the laws about scanning
can be proved by induction on the text.
-/

namespace ClassAsm.Text

/-- A character that counts as blank space: the six ASCII blanks, next line, no-break space, the
Unicode space separators and the line and paragraph separators. -/
def isBlank (c : Char) : Bool :=
  let n := c.toNat
  n == 0x20 || (0x09 ≤ n && n ≤ 0x0d) || n == 0x85 || n == 0xa0 || n == 0x1680 ||
    (0x2000 ≤ n && n ≤ 0x200a) || n == 0x2028 || n == 0x2029 || n == 0x202f || n == 0x205f ||
    n == 0x3000

/-- Drop the blanks at the end of a text. -/
def trimRight (s : List Char) : List Char := (s.reverse.dropWhile isBlank).reverse

/-- Drop the blanks at both ends of a text. -/
def trim (s : List Char) : List Char := trimRight (s.dropWhile isBlank)

/-- Drop the blanks at both ends of a string. -/
def trimmed (s : String) : String := String.ofList (trim s.toList)

/-- The maximal runs of non-blank characters, where `run` holds the current one reversed. -/
def wordsFrom (run : List Char) : List Char → List (List Char)
  | [] => if run.isEmpty then [] else [run.reverse]
  | c :: rest =>
    if isBlank c then
      if run.isEmpty then wordsFrom [] rest else run.reverse :: wordsFrom [] rest
    else wordsFrom (c :: run) rest

/-- The words of a text: its maximal runs of non-blank characters, in order. -/
def words (s : String) : List String := (wordsFrom [] s.toList).map String.ofList

/-- No piece has a separator in it. -/
theorem not_mem_of_mem_splitOn {sep : Char} {piece s : List Char} (h : piece ∈ s.splitOn sep) :
    sep ∉ piece := by
  induction s generalizing piece with
  | nil =>
    rw [List.splitOn_nil, List.mem_singleton] at h
    exact h ▸ List.not_mem_nil
  | cons c s ih =>
    rw [List.splitOn_cons_eq_if_modifyHead] at h
    split at h
    · rcases List.mem_cons.1 h with rfl | h
      · exact List.not_mem_nil
      · exact ih h
    · rename_i hc
      obtain ⟨first, rest, hs⟩ := List.exists_cons_of_ne_nil (List.splitOn_ne_nil sep s)
      rw [hs, List.modifyHead_cons] at h
      rcases List.mem_cons.1 h with rfl | h
      · have hfirst := ih (hs ▸ List.mem_cons_self)
        rw [List.mem_cons]
        exact fun hmem ↦ hmem.elim (fun hsep ↦ hc (beq_iff_eq.2 hsep.symm)) hfirst
      · exact ih (hs ▸ List.mem_cons_of_mem _ h)

end ClassAsm.Text
