import ClassAsm.Token.Scan

/-!
# Scanning what has been printed

A row is printed as its tokens with single blanks between them, and a string as a literal in which
four characters are escaped.  Scanning reads such a text back (`scan_print`) if words hold nothing
that ends a word or starts a comment, and if the first and the last word of a row have no blanks
outside (`Printable`).  All rows that are scanned from a source text are like this
(`printable_of_mem_scan`), so that scanning is stable under printing.

Three machines read a line, and they have different ideas of what a blank is.  Trimming takes every
blank away, but at the ends of the line only; the blanks that separate words are three of them, so
that the others can be part of a word.  The comment and the literals agree since both skip what is
behind a backslash: `Bare` text has no comment, and it stays bare in all that the scanner does with
it.

## How it is proved

* Reading back goes from a character (`lex_escape`) over a token (`lex_printed`) to a row
  (`tokenize_printedRow`).  What comes behind a token is kept open, since a word is only ended by
  the blank or the end of the line behind it.
* That scanned rows can be printed is proved along the runs of `lex`, by its own induction.  What is
  carried along is that the scanner and the search for the comment agree on whether they are inside
  of a literal (`Mode.Agrees`), and that the line does not end with a blank (`Mode.Ends`).
-/

namespace ClassAsm

namespace Text

/-! ## Blanks and lines -/

/-- The text does not begin with a blank. -/
def FirmFront (s : List Char) : Prop := ∀ c, s.head? = some c → isBlank c = false

/-- The text does not end with a blank. -/
def FirmBack (s : List Char) : Prop := ∀ c, s.getLast? = some c → isBlank c = false

variable {s : List Char}

theorem FirmBack.of_append {t : List Char} (h : FirmBack (s ++ t)) : FirmBack t := by
  intro c hc
  refine h c ?_
  rw [List.getLast?_append, hc, Option.some_or]

theorem dropWhile_eq_self (h : FirmFront s) : s.dropWhile isBlank = s := by
  cases s with
  | nil => rfl
  | cons c rest => rw [List.dropWhile_cons, h c rfl, if_neg Bool.false_ne_true]

theorem firmFront_dropWhile (s : List Char) : FirmFront (s.dropWhile isBlank) := by
  intro c hc
  have hhead := List.head?_dropWhile_not isBlank s
  rw [hc] at hhead
  exact hhead

theorem firmBack_trimRight (s : List Char) : FirmBack (trimRight s) := by
  intro c hc
  rw [trimRight, List.getLast?_reverse] at hc
  exact firmFront_dropWhile _ c hc

theorem trimRight_eq_self (h : FirmBack s) : trimRight s = s := by
  have hfront : FirmFront s.reverse := fun c hc ↦ h c (List.head?_reverse ▸ hc)
  rw [trimRight, dropWhile_eq_self hfront, List.reverse_reverse]

theorem trim_eq_self (hfront : FirmFront s) (hback : FirmBack s) : trim s = s := by
  rw [trim, dropWhile_eq_self hfront, trimRight_eq_self hback]

theorem trimRight_isPrefix (s : List Char) : trimRight s <+: s := by
  rw [trimRight, ← List.reverse_suffix, List.reverse_reverse]
  exact List.dropWhile_suffix isBlank

theorem trim_sublist (s : List Char) : (trim s).Sublist s :=
  (trimRight_isPrefix _).sublist.trans (List.dropWhile_sublist isBlank)

/-- What is left when a text is trimmed has no blanks at its ends. -/
theorem firmFront_trim (s : List Char) : FirmFront (trim s) := by
  intro c hc
  refine firmFront_dropWhile s c ?_
  obtain ⟨rest, hrest⟩ := trimRight_isPrefix (s.dropWhile isBlank)
  rw [← hrest, List.head?_append]
  exact Option.or_eq_some_iff.2 (.inl hc)

variable {sep : Char}

/-- Lines that are ended by separators, and an empty one behind them. -/
theorem splitOn_flatMap {lines : List (List Char)} (h : ∀ line ∈ lines, sep ∉ line) :
    (lines.flatMap (· ++ [sep])).splitOn sep = lines ++ [[]] := by
  induction lines with
  | nil => exact List.splitOn_nil sep
  | cons line lines ih =>
    rw [List.flatMap_cons, List.append_assoc, List.singleton_append,
      List.splitOn_append_cons_self_of_not_mem (h line List.mem_cons_self),
      ih fun l hl ↦ h l (List.mem_cons_of_mem _ hl)]
    rfl

end Text

namespace Token

open Text

variable {c : Char} {s w : List Char} {kind : Kind} {row : List Token}

-- The proofs below follow the two machines, case by case.
attribute [elab_as_elim] lex.induct stripComment.induct

attribute [local simp] lex stripComment

/-! ## Printing -/

/-- How a character is written in a literal. -/
def escape (c : Char) : List Char :=
  match c with
  | '\\' => ['\\', '\\']
  | '"' => ['\\', '"']
  | '\n' => ['\\', 'n']
  | '\t' => ['\\', 't']
  | c => [c]

/-- A literal with the given content. -/
def quoted (s : List Char) : List Char := '"' :: (s.flatMap escape ++ ['"'])

/-- The printed form of a token. -/
def printed (t : Token) : List Char :=
  if t.kind = .string then quoted t.text.toList else t.text.toList

/-- The printed form of a row: its tokens with single blanks between them. -/
def printedRow (row : List Token) : List Char := [' '].intercalate (row.map printed)

/-- Rows as a source text, each on a line of its own. -/
def print (rows : List (List Token)) : String :=
  String.ofList (rows.flatMap fun row ↦ printedRow row ++ ['\n'])

/-- The rows with the lines `n`, `n + 1` and so on. -/
def relined (n : Nat) : List (List Token) → List (List Token)
  | [] => []
  | row :: rest => (row.map fun t ↦ { t with line := n }) :: relined (n + 1) rest

/-! ## Text without comments -/

/-- The text has no comment; `inString` says whether it starts inside a literal. -/
def Bare (inString : Bool) (s : List Char) : Prop := stripComment inString s = s

section Bare

variable {b : Bool} {d : Char} {t : List Char}

theorem stripComment_quote (b : Bool) (s : List Char) :
    stripComment b ('"' :: s) = '"' :: stripComment (!b) s := by
  rw [stripComment.eq_def]
  simp

theorem stripComment_escaped (c : Char) (s : List Char) :
    stripComment true ('\\' :: c :: s) = '\\' :: c :: stripComment true s := by
  rw [stripComment.eq_def]
  simp

theorem stripComment_semicolon (s : List Char) : stripComment false (';' :: s) = [] := by
  rw [stripComment.eq_def]
  simp

theorem stripComment_cons (hquote : c ≠ '"') (hslash : b = true → c ≠ '\\')
    (hsemi : b = false → c ≠ ';') (s : List Char) :
    stripComment b (c :: s) = c :: stripComment b s := by
  rw [stripComment.eq_def]
  simp only [Bool.and_eq_true, decide_eq_true_eq, Bool.not_eq_true']
  rw [if_neg fun h ↦ hslash h.1 h.2, if_neg hquote, if_neg fun h ↦ hsemi h.1 h.2]

theorem stripComment_inside (hquote : c ≠ '"') (hslash : c ≠ '\\') (s : List Char) :
    stripComment true (c :: s) = c :: stripComment true s := by
  rw [stripComment_cons hquote (fun _ ↦ hslash) (by nofun)]

theorem stripComment_outside (hquote : c ≠ '"') (hsemi : c ≠ ';') (s : List Char) :
    stripComment false (c :: s) = c :: stripComment false s := by
  rw [stripComment_cons hquote (by nofun) fun _ ↦ hsemi]

/-- Nothing of a text without comment is left to be dropped. -/
theorem bare_stripComment (b : Bool) (s : List Char) : Bare b (stripComment b s) := by
  unfold Bare
  fun_induction stripComment b s with
  | case1 => rfl
  | case2 b c h => simp_all
  | case3 b c h d rest ih =>
    obtain ⟨rfl, hc⟩ := Bool.and_eq_true_iff.1 h
    rw [of_decide_eq_true hc, stripComment_escaped, ih]
  | case4 b rest _ ih => rw [stripComment_quote, ih]
  | case5 => rfl
  | case6 b c rest hslash hquote hsemi ih =>
    simp only [Bool.and_eq_true, Bool.not_eq_true', decide_eq_true_eq, not_and] at hslash hsemi
    rw [stripComment_cons hquote hslash hsemi, ih]

theorem Bare.of_append (h : Bare b (s ++ t)) : Bare b s := by
  unfold Bare at h ⊢
  fun_induction stripComment b s with
  | case1 => rfl
  | case2 => rfl
  | case3 b c hslash d rest ih =>
    obtain ⟨rfl, hc⟩ := Bool.and_eq_true_iff.1 hslash
    rw [of_decide_eq_true hc, List.cons_append, List.cons_append, stripComment_escaped] at h
    rw [ih (List.cons.inj (List.cons.inj h).2).2]
  | case4 b rest _ ih =>
    rw [List.cons_append, stripComment_quote] at h
    rw [ih (List.cons.inj h).2]
  | case5 b c rest _ _ hsemi =>
    simp only [Bool.and_eq_true, Bool.not_eq_true', decide_eq_true_eq] at hsemi
    obtain ⟨rfl, rfl⟩ := hsemi
    rw [List.cons_append, stripComment_semicolon] at h
    cases h
  | case6 b c rest hslash hquote hsemi ih =>
    simp only [Bool.and_eq_true, Bool.not_eq_true', decide_eq_true_eq, not_and] at hslash hsemi
    rw [List.cons_append, stripComment_cons hquote hslash hsemi] at h
    rw [ih (List.cons.inj h).2]

theorem Bare.ne_semicolon (h : Bare false (c :: s)) : c ≠ ';' := by
  rintro rfl
  rw [Bare, stripComment_semicolon] at h
  cases h

theorem Bare.of_quote (h : Bare b ('"' :: s)) : Bare (!b) s := by
  rw [Bare, stripComment_quote] at h
  exact (List.cons.inj h).2

theorem Bare.of_escaped (h : Bare true ('\\' :: c :: s)) : Bare true s := by
  rw [Bare, stripComment_escaped] at h
  exact (List.cons.inj (List.cons.inj h).2).2

theorem Bare.tail (h : Bare b (c :: s)) (hquote : c ≠ '"') (hslash : b = true → c ≠ '\\') :
    Bare b s := by
  have hsemi : b = false → c ≠ ';' := by
    rintro rfl
    exact h.ne_semicolon
  rw [Bare, stripComment_cons hquote hslash hsemi] at h
  exact (List.cons.inj h).2

end Bare

/-! ## Tokens that can be read back -/

/-- A character that can stand in a word. -/
def isInner (c : Char) : Bool :=
  !isGap c && c != '"' && (punctuation? c).isNone && c != ';' && c != '\n'

/-- A token that is read back from its printed form: a word, a punctuation mark or any string. -/
inductive Legible : Token → Prop where
  | word {read : List Char} (line : Int) : read ≠ [] → (∀ c ∈ read, isInner c = true) →
      Legible { classify read with line }
  | mark {c : Char} {kind : Kind} (line : Int) : punctuation? c = some kind →
      Legible ⟨kind, c.toString, line⟩
  | literal (text : String) (line : Int) : Legible ⟨.string, text, line⟩

theorem Legible.withLine {t : Token} (h : Legible t) (line : Int) : Legible { t with line } := by
  cases h with
  | word _ hne hread => exact .word line hne hread
  | mark _ h => exact .mark line h
  | literal text _ => exact .literal text line

/-- A row that is read back from its printed form.  Its ends are not trimmed. -/
structure Printable (row : List Token) : Prop where
  nonempty : row ≠ []
  legible : ∀ t ∈ row, Legible t
  front : ∀ t, row.head? = some t → FirmFront (printed t)
  back : ∀ t, row.getLast? = some t → FirmBack (printed t)

theorem text_classify (w : List Char) : (classify w).text = String.ofList w := by
  rw [classify]
  split
  · rfl
  · split <;> rfl

theorem line_classify (w : List Char) : (classify w).line = 0 := by
  rw [classify]
  split
  · rfl
  · split <;> rfl

theorem kind_ne_string_of_keyword (h : keyword? w = some kind) : kind ≠ .string := by
  rw [keyword?] at h
  split at h <;> cases h <;> nofun

theorem kind_ne_string_of_numeral {n : Numeral} (h : n.kind? = some kind) : kind ≠ .string := by
  simp only [Numeral.kind?] at h
  split at h
  · cases h
    nofun
  · split at h
    · cases h
    · split at h <;> cases h <;> nofun

theorem kind_classify_ne_string (w : List Char) : (classify w).kind ≠ .string := by
  rw [classify]
  split
  · exact kind_ne_string_of_keyword ‹_›
  · split
    · rename_i h
      obtain ⟨n, -, hn⟩ := Option.bind_eq_some_iff.1 h
      exact kind_ne_string_of_numeral hn
    · nofun

theorem mark_cases (h : punctuation? c = some kind) :
    (c = '=' ∨ c = ':' ∨ c = '(' ∨ c = ')') ∧ kind ≠ .string := by
  rw [punctuation?.eq_def] at h
  split at h <;> cases h <;> exact ⟨by simp, nofun⟩

theorem printed_classify (w : List Char) : printed (classify w) = w := by
  rw [printed, if_neg (kind_classify_ne_string w), text_classify, String.toList_ofList]

theorem printed_word (w : List Char) (line : Int) : printed { classify w with line } = w :=
  printed_classify w

theorem printed_mark (line : Int) (h : punctuation? c = some kind) :
    printed ⟨kind, c.toString, line⟩ = [c] := by
  rw [printed, if_neg (mark_cases h).2]
  exact String.toList_singleton c

theorem printed_literal (text : String) (line : Int) :
    printed ⟨.string, text, line⟩ = quoted text.toList :=
  if_pos rfl

theorem isBlank_of_isGap (h : isGap c = true) : isBlank c = true := by
  simp only [isGap, Bool.or_eq_true, decide_eq_true_eq] at h
  rcases h with (rfl | rfl) | rfl <;> decide

theorem firm_mark (line : Int) (h : punctuation? c = some kind) :
    FirmFront (printed ⟨kind, c.toString, line⟩) ∧ FirmBack (printed ⟨kind, c.toString, line⟩) := by
  have hc : isBlank c = false := by
    rcases (mark_cases h).1 with rfl | rfl | rfl | rfl <;> decide
  rw [printed_mark line h]
  exact ⟨fun d hd ↦ Option.some.inj hd ▸ hc, fun d hd ↦ Option.some.inj hd ▸ hc⟩

theorem firm_quoted (s : List Char) : FirmFront (quoted s) ∧ FirmBack (quoted s) := by
  have hquote : isBlank '"' = false := by decide
  refine ⟨fun d hd ↦ Option.some.inj hd ▸ hquote, fun d hd ↦ ?_⟩
  rw [quoted, ← List.cons_append, List.getLast?_concat] at hd
  exact Option.some.inj hd ▸ hquote

/-! ## Reading back -/

section Reading

variable {rest : List Char} {t : Token}

theorem isInner_iff : isInner c = true ↔
    isGap c = false ∧ c ≠ '"' ∧ punctuation? c = none ∧ c ≠ ';' ∧ c ≠ '\n' := by
  simp [isInner, and_assoc]

/-- A word is read until something else comes. -/
theorem lex_append_word (hw : ∀ c ∈ w, isInner c = true) (read : List Char) :
    lex (.word read) (w ++ rest) = lex (.word (w.reverse ++ read)) rest := by
  induction w generalizing read with
  | nil => rfl
  | cons c w ih =>
    obtain ⟨hgap, hquote, hmark, -⟩ := isInner_iff.1 (hw c List.mem_cons_self)
    rw [List.cons_append, lex, hgap, if_neg Bool.false_ne_true, if_neg hquote, hmark]
    dsimp only
    rw [ih fun d hd ↦ hw d (List.mem_cons_of_mem _ hd), List.reverse_cons, List.append_assoc]
    rfl

/-- What is written for a character stands for it. -/
theorem lex_escape (c : Char) (read rest : List Char) :
    lex (.literal read) (escape c ++ rest) = lex (.literal (c :: read)) rest := by
  rw [escape.eq_def]
  split
  · rfl
  · rfl
  · rfl
  · rfl
  · rename_i hslash hquote _ _
    rw [List.singleton_append, lex]
    · exact hquote
    · exact fun _ _ hc _ ↦ hslash hc

theorem lex_escapes (s read rest : List Char) :
    lex (.literal read) (s.flatMap escape ++ rest) = lex (.literal (s.reverse ++ read)) rest := by
  induction s generalizing read with
  | nil => rfl
  | cons c s ih =>
    rw [List.flatMap_cons, List.append_assoc, lex_escape, ih, List.reverse_cons,
      List.append_assoc]; rfl

/-- **A literal is read back**, whatever its content. -/
theorem lex_quoted (s rest : List Char) :
    lex (.word []) (quoted s ++ rest) = ⟨.string, String.ofList s, 0⟩ :: lex (.word []) rest := by
  have hquote : lex (.word []) ('"' :: (s.flatMap escape ++ '"' :: rest)) =
      lex (.literal []) (s.flatMap escape ++ '"' :: rest) := by
    rw [lex]
    rfl
  rw [quoted, List.cons_append, List.append_assoc, List.singleton_append, hquote, lex_escapes, lex,
    literalToken, List.append_nil, List.reverse_reverse]

theorem lex_mark (h : punctuation? c = some kind) (rest : List Char) :
    lex (.word []) (c :: rest) = ⟨kind, c.toString, 0⟩ :: lex (.word []) rest := by
  have hgap : isGap c = false := by rcases (mark_cases h).1 with rfl | rfl | rfl | rfl <;> decide
  have hquote : c ≠ '"' := by rcases (mark_cases h).1 with rfl | rfl | rfl | rfl <;> decide
  rw [lex, hgap, if_neg Bool.false_ne_true, if_neg hquote, h]
  rfl

theorem lex_blank (rest : List Char) : lex (.word []) (' ' :: rest) = lex (.word []) rest := by
  rw [lex]
  rfl

/-- A printed token is read back at the end of a line and before a blank. -/
theorem lex_printed (ht : Legible t) : lex (.word []) (printed t) = [{ t with line := 0 }] ∧
      ∀ rest, lex (.word []) (printed t ++ ' ' :: rest) =
      { t with line := 0 } :: lex (.word []) rest := by
  cases ht with
  | @word w line hne hw =>
    have htoken : flush (w.reverse ++ []) = [classify w] := by
      rw [flush, List.append_nil, List.reverse_reverse, if_neg]
      rwa [List.isEmpty_reverse, List.isEmpty_iff]
    have hzero : { classify w with line := 0 } = classify w := by
      rw [← line_classify w]
    rw [printed_word]
    refine ⟨?_, fun rest ↦ ?_⟩
    · rw [← List.append_nil w, lex_append_word hw, List.append_nil w, lex, htoken, hzero]
    · rw [lex_append_word hw, lex, htoken, hzero]
      rfl
  | @mark c kind line h =>
    rw [printed_mark line h]
    refine ⟨lex_mark h [], fun rest ↦ ?_⟩
    rw [List.singleton_append, lex_mark h, lex_blank]
  | literal text line =>
    rw [printed_literal]
    refine ⟨?_, fun rest ↦ ?_⟩
    · rw [← List.append_nil (quoted _), lex_quoted, String.ofList_toList]
      rfl
    · rw [lex_quoted, lex_blank, String.ofList_toList]

theorem printedRow_singleton (t : Token) : printedRow [t] = printed t := by
  simp [printedRow, List.intercalate]

theorem printedRow_cons_cons (t u : Token) (row : List Token) :
    printedRow (t :: u :: row) = printed t ++ ' ' :: printedRow (u :: row) := by
  simp [printedRow, List.intercalate]

/-- **A printed row is read back.** -/
theorem tokenize_printedRow (h : ∀ t ∈ row, Legible t) :
    tokenize (printedRow row) = row.map fun t ↦ { t with line := 0 } := by
  induction row with
  | nil => rfl
  | cons t row ih =>
    have ht := lex_printed (h t List.mem_cons_self)
    have hrow := ih fun u hu ↦ h u (List.mem_cons_of_mem _ hu)
    cases row with
    | nil => rw [printedRow_singleton, tokenize, ht.1, List.map_singleton]
    | cons u row =>
      rw [printedRow_cons_cons, tokenize, ht.2, ← tokenize, hrow]
      rfl

theorem stripComment_escape (c : Char) (s : List Char) :
    stripComment true (escape c ++ s) = escape c ++ stripComment true s := by
  rw [escape.eq_def]
  split
  iterate 4 exact stripComment_escaped _ s
  rename_i hslash hquote _ _
  exact stripComment_inside hquote hslash s

theorem stripComment_escapes (s t : List Char) :
    stripComment true (s.flatMap escape ++ t) = s.flatMap escape ++ stripComment true t := by
  induction s with
  | nil => rfl
  | cons c s ih =>
    rw [List.flatMap_cons, List.append_assoc, stripComment_escape, ih, List.append_assoc]

theorem stripComment_printed (ht : Legible t) (s : List Char) :
    stripComment false (printed t ++ s) = printed t ++ stripComment false s := by
  cases ht with
  | @word w line hne hw =>
    rw [printed_word]
    clear hne
    induction w with
    | nil => rfl
    | cons c w ih =>
      obtain ⟨-, hquote, -, hsemi, -⟩ := isInner_iff.1 (hw c List.mem_cons_self)
      rw [List.cons_append, stripComment_outside hquote hsemi,
        ih fun d hd ↦ hw d (List.mem_cons_of_mem _ hd), List.cons_append]
  | @mark c kind line h =>
    have hc : c ≠ '"' ∧ c ≠ ';' := by
      rcases (mark_cases h).1 with rfl | rfl | rfl | rfl <;> decide
    rw [printed_mark line h, List.singleton_append, stripComment_outside hc.1 hc.2]
    rfl
  | literal text line =>
    rw [printed_literal, quoted, List.cons_append, List.append_assoc, stripComment_quote,
      Bool.not_false, stripComment_escapes, List.singleton_append, stripComment_quote,
      Bool.not_true, List.cons_append, List.append_assoc, List.singleton_append]

theorem bare_printedRow (h : ∀ t ∈ row, Legible t) : Bare false (printedRow row) := by
  induction row with
  | nil => rfl
  | cons t row ih =>
    have ht := stripComment_printed (h t List.mem_cons_self)
    have hrow : Bare false (printedRow row) := ih fun u hu ↦ h u (List.mem_cons_of_mem _ hu)
    cases row with
    | nil =>
      rw [Bare, printedRow_singleton, ← List.append_nil (printed t), ht]
      rfl
    | cons u row =>
      rw [Bare, printedRow_cons_cons, ht, stripComment_outside (by decide) (by decide), hrow]

end Reading

/-! ## What is scanned can be printed -/

variable {m : Mode}

section Scanned

variable {read : List Char} {t : Token}

theorem legible_flush (hread : ∀ c ∈ read, isInner c = true) (ht : t ∈ flush read) : Legible t := by
  rw [flush] at ht
  split at ht
  · cases ht
  · rename_i hne
    rw [List.mem_singleton.1 ht]
    have hword : Legible { classify read.reverse with line := 0 } := by
      refine .word 0 (fun hnil ↦ hne ?_) fun c hc ↦ hread c (List.mem_reverse.1 hc)
      rw [List.reverse_eq_nil_iff.1 hnil, List.isEmpty_nil]
    rwa [← line_classify read.reverse] at hword

/-- The scanner is inside of a literal if and only if the search for the comment is. -/
def Mode.Agrees (s : List Char) : Mode → Prop
  | word read => Bare false s ∧ ∀ c ∈ read, isInner c = true
  | literal _ => Bare true s

theorem ne_quote_of_isGap (h : isGap c = true) : c ≠ '"' := by
  rintro rfl
  cases h

/-- **The tokens of a line without comment can be read back.** -/
theorem legible_of_mem_lex (hline : '\n' ∉ s) (hm : m.Agrees s) (ht : t ∈ lex m s) : Legible t := by
  fun_induction lex m s with
  | case1 read => exact legible_flush hm.2 ht
  | case2 read c rest hgap ih =>
    rcases List.mem_append.1 ht with ht | ht
    · exact legible_flush hm.2 ht
    · exact ih (List.not_mem_of_not_mem_cons hline) ⟨hm.1.tail (ne_quote_of_isGap hgap) (by nofun),
        by nofun⟩ ht
  | case3 read rest hgap ih =>
    rcases List.mem_append.1 ht with ht | ht
    · exact legible_flush hm.2 ht
    · exact ih (List.not_mem_of_not_mem_cons hline) hm.1.of_quote ht
  | case4 read c rest hgap hquote kind hkind ih =>
    rcases List.mem_append.1 ht with ht | ht
    · exact legible_flush hm.2 ht
    · rcases List.mem_cons.1 ht with rfl | ht
      · exact .mark 0 hkind
      · exact ih (List.not_mem_of_not_mem_cons hline) ⟨hm.1.tail hquote (by nofun), by nofun⟩ ht
  | case5 read c rest hgap hquote hkind ih =>
    have hc : isInner c = true :=
      isInner_iff.2 ⟨Bool.eq_false_iff.2 hgap, hquote, hkind, hm.1.ne_semicolon, fun hc ↦
        hline (hc ▸ List.mem_cons_self)⟩
    refine ih (List.not_mem_of_not_mem_cons hline) ⟨hm.1.tail hquote (by nofun), fun d hd ↦ ?_⟩ ht
    rcases List.mem_cons.1 hd with rfl | hd
    · exact hc
    · exact hm.2 d hd
  | case6 read =>
    rw [List.mem_singleton.1 ht]
    exact .literal _ 0
  | case7 read rest ih =>
    rcases List.mem_cons.1 ht with rfl | ht
    · exact .literal _ 0
    · exact ih (List.not_mem_of_not_mem_cons hline) ⟨Bare.of_quote hm, by nofun⟩ ht
  | case8 read c rest ih =>
    exact ih (List.not_mem_of_not_mem_cons (List.not_mem_of_not_mem_cons hline))
      (Bare.of_escaped hm) ht
  | case9 read c rest hquote hslash ih =>
    refine ih (List.not_mem_of_not_mem_cons hline) ?_ ht
    -- A backslash at the end of the line escapes nothing.
    cases rest with
    | nil => rfl
    | cons d rest => exact Bare.tail hm hquote fun _ hc ↦ hslash d rest hc rfl

/-- The first word begins with the first character of the line. -/
theorem head_lex_word (hread : read ≠ []) (s : List Char) :
    ∃ t ts, lex (.word read) s = t :: ts ∧ (printed t).head? = read.getLast? := by
  have hflush {read : List Char} (hread : read ≠ []) (ts : List Token) : ∃ t ts',
    flush read ++ ts = t :: ts' ∧
      (printed t).head? = read.getLast? := by
    refine ⟨classify read.reverse, ts, ?_, ?_⟩
    · rw [flush, if_neg (by rwa [List.isEmpty_iff])]
      rfl
    · rw [printed_classify, List.head?_reverse]
  induction s generalizing read with
  | nil =>
    rw [lex, ← List.append_nil (flush read)]
    exact hflush hread []
  | cons c s ih =>
    rw [lex]
    split
    · exact hflush hread _
    · split
      · exact hflush hread _
      · split
        · exact hflush hread _
        · obtain ⟨t, ts, heq, hhead⟩ := ih (List.cons_ne_nil c read)
          exact ⟨t, ts, heq, hhead.trans (List.getLast?_cons_of_ne_nil hread)⟩

/-- The first token from inside of a literal is that literal. -/
theorem head_lex_literal (read s : List Char) :
    ∃ text ts, lex (.literal read) s = ⟨.string, text, 0⟩ :: ts := by
  generalize hm : Mode.literal read = m
  fun_induction lex m s generalizing read with
  | case1 | case2 | case3 | case4 | case5 => cases hm
  | case6 read => exact ⟨_, [], rfl⟩
  | case7 read rest ih => exact ⟨_, _, rfl⟩
  | case8 read c rest ih => exact ih _ rfl
  | case9 read c rest hquote hslash ih => exact ih _ rfl

theorem front_tokenize (hfront : FirmFront s) (ht : (tokenize s).head? = some t) :
    FirmFront (printed t) := by
  rw [tokenize] at ht
  cases s with
  | nil => cases ht
  | cons c s =>
    have hc : isBlank c = false := hfront c rfl
    rw [lex] at ht
    split at ht
    · rename_i hgap
      cases hc.symm.trans (isBlank_of_isGap hgap)
    · split at ht
      · obtain ⟨text, ts, hlex⟩ := head_lex_literal [] s
        rw [hlex] at ht
        cases ht
        exact printed_literal text 0 ▸ (firm_quoted text.toList).1
      · split at ht
        · rename_i kind hkind
          cases ht
          exact (firm_mark 0 hkind).1
        · obtain ⟨u, ts, hlex, hhead⟩ := head_lex_word (List.cons_ne_nil c []) s
          rw [hlex] at ht
          cases ht
          intro d hd
          rw [hhead] at hd
          exact Option.some.inj hd ▸ hc

theorem lex_ne_nil (hback : FirmBack s) (hs : s ≠ []) : lex (.word []) s ≠ [] := by
  induction s with
  | nil => exact absurd rfl hs
  | cons c s ih =>
    rw [lex]
    split
    · rename_i hgap
      have hrest : s ≠ [] := by
        rintro rfl
        cases (hback c rfl).symm.trans (isBlank_of_isGap hgap)
      exact ih (FirmBack.of_append (s := [c]) hback) hrest
    · split
      · obtain ⟨text, ts, hlex⟩ := head_lex_literal [] s
        rw [hlex]
        exact List.cons_ne_nil _ _
      · split
        · exact List.cons_ne_nil _ _
        · obtain ⟨t, ts, hlex, -⟩ := head_lex_word (List.cons_ne_nil c []) s
          rw [hlex]
          exact List.cons_ne_nil _ _

/-- What is left of the line, with what has been read of a word, does not end with a blank. -/
def Mode.Ends (s : List Char) : Mode → Prop
  | word read => FirmBack (read.reverse ++ s)
  | literal _ => FirmBack s

/-- **The last token of a line that does not end with a blank does not end with one either.** -/
theorem back_lex (hm : m.Ends s) (ht : (lex m s).getLast? = some t) : FirmBack (printed t) := by
  have hbehind {us ts : List Token} (hts : ts ≠ []) : (us ++ ts).getLast? = ts.getLast? := by
    rw [List.getLast?_append, List.getLast?_eq_some_getLast hts, Option.some_or]
  -- What follows a whole token has the last token, or there is nothing more.
  have hcons {u : Token} {ts : List Token} (hu : FirmBack (printed u))
    (ht : (u :: ts).getLast? = some t)
      (hts : ts.getLast? = some t → FirmBack (printed t)) : FirmBack (printed t) := by
    rw [List.getLast?_cons] at ht
    cases hlast : ts.getLast? with
    | none =>
      rw [hlast] at ht
      exact Option.some.inj ht ▸ hu
    | some v =>
      rw [hlast] at ht
      exact hts (hlast.trans ht)
  fun_induction lex m s with
  | case1 read =>
    rw [flush] at ht
    split at ht
    · cases ht
    · rw [List.getLast?_singleton] at ht
      rw [← Option.some.inj ht, printed_classify, ← List.append_nil read.reverse]
      exact hm
  | case2 read c rest hgap ih =>
    have hback : FirmBack (c :: rest) := FirmBack.of_append hm
    have hrest : rest ≠ [] := by
      rintro rfl
      cases (hback c rfl).symm.trans (isBlank_of_isGap hgap)
    have hfirm : FirmBack rest := FirmBack.of_append (s := [c]) hback
    rw [hbehind (lex_ne_nil hfirm hrest)] at ht
    exact ih hfirm ht
  | case3 read rest hgap ih =>
    obtain ⟨text, ts, hlex⟩ := head_lex_literal [] rest
    have hne : lex (.literal []) rest ≠ [] := hlex ▸ List.cons_ne_nil _ _
    rw [hbehind hne] at ht
    exact ih (FirmBack.of_append (s := ['"']) (FirmBack.of_append hm)) ht
  | case4 read c rest hgap hquote kind hkind ih =>
    rw [hbehind (List.cons_ne_nil _ _)] at ht
    exact hcons (firm_mark 0 hkind).2 ht
      (ih (FirmBack.of_append (s := [c]) (FirmBack.of_append hm)))
  | case5 read c rest hgap hquote hkind ih => exact ih (by simpa [Mode.Ends] using hm) ht
  | case6 read =>
    cases ht
    exact printed_literal _ 0 ▸ (firm_quoted _).2
  | case7 read rest ih =>
    exact hcons (printed_literal _ 0 ▸ (firm_quoted _).2) ht
      (ih (FirmBack.of_append (s := ['"']) hm))
  | case8 read c rest ih => exact ih (FirmBack.of_append (s := ['\\', c]) hm) ht
  | case9 read c rest hquote hslash ih => exact ih (FirmBack.of_append (s := [c]) hm) ht

/-- The text of a line has no comment, no newline and no blanks at its ends. -/
theorem bare_lineText (raw : List Char) : Bare false (lineText raw) := by
  have hdrop (s : List Char) (hs : Bare false s) : Bare false (s.dropWhile isBlank) := by
    induction s with
    | nil => exact hs
    | cons c s ih =>
      rw [List.dropWhile_cons]
      split
      · rename_i hblank
        have hquote : c ≠ '"' := by
          rintro rfl
          cases hblank
        exact ih (hs.tail hquote (by nofun))
      · exact hs
  obtain ⟨rest, hrest⟩ := trimRight_isPrefix ((stripComment false raw).dropWhile isBlank)
  refine Bare.of_append (t := rest) ?_
  rw [lineText, trim, hrest]
  exact hdrop _ (bare_stripComment false raw)

theorem stripComment_isPrefix (b : Bool) (s : List Char) : stripComment b s <+: s := by
  fun_induction stripComment b s with
  | case1 | case2 => exact List.prefix_rfl
  | case3 b c hslash d rest ih =>
    rw [List.prefix_cons_inj, List.prefix_cons_inj]
    exact ih
  | case4 b rest _ ih => exact (List.prefix_cons_inj _).2 ih
  | case5 => exact List.nil_prefix
  | case6 b c rest hslash hquote hsemi ih => exact (List.prefix_cons_inj _).2 ih

theorem lineText_sublist (raw : List Char) : (lineText raw).Sublist raw :=
  (trim_sublist _).trans (stripComment_isPrefix false raw).sublist

theorem printable_row {raw : List Char} (hline : '\n' ∉ raw) (hne : lineText raw ≠ []) (n : Nat) :
    Printable (SourceLine.row ⟨n, lineText raw⟩) := by
  have hfront : FirmFront (lineText raw) := firmFront_trim _
  have hback : FirmBack (lineText raw) := firmBack_trimRight _
  have hagrees : Mode.Agrees (lineText raw) (.word []) := ⟨bare_lineText raw, by nofun⟩
  have hline' : '\n' ∉ lineText raw := fun hmem ↦ hline ((lineText_sublist raw).subset hmem)
  refine ⟨?_, fun t ht ↦ ?_, fun t ht ↦ ?_, fun t ht ↦ ?_⟩
  · rw [SourceLine.row, Ne, List.map_eq_nil_iff]
    exact lex_ne_nil hback hne
  · obtain ⟨u, hu, rfl⟩ := List.mem_map.1 ht
    exact (legible_of_mem_lex hline' hagrees hu).withLine n
  · rw [SourceLine.row, List.head?_map] at ht
    obtain ⟨u, hu, rfl⟩ := Option.map_eq_some_iff.1 ht
    have hfirm : FirmFront (printed u) := front_tokenize hfront hu
    exact hfirm
  · rw [SourceLine.row, List.getLast?_map] at ht
    obtain ⟨u, hu, rfl⟩ := Option.map_eq_some_iff.1 ht
    have hfirm : FirmBack (printed u) := back_lex (m := .word []) hback hu
    exact hfirm

/-- **Every row that is scanned can be printed.** -/
theorem printable_of_mem_scan {src : String} (h : row ∈ scan src) : Printable row := by
  have hnumbered (raws : List (List Char)) (hraws : ∀ raw ∈ raws, '\n' ∉ raw)
    (n : Nat) {l : SourceLine}
      (hl : l ∈ numbered n raws) : Printable l.row := by
    induction raws generalizing n with
    | nil => cases hl
    | cons raw raws ih =>
      have hrest := ih fun raw hraw ↦ hraws raw (List.mem_cons_of_mem _ hraw)
      rw [numbered] at hl
      split at hl
      · exact hrest (n + 1) hl
      · rename_i hne
        rcases List.mem_cons.1 hl with rfl | hl
        · exact printable_row (hraws raw List.mem_cons_self) (by rwa [List.isEmpty_iff] at hne) n
        · exact hrest (n + 1) hl
  obtain ⟨l, hl, rfl⟩ := List.mem_map.1 h
  exact hnumbered _ (fun raw hraw ↦ not_mem_of_mem_splitOn hraw) 1 hl

end Scanned

/-! ## Printing and scanning -/

section Printing

variable {rows : List (List Token)} {t : Token}

theorem head?_printedRow (t : Token) (row : List Token) (h : printed t ≠ []) :
    (printedRow (t :: row)).head? = (printed t).head? := by
  cases row with
  | nil => rw [printedRow_singleton]
  | cons u row =>
    rw [printedRow_cons_cons, List.head?_append, List.head?_eq_some_head h, Option.some_or]

theorem Legible.printed_ne_nil (h : Legible t) : printed t ≠ [] := by
  cases h with
  | @word w line hne _ => rwa [printed_word]
  | mark line h => exact printed_mark line h ▸ List.cons_ne_nil _ _
  | literal text line => exact printed_literal text line ▸ List.cons_ne_nil _ _

theorem getLast?_printedRow (h : ∀ t ∈ row, Legible t) (ht : row.getLast? = some t) :
    (printedRow row).getLast? = (printed t).getLast? := by
  induction row with
  | nil => cases ht
  | cons u row ih =>
    cases row with
    | nil =>
      rw [List.getLast?_singleton] at ht
      rw [printedRow_singleton, Option.some.inj ht]
    | cons v row =>
      rw [List.getLast?_cons_cons] at ht
      have hrow := ih (fun w hw ↦ h w (List.mem_cons_of_mem _ hw)) ht
      have hne : printed t ≠ [] :=
        (h t (List.mem_cons_of_mem _ (List.mem_of_getLast? ht))).printed_ne_nil
      rw [printedRow_cons_cons, List.getLast?_append, List.getLast?_cons, hrow,
        List.getLast?_eq_some_getLast hne, Option.getD_some, Option.some_or]

/-- Nothing of a printed row is dropped before it is cut into tokens. -/
theorem lineText_printedRow (h : Printable row) : lineText (printedRow row) = printedRow row := by
  obtain ⟨t, row, rfl⟩ := List.exists_cons_of_ne_nil h.nonempty
  have hne := (h.legible t List.mem_cons_self).printed_ne_nil
  have hfront : FirmFront (printedRow (t :: row)) := by
    intro c hc
    rw [head?_printedRow t row hne] at hc
    exact h.front t rfl c hc
  have hback : FirmBack (printedRow (t :: row)) := by
    intro c hc
    have hlast := List.getLast?_eq_some_getLast (List.cons_ne_nil t row)
    rw [getLast?_printedRow h.legible hlast] at hc
    exact h.back _ hlast c hc
  have hbare : stripComment false (printedRow (t :: row)) = printedRow (t :: row) :=
    bare_printedRow h.legible
  rw [lineText, hbare, trim_eq_self hfront hback]

theorem newline_not_mem_escape (c : Char) : '\n' ∉ escape c := by
  rw [escape.eq_def]
  split
  iterate 4 decide
  rename_i hnewline _
  exact fun hmem ↦ hnewline (List.mem_singleton.1 hmem).symm

theorem newline_not_mem_printed (h : Legible t) : '\n' ∉ printed t := by
  cases h with
  | @word w line _ hw =>
    rw [printed_word]
    exact fun hmem ↦ (isInner_iff.1 (hw _ hmem)).2.2.2.2 rfl
  | @mark c kind line h =>
    rw [printed_mark line h, List.mem_singleton]
    rcases (mark_cases h).1 with rfl | rfl | rfl | rfl <;> decide
  | literal text line =>
    rw [printed_literal, quoted, List.mem_cons, List.mem_append, List.mem_flatMap]
    rintro (h | ⟨c, -, hc⟩ | h)
    · cases h
    · exact newline_not_mem_escape c hc
    · cases List.mem_singleton.1 h

theorem newline_not_mem_printedRow (h : ∀ t ∈ row, Legible t) : '\n' ∉ printedRow row := by
  induction row with
  | nil => exact List.not_mem_nil
  | cons t row ih =>
    have ht := newline_not_mem_printed (h t List.mem_cons_self)
    have hrow := ih fun u hu ↦ h u (List.mem_cons_of_mem _ hu)
    cases row with
    | nil => rwa [printedRow_singleton]
    | cons u row =>
      rw [printedRow_cons_cons, List.mem_append, List.mem_cons]
      rintro (hmem | hmem | hmem)
      · exact ht hmem
      · cases hmem
      · exact hrow hmem

theorem splitOn_print (h : ∀ row ∈ rows, Printable row) :
    (rows.flatMap fun row ↦ printedRow row ++ ['\n']).splitOn '\n' = rows.map printedRow ++
    [[]] := by
  have hlines : ∀ line ∈ rows.map printedRow, '\n' ∉ line :=
    List.forall_mem_map.2 fun row hrow ↦ newline_not_mem_printedRow (h row hrow).legible
  rw [← splitOn_flatMap hlines, List.flatMap_map]

theorem printedRow_ne_nil (h : Printable row) : printedRow row ≠ [] := by
  obtain ⟨t, row, rfl⟩ := List.exists_cons_of_ne_nil h.nonempty
  have hne := (h.legible t List.mem_cons_self).printed_ne_nil
  intro hnil
  have hhead := head?_printedRow t row hne
  rw [hnil, List.head?_eq_some_head hne] at hhead
  cases hhead

/-- Every printed row is a line with its row. -/
theorem numbered_printed (h : ∀ row ∈ rows, Printable row) (n : Nat) :
    (numbered n (rows.map printedRow ++ [[]])).map SourceLine.row = relined n rows := by
  induction rows generalizing n with
  | nil => rfl
  | cons row rows ih =>
    have hrow := h row List.mem_cons_self
    have hne : (printedRow row).isEmpty = false := by
      rw [List.isEmpty_eq_false_iff]
      exact printedRow_ne_nil hrow
    have hline : SourceLine.row ⟨n, printedRow row⟩ = row.map fun t ↦ { t with line := n } := by
      rw [SourceLine.row, tokenize_printedRow hrow.legible, List.map_map]
      rfl
    rw [List.map_cons, List.cons_append, numbered, lineText_printedRow hrow]
    simp only [hne, Bool.false_eq_true, if_false]
    rw [List.map_cons, hline, ih fun r hr ↦ h r (List.mem_cons_of_mem _ hr), relined]

/-- **Printed rows are read back.** -/
theorem scan_print (h : ∀ row ∈ rows, Printable row) : scan (print rows) = relined 1 rows := by
  rw [scan, prepare, print, String.toList_ofList, splitOn_print h, numbered_printed h]

end Printing

/-- The token, with another content if it is a string. -/
def refill (content : Token → String) (t : Token) : Token :=
  if t.kind = .string then { t with text := content t } else t

theorem Printable.refill (h : Printable row) (content : Token → String) :
    Printable (row.map (refill content)) := by
  have hfirm (t : Token) (P : List Char → Prop) (hstring : ∀ s, P (quoted s)) (ht : P (printed t)) :
      P (printed (Token.refill content t)) := by
    rw [Token.refill]
    split
    · rename_i hkind
      rw [printed, if_pos hkind]
      exact hstring _
    · exact ht
  refine ⟨fun hnil ↦ h.nonempty (List.map_eq_nil_iff.1 hnil), fun t ht ↦ ?_, fun t ht ↦ ?_,
    fun t ht ↦ ?_⟩
  · obtain ⟨u, hu, rfl⟩ := List.mem_map.1 ht
    rw [Token.refill]
    split
    · rename_i hkind
      rw [hkind]
      exact .literal _ _
    · exact h.legible u hu
  · rw [List.head?_map] at ht
    obtain ⟨u, hu, rfl⟩ := Option.map_eq_some_iff.1 ht
    exact hfirm u FirmFront (fun s ↦ (firm_quoted s).1) (h.front u hu)
  · rw [List.getLast?_map] at ht
    obtain ⟨u, hu, rfl⟩ := Option.map_eq_some_iff.1 ht
    exact hfirm u FirmBack (fun s ↦ (firm_quoted s).2) (h.back u hu)

/-- **Scanning is stable under printing.**  The rows of a source text, each printed on a line of its
own, are scanned again as the same rows, with the numbers of the new lines.  The same holds if the
strings in them are given any other content. -/
theorem scan_print_scan (src : String) : scan (print (scan src)) = relined 1 (scan src) ∧
    ∀ content : Token → String, scan (print ((scan src).map (·.map (refill content)))) =
      relined 1 ((scan src).map (·.map (refill content))) := by
  refine ⟨scan_print fun row hrow ↦ printable_of_mem_scan hrow, fun content ↦
    scan_print fun row hrow ↦ ?_⟩
  obtain ⟨row', hrow', rfl⟩ := List.mem_map.1 hrow
  exact (printable_of_mem_scan hrow').refill content

end Token

end ClassAsm
