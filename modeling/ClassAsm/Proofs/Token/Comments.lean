import ClassAsm.Proofs.Token.Printing

/-!
# Comments and literals

A comment is looked for by one machine and literals are read by another, and both have to decide
where a literal ends.  `located` are the tokens of a line with their places, so that the literals of
a line are ranges of it; `comments_begin_outside_literals` says that a comment begins at the first
semicolon outside of them.

## How it is proved

The machine that reads a line has seven ways to go on (`Step`), and `locate_induction` is induction
along them.  Every fact about the tokens of a line is a fact about one step, found by going through
the seven, and one about all steps:

* `Step.within` and `ordered_locate`: tokens come one behind the other;
* `Step.literal` and `start_of_literal`: a literal begins where it is read, and nowhere before;
* `Step.stands` and `standsIn_of_mem_locate`: a token is the only one of its text;
* `Step.stripComment` and `stripComment_eq_takeWhile`: the search for a comment takes the same
  steps, until it comes to a semicolon between words;
* `filter_locate_stripComment`: what is left of the line has the literals that begin in it, with
  all of their text.
-/

namespace ClassAsm.Token

variable {c : Char} {m m' : Mode} {read s rest cs : List Char} {start start' i stop k : Nat}

/-! ## Places -/

/-- A token and its place in a line: it begins at `start` and ends before `stop`. -/
structure Located where
  token : Token
  start : Nat
  stop : Nat

/-- The token is a string literal. -/
def Located.isLiteral (t : Located) : Bool := t.token.kind = .string

/-- The place `k` of the line belongs to the token. -/
def Located.Covers (t : Located) (k : Nat) : Prop := t.start ≤ k ∧ k < t.stop

instance (t : Located) (k : Nat) : Decidable (t.Covers k) := inferInstanceAs (Decidable (_ ∧ _))

/-- The word read so far with its place, if there is one. -/
def flushAt (read : List Char) (start stop : Nat) : List Located :=
  (flush read).map (⟨·, start, stop⟩)

/-- `lex` with the places of the tokens: the text begins at place `i` of its line, and the word or
literal that is being read began at `start`. -/
def locate : Mode → Nat → Nat → List Char → List Located
  | .word read, start, i, [] => flushAt read start i
  | .word read, start, i, c :: rest =>
    if isGap c then flushAt read start i ++ locate (.word []) (i + 1) (i + 1) rest
    else if c = '"' then flushAt read start i ++ locate (.literal []) i (i + 1) rest
    else match punctuation? c with
      | some kind =>
        flushAt read start i ++ ⟨⟨kind, c.toString, 0⟩, i, i + 1⟩ :: locate (.word []) (i + 1)
        (i + 1) rest
      | none => locate (.word (c :: read)) start (i + 1) rest
  | .literal read, start, i, [] => [⟨literalToken read, start, i⟩]
  | .literal read, start, i, '"' :: rest =>
    ⟨literalToken read, start, i + 1⟩ :: locate (.word []) (i + 1) (i + 1) rest
  | .literal read, start, i, '\\' :: c :: rest =>
    locate (.literal (unescape c ++ read)) start (i + 2) rest
  | .literal read, start, i, c :: rest => locate (.literal (c :: read)) start (i + 1) rest

attribute [elab_as_elim] locate.induct

attribute [local simp] lex locate

/-- The tokens of a line with their places. -/
def located (line : List Char) : List Located := locate (.word []) 0 0 line

/-- The literals of a line with their places. -/
def literals (line : List Char) : List Located := (located line).filter (·.isLiteral)

/-- A line up to its first semicolon that belongs to no literal. -/
def uncommented (line : List Char) : List Char :=
  (line.zipIdx.takeWhile fun p ↦ p.1 ≠ ';' ∨ ∃ t ∈ literals line, t.Covers p.2).map (·.1)

/-- The machine is inside of a literal. -/
def Mode.inLiteral : Mode → Bool
  | word _ => false
  | literal _ => true

/-- One step at place `i`: the machine reads some characters and completes some tokens.  The word or
literal that it is reading begins at `start`; the last number is where the next one begins. -/
inductive Step (start i : Nat) : Mode → List Char → List Located → Mode → Nat → Prop where
  | gap {c : Char} (read : List Char) : isGap c = true →
      Step start i (.word read) [c] (flushAt read start i) (.word []) (i + 1)
  | opening (read : List Char) :
      Step start i (.word read) ['"'] (flushAt read start i) (.literal []) i
  | mark {c : Char} {kind : Kind} (read : List Char) : punctuation? c = some kind →
      Step start i (.word read) [c] (flushAt read start i ++ [⟨⟨kind, c.toString, 0⟩, i, i + 1⟩])
        (.word []) (i + 1)
  | letter {c : Char} (read : List Char) : isGap c = false → c ≠ '"' → punctuation? c = none →
      Step start i (.word read) [c] [] (.word (c :: read)) start
  | closing (read : List Char) :
      Step start i (.literal read) ['"'] [⟨literalToken read, start, i + 1⟩] (.word []) (i + 1)
  | escape (c : Char) (read : List Char) :
      Step start i (.literal read) ['\\', c] [] (.literal (unescape c ++ read)) start
  | inner {c : Char} (read : List Char) : c ≠ '"' →
      Step start i (.literal read) [c] [] (.literal (c :: read)) start

/-- In a literal, a backslash is read together with what comes next, and alone only at the end. -/
def Mode.Splits (m : Mode) (cs rest : List Char) : Prop :=
  m.inLiteral = true → cs = ['\\'] → rest = []

section Locate

variable {kind : Kind} {t : Located} {ts : List Located}

theorem not_gap_of_mark (h : punctuation? c = some kind) : isGap c = false ∧ c ≠ '"' ∧ c ≠ ';' := by
  rcases (mark_cases h).1 with rfl | rfl | rfl | rfl <;> decide

theorem Step.locate_eq (h : Step start i m cs ts m' start') (hsplits : m.Splits cs rest) :
    locate m start i (cs ++ rest) = ts ++ locate m' start' (i + cs.length) rest := by
  cases h with
  | gap read hgap => simp [hgap]
  | opening read =>
    have hgap : isGap '"' = false := rfl
    simp [hgap]
  | mark read hkind =>
    obtain ⟨hgap, hquote, -⟩ := not_gap_of_mark hkind
    simp [hgap, hquote, hkind]
  | letter read hgap hquote hkind => simp [hgap, hquote, hkind]
  | closing read => simp
  | escape c read => simp
  | @inner c read hquote =>
    by_cases hc : c = '\\'
    · subst hc
      obtain rfl := hsplits rfl rfl
      simp
    · simp [hc]

theorem Step.ne_nil (h : Step start i m cs ts m' start') : cs ≠ [] := by
  cases h <;> exact List.cons_ne_nil _ _

/-- Induction along the steps of the machine. -/
theorem locate_induction {motive : Mode → Nat → Nat → List Char → Prop}
    (hword : ∀ read start i, motive (.word read) start i [])
    (hliteral : ∀ read start i, motive (.literal read) start i [])
    (hstep : ∀ {m m' : Mode} {start i start' : Nat} {cs : List Char} {ts : List Located}
      (rest : List Char), Step start i m cs ts m' start' → m.Splits cs rest →
      motive m' start' (i + cs.length) rest → motive m start i (cs ++ rest))
    (m : Mode) (start i : Nat) (s : List Char) : motive m start i s := by
  have hword' (read : List Char) (cs rest : List Char) : (Mode.word read).Splits cs rest :=
    fun h ↦ absurd h Bool.false_ne_true
  fun_induction locate m start i s with
  | case1 read start i => exact hword read start i
  | case2 read start i c rest hgap ih => exact hstep rest (.gap read hgap) (hword' _ _ _) ih
  | case3 read start i rest _ ih => exact hstep rest (.opening read) (hword' _ _ _) ih
  | case4 read start i c rest _ _ kind hkind ih =>
    exact hstep rest (.mark read hkind) (hword' _ _ _) ih
  | case5 read start i c rest hgap hquote hkind ih =>
    exact hstep rest (.letter read (Bool.eq_false_iff.2 hgap) hquote hkind) (hword' _ _ _) ih
  | case6 read start i => exact hliteral read start i
  | case7 read start i rest ih =>
    refine hstep rest (.closing read) (fun _ h ↦ ?_) ih
    cases h
  | case8 read start i c rest ih =>
    refine hstep rest (.escape c read) (fun _ h ↦ ?_) ih
    cases h
  | case9 read start i c rest hquote hslash ih =>
    refine hstep rest (.inner read hquote) (fun _ h ↦ ?_) ih
    cases h
    cases rest with
    | nil => rfl
    | cons d rest => exact (hslash d rest rfl rfl).elim

theorem token_flushAt (read : List Char) (start stop : Nat) :
    (flushAt read start stop).map (·.token) = flush read := by
  rw [flushAt, List.map_map]
  exact List.map_id _

theorem token_locate (m : Mode) (start i : Nat) (s : List Char) :
    (locate m start i s).map (·.token) = lex m s := by
  fun_induction locate m start i s <;> simp_all [token_flushAt]

theorem Step.lex_eq (h : Step start i m cs ts m' start') (hsplits : m.Splits cs rest) :
    lex m (cs ++ rest) = ts.map (·.token) ++ lex m' rest := by
  rw [← token_locate m start i, h.locate_eq hsplits, List.map_append, token_locate]

/-- There is at most one word, and it is no literal. -/
theorem flushAt_cases (read : List Char) (start stop : Nat) : flushAt read start stop = [] ∨
    ∃ token, token.kind ≠ .string ∧ flush read = [token] ∧
      flushAt read start stop = [⟨token, start, stop⟩] := by
  rw [flushAt, flush]
  split
  · exact .inl rfl
  · exact .inr ⟨_, kind_classify_ne_string _, rfl, rfl⟩

/-- The tokens of a step stand between the beginning of the word or literal and that of the next. -/
theorem Step.within (h : Step start i m cs ts m' start') (hstart : start ≤ i) :
    (start ≤ start' ∧ start' ≤ i + cs.length) ∧ (∀ t ∈ ts, start ≤ t.start ∧ t.stop ≤ start') ∧
      ts.Pairwise fun t u ↦ t.stop ≤ u.start := by
  cases h with
  | gap read | mark read =>
    rcases flushAt_cases read start i with h | ⟨token, -, -, h⟩ <;> simp [h] <;> omega
  | opening read =>
    rcases flushAt_cases read start start' with h | ⟨token, -, -, h⟩ <;> simp [h] <;> omega
  | closing => simp; omega
  | letter | escape | inner => simp; omega

/-- Nothing that is still to be read begins before the word or literal that is being read. -/
theorem le_start_of_mem_locate (hstart : start ≤ i) (h : t ∈ locate m start i s) :
    start ≤ t.start := by
  induction m, start, i, s using locate_induction with
  | hword read start i =>
    rw [locate] at h
    rcases flushAt_cases read start i with hnil | ⟨token, -, -, hone⟩
    · rw [hnil] at h
      cases h
    · rw [hone] at h
      exact Nat.le_of_eq (List.mem_singleton.1 h ▸ rfl)
  | hliteral read start i =>
    rw [locate] at h
    exact Nat.le_of_eq (List.mem_singleton.1 h ▸ rfl)
  | hstep rest hstep hsplits ih =>
    obtain ⟨⟨hle, hle'⟩, hts, -⟩ := hstep.within hstart
    rw [hstep.locate_eq hsplits] at h
    rcases List.mem_append.1 h with h | h
    · exact (hts t h).1
    · exact Nat.le_trans hle (ih hle' h)

theorem ordered_locate (hstart : start ≤ i) :
    (locate m start i s).Pairwise fun t u ↦ t.stop ≤ u.start := by
  induction m, start, i, s using locate_induction with
  | hword read start i =>
    rw [locate]
    rcases flushAt_cases read start i with h | ⟨token, -, -, h⟩ <;> simp [h]
  | hliteral => simp
  | hstep rest hstep hsplits ih =>
    obtain ⟨⟨-, hle'⟩, hts, hordered⟩ := hstep.within hstart
    rw [hstep.locate_eq hsplits]
    refine List.pairwise_append.2 ⟨hordered, ih hle', fun t ht u hu ↦ ?_⟩
    exact Nat.le_trans (hts t ht).2 (le_start_of_mem_locate hle' hu)

theorem isLiteral_of_mem_flushAt (h : t ∈ flushAt read start stop) : t.isLiteral = false := by
  rcases flushAt_cases read start stop with hnil | ⟨token, hkind, -, hone⟩
  · rw [hnil] at h
    cases h
  · rw [hone] at h
    rw [List.mem_singleton.1 h]
    exact decide_eq_false hkind

/-- A literal is complete where it was read, and a new one begins here. -/
theorem Step.literal (h : Step start i m cs ts m' start') :
    (∀ t ∈ ts, t.isLiteral = true → m.inLiteral = true ∧ t.start = start) ∧
      (m'.inLiteral = true → (m.inLiteral = true ∧ start' = start) ∨ start' = i) := by
  have hflush {read : List Char} {t : Located} (ht : t ∈ flushAt read start i) :
      ¬t.isLiteral = true := Bool.eq_false_iff.1 (isLiteral_of_mem_flushAt ht)
  cases h with
  | gap | opening => exact ⟨fun t ht h ↦ absurd h (hflush ht), by simp [Mode.inLiteral]⟩
  | mark read hkind =>
    refine ⟨fun t ht h ↦ ?_, by simp [Mode.inLiteral]⟩
    rcases List.mem_append.1 ht with ht | ht
    · exact absurd h (hflush ht)
    · rw [List.mem_singleton.1 ht] at h
      exact absurd (of_decide_eq_true h) (mark_cases hkind).2
  | letter | closing | escape | inner => simp [Mode.inLiteral]

/-- The place of a literal is still to come, unless it is being read. -/
theorem start_of_literal (h : t ∈ locate m start i s) (ht : t.isLiteral = true) :
    i ≤ t.start ∨ (m.inLiteral = true ∧ t.start = start) := by
  induction m, start, i, s using locate_induction with
  | hword read start i =>
    rw [locate] at h
    exact absurd ht (Bool.eq_false_iff.1 (isLiteral_of_mem_flushAt h))
  | hliteral read start i =>
    rw [locate] at h
    exact .inr ⟨rfl, List.mem_singleton.1 h ▸ rfl⟩
  | hstep rest hstep hsplits ih =>
    rw [hstep.locate_eq hsplits] at h
    rcases List.mem_append.1 h with h | h
    · exact .inr (hstep.literal.1 t h ht)
    · rcases ih h with hle | ⟨hm, rfl⟩
      · exact .inl (Nat.le_of_add_right_le hle)
      · exact (hstep.literal.2 hm).symm.imp (fun h ↦ Nat.le_of_eq h.symm) id

/-- A literal that is being read goes on at least to where the machine stands. -/
theorem exists_literal (hm : m.inLiteral = true) :
    ∃ t ∈ locate m start i s, t.isLiteral = true ∧ t.start = start ∧ i ≤ t.stop := by
  induction m, start, i, s using locate_induction with
  | hword => cases hm
  | hliteral => exact ⟨_, List.mem_singleton_self _, rfl, rfl, Nat.le_refl _⟩
  | hstep rest hstep hsplits ih =>
    rw [hstep.locate_eq hsplits]
    cases hstep with
    | gap | opening | mark | letter => cases hm
    | closing => exact ⟨_, List.mem_cons_self, rfl, rfl, Nat.le_succ _⟩
    | escape | inner =>
      obtain ⟨t, ht, hliteral, hstart, hstop⟩ := ih rfl
      exact ⟨t, ht, hliteral, hstart, Nat.le_of_add_right_le hstop⟩

end Locate

/-! ## The text of a token -/

/-- The text between two places of a line. -/
def slice (line : List Char) (start stop : Nat) : List Char := (line.take stop).drop start

theorem slice_append (u w r : List Char) :
    slice (u ++ (w ++ r)) u.length (u.length + w.length) = w := by
  rw [slice, List.take_length_add_append, List.take_left, List.drop_left]

/-- What the machine has read of a word or literal, with `rest` still to be read.  At the end of the
line nothing can come any more. -/
def Mode.ReadFrom (w rest : List Char) (m : Mode) : Prop :=
  ∀ s, (rest = [] → s = []) → lex (.word []) (w ++ s) = lex m s

/-- A token stands in a line: it is the only one of its text, and the text of a literal is that from
quote to quote or to the end of the line. -/
structure Located.StandsIn (text : List Char) (t : Located) : Prop where
  stop_le : t.stop ≤ text.length
  token : tokenize (slice text t.start t.stop) = [t.token]
  opened : t.isLiteral = true → text[t.start]? = some '"'
  closed : t.isLiteral = true → t.stop < text.length → t.start + 1 < t.stop ∧
    text[t.stop - 1]? = some '"'

section Stands

variable {line u w r : List Char} {t : Located} {ts : List Located}

theorem Mode.ReadFrom.nil (rest : List Char) : (Mode.word []).ReadFrom [] rest := fun _ _ ↦ rfl

theorem Mode.ReadFrom.opened (rest : List Char) : (Mode.literal []).ReadFrom ['"'] rest := by
  intro s _
  rw [List.singleton_append, lex]
  rfl

/-- A step that completes nothing reads more of a word or literal. -/
theorem Step.readFrom (hstep : Step start i m cs ts m' start') (hsplits : m.Splits cs r)
    (hts : ts = []) (hw : m.ReadFrom w (cs ++ r)) : m'.ReadFrom (w ++ cs) r := by
  intro s hs
  rw [List.append_assoc, hw _ fun h ↦ absurd (List.append_eq_nil_iff.1 h).1 hstep.ne_nil,
    hstep.lex_eq fun hm hcs ↦ hs (hsplits hm hcs), hts, List.map_nil, List.nil_append]

/-- The text of a token that has been read. -/
theorem standsIn_of_tokenize {token : Token} (htoken : tokenize w = [token])
    (hopened : token.kind = .string → w.head? = some '"')
    (hclosed : token.kind = .string → r ≠ [] → 1 < w.length ∧ w.getLast? = some '"') :
    Located.StandsIn (u ++ (w ++ r)) ⟨token, u.length, u.length + w.length⟩ where
  stop_le := by simp
  token := by rw [slice_append, htoken]
  opened hkind := by
    have hhead := hopened (of_decide_eq_true hkind)
    obtain ⟨tail, rfl⟩ := List.head?_eq_some_iff.1 hhead
    simp
  closed hkind hstop := by
    obtain ⟨hlength, hlast⟩ := hclosed (of_decide_eq_true hkind) (by rintro rfl; simp at hstop)
    obtain ⟨init, rfl⟩ := List.getLast?_eq_some_iff.1 hlast
    refine ⟨by dsimp only; omega, ?_⟩
    simp

theorem standsIn_of_mem_flushAt (hw : (Mode.word read).ReadFrom w r)
    (h : t ∈ flushAt read u.length (u.length + w.length)) : t.StandsIn (u ++ (w ++ r)) := by
  rcases flushAt_cases read u.length (u.length + w.length) with hnil | ⟨token, hkind, hone, hflush⟩
  · rw [hnil] at h
    cases h
  · rw [hflush] at h
    rw [List.mem_singleton.1 h]
    refine standsIn_of_tokenize ?_ (fun hk ↦ absurd hk hkind) fun hk ↦ absurd hk hkind
    have hread := hw [] fun _ ↦ rfl
    rw [List.append_nil, lex, hone] at hread
    exact hread

theorem Step.stands (h : Step u.length (u.length + w.length) m cs ts m' start')
    (hw : m.ReadFrom w (cs ++ r)) (hquote : m.inLiteral = true → w.head? = some '"') (ht : t ∈ ts) :
    t.StandsIn (u ++ (w ++ (cs ++ r))) := by
  cases h with
  | gap | opening => exact standsIn_of_mem_flushAt hw ht
  | mark read hkind =>
    rcases List.mem_append.1 ht with ht | ht
    · exact standsIn_of_mem_flushAt hw ht
    · have hmark := (mark_cases hkind).2
      have := standsIn_of_tokenize (u := u ++ w) (r := r) (lex_mark hkind [])
        (fun hk ↦ absurd hk hmark) fun hk ↦ absurd hk hmark
      rw [List.mem_singleton.1 ht]
      simpa using this
  | closing read =>
    have hread := hw ['"'] fun h ↦ absurd h (List.cons_ne_nil _ _)
    obtain ⟨tail, rfl⟩ := List.head?_eq_some_iff.1 (hquote rfl)
    have := standsIn_of_tokenize (u := u) (r := r) hread (fun _ ↦ rfl) fun _ _ ↦
      ⟨by simp, List.getLast?_concat⟩
    rw [List.mem_singleton.1 ht]
    simpa [Nat.add_assoc] using this
  | letter | escape | inner => cases ht

/-- **Every token stands in its line.** -/
theorem standsIn_of_mem_locate (hw : m.ReadFrom w s)
    (hquote : m.inLiteral = true → w.head? = some '"')
    (h : t ∈ locate m u.length (u.length + w.length) s) : t.StandsIn (u ++ (w ++ s)) := by
  generalize hstart : u.length = start at h
  generalize hi : start + w.length = i at h
  induction m, start, i, s using locate_induction generalizing u w with
  | hword read start i =>
    subst hi hstart
    rw [locate] at h
    exact standsIn_of_mem_flushAt hw h
  | hliteral read start i =>
    subst hi hstart
    rw [locate] at h
    have hread := hw [] fun _ ↦ rfl
    rw [List.append_nil] at hread
    rw [List.mem_singleton.1 h]
    exact standsIn_of_tokenize hread (fun _ ↦ hquote rfl) fun _ hne ↦ absurd rfl hne
  | @hstep m m' start i start' cs ts rest hstep hsplits ih =>
    subst hi hstart
    rw [hstep.locate_eq hsplits] at h
    have hword (read : List Char) : ¬(Mode.word read).inLiteral = true := Bool.false_ne_true
    have hhead {cs : List Char} (hm : m.inLiteral = true) : (w ++ cs).head? = some '"' := by
      rw [List.head?_append, hquote hm, Option.some_or]
    have hread (hts : ts = []) : m'.ReadFrom (w ++ cs) rest := hstep.readFrom hsplits hts hw
    rcases List.mem_append.1 h with hts | hrest
    · exact hstep.stands hw hquote hts
    cases hstep with
    | @gap c | @mark c =>
      have := ih (u := u ++ (w ++ [c])) (.nil rest) (fun h ↦ absurd h (hword _))
        (by simp [Nat.add_assoc]) rfl hrest
      simpa using this
    | closing =>
      have := ih (u := u ++ (w ++ ['"'])) (.nil rest) (fun h ↦ absurd h (hword _))
        (by simp [Nat.add_assoc]) rfl hrest
      simpa using this
    | opening =>
      have := ih (u := u ++ w) (.opened rest) (fun _ ↦ rfl) (by simp) rfl hrest
      simpa using this
    | letter =>
      have := ih (hread rfl) (fun h ↦ absurd h (hword _)) rfl (by simp [Nat.add_assoc]) hrest
      simpa using this
    | escape | inner =>
      have := ih (hread rfl) (fun _ ↦ hhead rfl) rfl (by simp [Nat.add_assoc]) hrest
      simpa using this

theorem standsIn_of_mem_located (h : t ∈ located line) : t.StandsIn line :=
  standsIn_of_mem_locate (u := []) (w := []) (.nil line) (fun h ↦ absurd h Bool.false_ne_true) h

end Stands

/-! ## The two machines -/

section Machines

variable {ts : List Located}

/-- The search for a comment takes the same steps, unless it has found one. -/
theorem Step.stripComment (h : Step start i m cs ts m' start') (hsplits : m.Splits cs rest)
    (hsemi : m.inLiteral = true ∨ ';' ∉ cs) :
    stripComment m.inLiteral (cs ++ rest) = cs ++ stripComment m'.inLiteral rest := by
  have hne {c : Char} (h : false = true ∨ ';' ∉ [c]) : c ≠ ';' := by
    rintro rfl
    simp at h
  cases h with
  | @gap c read hgap =>
    have hquote : c ≠ '"' := by
      rintro rfl
      cases hgap
    exact stripComment_outside hquote (hne hsemi) rest
  | opening => exact stripComment_quote false rest
  | mark read hkind => exact stripComment_outside (not_gap_of_mark hkind).2.1 (hne hsemi) rest
  | letter read _ hquote => exact stripComment_outside hquote (hne hsemi) rest
  | closing => exact stripComment_quote true rest
  | escape c => exact stripComment_escaped c rest
  | @inner c read hquote =>
    by_cases hc : c = '\\'
    · subst hc
      obtain rfl := hsplits rfl rfl
      rfl
    · exact stripComment_inside hquote hc rest

theorem Step.semicolon (h : Step start i m cs ts m' start')
    (hsemi : ¬(m.inLiteral = true ∨ ';' ∉ cs)) :
    m.inLiteral = false ∧ cs = [';'] ∧ m'.inLiteral = false := by
  obtain ⟨hm, hmem⟩ := not_or.1 hsemi
  have hmem := Decidable.not_not.1 hmem
  cases h with
  | gap | mark | letter => exact ⟨rfl, congrArg (· :: []) (List.mem_singleton.1 hmem).symm, rfl⟩
  | opening => cases List.mem_singleton.1 hmem
  | closing | escape | inner => exact absurd rfl hm

/-- Behind a semicolon between words, literals are still to come. -/
theorem Step.start_of_literal (h : Step start i m cs ts m' start') (hsplits : m.Splits cs rest)
    (hm : m.inLiteral = false) (hm' : m'.inLiteral = false) {t : Located}
    (ht : t ∈ locate m start i (cs ++ rest)) (hliteral : t.isLiteral = true) :
    i + cs.length ≤ t.start := by
  rw [h.locate_eq hsplits] at ht
  rcases List.mem_append.1 ht with ht | ht
  · exact absurd (h.literal.1 t ht hliteral).1 (Bool.eq_false_iff.1 hm)
  · exact (Token.start_of_literal ht hliteral).resolve_right fun h ↦
      absurd h.1 (Bool.eq_false_iff.1 hm')

/-- Text is kept as long as its semicolons are inside. -/
theorem takeWhile_zipIdx_append {inside : Nat → Bool}
    (h : ';' ∉ cs ∨ ∀ k, i ≤ k → k < i + cs.length → inside k = true) (rest : List Char) :
    (((cs ++ rest).zipIdx i).takeWhile fun p ↦ p.1 ≠ ';' || inside p.2).map (·.1) = cs ++
      ((rest.zipIdx (i + cs.length)).takeWhile fun p ↦ p.1 ≠ ';' || inside p.2).map (·.1) := by
  rw [List.zipIdx_append, List.takeWhile_append_of_pos, List.map_append, List.zipIdx_map_fst]
  rintro ⟨c, k⟩ hp
  obtain ⟨hle, hlt, -⟩ := List.mem_zipIdx hp
  rcases h with h | h
  · have hc : c ≠ ';' := fun hc ↦ h (hc ▸ List.fst_mem_of_mem_zipIdx hp)
    simp [hc]
  · simp [h k hle hlt]

/-- What is covered later on does not depend on the tokens of a step. -/
theorem Step.covers (h : Step start i m cs ts m' start') (hstart : start ≤ i)
    (hk : i + cs.length ≤ k) {us : List Located} :
    (∃ t ∈ ts ++ us, t.isLiteral = true ∧ t.Covers k) ↔ ∃ t ∈ us, t.isLiteral = true ∧
    t.Covers k := by
  obtain ⟨⟨-, hle⟩, hts, -⟩ := h.within hstart
  constructor
  · rintro ⟨t, ht, hliteral, hcovers⟩
    rcases List.mem_append.1 ht with ht | ht
    · have := (hts t ht).2
      have := hcovers.2
      omega
    · exact ⟨t, ht, hliteral, hcovers⟩
  · rintro ⟨t, ht, h⟩
    exact ⟨t, List.mem_append_right _ ht, h⟩

/-- A literal that is being read covers what the step has read. -/
theorem Step.exists_covers (h : Step start i m cs ts m' start') (hstart : start ≤ i)
    (hm : m.inLiteral = true) (hle : i ≤ k) (hlt : k < i + cs.length) :
    ∃ t ∈ ts ++ locate m' start' (i + cs.length) rest, t.isLiteral = true ∧ t.Covers k := by
  have hnext (h : m'.inLiteral = true) : ∃ t ∈ locate m' start' (i + cs.length) rest,
    t.isLiteral = true ∧ t.start = start' ∧ i + cs.length ≤ t.stop := exists_literal h
  cases h with
  | gap | opening | mark | letter => cases hm
  | closing => exact ⟨_, List.mem_cons_self, rfl, Nat.le_trans hstart hle, hlt⟩
  | escape | inner =>
    obtain ⟨t, ht, hliteral, rfl, hstop⟩ := hnext rfl
    exact ⟨t, ht, hliteral, Nat.le_trans hstart hle, Nat.lt_of_lt_of_le hlt hstop⟩

/-- **The search for a comment follows the literals**, wherever the two machines stand in a line.
`inside` are the places of the literals from here on. -/
theorem stripComment_eq_takeWhile (hstart : start ≤ i) (inside : Nat → Bool)
    (hinside : ∀ k, i ≤ k → (inside k = true ↔ ∃ t ∈ locate m start i s, t.isLiteral = true ∧
      t.Covers k)) :
    stripComment m.inLiteral s = ((s.zipIdx i).takeWhile fun p ↦ p.1 ≠ ';' || inside p.2).map
    (·.1) := by
  induction m, start, i, s using locate_induction with
  | hword | hliteral => rfl
  | @hstep m m' start i start' cs ts rest hstep hsplits ih =>
    by_cases hsemi : m.inLiteral = true ∨ ';' ∉ cs
    · rw [hstep.locate_eq hsplits] at hinside
      have hnext := ih (hstep.within hstart).1.2 fun k hk ↦
        (hinside k (Nat.le_of_add_right_le hk)).trans (hstep.covers hstart hk)
      rw [hstep.stripComment hsplits hsemi, hnext, takeWhile_zipIdx_append]
      exact hsemi.symm.imp_right fun hm k hle hlt ↦
        (hinside k hle).2 (hstep.exists_covers hstart hm hle hlt)
    · obtain ⟨hm, rfl, hm'⟩ := hstep.semicolon hsemi
      have houtside : inside i = false := by
        rw [Bool.eq_false_iff, Ne, hinside i (Nat.le_refl i)]
        rintro ⟨t, ht, hliteral, hk, -⟩
        exact absurd hk (Nat.not_le.2 (hstep.start_of_literal hsplits hm hm' ht hliteral))
      rw [hm, List.singleton_append, List.zipIdx_cons,
        List.takeWhile_cons_of_neg (by simp [houtside])]
      exact stripComment_semicolon rest

/-- The token is a literal that begins before a place of the line. -/
def Located.isLiteralBefore (k : Nat) (t : Located) : Bool := t.isLiteral && t.start < k

/-- **What is left of a line has the literals that begin in it**, and all of their text. -/
theorem filter_locate_stripComment (hstart : start ≤ i) (hopen : m.inLiteral = true → start < i)
    (hstop : i + (stripComment m.inLiteral s).length = stop) :
    (locate m start i (stripComment m.inLiteral s)).filter (·.isLiteral) =
      (locate m start i s).filter (·.isLiteralBefore stop) := by
  have hkept (t : Located) (h : t.isLiteralBefore stop = true) : t.isLiteral = true :=
    (Bool.and_eq_true_iff.1 h).1
  have hflush {read : List Char} {start i : Nat} (q : Located → Bool)
      (hq : ∀ t, q t = true → t.isLiteral = true) : (flushAt read start i).filter q = [] :=
    List.filter_eq_nil_iff.2 fun t ht h ↦
      Bool.eq_false_iff.1 (isLiteral_of_mem_flushAt ht) (hq t h)
  induction m, start, i, s using locate_induction with
  | hword read start i =>
    show (locate (.word read) start i []).filter _ = _
    rw [locate, hflush _ fun _ h ↦ h, hflush _ hkept]
  | hliteral read start i =>
    have hlt : start < stop := hstop ▸ hopen rfl
    show (locate (.literal read) start i []).filter _ = _
    simp [Located.isLiteralBefore, Located.isLiteral, literalToken, hlt]
  | @hstep m m' start i start' cs ts rest hstep hsplits ih =>
    by_cases hsemi : m.inLiteral = true ∨ ';' ∉ cs
    · rw [hstep.stripComment hsplits hsemi, List.length_append, ← Nat.add_assoc] at hstop
      have hsplits' : m.Splits cs (stripComment m'.inLiteral rest) := by
        intro hm hcs
        rw [hsplits hm hcs, stripComment]
      -- What the step completes is a literal from before.
      have hts : ts.filter (·.isLiteral) = ts.filter (·.isLiteralBefore stop) := by
        refine List.filter_congr fun t ht ↦ ?_
        cases hliteral : t.isLiteral with
        | false => simp [Located.isLiteralBefore, hliteral]
        | true =>
          obtain ⟨hm, hplace⟩ := hstep.literal.1 t ht hliteral
          have := hopen hm
          simp [Located.isLiteralBefore, hliteral]
          omega
      rw [hstep.stripComment hsplits hsemi, hstep.locate_eq hsplits, hstep.locate_eq hsplits',
        List.filter_append, List.filter_append, hts, ih (hstep.within hstart).1.2 ?_ hstop]
      intro hm'
      have hpos := List.length_pos_iff.2 hstep.ne_nil
      rcases hstep.literal.2 hm' with ⟨hm, rfl⟩ | rfl
      · exact Nat.lt_add_right _ (hopen hm)
      · omega
    · obtain ⟨hm, rfl, hm'⟩ := hstep.semicolon hsemi
      rw [hm, List.singleton_append, stripComment_semicolon] at hstop ⊢
      have hnone : (locate m start i (';' :: rest)).filter (·.isLiteralBefore stop) = [] := by
        refine List.filter_eq_nil_iff.2 fun t ht hbefore ↦ ?_
        obtain ⟨hliteral, hlt⟩ := Bool.and_eq_true_iff.1 hbefore
        have := hstep.start_of_literal hsplits hm hm' ht hliteral
        have := of_decide_eq_true hlt
        simp only [List.length_nil, List.length_singleton] at *
        omega
      rw [hnone]
      cases m with
      | word read => rw [locate, hflush _ fun _ h ↦ h]
      | literal => cases hm

theorem literals_stripComment (line : List Char) : literals (stripComment false line) =
      (literals line).filter (·.start < (stripComment false line).length) := by
  rw [literals, literals, List.filter_filter]
  simp only [Bool.and_comm (decide _)]
  exact filter_locate_stripComment (m := .word []) (Nat.le_refl 0)
    (fun h ↦ absurd h Bool.false_ne_true) (Nat.zero_add _)

end Machines

/-- **A comment begins at the first semicolon outside of the literals**, and none of them is cut.
The first part says what the literals of a line are: the tokens of the line have their places in it,
one behind the other, and a literal goes from its quote to the quote that closes it or to the end of
the line.  No semicolon but those of literals gets into a token of a source text. -/
theorem comments_begin_outside_literals (line : List Char) :
    ((located line).map (·.token) = tokenize line ∧ (∀ t ∈ located line, t.StandsIn line) ∧
      (located line).Pairwise fun t u ↦ t.stop ≤ u.start) ∧
    stripComment false line = uncommented line ∧
    literals (stripComment false line) =
      (literals line).filter (·.start < (stripComment false line).length) ∧
    ∀ src, ∀ row ∈ scan src, ∀ t ∈ row, ';' ∈ t.text.toList → t.kind = .string := by
  refine ⟨⟨token_locate _ _ _ _, fun _ ↦ standsIn_of_mem_located,
    ordered_locate (Nat.le_refl 0)⟩, ?_, literals_stripComment line,
    fun src row hrow t ht hsemi ↦ ?_⟩
  · have hinside (k : Nat) (_ : 0 ≤ k) : decide (∃ t ∈ literals line, t.Covers k) = true ↔
        ∃ t ∈ locate (.word []) 0 0 line, t.isLiteral = true ∧ t.Covers k := by
      simp [literals, located, and_assoc]
    rw [uncommented]
    simp only [Bool.decide_or]
    exact stripComment_eq_takeWhile (m := .word []) (Nat.le_refl 0) _ hinside
  · cases (printable_of_mem_scan hrow).legible t ht with
    | @word w line _ hw =>
      rw [show (Token.text _) = String.ofList w from text_classify w, String.toList_ofList] at hsemi
      exact absurd rfl (isInner_iff.1 (hw _ hsemi)).2.2.2.1
    | @mark c kind line hkind =>
      have hc : ';' = c := by simpa using hsemi
      rcases (mark_cases hkind).1 with rfl | rfl | rfl | rfl <;> cases hc
    | literal => rfl

/-- A semicolon and a protected quote in a literal, a comment, and a quote in the comment. -/
example : stripComment false "say \"a;\\\"b\" ; \"c".toList = "say \"a;\\\"b\" ".toList ∧
    (literals "say \"a;\\\"b\" ; \"c".toList).map
    (fun t ↦ (t.start, t.stop)) = [(4, 11), (14, 16)] := by
  decide +kernel

end ClassAsm.Token
