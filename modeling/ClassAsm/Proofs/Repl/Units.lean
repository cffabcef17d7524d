import Mathlib
import ClassAsm.Proofs.Compile
import ClassAsm.Proofs.Program.Image
import ClassAsm.Proofs.Token.Lines
import ClassAsm.Repl

/-!
# The units of a dialogue

The dialogue and the parser count open scopes in different ways: the dialogue looks at the first
token of each line, and the parser knows what is open.  `depth_parseRows` says that they agree on
all rows that the parser accepts.

For a text that is parsed as a whole, the lines are cut as `Cut` says: the lines of each class are a
unit, from the row that opens the class to the row that closes it, and a blank line between classes
is a unit of its own.  Inside of a class the count never comes down to zero before the last row
(`total_class_pos`), so that the dialogue takes just these units (`taken_of_nesting`).

## How it is put together

* `Level` and its rules are about rows alone: rows that close what they open can be put one behind
  the other and between a row that opens a scope and one that closes it.
* `exists_cut` goes from rows to lines.  Lines without tokens have no row; those inside of a class
  belong to its unit, and the others are units of their own.
* `inTurn_feed_flatten` is about the dialogue: lines that are `Taken` as units are handled one after
  the other, whatever is done with each of them.
-/

namespace ClassAsm.Repl

open Program Grammar Token

variable {lines : List String} {row : List Token} {rows : List (List Token)} {α : Type} {i n : Nat}
  {u u' : UnitTree} {units : List (List String)} {c : ClassTree}

/-! ## Counting scopes -/

/-- How rows change the number of open scopes. -/
def total (rows : List (List Token)) : Int := (rows.map rowNesting).sum

@[simp] theorem total_nil : total [] = 0 := rfl

@[simp] theorem total_cons (row : List Token) (rows : List (List Token)) :
    total (row :: rows) = rowNesting row + total rows := by
  simp [total]

@[simp] theorem total_append (rows rows' : List (List Token)) :
    total (rows ++ rows') = total rows + total rows' := by
  simp [total]

@[simp] theorem total_unlined (rows : List (List Token)) : total (unlined rows) = total rows := by
  have hrow (row : List Token) : rowNesting (row.map fun t ↦ { t with line := 0 }) =
    rowNesting row := by
    cases row <;> rfl
  simp [total, unlined, Function.comp_def, hrow]

theorem nesting_eq_total (line : String) : nesting line = total (scan line) := by
  have hfold (rows : List (List Token)) (d : Int) : rows.foldl (fun d row ↦ d + rowNesting row) d =
    d + total rows := by
    induction rows generalizing d with
    | nil => simp
    | cons row rows ih => simp [ih, Int.add_assoc]
  simp [nesting, hfold]

/-- The lines of a text change the number of open scopes as their rows do. -/
theorem sum_nesting (n : Nat) (h : ∀ l ∈ lines, '\n' ∉ l.toList) :
    (lines.map nesting).sum = total (rowsFrom n lines) := by
  induction lines generalizing n with
  | nil => rfl
  | cons l ls ih =>
    obtain ⟨hl, hls⟩ := List.forall_mem_cons.1 h
    have hline : nesting l = total (rowsFrom n [l]) := by
      rw [nesting_eq_total, scan_line hl, ← total_unlined, unlined_rowsFrom 1 n, total_unlined]
    rw [List.map_cons, List.sum_cons, ih (n + 1) hls, hline, rowsFrom_cons n l ls, total_append]

/-- A row changes the number of open scopes by what its first token says. -/
theorem depth_of_rowStep {closed closed' : Array ClassDecl} {scope scope' : Scope}
    (h : RowStep row closed scope closed' scope') :
    (scope'.depth : Int) = scope.depth + rowNesting row := by
  cases h with
  | openClass r => simp [ClassRow.tokens, rowNesting, r.keyword.2, Scope.depth]
  | closeClass e | closeRoutine e => simp [rowNesting, e.2, Scope.depth]
  | field r => simp [FieldRow.tokens, rowNesting, r.keyword.2, Scope.depth]
  | openRoutine r =>
    cases r with
    | func r => simp [RoutineHead.tokens, FuncRow.tokens, rowNesting, r.keyword.2, Scope.depth]
    | constructor r =>
      simp [RoutineHead.tokens, ConstructorRow.tokens, rowNesting, r.keyword.2, Scope.depth]
  | body r =>
    cases r with
    | instruction r => simp [BodyRow.tokens, rowNesting, r.word.2, Scope.depth]
    | label r => simp [BodyRow.tokens, rowNesting, r.word.2, Scope.depth]

variable {first last : List Token}

/-- **Rows change the number of scopes that the parser has open by their total.** -/
theorem depth_parseRows {s t : ParseState} (hnamed : Named rows) (h : parseRows s rows = .ok t) :
    (t.scope.depth : Int) = s.scope.depth + total rows := by
  induction rows generalizing s with
  | nil =>
    cases h
    simp
  | cons row rows ih =>
    obtain ⟨hrow, hrows⟩ := List.forall_mem_cons.1 hnamed
    cases row with
    | nil => simpa [rowNesting] using ih hrows h
    | cons head args =>
      rw [parseRows, parseRow] at h
      split at h
      · rename_i s' hs'
        split at hs'
        · rename_i u hu
          cases hs'
          obtain ⟨row, hread, hstep⟩ := rowStep_of_parseTokens hu
          rw [hread.eq_of_named hrow] at hstep
          have hrest := ih hrows h
          have hdepth := depth_of_rowStep hstep
          rw [total_cons]
          simp only at hrest
          omega
        · cases hs'
      · cases h

/-! ## The rows of a class -/

/-- The rows close what they open, and nothing else. -/
structure Level (rows : List (List Token)) : Prop where
  whole : total rows = 0
  front : ∀ i, 0 ≤ total (rows.take i)

theorem level_nil : Level [] := ⟨rfl, by simp⟩

theorem level_singleton (h : rowNesting row = 0) : Level [row] := by
  refine ⟨by simp [h], fun i ↦ ?_⟩
  cases i <;> simp [h]

theorem Level.append {rows' : List (List Token)} (h : Level rows) (h' : Level rows') :
    Level (rows ++ rows') := by
  refine ⟨by simp [h.whole, h'.whole], fun i ↦ ?_⟩
  rw [List.take_append, total_append]
  exact Int.add_nonneg (h.front i) (h'.front _)

theorem Level.flatMap {f : α → List (List Token)} (h : ∀ a, Level (f a)) (l : List α) :
    Level (l.flatMap f) := by
  induction l with
  | nil => exact level_nil
  | cons a l ih => exact (h a).append ih

/-- Rows between one that opens a scope and one that closes it. -/
theorem Level.block_pos (h : Level rows) (hfirst : rowNesting first = 1) (hpos : 0 < i)
    (hi : i < (first :: (rows ++ [last])).length) :
    0 < total ((first :: (rows ++ [last])).take i) := by
  obtain ⟨i, rfl⟩ := Nat.exists_eq_add_one_of_ne_zero (Nat.ne_of_gt hpos)
  have hle : i ≤ rows.length := Nat.le_of_lt_succ (by simpa using hi)
  have hfront := h.front i
  rw [List.take_succ_cons, List.take_append_of_le_length hle, total_cons, hfirst]
  omega

theorem Level.block (h : Level rows) (hfirst : rowNesting first = 1)
    (hlast : rowNesting last = -1) :
    Level (first :: (rows ++ [last])) := by
  have hwhole : total (first :: (rows ++ [last])) = 0 := by simp [h.whole, hfirst, hlast]
  refine ⟨hwhole, fun i ↦ ?_⟩
  rcases Nat.eq_zero_or_pos i with rfl | hpos
  · simp
  · by_cases hi : i < (first :: (rows ++ [last])).length
    · exact Int.le_of_lt (h.block_pos hfirst hpos hi)
    · exact Int.le_of_eq (by rw [List.take_of_length_le (Nat.not_lt.1 hi), hwhole])

theorem level_member (m : MemberTree) : Level m.rows := by
  cases m with
  | field r => exact level_singleton (by simp [FieldRow.tokens, rowNesting, r.keyword.2])
  | routine r =>
    have hrow (b : BodyRow) : rowNesting b.tokens = 0 := by
      cases b with
      | instruction r => simp [BodyRow.tokens, rowNesting, r.word.2]
      | label r => simp [BodyRow.tokens, rowNesting, r.word.2]
    have hbody : Level (r.body.map BodyRow.tokens) := by
      rw [List.map_eq_flatMap]
      exact Level.flatMap (fun b ↦ level_singleton (hrow b)) _
    refine hbody.block ?_ (by simp [rowNesting, r.close.2])
    cases r.head with
    | func f => simp [RoutineHead.tokens, FuncRow.tokens, rowNesting, f.keyword.2]
    | constructor f => simp [RoutineHead.tokens, ConstructorRow.tokens, rowNesting, f.keyword.2]

section Class

variable (c : ClassTree)

theorem rowNesting_class : rowNesting c.head.tokens = 1 := by
  simp [ClassRow.tokens, rowNesting, c.head.keyword.2]

theorem total_class : total c.rows = 0 :=
  ((Level.flatMap level_member c.members).block (rowNesting_class c)
    (by simp [rowNesting, c.close.2])).whole

/-- **A class is open until its last row.** -/
theorem total_class_pos (hpos : 0 < i) (hi : i < c.rows.length) : 0 < total (c.rows.take i) :=
  (Level.flatMap level_member c.members).block_pos (rowNesting_class c) hpos hi

end Class

/-! ## Cutting lines -/

/-- The lines have the rows of a class, from the first line to the last. -/
structure Spans (n : Nat) (lines : List String) (rows : List (List Token)) : Prop where
  reads : rowsFrom n lines = rows
  first : ∀ l, lines.head? = some l → rowsFrom n [l] ≠ []
  front : ∀ front back, lines = front ++ back → back ≠ [] → (rowsFrom n front).length < rows.length

/-- How lines are cut into units. -/
inductive Cut : Nat → List String → UnitTree → List (List String) → Prop where
  | nil {n : Nat} : Cut n [] [] []
  | blank {n : Nat} {l : String} {lines : List String} {u : UnitTree} {units : List (List String)} :
      rowsFrom n [l] = [] → Cut (n + 1) lines u units → Cut n (l :: lines) u ([l] :: units)
  | unit {n : Nat} {body lines : List String} {c : ClassTree} {u : UnitTree}
      {units : List (List String)} : Spans n body c.rows → Cut (n + body.length) lines u units →
      Cut n (body ++ lines) (c :: u) (body :: units)

/-- The first of the rows are those of the first lines. -/
theorem exists_front {more : List (List Token)} (hrows : rows ≠ [])
    (h : rowsFrom n lines = rows ++ more) :
    ∃ body rest, lines = body ++ rest ∧ rowsFrom n body = rows ∧
    rowsFrom (n + body.length) rest = more ∧
      ∀ front back, body = front ++ back → back ≠ [] → (rowsFrom n front).length < rows.length := by
  induction lines generalizing n rows with
  | nil => simp_all
  | cons l ls ih =>
    rw [rowsFrom_cons] at h
    -- The lines up to the last row that is asked for are taken; those before are counted with this
    -- one.
    have hlater {rows' : List (List Token)} (hrows' : rows' ≠ [])
      (heq : rows = rowsFrom n [l] ++ rows')
        (h : rowsFrom (n + 1) ls = rows' ++ more) :
        ∃ body rest, l :: ls = body ++ rest ∧ rowsFrom n body = rows ∧
        rowsFrom (n + body.length) rest = more ∧ ∀ front back, body = front ++ back → back ≠ [] →
        (rowsFrom n front).length < rows.length := by
      obtain ⟨body, rest, rfl, hbody, hrest, hfront⟩ := ih hrows' h
      refine ⟨l :: body, rest, rfl, by rw [rowsFrom_cons, hbody, heq], ?_,
        fun front back hsplit hback ↦ ?_⟩
      · rwa [List.length_cons, Nat.add_comm body.length, ← Nat.add_assoc]
      · cases front with
        | nil => simpa using List.length_pos_iff.2 hrows
        | cons l' front =>
          obtain ⟨rfl, rfl⟩ := List.cons.inj hsplit
          have hlt := hfront front back rfl hback
          simp only [rowsFrom_cons n l front, heq, List.length_append]
          omega
    obtain hline | ⟨row, hline⟩ := rowsFrom_singleton_cases n l
    · rw [hline, List.nil_append] at h
      exact hlater hrows (by rw [hline, List.nil_append]) h
    · obtain ⟨row', rows', rfl⟩ := List.exists_cons_of_ne_nil hrows
      rw [hline] at h
      obtain ⟨rfl, hrest⟩ := List.cons.inj h
      by_cases hnil : rows' = []
      · subst hnil
        refine ⟨[l], ls, rfl, hline, hrest, fun front back hsplit hback ↦ ?_⟩
        cases front with
        | nil => simp
        | cons l' front => simp_all
      · exact hlater hnil (by rw [hline]; rfl) hrest

/-- **The lines of a unit can be cut.** -/
theorem exists_cut (h : rowsFrom n lines = u.rows) : ∃ units, Cut n lines u units := by
  induction hk : lines.length using Nat.strongRecOn generalizing n lines u with
  | ind k ih =>
    cases lines with
    | nil =>
      cases u with
      | nil => exact ⟨[], .nil⟩
      | cons c u => cases h
    | cons l ls =>
      by_cases hline : rowsFrom n [l] = []
      · rw [rowsFrom_cons, hline, List.nil_append] at h
        obtain ⟨units, hunits⟩ := ih ls.length (hk ▸ Nat.lt_succ_self _) h rfl
        exact ⟨[l] :: units, .blank hline hunits⟩
      · cases u with
        | nil =>
          rw [rowsFrom_cons] at h
          exact absurd (List.append_eq_nil_iff.1 h).1 hline
        | cons c u =>
          have hsplit : rowsFrom n (l :: ls) = c.rows ++ UnitTree.rows u := h
          obtain ⟨body, rest, hlines, hbody, hrest, hfront⟩ :=
            exists_front (List.cons_ne_nil _ _) hsplit
          cases body with
          | nil => cases hbody
          | cons l' body =>
            obtain ⟨rfl, rfl⟩ := List.cons.inj hlines
            obtain ⟨units, hunits⟩ := ih rest.length (by simp at hk; omega) hrest rfl
            refine ⟨(l :: body) :: units, .unit ⟨hbody, fun l' hl' ↦ ?_, hfront⟩ hunits⟩
            cases hl'
            exact hline

/-! ## Feeding lines -/

/-- No line is pending. -/
structure Idle (s : State) : Prop where
  pending : s.pending = ""
  depth : s.depth = 0

/-- Go on after a step, unless the dialogue is over. -/
def Step.andThen (first : Step) (next : State → Step) : Step :=
  if first.quit then first else
    { next first.state with chunks := first.chunks ++ (next first.state).chunks }

/-- Do a step for each text in turn. -/
def inTurn (step : State → String → Step) (s : State) : List String → Step
  | [] => { state := s }
  | text :: rest => (step s text).andThen fun s ↦ inTurn step s rest

/-- The dialogue while lines are collected. -/
def State.collected (s : State) (lines : List String) : State :=
  { s with pending := joined lines, depth := (lines.map nesting).sum }

/-- The lines are one unit: nothing is handled before the last of them is fed, and then it is their
text. -/
def Taken (lines : List String) : Prop :=
  ∀ s, Idle s → inTurn feed s lines = handle s (joined lines) ∧
    ∀ front back, lines = front ++ back → back ≠ [] →
    inTurn feed s front = { state := s.collected front }

section Feeding

variable {s : State} {front : List String} {line : String}

theorem Step.andThen_assoc (first : Step) (next next' : State → Step) :
    (first.andThen next).andThen next' = first.andThen fun s ↦ (next s).andThen next' := by
  cases hfirst : first.quit <;> cases hnext : (next first.state).quit <;>
    simp [Step.andThen, hfirst, hnext]

theorem Step.andThen_congr {first : Step} {next next' : State → Step}
    (h : next first.state = next' first.state) : first.andThen next = first.andThen next' := by
  rw [Step.andThen, Step.andThen, h]

theorem Step.andThen_nothing (first : Step) : (first.andThen fun s ↦ { state := s }) = first := by
  cases first with
  | mk state chunks quit => cases quit <;> simp [Step.andThen]

theorem Step.nothing_andThen (s : State) (next : State → Step) :
    Step.andThen { state := s } next = next s := by
  simp [Step.andThen]

theorem inTurn_append (step : State → String → Step) (s : State) (ts ts' : List String) :
    inTurn step s (ts ++ ts') = (inTurn step s ts).andThen fun s ↦ inTurn step s ts' := by
  induction ts generalizing s with
  | nil => rw [inTurn, Step.nothing_andThen, List.nil_append]
  | cons t ts ih => simp only [List.cons_append, inTurn, ih, Step.andThen_assoc]

theorem inTurn_singleton (step : State → String → Step) (s : State) (t : String) :
    inTurn step s [t] = step s t :=
  Step.andThen_nothing _

theorem joined_concat (lines : List String) (l : String) :
    joined (lines ++ [l]) = joined lines ++ l ++ "\n" := by
  apply String.toList_inj.1
  simp [joined]

theorem joined_ne_empty (h : lines ≠ []) : joined lines ≠ "" := by
  obtain ⟨l, lines, rfl⟩ := List.exists_cons_of_ne_nil h
  intro hempty
  have hchars := congrArg String.toList hempty
  simp [joined] at hchars

theorem Idle.collected_nil (hs : Idle s) : s.collected [] = s := by
  obtain ⟨session, object, pending, depth, history⟩ := s
  obtain ⟨rfl, rfl⟩ := hs
  rfl

/-- A line that is fed after others, or that is no command. -/
theorem feed_collected (hs : Idle s)
    (hcolon : front = [] → (Text.trim line.toList).head? ≠ some ':') :
    feed (s.collected front) line =
      if ((front ++ [line]).map nesting).sum ≤ 0 then handle s (joined (front ++ [line]))
      else { state := s.collected (front ++ [line]) } := by
  have hno : ¬((s.collected front).pending = "" && (Text.trim line.toList).head? = some ':') =
    true := by
    simp only [Bool.and_eq_true, decide_eq_true_eq, not_and]
    intro hempty
    by_cases hfront : front = []
    · exact hcolon hfront
    · exact absurd hempty (joined_ne_empty hfront)
  have hidle : { s with pending := "", depth := 0 } = s := hs.collected_nil
  rw [feed, if_neg hno]
  simp only [State.collected, joined_concat, List.map_append, List.map_singleton, List.sum_append,
    List.sum_singleton, hidle]

/-- **Lines that leave a scope open until the last of them are a unit.** -/
theorem taken_of_nesting (hne : lines ≠ [])
    (hcolon : ∀ l, lines.head? = some l → (Text.trim l.toList).head? ≠ some ':')
    (hend : (lines.map nesting).sum ≤ 0) (hopen : ∀ front back, lines = front ++ back → front ≠ [] →
      back ≠ [] → 0 < (front.map nesting).sum) :
    Taken lines := by
  intro s hs
  have hfeed (front back : List String) (l : String) (h : lines = front ++ [l] ++ back) :
      feed (s.collected front) l = if back = [] then handle s (joined lines)
        else { state := s.collected (front ++ [l]) } := by
    rw [feed_collected hs fun hfront ↦ hcolon l (by simp [h, hfront])]
    by_cases hback : back = []
    · rw [hback, List.append_nil] at h
      rw [if_pos hback, ← h, if_pos hend]
    · have hpos := hopen (front ++ [l]) back h (by simp) hback
      rw [if_neg hback, if_neg (Int.not_le.2 hpos)]
  -- Lines are fed behind those that have been collected.
  have hmore (more front back : List String) (h : lines = front ++ more ++ back)
    (hback : back ≠ []) :
      inTurn feed (s.collected front) more = { state := s.collected (front ++ more) } := by
    induction more generalizing front with
    | nil => simp [inTurn]
    | cons l more ih =>
      have hl := hfeed front (more ++ back) l (by simp [h])
      rw [if_neg (by simp [hback])] at hl
      rw [inTurn, hl, Step.nothing_andThen]
      simpa using ih (front ++ [l]) (by simp [h])
  have hfront (front back : List String) (h : lines = front ++ back) (hback : back ≠ []) :
      inTurn feed s front = { state := s.collected front } := by
    simpa [hs.collected_nil] using hmore front [] back h hback
  refine ⟨?_, hfront⟩
  obtain ⟨front, last, hlines⟩ : ∃ front last, lines = front ++ [last] :=
    ⟨_, _, (List.dropLast_concat_getLast hne).symm⟩
  have hlast := hfeed front [] last (by simp [hlines])
  rw [if_pos rfl] at hlast
  rw [← hlast, hlines, inTurn_append, hfront front [last] hlines (by simp), Step.nothing_andThen,
    inTurn_singleton]

end Feeding

/-! ## What is handled -/

section Handling

variable {s : State}

theorem ask_keeps {act : Session.Request α} {f : α → State → State × Reply}
    (hf : ∀ a s, Idle s → Idle (f a s).1) (hs : Idle s) : Idle (ask s act f).1 := by
  have hsession (s : State) (session : Session) (hs : Idle s) : Idle { s with session } :=
    ⟨hs.1, hs.2⟩
  rw [ask]
  split
  · rename_i a session _
    have h := hf a { s with session } (hsession s session hs)
    dsimp only
    split <;> exact hsession _ _ h
  · exact hsession _ _ (hsession _ _ hs)

theorem idle_onObject {act : Nat → Session.Request Value} (hs : Idle s) :
    Idle (onObject s act).1 := by
  rw [onObject]
  split
  · exact hs
  · exact ask_keeps (fun _ _ h ↦ h) hs

theorem idle_command (words : List String) (hs : Idle s) : Idle (command s words).1 := by
  have hnew (name : String) (i : Int) : Idle (newCommand s name i).1 :=
    ask_keeps (fun _ _ h ↦ ⟨h.1, h.2⟩) hs
  rw [command.eq_def]
  split
  case h_3 => exact hnew _ _
  case h_4 =>
    split
    · exact hs
    · exact hnew _ _
  case h_5 | h_7 => exact idle_onObject hs
  case h_9 =>
    rw [dumpCommand]
    split <;> exact hs
  all_goals exact hs

theorem Idle.handle (hs : Idle s) (unit : String) : Idle (handle s unit).state := by
  have hhistory (history : List String) : Idle { s with history } := ⟨hs.1, hs.2⟩
  simp only [Repl.handle]
  split
  · exact hs
  · split
    · split
      · exact hhistory _
      · generalize Text.words (Text.trimmed unit) = words
        exact idle_command words (hhistory _)
    · exact ask_keeps (fun _ _ h ↦ h) (hhistory _)

/-- **Units are handled one after the other.** -/
theorem inTurn_feed_flatten (h : ∀ lines ∈ units, Taken lines) (hs : Idle s) :
    inTurn feed s units.flatten = inTurn handle s (units.map joined) := by
  induction units generalizing s with
  | nil => simp only [List.flatten_nil, List.map_nil, inTurn]
  | cons lines units ih =>
    obtain ⟨hlines, hunits⟩ := List.forall_mem_cons.1 h
    simp only [List.flatten_cons, inTurn_append, (hlines s hs).1, List.map_cons, inTurn]
    exact Step.andThen_congr (ih hunits (hs.handle _))

end Handling

/-- Whether lines have a token. -/
def hasTokens (lines : List String) : Bool := !(scan (joined lines)).isEmpty

/-- Whether a text is handled as a command. -/
def isCommand (text : String) : Bool := (Text.trimmed text).toList.head? = some ':'

theorem isCommand_joined (l : String) (lines : List String)
    (h : (Text.trim l.toList).head? ≠ some ':') (hblank : (Text.trim l.toList).head? = none →
      lines = []) : isCommand (joined (l :: lines)) = false := by
  have hhead : (Text.trim (joined (l :: lines)).toList).head? = (Text.trim l.toList).head? := by
    simp only [joined, String.toList_ofList, List.flatMap_cons, Text.head?_trim,
      List.find?_append] at hblank ⊢
    cases hl : l.toList.find? (!Text.isBlank ·) with
    | some c => simp
    | none =>
      rw [hblank hl]
      decide
  simpa [isCommand, Text.trimmed, hhead] using h

section Cut

theorem Cut.flatten (h : Cut n lines u units) : units.flatten = lines := by
  induction h with
  | nil => rfl
  | blank _ _ ih => simp [ih]
  | unit _ _ ih => simp [ih]

theorem taken_blank {l : String} (hline : '\n' ∉ l.toList) (h : rowsFrom n [l] = []) :
    Taken [l] ∧ isCommand (joined [l]) = false := by
  have hcolon : (Text.trim l.toList).head? ≠ some ':' := fun hcolon ↦ by
    obtain ⟨ts, hts⟩ := rowsFrom_of_colon n hcolon
    rw [h] at hts
    cases hts
  refine ⟨taken_of_nesting (List.cons_ne_nil _ _) (fun l' hl' ↦ Option.some.inj hl' ▸ hcolon) ?_ ?_,
    isCommand_joined l [] hcolon fun _ ↦ rfl⟩
  · rw [sum_nesting n (List.forall_mem_singleton.2 hline), h]
    exact Int.le_refl 0
  · rintro front back hsplit hfront hback
    have hlength := congrArg List.length hsplit
    have := List.length_pos_iff.2 hfront
    have := List.length_pos_iff.2 hback
    simp only [List.length_singleton, List.length_append] at hlength
    omega

variable (hlines : ∀ l ∈ lines, '\n' ∉ l.toList)

include hlines

theorem taken_class (h : Spans n lines c.rows) :
    Taken lines ∧ isCommand (joined lines) = false := by
  obtain ⟨l, ls, rfl⟩ : ∃ l ls, lines = l :: ls := by
    refine List.exists_cons_of_ne_nil ?_
    rintro rfl
    cases h.reads
  have hfirst := h.first l rfl
  have hcolon : (Text.trim l.toList).head? ≠ some ':' := fun hcolon ↦ by
    obtain ⟨ts, hts⟩ := rowsFrom_of_colon n hcolon
    have hrows := h.reads
    rw [rowsFrom_cons, hts] at hrows
    have hhead := (List.cons.inj (List.cons.inj hrows).1).1
    cases (congrArg kind hhead).trans c.head.keyword.2
  refine ⟨taken_of_nesting (List.cons_ne_nil _ _) (fun l' hl' ↦ Option.some.inj hl' ▸ hcolon) ?_ ?_,
    isCommand_joined l ls hcolon fun hnone ↦ ?_⟩
  · exact Int.le_of_eq (by rw [sum_nesting n hlines, h.reads, total_class])
  · intro front back hsplit hfront hback
    have hreads := h.reads
    rw [hsplit, rowsFrom_append] at hreads
    have htake : rowsFrom n front = c.rows.take (rowsFrom n front).length := by
      rw [← hreads, List.take_left]
    have hpos : 0 < (rowsFrom n front).length := by
      obtain ⟨l', front, rfl⟩ := List.exists_cons_of_ne_nil hfront
      obtain rfl := (List.cons.inj hsplit).1
      rw [rowsFrom_cons, List.length_append]
      exact Nat.add_pos_left (List.length_pos_iff.2 hfirst) _
    have hfrontLines : ∀ l ∈ front, '\n' ∉ l.toList := fun l' hl' ↦
      hlines l' (hsplit ▸ List.mem_append_left _ hl')
    rw [sum_nesting n hfrontLines, htake]
    exact total_class_pos c hpos (h.front front back hsplit hback)
  · obtain ⟨ch, hch⟩ := exists_of_rowsFrom_ne_nil hfirst
    cases hnone.symm.trans hch

/-- **All that is cut is taken, and nothing of it as a command.** -/
theorem Cut.taken (h : Cut n lines u units) :
    ∀ unit ∈ units, Taken unit ∧ isCommand (joined unit) = false := by
  induction h with
  | nil => nofun
  | blank hblank _ ih =>
    obtain ⟨hline, hlines⟩ := List.forall_mem_cons.1 hlines
    exact List.forall_mem_cons.2 ⟨taken_blank hline hblank, ih hlines⟩
  | unit hspans _ ih =>
    obtain ⟨hbody, hlines⟩ := List.forall_mem_append.1 hlines
    exact List.forall_mem_cons.2 ⟨taken_class hbody hspans, ih hlines⟩

theorem unlined_scan_joined (n : Nat) :
    unlined (scan (joined lines)) = unlined (rowsFrom n lines) := by
  rw [scan_joined hlines, unlined_rowsFrom 1 n]

theorem hasTokens_eq (n : Nat) : hasTokens lines = !(rowsFrom n lines).isEmpty := by
  have hlength := congrArg List.length (unlined_scan_joined hlines n)
  simp only [unlined, List.length_map] at hlength
  rw [hasTokens, Bool.eq_iff_iff]
  simp only [Bool.not_eq_true', List.isEmpty_eq_false_iff, ← List.length_pos_iff, hlength]

theorem not_hasTokens_of_blank (hblank : rowsFrom n lines = []) : hasTokens lines = false := by
  rw [hasTokens_eq hlines n, hblank]
  rfl

theorem Spans.hasTokens (h : Spans n lines c.rows) : hasTokens lines = true := by
  rw [hasTokens_eq hlines n, h.reads]
  rfl

/-- **The units with tokens have the rows of the classes.** -/
theorem Cut.classes (h : Cut n lines u units) :
    (units.filter hasTokens).map (fun unit ↦ unlined (scan (joined unit))) = u.map fun c ↦
    unlined c.rows := by
  induction h with
  | nil => rfl
  | @blank n l lines u units hblank _ ih =>
    obtain ⟨hline, hlines⟩ := List.forall_mem_cons.1 hlines
    have hempty := not_hasTokens_of_blank (List.forall_mem_singleton.2 hline) hblank
    rw [List.filter_cons_of_neg (by simp [hempty]), ih hlines]
  | @unit n body lines c u units hspans _ ih =>
    obtain ⟨hbody, hlines⟩ := List.forall_mem_append.1 hlines
    have htokens := hspans.hasTokens hbody
    rw [List.filter_cons_of_pos htokens, List.map_cons, List.map_cons, ih hlines,
      unlined_scan_joined hbody n, hspans.reads]

/-- The first units have the rows of the first classes. -/
theorem Cut.take (h : Cut n lines u units) (i : Nat) :
    rowsFrom n (units.take i).flatten =
    UnitTree.rows (u.take ((units.take i).countP hasTokens)) := by
  induction h generalizing i with
  | nil => simp [UnitTree.rows]
  | @blank n l lines u units hblank _ ih =>
    obtain ⟨hline, hlines⟩ := List.forall_mem_cons.1 hlines
    have hempty := not_hasTokens_of_blank (List.forall_mem_singleton.2 hline) hblank
    cases i with
    | zero => simp [UnitTree.rows]
    | succ i =>
      rw [List.take_succ_cons, List.flatten_cons, rowsFrom_append, hblank, List.nil_append,
        List.countP_cons_of_neg (by simp [hempty])]
      exact ih hlines i
  | @unit n body lines c u units hspans _ ih =>
    obtain ⟨hbody, hlines⟩ := List.forall_mem_append.1 hlines
    have htokens := hspans.hasTokens hbody
    cases i with
    | zero => simp [UnitTree.rows]
    | succ i =>
      rw [List.take_succ_cons, List.flatten_cons, rowsFrom_append, hspans.reads,
        List.countP_cons_of_pos htokens, List.take_succ_cons, ih hlines i]
      rfl

end Cut

/-! ## The dialogue and the parser -/

/-- A unit is parsed if its classes are, and so is each part of it. -/
theorem parse_rows (hu : u.Admissible) (hnamed : Named u.rows) : parse u.rows = .ok u.program :=
  (parse_eq_ok_iff hnamed).2 ⟨u, u.filter_rows.symm, hu, rfl⟩

theorem admissible_sublist (hu : u.Admissible) (h : u'.Sublist u) : UnitTree.Admissible u' :=
  ⟨hu.names.sublist (h.map _), fun c hc ↦ hu.classes c (h.subset hc)⟩

theorem named_sublist (hu : Named u.rows) (h : u'.Sublist u) : Named (UnitTree.rows u') := by
  intro row hrow
  obtain ⟨c, hc, hrow⟩ := List.mem_flatMap.1 hrow
  exact hu row (List.mem_flatMap.2 ⟨c, h.subset hc, hrow⟩)

/-- **The dialogue counts scopes as the parser does, and takes the classes of a text one by one.**
As long as the parser accepts the lines, their nesting is the number of open scopes.  The lines of a
text that is parsed are cut into units, and feeding the lines does what handling the units does,
none of which is a command.  The units that have tokens have the rows of the classes, in their
order; and after each unit the parser stands between two classes. -/
theorem dialogue_takes_classes (src : String) :
    (∀ (m : Nat) (t : ParseState), parseRows {} (scan (joined ((linesOf src).take m))) = .ok t →
      (((linesOf src).take m).map nesting).sum = t.scope.depth) ∧
    ∀ p : ClassAsm.Program, parse (scan src) = .ok p →
      ∃ (units : List (List String)) (classes : List (List (List Token))),
        units.flatten = linesOf src ∧
        (∀ unit ∈ units, Taken unit ∧ isCommand (joined unit) = false) ∧
        (∀ s, Idle s → inTurn feed s (linesOf src) = inTurn handle s (units.map joined)) ∧
        classes.flatten = scan src ∧
        classes.map parse = p.classes.toList.map (fun c ↦ .ok ⟨#[c]⟩) ∧
        (units.filter hasTokens).map (fun unit ↦ unlined (scan (joined unit))) =
          classes.map unlined ∧
        ∀ i, parse (scan (joined (units.take i).flatten)) =
          .ok ⟨p.classes.take ((units.take i).countP hasTokens)⟩ := by
  have hlines : ∀ l ∈ linesOf src, '\n' ∉ l.toList := fun l hl ↦ newline_not_mem_linesOf hl
  refine ⟨fun m t ht ↦ ?_, fun p hp ↦ ?_⟩
  · have htake : ∀ l ∈ (linesOf src).take m, '\n' ∉ l.toList :=
      fun l hl ↦ hlines l (List.mem_of_mem_take hl)
    have hdepth := depth_parseRows (named_scan _) ht
    rw [sum_nesting 1 htake, ← scan_joined htake, hdepth]
    exact (Int.zero_add _).symm
  · have hnamed := named_scan src
    obtain ⟨u, hrows, hu, rfl⟩ := (parse_eq_ok_iff hnamed).1 hp
    rw [filter_scan] at hrows
    obtain ⟨units, hcut⟩ := exists_cut ((scan_eq src).symm.trans hrows.symm)
    have hparse {u' : UnitTree} (h : u'.Sublist u) : parse u'.rows = .ok u'.program :=
      parse_rows (admissible_sublist hu h) (named_sublist (hrows ▸ hnamed) h)
    have htaken := hcut.taken hlines
    refine ⟨units, u.map ClassTree.rows, hcut.flatten, htaken, fun s hs ↦ ?_, ?_, ?_, ?_,
      fun i ↦ ?_⟩
    · rw [← inTurn_feed_flatten (fun unit hunit ↦ (htaken unit hunit).1) hs, hcut.flatten]
    · rw [← hrows, UnitTree.rows, List.flatMap_def]
    · simp only [UnitTree.program, List.map_map]
      refine List.map_congr_left fun c hc ↦ ?_
      simpa [UnitTree.rows, UnitTree.program] using hparse (List.singleton_sublist.2 hc)
    · rw [hcut.classes hlines, List.map_map]
      rfl
    · have hfirst : ∀ l ∈ (units.take i).flatten, '\n' ∉ l.toList := fun l hl ↦ by
        obtain ⟨unit, hunit, hl⟩ := List.mem_flatten.1 hl
        exact hlines l (hcut.flatten ▸ List.mem_flatten.2 ⟨unit, List.mem_of_mem_take hunit, hl⟩)
      rw [scan_joined hfirst, hcut.take hlines i, hparse (List.take_sublist _ _)]
      simp [UnitTree.program, List.map_take]

/-- A sample: two classes with comments and a blank line in them and between them. -/
def twoClasses : String :=
  "class A ; end\n\nfunc f\nend\nend\n; :quit\nclass B\nend"

theorem twoClasses_taken :
    (∃ t, parseRows {} (scan (joined ((linesOf twoClasses).take 3))) = .ok t ∧ t.scope.depth = 2 ∧
      (((linesOf twoClasses).take 3).map nesting).sum = t.scope.depth) ∧
    ∃ p, parse (scan twoClasses) = .ok p ∧ p.classes.size = 2 ∧
      ∃ units : List (List String), units.flatten = linesOf twoClasses ∧
      (units.filter hasTokens).length = 2 ∧
        inTurn feed (start {} []) (linesOf twoClasses) =
        inTurn handle (start {} []) (units.map joined) := by
  obtain ⟨hfirst, hwhole⟩ := dialogue_takes_classes twoClasses
  have hopen : (parseRows {} (scan (joined ((linesOf twoClasses).take 3)))).toOption.any
    (·.scope.depth = 2) := by
    decide +kernel
  have hread : (parse (scan twoClasses)).toOption.any (·.classes.size = 2) := by decide +kernel
  simp only [Option.any_eq_true, decide_eq_true_eq] at hopen hread
  obtain ⟨t, ht, hdepth⟩ := hopen
  obtain ⟨p, hp, hsize⟩ := hread
  have ht := eq_of_toOption ht
  have hp := eq_of_toOption hp
  obtain ⟨units, classes, hflatten, -, hfeed, -, hclasses, hrows, -⟩ := hwhole p hp
  refine ⟨⟨t, ht, hdepth, hfirst 3 t ht⟩, p, hp, hsize, units, hflatten, ?_, hfeed _ ⟨rfl, rfl⟩⟩
  have hcount := congrArg List.length hrows
  have hcount' := congrArg List.length hclasses
  simp only [List.length_map, Array.length_toList] at hcount hcount'
  omega

end ClassAsm.Repl
