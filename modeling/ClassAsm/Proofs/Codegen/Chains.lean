import Mathlib.Data.List.Infix
import ClassAsm.Codegen.Chain
import ClassAsm.Proofs.Lists

/-!
# The shape of chains

`splitChain` reads a chain once and counts brackets as it goes.  What a chain is can be said of the
text alone: its brackets are balanced, and its dots outside brackets stand between other characters,
no two next to each other (`WellShaped`).  Behind every segment the same may follow, but for one
thing: a name needs a dot before it, unless it comes behind a bracket.  `Continued` says this of a
text and its segments.

`chains_are_cut_at_dots` says that exactly the chains are cut, what the segments are, and that a dot
before a bracket can be left out.
-/

namespace ClassAsm.Codegen

/-! ## Brackets -/

/-- The brackets of a text are balanced: none is closed before it is opened, and all are closed. -/
def Balanced (s : List Char) : Prop :=
  (∀ u, u <+: s → u.count ']' ≤ u.count '[') ∧ s.count ']' = s.count '['

/-- The number of open brackets behind a text, when there are `depth` before it. -/
def level (depth : Nat) : List Char → Option Nat
  | [] => some depth
  | c :: rest =>
    if c = '[' then level (depth + 1) rest
    else if c = ']' then if depth = 0 then none else level (depth - 1) rest
    else level depth rest

theorem level_eq_some_iff {depth d : Nat} {s : List Char} : level depth s = some d ↔
      (∀ u, u <+: s → u.count ']' ≤ depth + u.count '[') ∧
      d + s.count ']' = depth + s.count '[' := by
  induction s generalizing depth with
  | nil => simp [level, eq_comm]
  | cons c s ih =>
    have hprefix (P : List Char → Prop) : (∀ u, u <+: c :: s → P u) ↔ P [] ∧ ∀ u, u <+: s →
      P (c :: u) := by
      simp only [List.prefix_cons_iff, forall_eq_or_imp]
      grind
    have hnil := List.nil_prefix (l := s)
    rw [level, hprefix]
    split_ifs with hopen hclose hdepth
    · simp [ih, hopen, Nat.add_assoc, Nat.add_comm 1]
    · subst hclose hdepth
      refine iff_of_false nofun fun h ↦ ?_
      simpa using h.1.2 [] hnil
    · obtain ⟨k, rfl⟩ := Nat.exists_eq_succ_of_ne_zero hdepth
      subst hclose
      simp [ih]
      grind
    · simp [ih, hopen, hclose]

theorem balanced_iff {s : List Char} : Balanced s ↔ level 0 s = some 0 := by
  simp [level_eq_some_iff, Balanced]

theorem splitFrom_start {s : List Char} (hs : s ≠ []) :
    splitFrom none 0 [] s = splitFrom (some '.') 0 [] s := by
  cases s with
  | nil => exact absurd rfl hs
  | cons c s => simp [splitFrom]

/-- No two dots outside brackets are next to each other, when there are `depth` open brackets before
the text. -/
def Apart (depth : Nat) (s : List Char) : Prop :=
  ∀ u v, s = u ++ '.' :: '.' :: v → level depth u ≠ some 0

variable {previous : Option Char} {depth d : Nat} {c : Char} {read text rest : List Char}

/-- What is left of a chain behind the character `previous`, within `depth` brackets. -/
def Completes (previous : Option Char) (depth : Nat) (text : List Char) : Prop :=
  level depth text = some 0 ∧ Apart depth text ∧
  (depth = 0 → previous = some '.' → text.head? ≠ some '.') ∧
    text.getLast?.or previous ≠ some '.'

theorem level_cons (h : level depth [c] = some d) (text : List Char) :
    level depth (c :: text) = level d text := by
  simp only [level] at h ⊢
  grind

theorem apart_cons (h : level depth [c] = some d) :
    Apart depth (c :: rest) ↔ (depth = 0 → c = '.' → rest.head? ≠ some '.') ∧ Apart d rest := by
  constructor
  · refine fun hs ↦ ⟨?_, fun u v huv ↦ ?_⟩
    · rintro rfl rfl hhead
      obtain ⟨rest, rfl⟩ := List.head?_eq_some_iff.1 hhead
      exact hs [] rest rfl rfl
    · rw [← level_cons h]
      exact hs (c :: u) v (congrArg (c :: ·) huv)
  · rintro ⟨hhead, hs⟩ u v huv
    cases u with
    | nil =>
      obtain ⟨rfl, rfl⟩ := List.cons.inj huv
      exact fun hdepth ↦ hhead (Option.some.inj hdepth) rfl rfl
    | cons x u =>
      obtain ⟨rfl, rfl⟩ := List.cons.inj huv
      rw [level_cons h]
      exact hs u v rfl

theorem completes_cons (h : level depth [c] = some d) : Completes previous depth (c :: rest) ↔
      (depth = 0 → previous = some '.' → c ≠ '.') ∧ Completes (some c) d rest := by
  have hdot : (depth = 0 → c = '.' → rest.head? ≠ some '.') ↔
    (d = 0 → some c = some '.' → rest.head? ≠ some '.') := by
    simp only [level] at h
    grind
  simp only [Completes, level_cons h, apart_cons h, getLast?_cons_or, hdot, List.head?_cons, ne_eq,
    Option.some.injEq]
  grind

/-- **What is cut**: exactly what completes a chain. -/
theorem isSome_splitFrom_iff
    (hstart : depth = 0 → (read = [] ↔ previous = some '.' ∨ previous = some ']')) :
    (splitFrom previous depth read text).isSome ↔ Completes previous depth text := by
  fun_induction splitFrom previous depth read text with
  | case1 previous depth read hend =>
    simp only [Completes, level]
    grind
  | case2 => simp_all [Completes, level, Apart]
  | case3 previous depth read rest hbegun ih =>
    simp_all [completes_cons (show level 0 ['['] = some 1 from rfl)]
  | case4 previous depth read rest hbegun ih =>
    simp_all [completes_cons (show level depth ['['] = some (depth + 1) from rfl)]
  | case5 => simp [Completes, level]
  | case6 previous read rest _ ih =>
    simp_all [completes_cons (show level 1 [']'] = some 0 from rfl)]
  | case7 previous read rest d _ ih =>
    simp_all [completes_cons (show level (d + 2) [']'] = some (d + 1) from rfl)]
  | case8 previous depth read c rest _ _ hdot hread ih =>
    simp_all [completes_cons (show level 0 ['.'] = some 0 from rfl)]
  | case9 depth read c rest _ _ hdot hread ih =>
    simp_all [completes_cons (show level 0 ['.'] = some 0 from rfl)]
  | case10 => simp_all [Completes]
  | case11 previous depth read c rest hopen hclose hdot ih =>
    have hlevel : level depth [c] = some depth := by simp [level, hopen, hclose]
    have hfirst : depth = 0 → previous = some '.' → c ≠ '.' :=
      fun hdepth _ hc ↦ hdot (by simp [hdepth, hc])
    rw [completes_cons hlevel, and_iff_right hfirst]
    exact ih fun hdepth ↦ iff_of_false nofun (by grind)

/-! ## Segments -/

/-- A name without dots and brackets. -/
def SimpleName (name : List Char) : Prop := ∀ c ∈ name, c ≠ '.' ∧ c ≠ '[' ∧ c ≠ ']'

instance (name : List Char) : Decidable (SimpleName name) :=
  inferInstanceAs (Decidable (∀ c ∈ name, c ≠ '.' ∧ c ≠ '[' ∧ c ≠ ']'))

variable {segments : List (List Char)}

/-- A text that goes on behind a segment of a chain, and the segments that are still to come;
`closed` says whether that segment is a bracket group. -/
inductive Continued : Bool → List Char → List (List Char) → Prop where
  | done {closed : Bool} : Continued closed [] []
  | name {closed : Bool} {s n text : List Char} {segments : List (List Char)} :
      s = ['.'] ∨ (s = [] ∧ closed = true) → n ≠ [] → SimpleName n → Continued false text segments →
      Continued closed (s ++ (n ++ text)) (n :: segments)
  | group {closed : Bool} {s e text : List Char} {segments : List (List Char)} :
      s = ['.'] ∨ s = [] → level 0 e = some 0 → Continued true text segments →
      Continued closed (s ++ ('[' :: (e ++ ']' :: text))) (('[' :: (e ++ [']'])) :: segments)

/-- What is still to be read of a chain when `read` has been read of a segment, within `depth`
brackets. -/
inductive Remains : Option Char → Nat → List Char → List Char → List (List Char) → Prop where
  | inside : ∀ {previous d read e text segments}, level d e = some 0 →
      Continued true text segments →
      Remains previous (d + 1) read (e ++ ']' :: text) ((read.reverse ++ (e ++ [']'])) :: segments)
  | name : ∀ {previous read n text segments}, read ≠ [] → SimpleName n →
      Continued false text segments →
      Remains previous 0 read (n ++ text) ((read.reverse ++ n) :: segments)
  | closed : ∀ {text segments}, Continued true text segments → Remains (some ']') 0 [] text segments
  | opened : ∀ {text segments}, (∀ closed, Continued closed ('.' :: text) segments) →
      Remains (some '.') 0 [] text segments

theorem remains_of_name (hread : read ≠ []) (h : Continued false text segments) :
    Remains previous 0 read text (read.reverse :: segments) := by
  have hname : Remains previous 0 read ([] ++ text) ((read.reverse ++ []) :: segments) :=
    .name hread nofun h
  rwa [List.append_nil] at hname

theorem Remains.inside_cons {d' : Nat} (hlevel : level d [c] = some d')
    (h : Remains (some c) (d' + 1) (c :: read) text segments) :
    Remains previous (d + 1) read (c :: text) segments := by
  cases h with
  | @inside _ _ _ e _ _ he hrest =>
    rw [List.reverse_cons, List.append_assoc]
    exact .inside (e := c :: e) ((level_cons hlevel e).trans he) hrest

/-- **A chain is cut at its dots and brackets.** -/
theorem remains_of_splitFrom (h : splitFrom previous depth read text = some segments)
    (hstart : depth = 0 → read = [] → previous = some '.' ∨ previous = some ']') :
    Remains previous depth read text segments := by
  fun_induction splitFrom previous depth read text generalizing segments with
  | case1 | case5 | case10 => cases h
  | case2 previous depth read hend =>
    simp only [ne_eq, Bool.or_eq_true, decide_eq_true_eq, not_or, not_not] at hend
    obtain ⟨rfl, hdot⟩ := hend
    cases h
    cases read with
    | nil =>
      obtain rfl := (hstart rfl rfl).resolve_left hdot
      exact .closed .done
    | cons c read => exact remains_of_name (List.cons_ne_nil _ _) .done
  | case3 previous depth read rest hbegun ih =>
    simp only [Bool.and_eq_true, decide_eq_true_eq, Bool.not_eq_true',
      List.isEmpty_eq_false_iff] at hbegun
    obtain ⟨rfl, hread⟩ := hbegun
    obtain ⟨tail, htail, rfl⟩ := Option.map_eq_some_iff.1 h
    cases ih htail nofun with
    | inside he hrest => exact remains_of_name hread (.group (s := []) (.inr rfl) he hrest)
  | case4 previous depth read rest hbegun ih =>
    cases depth with
    | succ d => exact .inside_cons rfl (ih h nofun)
    | zero =>
      obtain rfl : read = [] := by simpa using hbegun
      cases ih h nofun with
      | inside he hrest =>
        rcases hstart rfl rfl with rfl | rfl
        · exact .opened fun _ ↦ .group (s := ['.']) (.inl rfl) he hrest
        · exact .closed (.group (s := []) (.inr rfl) he hrest)
  | case6 previous read rest _ ih =>
    obtain ⟨tail, htail, rfl⟩ := Option.map_eq_some_iff.1 h
    cases ih htail fun _ _ ↦ .inr rfl with
    | closed hrest =>
      rw [List.reverse_cons]
      exact .inside (e := []) rfl hrest
    | name hread => exact absurd rfl hread
  | case7 previous read rest d _ ih => exact .inside_cons rfl (ih h nofun)
  | case8 previous depth read c rest _ _ hdot hread ih =>
    simp only [Bool.and_eq_true, decide_eq_true_eq] at hdot
    obtain ⟨rfl, rfl⟩ := hdot
    obtain ⟨tail, htail, rfl⟩ := Option.map_eq_some_iff.1 h
    cases ih htail fun _ _ ↦ .inl rfl with
    | opened hrest => exact remains_of_name (by simpa using hread) (hrest false)
    | name hread => exact absurd rfl hread
  | case9 depth read c rest _ _ hdot hread ih =>
    simp only [Bool.and_eq_true, decide_eq_true_eq] at hdot
    obtain ⟨rfl, rfl⟩ := hdot
    obtain rfl : read = [] := by simpa using hread
    cases ih h fun _ _ ↦ .inl rfl with
    | opened hrest => exact .closed (hrest true)
    | name hread => exact absurd rfl hread
  | case11 previous depth read c rest hopen hclose hdot ih =>
    cases depth with
    | succ d => exact .inside_cons (by simp [level, hopen, hclose]) (ih h fun _ ↦ nofun)
    | zero =>
      cases ih h fun _ ↦ nofun with
      | @name _ _ name _ _ _ hname hrest =>
        have hplain : SimpleName (c :: name) :=
          List.forall_mem_cons.2 ⟨⟨by simpa using hdot, hopen, hclose⟩, hname⟩
        by_cases hread : read = []
        · subst hread
          rcases hstart rfl rfl with rfl | rfl
          · exact .opened fun _ ↦ .name (s := ['.']) (.inl rfl) (List.cons_ne_nil _ _) hplain hrest
          · exact .closed (.name (s := []) (.inr ⟨rfl, rfl⟩) (List.cons_ne_nil _ _) hplain hrest)
        · rw [List.reverse_cons, List.append_assoc]
          exact .name (n := c :: name) hread hplain hrest

theorem continued_of_splitFrom (hs : text ≠ []) (h : splitFrom none 0 [] text = some segments) :
    Continued false ('.' :: text) segments := by
  rw [splitFrom_start hs] at h
  cases remains_of_splitFrom h fun _ _ ↦ .inl rfl with
  | opened hrest => exact hrest false
  | name hread => exact absurd rfl hread

theorem splitChain_eq_some_iff :
    splitChain text = some segments ↔ text ≠ [] ∧ splitFrom none 0 [] text = some segments := by
  rw [splitChain]
  by_cases hs : text = []
  · subst hs
    exact iff_of_false nofun fun h ↦ h.1 rfl
  · rw [and_iff_right hs]
    split
    · rename_i hnil
      have hcontinued := continued_of_splitFrom hs hnil
      generalize hdot : '.' :: text = dotted at hcontinued
      cases hcontinued
      cases hdot
    · rfl

/-! ## What the segments are -/

/-- A segment of a chain: a name, or a whole bracket group. -/
def IsSegment (seg : List Char) : Prop :=
  (seg ≠ [] ∧ SimpleName seg) ∨ ∃ e, Balanced e ∧ seg = '[' :: (e ++ [']'])

theorem Continued.isSegment {closed : Bool} (h : Continued closed text segments) :
    ∀ seg ∈ segments, IsSegment seg := by
  induction h with
  | done => exact List.forall_mem_nil _
  | name _ hne hname _ ih => exact List.forall_mem_cons.2 ⟨.inl ⟨hne, hname⟩, ih⟩
  | group _ he _ ih => exact List.forall_mem_cons.2 ⟨.inr ⟨_, balanced_iff.2 he, rfl⟩, ih⟩

/-- A text without its dots outside brackets, when there are `depth` open brackets before it. -/
def undotted (depth : Nat) : List Char → List Char
  | [] => []
  | c :: rest =>
    if c = '[' then c :: undotted (depth + 1) rest
    else if c = ']' then c :: undotted (depth - 1) rest
    else if c = '.' ∧ depth = 0 then undotted depth rest
    else c :: undotted depth rest

theorem flatten_of_splitFrom (h : splitFrom previous depth read text = some segments) :
    segments.flatten = read.reverse ++ undotted depth text := by
  fun_induction splitFrom previous depth read text generalizing segments <;>
    grind [undotted, Option.map_eq_some_iff]

/-- A segment of a chain has at least one character, and no more than the text it is cut from. -/
theorem splitFrom_mem (h : splitFrom previous depth read text = some segments) :
    ∀ seg ∈ segments, seg ≠ [] ∧ seg.length ≤ read.length + text.length := by
  fun_induction splitFrom previous depth read text generalizing segments <;>
    grind [Option.map_eq_some_iff]

/-- A chain has a first segment, and its segments are no longer than itself. -/
theorem splitChain_mem {chain : List Char} (h : splitChain chain = some segments) :
    ∀ seg ∈ segments, seg ≠ [] ∧ seg.length ≤ chain.length := by
  simpa using splitFrom_mem (splitChain_eq_some_iff.1 h).2

/-! ## The dot before a bracket -/

/-- A dot between a segment and a bracket makes no difference. -/
theorem splitFrom_dot_bracket {u v : List Char} (hu : level depth u = some 0)
    (hlast : u.getLast?.or previous ≠ some '.')
    (hstart : depth = 0 → read = [] → previous = some '.' ∨ previous = some ']') :
    splitFrom previous depth read (u ++ '.' :: '[' :: v) =
    splitFrom previous depth read (u ++ '[' :: v) := by
  induction u generalizing previous depth read with
  | nil =>
    obtain rfl : depth = 0 := Option.some.inj hu
    by_cases hread : read = []
    · have hprevious : previous = some ']' := (hstart rfl hread).resolve_left hlast
      simp [splitFrom, hread, hprevious]
    · simp [splitFrom, hread]
  | cons c u ih =>
    have hlast : u.getLast?.or (some c) ≠ some '.' := getLast?_cons_or c u previous ▸ hlast
    -- Both texts are read alike up to the dot.
    rw [List.cons_append, List.cons_append, splitFrom.eq_def, splitFrom.eq_def previous]
    grind [level]

/-- Two steps that do the same, unless they fail. -/
def Same {α : Type} (m m' : Gen α) : Prop := ∀ s, (m s).toOption = (m' s).toOption

namespace Same

variable {α β : Type}

protected theorem rfl {m : Gen α} : Same m m := fun _ ↦ rfl

theorem bind {m m' : Gen α} {f f' : α → Gen β} (h : Same m m') (hf : ∀ a, Same (f a) (f' a)) :
    Same (m >>= f) (m' >>= f') := by
  intro s
  have hs := h s
  show (Except.bind (m s) fun r ↦ f r.1 r.2).toOption =
    (Except.bind (m' s) fun r ↦ f' r.1 r.2).toOption
  cases hm : m s <;> cases hm' : m' s <;> rw [hm, hm'] at hs <;> cases hs
  · rfl
  · exact hf _ _

variable {ctx : Context} {resolve resolve' : List Char → Gen Place} {chain chain' before : String}
  {seg : List Char}

theorem subscript {expr : List Char} (h : Same (resolve expr) (resolve' expr)) :
    Same (subscript resolve expr) (subscript resolve' expr) := by
  unfold Codegen.subscript
  cases Number.readInt64? expr with
  | some i => exact .rfl
  | none =>
    dsimp only
    split
    · exact .rfl
    · exact .bind h fun _ ↦ .rfl

/-- The text of a chain only matters for complaints. -/
theorem segment {previous : Option String}
    (h : ∀ inner, seg = '[' :: inner → Same (resolve inner.dropLast) (resolve' inner.dropLast)) :
    Same (segment ctx resolve chain previous seg) (segment ctx resolve' chain' previous seg) := by
  unfold Codegen.segment
  dsimp only
  split
  · exact .rfl
  · exact fun _ ↦ rfl
  · rename_i inner before
    refine .bind .rfl fun t ↦ ?_
    cases t with
    | array elem => exact .bind (.subscript (h inner rfl)) fun _ ↦ .rfl
    | _ => exact .rfl
  · exact .rfl
  · split
    · exact fun _ ↦ rfl
    · exact .rfl

theorem segmentsFrom {p : Place}
    (h : ∀ seg ∈ segments, ∀ inner, seg = '[' :: inner →
      Same (resolve inner.dropLast) (resolve' inner.dropLast)) :
    Same (segmentsFrom ctx resolve chain p before segments)
      (segmentsFrom ctx resolve' chain' p before segments) := by
  induction segments generalizing p before with
  | nil => exact .rfl
  | cons seg rest ih =>
    obtain ⟨hseg, hrest⟩ := List.forall_mem_cons.1 h
    exact .bind .rfl fun _ ↦ .bind (.segment hseg) fun _ ↦ ih hrest

/-- **Chains with the same segments do the same**, if there is room for the chains inside. -/
theorem resolveWithin {fuel fuel' : Nat} {chain chain' : List Char} (hfuel : chain.length < fuel)
    (hfuel' : chain'.length < fuel') (h : splitChain chain = splitChain chain') :
    Same (resolveWithin ctx fuel chain) (resolveWithin ctx fuel' chain') := by
  induction fuel generalizing fuel' chain chain' with
  | zero => cases hfuel
  | succ fuel ih =>
    cases fuel' with
    | zero => cases hfuel'
    | succ fuel' =>
      rw [Codegen.resolveWithin, Codegen.resolveWithin, ← h]
      cases hsplit : splitChain chain with
      | none => exact fun _ ↦ rfl
      | some segments =>
        have hinner : ∀ seg ∈ segments, ∀ inner, seg = '[' :: inner →
            Same (Codegen.resolveWithin ctx fuel inner.dropLast)
            (Codegen.resolveWithin ctx fuel' inner.dropLast) := by
          rintro _ hseg inner rfl
          have hlength := (splitChain_mem hsplit _ hseg).2
          have hlength' := (splitChain_mem (h ▸ hsplit) _ hseg).2
          grind
        cases segments with
        | nil => exact fun _ ↦ rfl
        | cons seg rest =>
          obtain ⟨hseg, hrest⟩ := List.forall_mem_cons.1 hinner
          exact .bind (.segment hseg) fun _ ↦ .segmentsFrom hrest

end Same

/-! ## Chains -/

/-- What a chain looks like. -/
structure WellShaped (s : List Char) : Prop where
  ne_nil : s ≠ []
  balanced : Balanced s
  head : s.head? ≠ some '.'
  last : s.getLast? ≠ some '.'
  /-- Two dots next to each other are not behind a text with balanced brackets. -/
  spaced : ∀ u v, s = u ++ '.' :: '.' :: v → ¬Balanced u

theorem exists_splitChain_iff {s : List Char} :
    (∃ segments, splitChain s = some segments) ↔ WellShaped s := by
  by_cases hs : s = []
  · subst hs
    exact iff_of_false nofun fun h ↦ h.ne_nil rfl
  have hshaped : Completes (some '.') 0 s ↔ WellShaped s := by
    obtain ⟨last, hlast⟩ := Option.ne_none_iff_exists'.1 (mt List.getLast?_eq_none_iff.1 hs)
    simp only [Completes, Apart, ← balanced_iff, ne_eq, hlast, Option.some_or, forall_const]
    exact ⟨fun ⟨hb, hspaced, hhead, hl⟩ ↦ ⟨hs, hb, hhead, hlast ▸ hl, hspaced⟩,
      fun h ↦ ⟨h.balanced, h.spaced, h.head, hlast ▸ h.last⟩⟩
  rw [← hshaped, ← @isSome_splitFrom_iff (some '.') 0 [] s fun _ ↦ by simp,
    Option.isSome_iff_exists, ← splitFrom_start hs]
  exact exists_congr fun segments ↦ splitChain_eq_some_iff.trans (and_iff_right hs)

/-- **Chains are cut at their dots and brackets.**  A text is cut if and only if it is a chain.  Its
segments are names and bracket groups, which make up the text but for the dots outside brackets.  A
dot between a segment and a bracket can be left out: the segments are the same, and so are the code
and the place that the chain is resolved to. -/
theorem chains_are_cut_at_dots (s : String) :
    ((∃ segments, splitChain s.toList = some segments) ↔ WellShaped s.toList) ∧
    (∀ segments, splitChain s.toList = some segments →
      (∀ seg ∈ segments, IsSegment seg) ∧ segments.flatten = undotted 0 s.toList) ∧
    ∀ u v, s.toList = u ++ '.' :: '[' :: v → u ≠ [] → u.getLast? ≠ some '.' → Balanced u →
      splitChain s.toList = splitChain (u ++ '[' :: v) ∧
        ∀ ctx, Same (resolve ctx s) (resolve ctx (String.ofList (u ++ '[' :: v))) := by
  refine ⟨exists_splitChain_iff, fun segments h ↦ ⟨?_, ?_⟩, fun u v hs hne hlast hu ↦ ?_⟩
  · obtain ⟨hs, h⟩ := splitChain_eq_some_iff.1 h
    exact (continued_of_splitFrom hs h).isSegment
  · simpa using flatten_of_splitFrom (splitChain_eq_some_iff.1 h).2
  · have hsplit : splitChain s.toList = splitChain (u ++ '[' :: v) := by
      obtain ⟨last, hlast'⟩ := Option.ne_none_iff_exists'.1 (mt List.getLast?_eq_none_iff.1 hne)
      rw [splitChain, splitChain, hs, splitFrom_start (by simp), splitFrom_start (by simp),
        splitFrom_dot_bracket (balanced_iff.1 hu) (by simpa [hlast'] using hlast) fun _ _ ↦
        .inl rfl]
    refine ⟨hsplit, fun ctx ↦ Same.resolveWithin (Nat.lt_succ_self _) (Nat.lt_succ_self _) ?_⟩
    rw [hsplit, String.toList_ofList]

theorem dotted_index_is_cut : WellShaped "this.rows.[a.[i]].name".toList ∧
      splitChain "this.rows.[a.[i]].name".toList = splitChain "this.rows[a.[i]].name".toList := by
  obtain ⟨hshaped, -, hspelled⟩ := chains_are_cut_at_dots "this.rows.[a.[i]].name"
  refine ⟨hshaped.1 ⟨["this".toList, "rows".toList, "[a.[i]]".toList, "name".toList],
    by decide +kernel⟩, ?_⟩
  exact (hspelled "this.rows".toList "a.[i]].name".toList (by decide) (by decide) (by decide)
    (balanced_iff.2 (by decide))).1

end ClassAsm.Codegen
