import ClassAsm.Files.Sandbox

/-!
# What is inside a sandbox

The components of a path in normal form that starts at the root of the file system are names: none
is empty, `.` or `..`.  So such a path is inside a directory if its components go on where those of
the directory end (`Path.Below`), and the test of the sandbox, which compares texts, says the same
(`isPrefix_iff_below`), with one exception: the text of the root of the file system ends in a slash
already, and nothing starts with two.

`resolved_path_is_inside` says that the sandbox only hands out what is inside, and
`refused_path_is_outside` that it refuses what is not, and everything below the root of the file
system.
-/

namespace ClassAsm.Files

namespace Path

variable {root p : Path} {rooted : Bool} {done parts : List String} {part s : String}

/-! ## Texts and their components -/

theorem split_ne_nil (s : String) : split s ≠ [] :=
  mt List.map_eq_nil_iff.1 (List.splitOn_ne_nil _ _)

theorem split_append (s t : String) : split (s ++ "/" ++ t) = split s ++ split t := by
  simp [split, List.append_assoc, List.splitOn_append_cons_self]

theorem split_intercalate (hne : parts ≠ []) (h : ∀ part ∈ parts, '/' ∉ part.toList) :
    split (String.intercalate "/" parts) = parts := by
  have hsplit :=
    List.splitOn_intercalate '/' (List.forall_mem_map.2 h) (mt List.map_eq_nil_iff.1 hne)
  have htexts : (parts.map String.toList).map String.ofList = parts := by simp
  rw [split, String.toList_intercalate]
  exact (congrArg _ hsplit).trans htexts

theorem slash_not_mem_of_mem_split (h : part ∈ split s) : '/' ∉ part.toList := by
  obtain ⟨piece, hpiece, rfl⟩ := List.mem_map.1 h
  rw [String.toList_ofList]
  exact Text.not_mem_of_mem_splitOn hpiece

/-! ## Names -/

/-- A component that is the name of something in a directory. -/
def IsName (part : String) : Prop := part ≠ "" ∧ part ≠ "." ∧ part ≠ ".." ∧ '/' ∉ part.toList

/-- What holds of the components of a path holds of those of its normal form, if it holds of `..`
where that can stay in front. -/
theorem forall_mem_foldl_follow {P : String → Prop} (hup : rooted = false → P "..")
    (hdone : ∀ p ∈ done, P p) (hparts : ∀ part ∈ parts, part ≠ "" → part ≠ "." → part ≠ ".." →
      P part) :
    ∀ p ∈ parts.foldl (follow rooted) done, P p := by
  induction parts generalizing done with
  | nil => exact hdone
  | cons part parts ih =>
    refine ih ?_ fun p hp ↦ hparts p (List.mem_cons_of_mem _ hp)
    rw [follow.eq_def]
    split
    · exact hdone
    rename_i hskip
    split
    · split
      · split
        · nofun
        · rename_i hrooted
          exact List.forall_mem_singleton.2 (hup (Bool.not_eq_true _ ▸ hrooted))
      · split
        · rename_i hlast
          exact List.forall_mem_cons.2 ⟨hlast ▸ hdone _ List.mem_cons_self, hdone⟩
        · exact fun p hp ↦ hdone p (List.mem_cons_of_mem _ hp)
    · rename_i hup
      rw [not_or] at hskip
      exact List.forall_mem_cons.2 ⟨hparts part List.mem_cons_self hskip.1 hskip.2 hup, hdone⟩

theorem slash_not_mem_of_mem_ofText (h : part ∈ (ofText s).parts) : '/' ∉ part.toList := by
  refine forall_mem_foldl_follow (P := fun p ↦ '/' ∉ p.toList) (fun _ ↦ by decide)
    (List.forall_mem_nil _) ?_ part (List.mem_reverse.1 h)
  exact fun p hp _ _ _ ↦ slash_not_mem_of_mem_split hp

theorem isName_of_mem_ofText (hs : s.toList.head? = some '/') (h : part ∈ (ofText s).parts) :
    IsName part := by
  refine forall_mem_foldl_follow ?_ (List.forall_mem_nil _) ?_ part (List.mem_reverse.1 h)
  · exact fun hrooted ↦ absurd hs (of_decide_eq_false hrooted)
  · exact fun p hp hempty hdot hup ↦ ⟨hempty, hdot, hup, slash_not_mem_of_mem_split hp⟩

/-! ## Texts of normal forms -/

theorem text_of_rooted (hp : p.rooted = true) :
    p.text = "" ++ "/" ++ String.intercalate "/" p.parts := by
  rw [text, if_pos hp]
  rfl

theorem split_text_of_rooted (hp : p.rooted = true) (h : ∀ part ∈ p.parts, '/' ∉ part.toList) :
    split p.text = "" :: if p.parts = [] then [""] else p.parts := by
  rw [text_of_rooted hp, split_append]
  split
  · rename_i hnil
    rw [hnil]
    rfl
  · rename_i hne
    rw [split_intercalate hne h]
    rfl

theorem foldl_follow_split_text (h : ∀ part ∈ p.parts, '/' ∉ part.toList) :
    (split p.text).foldl (follow rooted) done = p.parts.foldl (follow rooted) done := by
  cases hp : p.rooted with
  | true =>
    rw [split_text_of_rooted hp h]
    split
    · rename_i hnil
      rw [hnil]
      rfl
    · rfl
  | false =>
    rw [text, hp]
    cases hparts : p.parts with
    | nil => rfl
    | cons part parts => exact congrArg _ (split_intercalate (List.cons_ne_nil _ _) (hparts ▸ h))

theorem head?_append (hs : s.toList.head? = some '/') (t : String) :
    (s ++ "/" ++ t).toList.head? = some '/' := by
  simp [List.head?_append, hs]

theorem ofText_of_rooted (hs : s.toList.head? = some '/') :
    ofText s = ⟨true, ((split s).foldl (follow true) []).reverse⟩ := by
  simp only [ofText, hs, decide_true]

/-- **Joining paths is joining their texts**: the second one is followed from where the first one
ends. -/
theorem join_ofText (hs : s.toList.head? = some '/') (t : String) :
    (ofText s).join (ofText t) = ofText (s ++ "/" ++ (ofText t).text) := by
  rw [ofText_of_rooted (head?_append hs _), ofText_of_rooted hs, join, List.reverse_reverse,
    split_append, List.foldl_append, foldl_follow_split_text fun _ ↦ slash_not_mem_of_mem_ofText]

/-- The root of the file system is the only absolute path without components. -/
theorem parts_eq_nil_iff (hs : s.toList.head? = some '/') (hclean : (ofText s).text = s) :
    (ofText s).parts = [] ↔ s = "/" := by
  constructor
  · intro hnil
    rw [← hclean, text_of_rooted (decide_eq_true hs), hnil]
    rfl
  · rintro rfl
    decide +kernel

/-! ## Inside a directory -/

/-- The path is below the directory: it goes on where that ends. -/
def Below (root p : Path) : Prop :=
  p.rooted = root.rooted ∧ ∃ parts, parts ≠ [] ∧ p.parts = root.parts ++ parts

theorem text_of_append (hroot : root.rooted = true) (hp : p.rooted = true) (hne : root.parts ≠ [])
    (hparts : parts ≠ []) (h : p.parts = root.parts ++ parts) :
    p.text = root.text ++ "/" ++ String.intercalate "/" parts := by
  rw [text_of_rooted hp, text_of_rooted hroot, h, String.intercalate_append_of_ne_nil hne hparts]
  simp only [String.append_assoc]

/-- **Texts start alike if and only if components do**, unless the directory is the root. -/
theorem isPrefix_iff_below (hroot : root.rooted = true) (hp : p.rooted = true)
    (hnames : ∀ part ∈ root.parts, IsName part) (hpnames : ∀ part ∈ p.parts, IsName part) :
    (root.text ++ "/").toList <+: p.text.toList ↔ root.parts ≠ [] ∧ Below root p := by
  constructor
  · rintro ⟨rest, hrest⟩
    have htext : p.text = root.text ++ "/" ++ String.ofList rest :=
      String.toList_inj.1 (by rw [String.toList_append, String.toList_ofList, hrest])
    have hsplit := congrArg split htext
    rw [split_append, split_text_of_rooted hp fun part hpart ↦ (hpnames part hpart).2.2.2,
      split_text_of_rooted hroot fun part hpart ↦ (hnames part hpart).2.2.2, List.cons_append,
      List.cons.injEq] at hsplit
    have hrest := split_ne_nil (String.ofList rest)
    by_cases hempty : root.parts = [] <;> by_cases hpempty : p.parts = []
    · rw [if_pos hempty, if_pos hpempty] at hsplit
      exact absurd (List.cons.inj hsplit.2).2.symm hrest
    · rw [if_pos hempty, if_neg hpempty] at hsplit
      exact absurd rfl (hpnames "" (hsplit.2 ▸ List.mem_cons_self)).1
    · rw [if_neg hempty, if_pos hpempty] at hsplit
      obtain ⟨hroot, -⟩ | ⟨-, hnil⟩ := List.append_eq_singleton_iff.1 hsplit.2.symm
      · exact absurd hroot hempty
      · exact absurd hnil hrest
    · rw [if_neg hempty, if_neg hpempty] at hsplit
      exact ⟨hempty, hp.trans hroot.symm, _, hrest, hsplit.2⟩
  · rintro ⟨hne, -, parts, hparts, h⟩
    exact ⟨_,
      (String.toList_append.symm.trans (congrArg _ (text_of_append hroot hp hne hparts h).symm))⟩

end Path

/-! ## The sandbox -/

/-- The text is that of the directory `root`, or goes on from there along names. -/
def Inside (root text : String) : Prop :=
  text = root ∨ ∃ parts, parts ≠ [] ∧ (∀ part ∈ parts, Path.IsName part) ∧
    text = root ++ "/" ++ String.intercalate "/" parts

namespace Sandbox

open Files.Path

variable {r path : String} {limit : Int} {p : Path}

/-- A path is handed out if and only if it is that of the directory, or below it and this is not the
root of the file system. -/
theorem resolve_eq_some_iff (hroot : r.toList.head? = some '/') :
    (mk (ofText r) limit).resolve path = some p ↔
      p = ofText (r ++ "/" ++ (ofText path).text) ∧
      (p = ofText r ∨ (ofText r).parts ≠ [] ∧ Below (ofText r) p) := by
  have hjoined := head?_append hroot (ofText path).text
  have hbelow :=
    isPrefix_iff_below (p := ofText (r ++ "/" ++ (ofText path).text)) (decide_eq_true hroot)
    (decide_eq_true hjoined) (fun _ ↦ isName_of_mem_ofText hroot)
    (fun _ ↦ isName_of_mem_ofText hjoined)
  rw [resolve, join_ofText hroot]
  simp only [List.isPrefixOf_iff_prefix, hbelow, Option.ite_none_right_eq_some, Option.some.injEq]
  constructor
  · rintro ⟨h, rfl⟩
    exact ⟨rfl, h⟩
  · rintro ⟨rfl, h⟩
    exact ⟨h, rfl⟩

theorem inside_of_resolve (hroot : r.toList.head? = some '/') (hclean : (ofText r).text = r)
    (h : (mk (ofText r) limit).resolve path = some p) : Inside r p.text := by
  obtain ⟨rfl, hp | ⟨hne, hrooted, parts, hparts, happend⟩⟩ := (resolve_eq_some_iff hroot).1 h
  · exact .inl (hp ▸ hclean)
  · have hjoined := head?_append hroot (ofText path).text
    refine .inr ⟨parts, hparts, fun part hpart ↦ isName_of_mem_ofText hjoined ?_, ?_⟩
    · exact happend ▸ List.mem_append_right _ hpart
    · rw [text_of_append (decide_eq_true hroot) (decide_eq_true hjoined) hne hparts happend, hclean]

end Sandbox

open Files.Path

/-- **What the sandbox hands out is inside its directory**, whatever the path: either the directory
itself or a path below it, made of names.  So reading never asks the file system about anything
else. -/
theorem resolved_path_is_inside {r : String} (hroot : r.toList.head? = some '/')
    (hclean : (Path.ofText r).text = r) (limit : Int) (path : String) :
    (∀ p, (Sandbox.mk (.ofText r) limit).resolve path = some p → Inside r p.text) ∧
      ∀ (m : Type → Type) [Monad m] (files files' : Access m),
        (∀ text, Inside r text → files.lookup text = files'.lookup text) →
        (Sandbox.mk (.ofText r) limit).read files path =
        (Sandbox.mk (.ofText r) limit).read files' path := by
  refine ⟨fun p ↦ Sandbox.inside_of_resolve hroot hclean, fun m _ files files' h ↦ ?_⟩
  rw [Sandbox.read, Sandbox.read]
  split
  · rfl
  · rename_i p hp
    rw [h _ (Sandbox.inside_of_resolve hroot hclean hp)]

theorem dotted_path_is_inside :
    ∃ p, (Sandbox.mk (.ofText "/srv/units") 0).resolve "../units/./lib//../a.drasm" = some p ∧
    Inside "/srv/units" p.text ∧
      (Sandbox.mk (.ofText "/srv/units") 0).resolve "../units2/a.drasm" = none := by
  have hroot : "/srv/units".toList.head? = some '/' := by decide
  have hclean : (Path.ofText "/srv/units").text = "/srv/units" := by decide +kernel
  have hp : (Sandbox.mk (.ofText "/srv/units") 0).resolve "../units/./lib//../a.drasm" =
    some ⟨true, ["srv", "units", "a.drasm"]⟩ := by decide +kernel
  exact ⟨_, hp, (resolved_path_is_inside hroot hclean 0 _).1 _ hp, by decide +kernel⟩

/-- **Exactly what is refused**: a path that is neither the directory nor below it, and everything
below if the directory is the root of the file system. -/
theorem refused_path_is_outside {r : String} (hroot : r.toList.head? = some '/')
    (hclean : (Path.ofText r).text = r) (limit : Int) (path : String) :
    (Sandbox.mk (.ofText r) limit).resolve path = none ↔
      ofText (r ++ "/" ++ (ofText path).text) ≠ ofText r ∧
        (Below (ofText r) (ofText (r ++ "/" ++ (ofText path).text)) → r = "/") := by
  rw [Option.eq_none_iff_forall_ne_some]
  simp only [ne_eq, Sandbox.resolve_eq_some_iff hroot, not_and, forall_eq, not_or,
    parts_eq_nil_iff hroot hclean]
  exact and_congr_right fun _ ↦ Decidable.not_imp_not

theorem climbing_path_is_outside :
    ofText ("/srv/units" ++ "/" ++ (ofText "lib/../../units2").text) ≠ ofText "/srv/units" ∧
      ¬ Below (ofText "/srv/units")
      (ofText ("/srv/units" ++ "/" ++ (ofText "lib/../../units2").text)) := by
  have hroot : "/srv/units".toList.head? = some '/' := by decide
  have hclean : (ofText "/srv/units").text = "/srv/units" := by decide +kernel
  obtain ⟨hne, hbelow⟩ :=
    (refused_path_is_outside hroot hclean 0 "lib/../../units2").1 (by decide +kernel)
  exact ⟨hne, fun h ↦ absurd (hbelow h) (by decide)⟩

/-- **A sandbox at the root of the file system is empty**: what is below is refused, since its text
does not start with two slashes. -/
theorem below_the_root_is_refused : (ofText "/").text = "/" ∧
    (Sandbox.mk (.ofText "/") 0).resolve "nope.drasm" = none ∧
      Below (ofText "/") (ofText ("/" ++ "/" ++ (ofText "nope.drasm").text)) :=
  ⟨by decide +kernel, by decide +kernel, by decide +kernel, ["nope.drasm"], by decide,
    by decide +kernel⟩

end ClassAsm.Files
