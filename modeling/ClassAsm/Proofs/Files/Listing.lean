import ClassAsm.Proofs.Files.Containment
import Mathlib.Data.List.Pairwise
import Mathlib.Data.String.Basic
import Mathlib.Tactic.SplitIfs

/-!
# The units below a directory

A walk goes through the entries of a directory in the order of their names, and through a directory
when it comes to it.  So it finds every file once, and its paths are in the order of their
components (`pairwise_unitsIn`).  This is not the order of the texts of the paths: a directory comes
before the entries whose names go on from its own, but behind its name there is a slash, and behind
that of an entry there may be a character that comes before the slash, as in `lib/a` and `lib-a`.

`listing_is_a_walk` says what is listed and in which order, and that this is the order of the texts
if and only if no path overtakes another in this way.
-/

namespace ClassAsm.Files

/-! ## The order of bytes -/

/-- The bytes of a text. -/
def bytes (s : String) : List UInt8 := s.toList.flatMap String.utf8EncodeChar

theorem utf8EncodeChar_append_lt {c d : Char} (h : c < d) (u v : List UInt8) :
    String.utf8EncodeChar c ++ u < String.utf8EncodeChar d ++ v := by
  have hlt : c.val.toNat < d.val.toNat := h
  have hd : d.val.toNat < 0x110000 := d.valid.elim (by omega) And.right
  have hdigits (n : Nat) : n / 4096 = n / 64 / 64 ∧ n / 262144 = n / 64 / 64 / 64 := by omega
  unfold String.utf8EncodeChar
  dsimp only
  -- A greater character has no fewer bytes, and the first byte tells how many there are.
  split_ifs <;>
    simp only [List.cons_append, List.nil_append, List.cons_lt_cons_iff, UInt8.lt_iff_toNat_lt,
      ← UInt8.toNat_inj, UInt8.toNat_ofNat', hdigits] <;>
    omega

theorem flatMap_utf8EncodeChar_lt {u v : List Char} (h : u < v) :
    u.flatMap String.utf8EncodeChar < v.flatMap String.utf8EncodeChar := by
  induction h with
  | @nil c rest =>
    obtain ⟨b, rest', hb⟩ := List.exists_cons_of_ne_nil (String.utf8EncodeChar_ne_nil (c := c))
    rw [List.flatMap_nil, List.flatMap_cons, hb]
    exact List.nil_lt_cons _ _
  | rel h => exact utf8EncodeChar_append_lt h _ _
  | cons _ ih => exact List.append_left_lt ih

/-- **Texts are ordered as their bytes are.** -/
theorem bytes_lt_iff {s t : String} : bytes s < bytes t ↔ s < t := by
  refine ⟨fun h ↦ ?_, flatMap_utf8EncodeChar_lt⟩
  rcases lt_trichotomy s t with hlt | rfl | hlt
  · exact hlt
  · exact absurd h (List.lt_irrefl _)
  · exact absurd h (List.lt_asymm (flatMap_utf8EncodeChar_lt hlt))

/-! ## The order of components -/

namespace Path

/-- A path comes before another by its first component that differs, by the bytes of the names. -/
def Precedes (p q : String) : Prop := List.Lex (fun a b ↦ bytes a < bytes b) (split p) (split q)

/-- Where `p` has a slash, `q` goes on with a character that comes before the slash. -/
def Overtakes (q p : String) : Prop :=
  ∃ u v w c, p.toList = u ++ '/' :: v ∧ q.toList = u ++ c :: w ∧ c < '/'

variable {p q : String}

theorem precedes_iff_split : Precedes p q ↔ split p < split q := by
  simp only [Precedes, bytes_lt_iff]
  rfl

theorem precedes_iff : Precedes p q ↔ p.toList.splitOn '/' < q.toList.splitOn '/' := by
  rw [precedes_iff_split, split, split]
  generalize p.toList.splitOn '/' = a
  generalize q.toList.splitOn '/' = b
  induction a generalizing b with
  | nil => cases b <;> simp
  | cons x a ih =>
    cases b with
    | nil => simp
    | cons y b =>
      simp only [List.map_cons, List.cons_lt_cons_iff, ih, String.lt_iff_toList_lt,
        String.toList_ofList, String.ofList_inj]

/-- The components of two texts are compared by their first characters, and a slash ends a
component. -/
theorem splitOn_cons_lt_iff {x y : Char} {p q : List Char} :
    (x :: p).splitOn '/' < (y :: q).splitOn '/' ↔
      (x = '/' ∧ y ≠ '/') ∨
      ((x = '/' ↔ y = '/') ∧ (x < y ∨ x = y ∧ p.splitOn '/' < q.splitOn '/')) := by
  obtain ⟨a, as, ha⟩ := List.exists_cons_of_ne_nil (List.splitOn_ne_nil '/' p)
  obtain ⟨b, bs, hb⟩ := List.exists_cons_of_ne_nil (List.splitOn_ne_nil '/' q)
  rw [List.splitOn_cons_eq_if_modifyHead, List.splitOn_cons_eq_if_modifyHead, ha, hb]
  by_cases hx : x = '/' <;> by_cases hy : y = '/' <;> simp [hx, hy, List.cons_lt_cons_iff]
  grind

theorem splitOn_lt_of_overtakes (u v w : List Char) {c : Char} (hc : c < '/') :
    (u ++ '/' :: v).splitOn '/' < (u ++ c :: w).splitOn '/' := by
  induction u with
  | nil => exact splitOn_cons_lt_iff.2 (.inl ⟨rfl, hc.ne⟩)
  | cons x u ih => exact splitOn_cons_lt_iff.2 (.inr ⟨Iff.rfl, .inr ⟨rfl, ih⟩⟩)

/-- Paths that are in the order of their components are in that of their texts, unless one overtakes
the other. -/
theorem lt_or_of_splitOn_lt {p q : List Char} (h : p.splitOn '/' < q.splitOn '/') :
    p < q ∨ ∃ u v w c, p = u ++ '/' :: v ∧ q = u ++ c :: w ∧ c < '/' := by
  induction p generalizing q with
  | nil =>
    cases q with
    | nil => exact absurd h (List.lt_irrefl _)
    | cons y q => exact .inl (List.nil_lt_cons y q)
  | cons x p ih =>
    cases q with
    | nil =>
      obtain ⟨a, as, ha⟩ := List.exists_cons_of_ne_nil (List.splitOn_ne_nil '/' (x :: p))
      rw [ha] at h
      rcases List.cons_lt_cons_iff.1 h with h | ⟨-, h⟩ <;> exact absurd h (List.not_lt_nil _)
    | cons y q =>
      rcases splitOn_cons_lt_iff.1 h with ⟨rfl, hy⟩ | ⟨-, hlt | ⟨rfl, hrest⟩⟩
      · rcases lt_or_gt_of_ne hy with hlt | hlt
        · exact .inr ⟨[], p, q, y, rfl, rfl, hlt⟩
        · exact .inl (.rel hlt)
      · exact .inl (.rel hlt)
      · rcases ih hrest with hlt | ⟨u, v, w, c, rfl, rfl, hc⟩
        · exact .inl (.cons hlt)
        · exact .inr ⟨x :: u, v, w, c, rfl, rfl, hc⟩

theorem lt_or_overtakes (h : Precedes p q) : p < q ∨ Overtakes q p :=
  lt_or_of_splitOn_lt (precedes_iff.1 h)

theorem Overtakes.lt (h : Overtakes q p) : q < p := by
  obtain ⟨u, v, w, c, hp, hq, hc⟩ := h
  rw [String.lt_iff_toList_lt, hp, hq]
  exact List.append_left_lt (.rel hc)

theorem Overtakes.precedes (h : Overtakes q p) : Precedes p q := by
  obtain ⟨u, v, w, c, hp, hq, hc⟩ := h
  rw [precedes_iff, hp, hq]
  exact splitOn_lt_of_overtakes u v w hc

theorem Precedes.asymm (h : Precedes p q) : ¬Precedes q p := by
  rw [precedes_iff] at h ⊢
  exact List.lt_asymm h

/-- **When the order of components is that of texts**: if and only if nothing overtakes. -/
theorem pairwise_bytes_lt_iff {units : List String} (h : units.Pairwise Precedes) :
    units.Pairwise (fun p q ↦ bytes p < bytes q) ↔ ∀ p ∈ units, ∀ q ∈ units, ¬Overtakes q p := by
  simp only [bytes_lt_iff]
  constructor
  · intro hlt p hp q hq hover
    -- The path that is overtaken is listed first.
    let R (p q : String) : Prop := (Precedes p q → p < q) ∧ (Precedes q p → q < p)
    have : Std.Symm R := ⟨fun _ _ ↦ And.symm⟩
    have hlisted : units.Pairwise R := (h.and hlt).imp fun ⟨hpq, hlt⟩ ↦
      ⟨fun _ ↦ hlt, fun hqp ↦ absurd hqp hpq.asymm⟩
    have hself (p : String) : Precedes p p → p < p := fun h ↦ absurd h h.asymm
    have hR : R p q := hlisted.forall_of_forall (fun p _ ↦ ⟨hself p, hself p⟩) hp hq
    exact lt_asymm hover.lt (hR.1 hover.precedes)
  · intro hnone
    refine h.imp_of_mem fun hp hq hprecedes ↦
      (lt_or_overtakes hprecedes).resolve_right (hnone _ hp _ hq)

end Path

/-! ## Walking -/

namespace Tree

open Files.Path

/-- The entries of a directory hold the file `name`, in the directory that `dirs` lead to. -/
def Holds (entries : List (String × Tree)) (dirs : List String) (name : String) : Prop :=
  match dirs with
  | [] => ∃ text, (name, .file text) ∈ entries
  | dir :: dirs => ∃ inner, (dir, .directory inner) ∈ entries ∧ Holds inner dirs name

/-- The entries of a directory have names, which ascend, and so have those of all directories
below. -/
inductive Ordered : List (String × Tree) → Prop where
  | intro {entries : List (String × Tree)} : entries.Pairwise (fun e e' ↦ bytes e.1 < bytes e'.1) →
      (∀ e ∈ entries, IsName e.1) →
      (∀ dir inner, (dir, .directory inner) ∈ entries → Ordered inner) → Ordered entries

variable {entries : List (String × Tree)} {above dirs p : List String} {name : String} {t : Tree}

section Insertion

variable {e : String × Tree} {parts : List String} {new : Tree}

theorem ordered_nil : Ordered [] := by
  constructor <;> simp

theorem mem_of_mem_insertEntry (h : e ∈ insertEntry name t entries) :
    e = (name, t) ∨ e ∈ entries := by
  induction entries with
  | nil => exact .inl (List.mem_singleton.1 h)
  | cons e' rest ih => grind [insertEntry]

theorem pairwise_insertEntry (h : entries.Pairwise fun e e' ↦ e.1 < e'.1) :
    (insertEntry name t entries).Pairwise fun e e' ↦ e.1 < e'.1 := by
  induction entries with
  | nil => exact List.pairwise_singleton _ _
  | cons e rest ih =>
    obtain ⟨hfirst, hrest⟩ := List.pairwise_cons.1 h
    rw [insertEntry]
    split_ifs with hlt heq
    · have hall : ∀ e' ∈ e :: rest, name < e'.1 :=
        List.forall_mem_cons.2 ⟨hlt, fun e' he' ↦ hlt.trans (hfirst e' he')⟩
      exact List.pairwise_cons.2 ⟨hall, h⟩
    · exact List.pairwise_cons.2 ⟨heq ▸ hfirst, hrest⟩
    · refine List.pairwise_cons.2 ⟨fun e' he' ↦ ?_, ih hrest⟩
      rcases mem_of_mem_insertEntry he' with rfl | he'
      · exact lt_of_le_of_ne (not_lt.1 hlt) (Ne.symm heq)
      · exact hfirst e' he'

theorem Ordered.insertEntry (h : Ordered entries) (hname : IsName name) (ht : Ordered t.entries) :
    Ordered (insertEntry name t entries) := by
  obtain ⟨hascend, hnames, hbelow⟩ := h
  simp only [bytes_lt_iff] at hascend
  refine .intro ?_ (fun e he ↦ ?_) fun dir inner he ↦ ?_
  · simpa only [bytes_lt_iff] using pairwise_insertEntry hascend
  · rcases mem_of_mem_insertEntry he with rfl | he
    · exact hname
    · exact hnames e he
  · rcases mem_of_mem_insertEntry he with heq | he
    · obtain ⟨-, rfl⟩ := Prod.mk.inj heq
      exact ht
    · exact hbelow dir inner he

theorem Ordered.of_child? (h : Ordered t.entries) {t' : Tree} (ht' : t.child? name = .ok t') :
    Ordered t'.entries := by
  cases t with
  | file text => cases ht'
  | directory entries =>
    obtain ⟨-, -, hbelow⟩ := h
    rw [child?] at ht'
    split at ht'
    · cases ht'
    split at ht'
    · rename_i e hfind
      cases ht'
      have he := List.mem_of_find?_eq_some hfind
      cases ht : e.2 with
      | file text => exact ordered_nil
      | directory inner => exact hbelow e.1 inner (ht ▸ he)
    · cases ht'

/-- **A tree stays in order when something is put into it.**  So every tree that is made from the
empty one is in order. -/
theorem Ordered.insert (h : Ordered t.entries) (hnew : Ordered new.entries)
    (hparts : ∀ part ∈ parts, IsName part) : Ordered (insert new t parts).entries := by
  induction parts generalizing t with
  | nil => exact hnew
  | cons part rest ih =>
    obtain ⟨hpart, hrest⟩ := List.forall_mem_cons.1 hparts
    refine h.insertEntry hpart (ih ?_ hrest)
    cases hchild : t.child? part with
    | error e => exact ordered_nil
    | ok t' => exact h.of_child? hchild

end Insertion

theorem unitsIn_eq (above : List String) (entries : List (String × Tree)) :
    unitsIn above entries = entries.flatMap fun e ↦ unitsBelow above e.1 e.2 := by
  induction entries with
  | nil => rfl
  | cons e rest ih => rw [unitsIn, ih, List.flatMap_cons]

/-- **A walk finds all units and nothing else.** -/
theorem mem_unitsIn (h : Ordered entries) : p ∈ unitsIn above entries ↔
    ∃ dirs name, Holds entries dirs name ∧ isUnit name = true ∧ p = above ++ (dirs ++ [name]) := by
  induction h generalizing above with
  | @intro entries _ _ _ ih =>
    rw [unitsIn_eq, List.mem_flatMap]
    constructor
    · rintro ⟨⟨name, t⟩, he, hp⟩
      cases t with
      | file text =>
        obtain ⟨hunit, hp⟩ := List.mem_ite_nil_right.1 hp
        exact ⟨[], name, ⟨text, he⟩, hunit, List.mem_singleton.1 hp⟩
      | directory inner =>
        obtain ⟨dirs, last, hholds, hunit, rfl⟩ := (ih name inner he).1 hp
        exact ⟨name :: dirs, last, ⟨inner, he, hholds⟩, hunit, by simp⟩
    · rintro ⟨dirs, name, hholds, hunit, rfl⟩
      cases dirs with
      | nil =>
        obtain ⟨text, he⟩ := hholds
        exact ⟨_, he, by simp [unitsBelow, hunit]⟩
      | cons dir dirs =>
        obtain ⟨inner, he, hholds⟩ := hholds
        exact ⟨_, he, (ih dir inner he).2 ⟨dirs, name, hholds, hunit, by simp⟩⟩

theorem exists_of_mem_unitsBelow (ht : ∀ inner, t = .directory inner → Ordered inner)
    (h : p ∈ unitsBelow above name t) : ∃ tail, p = above ++ name :: tail := by
  cases t with
  | file text =>
    obtain ⟨-, h⟩ := List.mem_ite_nil_right.1 h
    exact ⟨[], List.mem_singleton.1 h⟩
  | directory inner =>
    obtain ⟨dirs, last, -, -, rfl⟩ := (mem_unitsIn (ht inner rfl)).1 h
    exact ⟨dirs ++ [last], by simp⟩

/-- **A walk goes in the order of components.** -/
theorem pairwise_unitsIn (h : Ordered entries) : (unitsIn above entries).Pairwise (· < ·) := by
  induction h generalizing above with
  | @intro entries hascend _ hbelow ih =>
    rw [unitsIn_eq, List.pairwise_flatMap]
    constructor
    · rintro ⟨name, t⟩ he
      cases t with
      | file text =>
        rw [unitsBelow]
        split
        · exact List.pairwise_singleton _ _
        · exact .nil
      | directory inner => exact ih name inner he
    · refine hascend.imp_of_mem fun {e e'} he he' hlt p hp q hq ↦ ?_
      obtain ⟨tail, rfl⟩ := exists_of_mem_unitsBelow (fun inner ht ↦ hbelow e.1 inner (ht ▸ he)) hp
      obtain ⟨tail', rfl⟩ :=
        exists_of_mem_unitsBelow (fun inner ht ↦ hbelow e'.1 inner (ht ▸ he')) hq
      exact List.append_left_lt (.rel (bytes_lt_iff.1 hlt))

theorem Holds.isName (h : Holds entries dirs name) (hordered : Ordered entries) :
    ∀ part ∈ dirs ++ [name], IsName part := by
  induction dirs generalizing entries with
  | nil =>
    obtain ⟨text, he⟩ := h
    obtain ⟨-, hnames, -⟩ := hordered
    exact List.forall_mem_singleton.2 (hnames _ he)
  | cons dir dirs ih =>
    obtain ⟨inner, he, hinner⟩ := h
    obtain ⟨-, hnames, hbelow⟩ := hordered
    exact List.forall_mem_cons.2 ⟨hnames _ he, ih hinner (hbelow dir inner he)⟩

theorem split_of_mem_unitsIn (h : Ordered entries) (hp : p ∈ unitsIn [] entries) :
    split (String.intercalate "/" p) = p := by
  obtain ⟨dirs, name, hholds, -, rfl⟩ := (mem_unitsIn h).1 hp
  exact split_intercalate (by simp) fun part hpart ↦ (hholds.isName h part hpart).2.2.2

/-- The part of a name behind its last dot is `ext`. -/
def HasExtension (name ext : String) : Prop := '.' ∉ ext.toList ∧ ∃ stem, name = stem ++ "." ++ ext

theorem isUnit_iff : isUnit name = true ↔ HasExtension name "drasm" := by
  rw [isUnit, List.isSuffixOf_iff_suffix, HasExtension, and_iff_right (by decide)]
  constructor
  · rintro ⟨stem, hstem⟩
    exact ⟨String.ofList stem, String.toList_inj.1 (by simp [← hstem])⟩
  · rintro ⟨stem, rfl⟩
    exact ⟨stem.toList, by simp⟩

end Tree

open Files.Path

/-- **What is listed, and in which order.**  The units below the directory are listed by their
paths, each once, in the order of their components.  This is the order of the bytes of the paths if
and only if none of them overtakes another. -/
theorem listing_is_a_walk {d : Disk} {s : Sandbox} {entries : List (String × Tree)}
    (hroot : d.lookup s.root.text = .ok (.directory entries)) (hordered : Tree.Ordered entries) :
    ∃ units, s.list d = .ok units ∧
      (∀ path, path ∈ units ↔ ∃ dirs name, Tree.Holds entries dirs name ∧
        Tree.HasExtension name "drasm" ∧ path = String.intercalate "/" (dirs ++ [name])) ∧
      units.Nodup ∧ units.Pairwise Precedes ∧
      (units.Pairwise (fun p q ↦ bytes p < bytes q) ↔
        ∀ p ∈ units, ∀ q ∈ units, ¬Overtakes q p) := by
  have hprecedes : ((Tree.unitsIn [] entries).map (String.intercalate "/")).Pairwise Precedes := by
    rw [List.pairwise_map]
    refine (Tree.pairwise_unitsIn hordered).imp_of_mem fun hp hq hlt ↦ ?_
    rwa [precedes_iff_split, Tree.split_of_mem_unitsIn hordered hp,
      Tree.split_of_mem_unitsIn hordered hq]
  refine ⟨_, by rw [Sandbox.list, hroot], fun path ↦ ?_, hprecedes.imp fun h heq ↦ ?_, hprecedes,
    pairwise_bytes_lt_iff hprecedes⟩
  · simp only [List.mem_map, Tree.mem_unitsIn hordered, Tree.isUnit_iff, List.nil_append]
    constructor
    · rintro ⟨_, ⟨dirs, name, hholds, hunit, rfl⟩, rfl⟩
      exact ⟨dirs, name, hholds, hunit, rfl⟩
    · rintro ⟨dirs, name, hholds, hunit, rfl⟩
      exact ⟨_, ⟨dirs, name, hholds, hunit, rfl⟩, rfl⟩
  · subst heq
    exact h.asymm h

/-- A sample: a directory, and a file whose name goes on from that of the directory. -/
def overtaken : List (String × Tree) :=
  [("lib", .directory [("a.drasm", .file ""), ("notes.txt", .file "")]), ("lib-a.drasm", .file "")]

/-- A disk with the sample at its root. -/
def overtakenDisk : Disk := ⟨.directory overtaken, ⟨true, []⟩⟩

theorem overtaken_is_walked :
    Tree.Ordered overtaken ∧ ∃ units, Sandbox.list overtakenDisk ⟨⟨true, []⟩, 0⟩ = .ok units ∧
      "lib/a.drasm" ∈ units ∧ units.Nodup ∧ units.Pairwise Precedes := by
  have hnotes : Tree.Ordered [("a.drasm", .file ""), ("notes.txt", .file "")] :=
    .intro (by decide +kernel) (by simp [IsName]) (by simp)
  have hordered : Tree.Ordered overtaken := by
    refine .intro (by decide +kernel) (by simp [overtaken, IsName]) fun dir inner h ↦ ?_
    obtain ⟨-, rfl⟩ : dir = "lib" ∧ inner = _ := by simpa [overtaken] using h
    exact hnotes
  have hroot : overtakenDisk.lookup (Path.text ⟨true, []⟩) = .ok (.directory overtaken) := rfl
  obtain ⟨units, hlist, hmem, hnodup, hprecedes, -⟩ :=
    listing_is_a_walk (s := ⟨⟨true, []⟩, 0⟩) hroot hordered
  refine ⟨hordered, units, hlist, (hmem _).2 ⟨["lib"], "a.drasm", ?_, ?_, by decide +kernel⟩,
    hnodup, hprecedes⟩
  · exact ⟨_, .head _, "", .head _⟩
  · exact ⟨by decide, "a", by decide +kernel⟩

/-- **A listing need not be sorted**: what is in a directory comes before a file whose path is
less. -/
theorem overtaken_is_not_sorted :
    Sandbox.list overtakenDisk ⟨⟨true, []⟩, 0⟩ = .ok ["lib/a.drasm", "lib-a.drasm"] ∧
      ¬["lib/a.drasm", "lib-a.drasm"].Pairwise (fun p q ↦ bytes p < bytes q) := by
  refine ⟨?_, by decide +kernel⟩
  rfl

end ClassAsm.Files
