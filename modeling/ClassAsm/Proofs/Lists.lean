import Mathlib.Data.List.Forall2
import Mathlib.Data.List.Nodup

/-!
# Lists, arrays and results

Facts about sequences and about steps that may fail which no part of the language has to itself.
A compiler and a machine that read and write tables use the same few of them throughout.

## What is here

* `bind_eq_ok`: a step that may fail, and then another, gives a result if both do.
* `mapM_eq_ok`, `mapM_array_eq_ok` and `forall₂_of_mapM`: a step taken for every entry gives the
  results entry by entry.  `mapM_eq_ok_iff_exists_map` is the form for parsers, where the entries
  are the texts of some trees and the results what the trees mean.
* `exists_left_of_forall₂`, `exists_of_forall₂_drop`, `map_eq_of_forall₂` and `exists_forall₂`: how
  tables that agree entry by entry are looked up, read from an index on, compared and rebuilt.
* The rest are lemmas about single operations, stated for the forms in which the definitions of the
  language use them.

Agreement entry by entry is always `List.Forall₂`.  It gives the induction for free, and from it
come the equality of lengths and the entry at an index, which is all that users of a table need.
-/

namespace ClassAsm

variable {α β γ δ ε : Type} {b : β} {R : α → β → Prop} {i : Nat}

/-! ## Steps that may fail -/

section Steps

variable {f : α → Except ε β} {xs : List α} {ys : List β}

theorem bind_eq_ok {r : Except ε α} : (r >>= f) = .ok b ↔ ∃ a, r = .ok a ∧ f a = .ok b := by
  cases r with
  | error e => simp [bind, Except.bind]
  | ok a => simp [bind, Except.bind]

theorem mapM_eq_ok : xs.mapM f = .ok ys ↔ List.Forall₂ (fun x y ↦ f x = .ok y) xs ys := by
  induction xs generalizing ys with
  | nil =>
    rw [List.mapM_nil, List.forall₂_nil_left_iff]
    exact ⟨fun h ↦ (Except.ok.inj h).symm, fun h ↦ h ▸ rfl⟩
  | cons x xs ih =>
    rw [List.mapM_cons, bind_eq_ok]
    constructor
    · rintro ⟨y, hy, h⟩
      obtain ⟨ys', hys', h⟩ := bind_eq_ok.1 h
      cases h
      exact .cons hy (ih.1 hys')
    · rintro (_ | ⟨hy, hys⟩)
      exact ⟨_, hy, bind_eq_ok.2 ⟨_, ih.2 hys, rfl⟩⟩

theorem mapM_array_eq_ok {xs : Array α} {ys : Array β} :
    xs.mapM f = .ok ys ↔ List.Forall₂ (fun x y ↦ f x = .ok y) xs.toList ys.toList := by
  rw [Array.mapM_eq_mapM_toList, ← mapM_eq_ok]
  cases xs.toList.mapM f with
  | error e => exact iff_of_false nofun nofun
  | ok zs =>
    constructor
    · intro h
      cases h
      rfl
    · intro h
      cases h
      rfl

/-- Trees are read one by one, if each is read from its text. -/
theorem mapM_eq_ok_iff_exists_map {P : γ → Prop} {text : γ → α} {meaning : γ → β}
    (h : ∀ x y, f x = .ok y ↔ ∃ t, text t = x ∧ P t ∧ meaning t = y) : xs.mapM f = .ok ys ↔
      ∃ ts : List γ, ts.map text = xs ∧ (∀ t ∈ ts, P t) ∧ ts.map meaning = ys := by
  rw [mapM_eq_ok]
  constructor
  · intro hxs
    induction hxs with
    | nil => exact ⟨[], rfl, List.forall_mem_nil P, rfl⟩
    | cons hx _ ih =>
      obtain ⟨t, rfl, ht, rfl⟩ := (h _ _).1 hx
      obtain ⟨ts, rfl, hts, rfl⟩ := ih
      exact ⟨t :: ts, rfl, List.forall_mem_cons.2 ⟨ht, hts⟩, rfl⟩
  · rintro ⟨ts, rfl, hts, rfl⟩
    rw [List.forall₂_map_left_iff, List.forall₂_map_right_iff]
    exact List.forall₂_same.2 fun t ht ↦ (h _ _).2 ⟨t, rfl, hts t ht, rfl⟩

theorem forall₂_of_mapM {f : α → Option β} (h : xs.mapM f = some ys) :
    List.Forall₂ (fun x y ↦ f x = some y) xs ys := by
  induction xs generalizing ys with
  | nil =>
    cases h
    exact .nil
  | cons x xs ih =>
    rw [List.mapM_cons] at h
    obtain ⟨y, hy, h⟩ := Option.bind_eq_some_iff.1 h
    obtain ⟨ys', hys, h⟩ := Option.bind_eq_some_iff.1 h
    cases h
    exact .cons hy (ih hys)

theorem rel_cases {x : Option α} {y : Option β} (h : Option.Rel R x y) :
    (x = none ∧ y = none) ∨ ∃ a b, x = some a ∧ y = some b ∧ R a b := by
  cases h with
  | none => exact .inl ⟨rfl, rfl⟩
  | some hab => exact .inr ⟨_, _, rfl, rfl, hab⟩

end Steps

/-! ## Lists that agree entry by entry -/

section Entries

variable {xs : List α} {ys : List β}

theorem exists_left_of_forall₂ (h : List.Forall₂ R xs ys) {y : β} (hy : ys[i]? = some y) :
    ∃ x, xs[i]? = some x ∧ R x y := by
  obtain ⟨hlt, rfl⟩ := List.getElem?_eq_some_iff.1 hy
  have hlt' : i < xs.length := h.length_eq ▸ hlt
  exact ⟨xs[i], List.getElem?_eq_getElem hlt', h.get hlt' hlt⟩

theorem exists_of_forall₂_drop {x : α} {ys : Array β}
    (h : List.Forall₂ R (x :: xs) (ys.toList.drop i)) :
    ∃ y, ys[i]? = some y ∧ R x y ∧ List.Forall₂ R xs (ys.toList.drop (i + 1)) := by
  obtain ⟨y, rest, hxy, hrest, hdrop⟩ := List.forall₂_cons_left_iff.1 h
  refine ⟨y, ?_, hxy, ?_⟩
  · rw [← Array.getElem?_toList, ← List.head?_drop, hdrop, List.head?_cons]
  · rwa [← List.tail_drop, hdrop, List.tail_cons]

/-- Values that related entries agree on are the same. -/
theorem map_eq_of_forall₂ {f : α → γ} {g : β → γ} (h : List.Forall₂ R xs ys)
    (hfg : ∀ x y, R x y → f x = g y) : xs.map f = ys.map g := by
  induction h with
  | nil => rfl
  | cons hxy _ ih => rw [List.map_cons, List.map_cons, hfg _ _ hxy, ih]

/-- What is done to each entry of a list can be done to related ones. -/
theorem exists_forall₂ {F : α → γ → Prop} {T : γ → δ → Prop} {F' : β → δ → Prop} {zs : List γ}
    (h : List.Forall₂ R xs ys) (hF : List.Forall₂ F xs zs)
    (hstep : ∀ x ∈ xs, ∀ y ∈ ys, R x y → ∀ z, F x z → ∃ w, F' y w ∧ T z w) :
    ∃ ws, List.Forall₂ F' ys ws ∧ List.Forall₂ T zs ws := by
  induction h generalizing zs with
  | nil =>
    cases hF
    exact ⟨[], .nil, .nil⟩
  | cons hxy _ ih =>
    cases hF with
    | cons hxz hF =>
      obtain ⟨w, hw, hT⟩ := hstep _ List.mem_cons_self _ List.mem_cons_self hxy _ hxz
      obtain ⟨ws, hws, hTs⟩ := ih hF fun x hx y hy ↦
        hstep x (List.mem_cons_of_mem _ hx) y (List.mem_cons_of_mem _ hy)
      exact ⟨w :: ws, .cons hw hws, .cons hT hTs⟩

theorem exists_map_eq {P : α → Prop} {f : α → β} :
    (∃ xs : List α, (∀ x ∈ xs, P x) ∧ xs.map f = ys) ↔ ∀ y ∈ ys, ∃ x, P x ∧ f x = y := by
  constructor
  · rintro ⟨xs, hxs, rfl⟩ y hy
    obtain ⟨x, hx, rfl⟩ := List.mem_map.1 hy
    exact ⟨x, hxs x hx, rfl⟩
  · intro h
    induction ys with
    | nil => exact ⟨[], List.forall_mem_nil P, rfl⟩
    | cons y ys ih =>
      obtain ⟨⟨x, hx, rfl⟩, hys⟩ := List.forall_mem_cons.1 h
      obtain ⟨xs, hxs, rfl⟩ := ih hys
      exact ⟨x :: xs, List.forall_mem_cons.2 ⟨hx, hxs⟩, rfl⟩

end Entries

/-! ## Single operations -/

theorem drop_length_takeWhile (p : α → Bool) (s : List α) :
    s.drop (s.takeWhile p).length = s.dropWhile p := by
  calc s.drop (s.takeWhile p).length
      = (s.takeWhile p ++ s.dropWhile p).drop (s.takeWhile p).length := by
        rw [List.takeWhile_append_dropWhile]
    _ = s.dropWhile p := List.drop_left

theorem getLast?_cons_or (a : α) (l : List α) (b : Option α) :
    (a :: l).getLast?.or b = l.getLast?.or (some a) := by
  cases l <;> simp [List.getLast?_cons]

theorem mem_of_lookup [DecidableEq α] {entries : List (α × β)} {name : α}
    (h : (entries.find? fun e ↦ e.1 = name).map (·.2) = some b) : (name, b) ∈ entries := by
  obtain ⟨⟨name', b'⟩, hfind, rfl⟩ := Option.map_eq_some_iff.1 h
  have hname : name' = name := by simpa using List.find?_some hfind
  exact hname ▸ List.mem_of_find?_eq_some hfind

/-- Taking one entry out of the first `n + 1` leaves the first `n` of the others. -/
theorem take_filter_take [DecidableEq α] {l : List α} (hnodup : l.Nodup) (a : α) (n : Nat) :
    ((l.take (n + 1)).filter (· ≠ a)).take n = (l.filter (· ≠ a)).take n := by
  induction l generalizing n with
  | nil => rfl
  | cons b l ih =>
    obtain ⟨hb, hnodup⟩ := List.nodup_cons.1 hnodup
    by_cases hba : b = a
    · -- The first entry is the one to take out, and none of the others is.
      subst hba
      have hall : l.filter (· ≠ b) = l :=
        List.filter_eq_self.2 fun c hc ↦ decide_eq_true fun hcb ↦ hb (hcb ▸ hc)
      have hfirst : (l.take n).filter (· ≠ b) = l.take n :=
        List.filter_eq_self.2 fun c hc ↦ decide_eq_true fun hcb ↦ hb (hcb ▸ List.mem_of_mem_take hc)
      have hgone (rest : List α) : (b :: rest).filter (· ≠ b) = rest.filter (· ≠ b) :=
        List.filter_cons_of_neg (by simp)
      rw [List.take_succ_cons, hgone, hgone, hfirst, hall, List.take_take, Nat.min_self]
    · have hkept (rest : List α) : (b :: rest).filter (· ≠ a) = b :: rest.filter (· ≠ a) :=
        List.filter_cons_of_pos (decide_eq_true hba)
      rw [List.take_succ_cons, hkept, hkept]
      cases n with
      | zero => rfl
      | succ n => rw [List.take_succ_cons, List.take_succ_cons, ih hnodup n]

theorem getElem?_of_prefix {xs ys : Array α} (h : xs.toList <+: ys.toList) {a : α}
    (ha : xs[i]? = some a) : ys[i]? = some a := by
  rw [← Array.getElem?_toList] at ha ⊢
  obtain ⟨hi, rfl⟩ := List.getElem?_eq_some_iff.1 ha
  exact List.prefix_iff_getElem?.1 h i hi

theorem modify_push (xs : Array α) (a : α) (f : α → α) :
    (xs.push a).modify xs.size f = xs.push (f a) := by
  grind

end ClassAsm
