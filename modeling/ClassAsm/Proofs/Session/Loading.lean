import ClassAsm.Proofs.Codegen.Reordering
import ClassAsm.Proofs.Session.Caching

/-!
# Units are loaded as a whole or not at all

Loading looks for names that are taken twice: before any class is added, and again with each of
them.  The names in a unit are different, so that the second look never finds one
(`addAll_of_free`); and whenever a unit is not loaded, the registry is as it was before.

What a registry has under a name is the class that has been loaded last under it, unless it has been
unloaded since (`find?_eq_some_iff_current`).
-/

namespace ClassAsm.Session

open Bytecode

variable {src name : String} {m : CompiledModule} {cls : ClassRef} {s : Session} {size gas : Int}
  {i : Nat} {op : Operation} {ops : List Operation} {r : Registry}

/-! ## The classes of a unit -/

theorem map_classesOf (m : CompiledModule) : (Registry.classesOf m).map (·.1) = m.classNames := by
  refine List.ext_getElem (by simp [Registry.classesOf, CompiledModule.classNames])
    fun i hi hi' ↦ ?_
  simp [Registry.classesOf, CompiledModule.classNames]

theorem nodup_classNames (hm : ClassAsm.compile src = .ok m) : m.classNames.Nodup := by
  obtain ⟨p, hp, hg⟩ := compile_eq_ok_iff.1 hm
  have hdistinct := Program.parse_distinct hp
  exact Codegen.generate_classNames hdistinct hg ▸ hdistinct.names

theorem Registry.find?_of_free (hfree : ∀ c ∈ m.classes, r.find? c.name = none)
    (hname : name ∈ (classesOf m).map (·.1)) : r.find? name = none := by
  rw [map_classesOf] at hname
  obtain ⟨c, hc, rfl⟩ := List.mem_map.1 hname
  exact hfree c (Array.mem_toList_iff.1 hc)

/-- **No name is found to be taken once classes are being added.** -/
theorem Registry.addAll_of_free (hnodup : m.classNames.Nodup)
    (hfree : ∀ c ∈ m.classes, r.find? c.name = none) : (r.addAll [] (classesOf m)).1 = .ok () := by
  have hnone : (classesOf m).find? (fun e ↦ (r.find? e.1).isSome) = none :=
    List.find?_eq_none.2 fun e he ↦ by rw [find?_of_free hfree (List.mem_map_of_mem he)]; nofun
  have hload : r.load m = r.addAll [] (classesOf m) := by rw [load, hnone]
  rw [← hload]
  rcases r.load_cases m with ⟨hload, -⟩ | ⟨name, -, hname, htaken⟩
  · rw [hload]
  · have hsome := htaken (map_classesOf m ▸ hnodup)
    rw [find?_of_free hfree hname] at hsome
    cases hsome

/-! ## One class for each name -/

/-- The registry has every name once. -/
def Registry.Distinct (r : Registry) : Prop := (r.entries.map (·.1)).Nodup

theorem Registry.Distinct.find?_eq_some_iff (hr : r.Distinct) :
    r.find? name = some cls ↔ (name, cls) ∈ r.entries := by
  refine ⟨mem_of_lookup, fun h ↦ ?_⟩
  obtain ⟨cls', hcls'⟩ := Option.isSome_iff_exists.1 (find?_isSome_iff.2 ⟨_, h, rfl⟩)
  have heq := List.inj_on_of_nodup_map hr (mem_of_lookup hcls') h rfl
  exact hcls'.trans (congrArg (fun e ↦ some e.2) heq)

theorem Registry.Distinct.erase (hr : r.Distinct) (name : String) : (r.erase name).Distinct :=
  hr.sublist (List.filter_sublist.map _)

theorem Registry.Distinct.append (hr : r.Distinct) (hnodup : m.classNames.Nodup)
    (hfree : ∀ c ∈ m.classes, r.find? c.name = none) :
    (⟨r.entries ++ classesOf m⟩ : Registry).Distinct := by
  rw [Distinct, List.map_append]
  refine List.nodup_append.2 ⟨hr, map_classesOf m ▸ hnodup, ?_⟩
  rintro name hold _ hnew rfl
  have hsome := find?_isSome_iff.2 (List.mem_map.1 hold)
  rw [find?_of_free hfree hnew] at hsome
  cases hsome

/-! ## Series of operations -/

/-- The session after a series of operations. -/
def reached (size gas : Int) (ops : List Operation) : Session :=
  (perform compile ops (start size gas)).2

theorem reached_append_singleton :
    reached size gas (ops ++ [op]) = after (op.request compile (reached size gas ops)) :=
  perform_append_singleton ops op

theorem honest_reached : (reached size gas ops).cache.Honest :=
  (perform_follows ops (honest_start size gas) (.ofSize 0)).2

/-- The operation loads the unit of the class. -/
def Operation.Loads (op : Operation) (s : Session) (cls : ClassRef) : Prop :=
  ∃ src names t, op = .load src ∧ Session.load src s = .ok names t ∧
  ClassAsm.compile src = .ok cls.home

/-- The operation `op` is number `i` of the series, and is done in the session `s`. -/
def Done (size gas : Int) (ops : List Operation) (i : Nat) (op : Operation) (s : Session) : Prop :=
  ops[i]? = some op ∧ s = reached size gas (ops.take i)

/-- The class has been loaded last under the name, and not been unloaded since. -/
def Current (size gas : Int) (ops : List Operation) (name : String) (cls : ClassRef) : Prop :=
  ∃ i op s, Done size gas ops i op s ∧ op.Loads s cls ∧ cls.name = name ∧
    ∀ j op' t, i < j → Done size gas ops j op' t → op' ≠ .unload name ∧ ∀ cls', op'.Loads t cls' →
    cls'.name ≠ name

theorem Operation.Loads.free (hs : s.cache.Honest) (h : op.Loads s cls) :
    s.registry.find? cls.name = none := by
  obtain ⟨src, names, t, rfl, hload, hm⟩ := h
  rcases load_cases src s with ⟨e, he, -⟩ | ⟨m, hm', hfree, -⟩
  · cases he.symm.trans hload
  · cases ((hs.compile src).1.symm.trans hm').symm.trans hm
    exact hfree _ cls.get_mem

theorem Operation.not_loads (hop : ∀ src, op ≠ .load src) : ¬ op.Loads s cls :=
  fun ⟨src, _, _, h, _⟩ ↦ hop src h

/-- What an operation does to the registry. -/
theorem Operation.mem_registry_after (hs : s.cache.Honest) :
    (name, cls) ∈ (after (op.request Session.compile s)).registry.entries ↔
      op.Loads s cls ∧ cls.name = name ∨ (name, cls) ∈ s.registry.entries ∧ op ≠ .unload name := by
  rw [(op.after_request s).2]
  cases op with
  | load src =>
    dsimp only
    rcases load_cases src s with ⟨e, he, -⟩ | ⟨m, hm, hfree, hload⟩
    · have hloads : ¬ (Operation.load src).Loads s cls := by
        rintro ⟨_, names, t, ⟨⟩, hload, -⟩
        cases he.symm.trans hload
      rw [he]
      simp [after, hloads]
    · have hm := (hs.compile src).1.symm.trans hm
      have hloads : (Operation.load src).Loads s cls ↔ cls.home = m := by
        constructor
        · rintro ⟨_, names, t, ⟨⟩, -, hcls⟩
          exact Except.ok.inj (hcls.symm.trans hm)
        · rintro rfl
          exact ⟨src, _, _, rfl, hload, hm⟩
      rw [hload, after, List.mem_append, mem_classesOf, or_comm, hloads]
      simp
  | unload other =>
    have hname : name ≠ other ↔ Operation.unload other ≠ .unload name := by simp [eq_comm]
    rw [or_iff_right (not_and_of_not_left _ (not_loads (by simp))), ← hname]
    simp [Registry.erase]
  | compile | purge | new | call | get | set | classes =>
    rw [or_iff_right (not_and_of_not_left _ (not_loads (by simp))), and_iff_left fun h ↦ by cases h]

theorem distinct_reached : (reached size gas ops).registry.Distinct := by
  induction ops using List.reverseRecOn with
  | nil => exact List.nodup_nil
  | append_singleton ops op ih =>
    rw [reached_append_singleton, (op.after_request _).2]
    cases op with
    | load src =>
      dsimp only
      rcases load_cases src (reached size gas ops) with ⟨e, he, -⟩ | ⟨m, hm, hfree, hload⟩
      · rw [he]
        exact ih
      · rw [hload]
        exact ih.append (nodup_classNames ((honest_reached.compile src).1.symm.trans hm)) hfree
    | unload name => exact ih.erase name
    | compile | purge | new | call | get | set | classes => exact ih

theorem done_append {op' : Operation} {t : Session} : Done size gas (ops ++ [op]) i op' t ↔
      Done size gas ops i op' t ∨ i = ops.length ∧ op' = op ∧ t = reached size gas ops := by
  unfold Done
  rcases Nat.lt_trichotomy i ops.length with hlt | rfl | hgt
  · rw [List.getElem?_append_left hlt, List.take_append_of_le_length (Nat.le_of_lt hlt)]
    exact (or_iff_left fun h ↦ Nat.ne_of_lt hlt h.1).symm
  · simp [eq_comm]
  · have hnone : ops[i]? = none := List.getElem?_eq_none (Nat.le_of_lt hgt)
    have hnone' : (ops ++ [op])[i]? = none := List.getElem?_eq_none (by rwa [List.length_append])
    rw [hnone, hnone']
    exact iff_of_false nofun (not_or.2 ⟨nofun, fun h ↦ Nat.ne_of_gt hgt h.1⟩)

/-- The last operation loads the class, or leaves it current. -/
theorem current_append : Current size gas (ops ++ [op]) name cls ↔
      op.Loads (reached size gas ops) cls ∧ cls.name = name ∨ Current size gas ops name cls ∧
      op ≠ .unload name ∧
          ∀ cls', op.Loads (reached size gas ops) cls' → cls'.name ≠ name := by
  have hbound {j : Nat} {op' : Operation} {t : Session} (h : Done size gas ops j op' t) :
    j < ops.length := (List.getElem?_eq_some_iff.1 h.1).1
  constructor
  · rintro ⟨i, op', s, hdone, hloads, hname, hlast⟩
    rcases done_append.1 hdone with hdone | ⟨rfl, rfl, rfl⟩
    · exact .inr ⟨⟨i, op', s, hdone, hloads, hname, fun j op' t hj h ↦
        hlast j op' t hj (done_append.2 (.inl h))⟩,
        hlast _ _ _ (hbound hdone) (done_append.2 (.inr ⟨rfl, rfl, rfl⟩))⟩
    · exact .inl ⟨hloads, hname⟩
  · rintro (⟨hloads, hname⟩ | ⟨⟨i, op', s, hdone, hloads, hname, hlast⟩, hop⟩)
    · refine ⟨_, _, _, done_append.2 (.inr ⟨rfl, rfl, rfl⟩), hloads, hname, fun j op' t hj h ↦ ?_⟩
      rcases done_append.1 h with h | ⟨rfl, -⟩
      · exact absurd (hbound h) (Nat.lt_asymm hj)
      · exact absurd hj (Nat.lt_irrefl _)
    · refine ⟨i, op', s, done_append.2 (.inl hdone), hloads, hname, fun j op' t hj h ↦ ?_⟩
      rcases done_append.1 h with h | ⟨-, rfl, rfl⟩
      · exact hlast j op' t hj h
      · exact hop

/-- **The registry has the current class under each name.** -/
theorem find?_eq_some_iff_current :
    (reached size gas ops).registry.find? name = some cls ↔ Current size gas ops name cls := by
  rw [distinct_reached.find?_eq_some_iff]
  induction ops using List.reverseRecOn with
  | nil => exact iff_of_false List.not_mem_nil fun ⟨_, _, _, hdone, _⟩ ↦ nomatch hdone.1
  | append_singleton ops op ih =>
    rw [reached_append_singleton, Operation.mem_registry_after honest_reached, current_append, ← ih]
    refine or_congr_right (and_congr_right fun hmem ↦
      (and_iff_left fun cls' hloads hname ↦ ?_).symm)
    have hsome := Registry.find?_isSome_iff.2 ⟨_, hmem, rfl⟩
    rw [← hname, hloads.free honest_reached] at hsome
    cases hsome

/-! ## Loading -/

/-- **A unit is loaded as a whole or not at all**, whatever the host has done before.  If it is not
loaded, then because it does not compile or the name of a class of it is taken, and the registry
stays as it was.  If it is, its names are returned in their order; none of them was there before,
each of them now has its own class, and all others have the classes that they had.  Once no name is
found to be taken, none is while the classes are added; and every name has the class that was loaded
last under it. -/
theorem loading_is_all_or_nothing (size gas : Int) (ops : List Operation) :
    (∀ src,
      (∃ e t, load src (reached size gas ops) = .error e t ∧
        t.registry = (reached size gas ops).registry ∧
        ((∃ e', ClassAsm.compile src = .error e' ∧ e = .compile e') ∨
          ∃ m, ∃ c ∈ m.classes, ClassAsm.compile src = .ok m ∧
            ((reached size gas ops).registry.find? c.name).isSome ∧
            e = .stop (.refused (Registry.taken c.name)))) ∨
      ∃ m t, ClassAsm.compile src = .ok m ∧
        load src (reached size gas ops) = .ok (m.classes.toList.map (·.name)) t ∧
        (∀ cls : ClassRef, cls.home = m → (reached size gas ops).registry.find? cls.name = none ∧
          t.registry.find? cls.name = some cls) ∧
        ∀ name, (∀ c ∈ m.classes, c.name ≠ name) →
          t.registry.find? name = (reached size gas ops).registry.find? name) ∧
    (∀ src m, ClassAsm.compile src = .ok m →
      (∀ c ∈ m.classes, (reached size gas ops).registry.find? c.name = none) →
      ((reached size gas ops).registry.addAll [] (Registry.classesOf m)).1 = .ok ()) ∧
    ∀ name cls, (reached size gas ops).registry.find? name = some cls ↔
      Current size gas ops name cls := by
  refine ⟨fun src ↦ ?_, fun src m hm hfree ↦ Registry.addAll_of_free (nodup_classNames hm) hfree,
    fun name cls ↦ find?_eq_some_iff_current⟩
  have hcompile : ((reached size gas ops).cache.compile src).1 = ClassAsm.compile src :=
    (honest_reached.compile src).1
  rcases load_cases src (reached size gas ops) with ⟨e, he, hunfit⟩ | ⟨m, hm, hfree, hload⟩
  · refine .inl ⟨e, _, he, rfl, ?_⟩
    rw [hcompile] at hunfit
    generalize hresult : ClassAsm.compile src = result at hunfit
    cases hunfit with
    | compile e => exact .inl ⟨e, rfl, rfl⟩
    | taken m name hname htaken =>
      rw [map_classesOf] at hname htaken
      obtain ⟨c, hc, rfl⟩ := List.mem_map.1 hname
      exact .inr ⟨m, c, Array.mem_toList_iff.1 hc, rfl, htaken (nodup_classNames hresult), rfl⟩
  · have hm := hcompile.symm.trans hm
    have hdistinct := distinct_reached.append (nodup_classNames hm) hfree
    refine .inr ⟨m, _, hm, (map_classesOf m ▸ hload :), fun cls hcls ↦ ⟨?_, ?_⟩,
      fun name hname ↦ ?_⟩
    · exact hfree _ (hcls ▸ cls.get_mem)
    · exact hdistinct.find?_eq_some_iff.2 (List.mem_append_right _ (mem_classesOf.2 ⟨hcls, rfl⟩))
    · refine Option.ext fun cls ↦ ?_
      rw [hdistinct.find?_eq_some_iff, distinct_reached.find?_eq_some_iff, List.mem_append]
      refine or_iff_left fun hmem ↦ ?_
      obtain ⟨rfl, hcls⟩ := mem_classesOf.1 hmem
      exact hname _ cls.get_mem hcls

/-- A sample: a unit with two classes. -/
def pair : String := "class A public\nend\nclass B public\nend"

/-- What is left of the unit after one of its classes has been unloaded, and the unit loaded
again. -/
def halves : List Operation := [.load pair, .unload "A", .load pair]

/-- A unit is refused while one of its classes is there, and loaded once it is not. -/
theorem half_a_unit_is_not_loaded :
    (∃ e t, load pair (reached 0 0 halves) = .error e t ∧ t.registry.entries.map (·.1) = ["B"]) ∧
    ∃ m t, load pair (reached 0 0 (halves ++ [.unload "B"])) = .ok ["A", "B"] t ∧
    ClassAsm.compile pair = .ok m ∧
      ∀ cls : ClassRef, cls.home = m → t.registry.find? cls.name = some cls := by
  have hcompiles : (ClassAsm.compile pair).toOption.map (·.classes.toList.map (·.name)) =
    some ["A", "B"] := by
    decide +kernel
  obtain ⟨m, hm, hnames⟩ := Option.map_eq_some_iff.1 hcompiles
  have hm := eq_of_toOption hm
  have hleft : (reached 0 0 halves).registry.entries.map (·.1) = ["B"] := by decide +kernel
  have hnone : (reached 0 0 (halves ++ [.unload "B"])).registry.entries.map (·.1) = [] := by
    decide +kernel
  constructor
  · rcases (loading_is_all_or_nothing 0 0 halves).1 pair with
      ⟨e, t, he, hsame, -⟩ | ⟨m', t, hm', -, hnew, -⟩
    · exact ⟨e, t, he, (congrArg (fun r ↦ r.entries.map (·.1)) hsame).trans hleft⟩
    · cases hm.symm.trans hm'
      have hold : "B" ∈ (reached 0 0 halves).registry.entries.map (·.1) := by
        rw [hleft]; exact List.mem_cons_self
      have hname : "B" ∈ m.classes.toList.map (·.name) := by rw [hnames]; decide
      obtain ⟨c, hc, hB⟩ := List.mem_map.1 hname
      obtain ⟨e, he, hename⟩ := exists_mem_classesOf (Array.mem_toList_iff.1 hc)
      obtain ⟨hhome, hcls⟩ := mem_classesOf.1 he
      have hsome := Registry.find?_isSome_iff.2 (List.mem_map.1 hold)
      rw [← hB, ← hename, ← hcls, (hnew e.2 hhome).1] at hsome
      cases hsome
  · rcases (loading_is_all_or_nothing 0 0 (halves ++ [.unload "B"])).1 pair with
      ⟨e, t, he, -, ⟨e', hfails, -⟩ | ⟨m', c, hc, hm', htaken, -⟩⟩ | ⟨m', t, hm', hload, hnew, -⟩
    · cases hm.symm.trans hfails
    · have hold := List.mem_map.2 (Registry.find?_isSome_iff.1 htaken)
      rw [hnone] at hold
      cases hold
    · cases hm.symm.trans hm'
      exact ⟨m, t, hnames ▸ hload, hm, fun cls hcls ↦ (hnew cls hcls).2⟩

end ClassAsm.Session
