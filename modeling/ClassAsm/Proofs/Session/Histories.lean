import ClassAsm.Proofs.Lists
import ClassAsm.Proofs.Machine.Units
import ClassAsm.Session

/-!
# Histories of sessions

What a session has become by the requests of a host.  The cache has nothing but modules of their
source texts, and every class of the registry belongs to a unit that has been loaded (`Accounts`).
A registry has one class for each name at a time: units that are loaded and never unloaded are
apart.
-/

namespace ClassAsm.Session

open Bytecode Machine

/-! ## Requests -/

/-- The session behind a request. -/
def after {α : Type} : EStateM.Result Error Session α → Session
  | .ok _ s => s
  | .error _ s => s

/-- Every module in the cache is that of its source text. -/
def Cache.Honest (c : Cache) : Prop := ∀ e ∈ c.entries, ClassAsm.compile e.1 = .ok e.2

variable {α : Type}

section Requests

variable {c : Cache} {src : String} {m : CompiledModule}

theorem Cache.Honest.insert (hc : c.Honest) (hm : ClassAsm.compile src = .ok m) :
    (c.insert src m).Honest := by
  intro e he
  rcases List.mem_cons.1 (List.mem_of_mem_take he) with rfl | he
  · exact hm
  · exact hc e (List.mem_filter.1 he).1

/-- **An honest cache compiles honestly.** -/
theorem Cache.Honest.compile (hc : c.Honest) (src : String) :
    (c.compile src).1 = ClassAsm.compile src ∧ (c.compile src).2.Honest := by
  rw [Cache.compile]
  split
  · rename_i m hm
    have hm := hc (src, m) (mem_of_lookup hm)
    exact ⟨hm.symm, hc.insert hm⟩
  · split
    · rename_i m hm
      exact ⟨hm.symm, hc.insert hm⟩
    · rename_i e he
      exact ⟨he.symm, hc⟩

theorem after_compile (src : String) (s : Session) :
    after (compile src s) = { s with cache := (s.cache.compile src).2 } := by
  rw [compile]
  split <;> rename_i heq <;> rw [heq] <;> rfl

/-- A class is not loaded, or the machine makes an instance of it. -/
theorem new_cases (name : String) (ctor : Int) (s : Session) : (∃ e, new name ctor s = .error e s) ∨
      ∃ cls, (name, cls) ∈ s.registry.entries ∧
      new name ctor s = onMachine (instantiate cls ctor) s := by
  rw [new, get_bind]
  cases hcls : s.registry.find? name with
  | none => exact .inl ⟨_, rfl⟩
  | some cls => exact .inr ⟨cls, mem_of_lookup hcls, rfl⟩

/-- A field is not written, or the heap is the one that the host has written to. -/
theorem setField_cases (addr : Nat) (name : String) (v : Value) (s : Session) :
    (∃ e, setField addr name v s = .error e s) ∨ ∃ heap, Machine.setField s.heap addr name v =
    .ok heap ∧
        setField addr name v s = .ok () { s with heap } := by
  rw [setField, get_bind]
  cases Machine.setField s.heap addr name v with
  | error d => exact .inl ⟨_, rfl⟩
  | ok heap => exact .inr ⟨heap, rfl, rfl⟩

theorem after_getField (addr : Nat) (name : String) (s : Session) :
    after (getField addr name s) = s := by
  rw [getField, get_bind]
  cases s.heap.objects[addr]? with
  | none => rfl
  | some cell =>
    dsimp only
    cases Machine.getField cell name <;> rfl

theorem after_onMachine (act : HostCall α) (s : Session) : after (onMachine act s) =
      { s with heap := heapAfter (act s.machine), output := (after (onMachine act s)).output } := by
  rw [onMachine]
  dsimp only
  split <;> rename_i heq <;> rw [heq] <;> rfl

end Requests

/-! ## Registries -/

section Registries

variable {r r' : Registry} {m : CompiledModule}

theorem mem_classesOf {e : String × ClassRef} :
    e ∈ Registry.classesOf m ↔ e.2.home = m ∧ e.2.name = e.1 := by
  constructor
  · intro he
    obtain ⟨i, -, rfl⟩ := List.mem_map.1 he
    exact ⟨rfl, rfl⟩
  · rintro ⟨rfl, hname⟩
    exact List.mem_map.2 ⟨e.2.index, List.mem_finRange _, Prod.ext hname rfl⟩

theorem exists_mem_classesOf {c : CompiledClass} (hc : c ∈ m.classes) :
    ∃ e ∈ Registry.classesOf m, e.1 = c.name := by
  obtain ⟨i, hi, rfl⟩ := Array.mem_iff_getElem.1 hc
  exact ⟨_, List.mem_map.2 ⟨⟨i, hi⟩, List.mem_finRange _, rfl⟩, rfl⟩

theorem Registry.find?_isSome_iff {name : String} :
    (r.find? name).isSome = true ↔ ∃ e ∈ r.entries, e.1 = name := by
  rw [Registry.find?, Option.isSome_map, List.find?_isSome]
  simp only [decide_eq_true_eq]

theorem Registry.foldl_erase (names : List String) :
    names.foldl erase r = ⟨r.entries.filter fun e ↦ e.1 ∉ names⟩ := by
  induction names generalizing r with
  | nil => simp
  | cons name names ih => simp [ih, erase, List.filter_filter, Bool.and_comm]

/-- Forgetting what has been added restores what was there before. -/
theorem Registry.foldl_erase_append {done : List (String × ClassRef)}
    (hdone : ∀ e ∈ done, r.find? e.1 = none) :
    (done.map (·.1)).foldl erase ⟨r.entries ++ done⟩ = r := by
  have hold : r.entries.filter (fun e ↦ e.1 ∉ done.map (·.1)) = r.entries := by
    refine List.filter_eq_self.2 fun e he ↦ decide_eq_true fun hmem ↦ ?_
    obtain ⟨e', he', hname⟩ := List.mem_map.1 hmem
    have hsome := find?_isSome_iff.2 ⟨e, he, hname.symm⟩
    rw [hdone e' he'] at hsome
    cases hsome
  have hnew : done.filter (fun e ↦ e.1 ∉ done.map (·.1)) = [] :=
    List.filter_eq_nil_iff.2 fun e he hmem ↦ of_decide_eq_true hmem (List.mem_map_of_mem he)
  rw [foldl_erase, List.filter_append, hold, hnew, List.append_nil]

/-- **Classes are added all or none**: if the name of one is taken, by what was there before or by
one added before it, forgetting the latter restores the former. -/
theorem Registry.addAll_cases {done new : List (String × ClassRef)}
    (hdone : ∀ e ∈ done, r.find? e.1 = none) : (⟨r.entries ++ done⟩ : Registry).addAll
    (done.map (·.1)) new = (.ok (), ⟨r.entries ++ (done ++ new)⟩) ∨
      ∃ before e rest, new = before ++ e :: rest ∧
      ((r.find? e.1).isSome ∨ e.1 ∈ (done ++ before).map (·.1)) ∧
        (⟨r.entries ++ done⟩ : Registry).addAll (done.map (·.1)) new = (.error (taken e.1), r) := by
  induction new generalizing done with
  | nil => exact .inl (by rw [addAll, List.append_nil])
  | cons e rest ih =>
    have hfind : ((⟨r.entries ++ done⟩ : Registry).find? e.1).isSome ↔
        (r.find? e.1).isSome ∨ e.1 ∈ done.map (·.1) := by
      simp only [find?_isSome_iff, List.mem_append, or_and_right, exists_or, List.mem_map]
    rw [addAll, add?]
    by_cases htaken : ((⟨r.entries ++ done⟩ : Registry).find? e.1).isSome
    · rw [if_pos htaken]
      refine .inr ⟨[], e, rest, rfl, (List.append_nil done).symm ▸ hfind.1 htaken, ?_⟩
      rw [foldl_erase_append hdone]
    · rw [if_neg htaken]
      have hdone' : ∀ e' ∈ done ++ [e], r.find? e'.1 = none := by
        rw [hfind, not_or, Bool.not_eq_true, Option.isSome_eq_false_iff,
          Option.isNone_iff_eq_none] at htaken
        exact List.forall_mem_append.2 ⟨hdone, List.forall_mem_singleton.2 htaken.1⟩
      have hnext := ih hdone'
      simp only [List.append_assoc, List.map_append, List.map_cons, List.map_nil, List.cons_append,
        List.nil_append] at hnext ⊢
      refine hnext.imp_right ?_
      rintro ⟨before, e', rest', rfl, h⟩
      exact ⟨e :: before, e', rest', rfl, h⟩

/-- How loading a module ends: with all of its classes, or with those from before because a name is
taken, by them or by another class of the module. -/
theorem Registry.load_cases (r : Registry) (m : CompiledModule) :
    (r.load m = (.ok (), ⟨r.entries ++ classesOf m⟩) ∧ ∀ c ∈ m.classes, r.find? c.name = none) ∨
      ∃ name, r.load m = (.error (taken name), r) ∧ name ∈ (classesOf m).map (·.1) ∧
        (((classesOf m).map (·.1)).Nodup → (r.find? name).isSome) := by
  rw [load]
  split
  · rename_i e he
    have hsome : (r.find? e.1).isSome := (List.find?_eq_some_iff_append.1 he).1
    exact .inr ⟨e.1, rfl, List.mem_map_of_mem (List.mem_of_find?_eq_some he), fun _ ↦ hsome⟩
  · rename_i hfree
    have hnone {e : String × ClassRef} (he : e ∈ classesOf m) : r.find? e.1 = none := by
      have hnone := List.find?_eq_none.1 hfree e he
      rwa [Bool.not_eq_true, Option.isSome_eq_false_iff, Option.isNone_iff_eq_none] at hnone
    have hadded := @addAll_cases r [] (classesOf m) nofun
    rw [List.append_nil, List.map_nil, List.nil_append] at hadded
    obtain hok | ⟨before, e, rest, hnew, htaken, herror⟩ := hadded
    · refine .inl ⟨hok, fun c hc ↦ ?_⟩
      obtain ⟨e, he, hname⟩ := exists_mem_classesOf hc
      exact hname ▸ hnone he
    · refine .inr ⟨e.1, herror, hnew ▸ List.mem_map_of_mem List.mem_append_cons_self,
        fun hnodup ↦ ?_⟩
      refine htaken.resolve_right fun hbefore ↦ ?_
      rw [hnew, List.map_append, List.map_cons] at hnodup
      exact (List.nodup_append.1 hnodup).2.2 _ hbefore _ List.mem_cons_self rfl

end Registries

/-- Why a unit is not loaded. -/
inductive Unfit (r : Registry) : Except CompileError CompiledModule → Error → Prop where
  | compile (e : CompileError) : Unfit r (.error e) (.compile e)
  | taken (m : CompiledModule) (name : String) : name ∈ (Registry.classesOf m).map (·.1) →
      (((Registry.classesOf m).map (·.1)).Nodup → (r.find? name).isSome) →
      Unfit r (.ok m) (.stop (.refused (Registry.taken name)))

/-- A unit is not loaded, or its classes are added to those of the registry. -/
theorem load_cases (src : String) (s : Session) :
    (∃ e, load src s = .error e { s with cache := (s.cache.compile src).2 } ∧
        Unfit s.registry (s.cache.compile src).1 e) ∨
      ∃ m, (s.cache.compile src).1 = .ok m ∧ (∀ c ∈ m.classes, s.registry.find? c.name = none) ∧
        load src s = .ok ((Registry.classesOf m).map (·.1)) { s with
          cache := (s.cache.compile src).2
          registry := ⟨s.registry.entries ++ Registry.classesOf m⟩ } := by
  rcases hc : s.cache.compile src with ⟨e | m, cache⟩
  · have hcompile : compile src s = .error (.compile e) { s with cache } := by rw [compile, hc]
    exact .inl ⟨_, bind_of_error hcompile, .compile e⟩
  · have hcompile : compile src s = .ok m { s with cache } := by rw [compile, hc]
    rw [load, loadFrom, bind_of_ok hcompile, get_bind]
    dsimp only
    rcases s.registry.load_cases m with ⟨hload, hfree⟩ | ⟨name, hload, hname, htaken⟩ <;> rw [hload]
    · exact .inr ⟨m, rfl, hfree, rfl⟩
    · exact .inl ⟨_, rfl, .taken m name hname htaken⟩

/-! ## Histories -/

/-- The unit, if the session loads it. -/
def added (src : String) (s : Session) : List CompiledModule :=
  match load src s, (s.cache.compile src).1 with
  | .ok _ _, .ok m => [m]
  | _, _ => []

/-- A host can bring the session about, and has loaded the units `ms` in the course of it.  It may
write to fields whatever it has got from the heap. -/
inductive History (mayUnload : Prop) : List CompiledModule → Session → Prop where
  | start (cacheSize gasLimit : Int) : History mayUnload [] (start cacheSize gasLimit)
  | compile : ∀ {ms s} (src : String), History mayUnload ms s →
      History mayUnload ms (after (compile src s))
  | load : ∀ {ms s} (src : String), History mayUnload ms s →
      History mayUnload (added src s ++ ms) (after (load src s))
  | unload : ∀ {ms s} (name : String), mayUnload → History mayUnload ms s →
      History mayUnload ms (after (unload name s))
  | purge : ∀ {ms s}, History mayUnload ms s → History mayUnload ms (after (purge s))
  | new : ∀ {ms s} (name : String) (ctor : Int), History mayUnload ms s →
      History mayUnload ms (after (new name ctor s))
  | call : ∀ {ms s} (obj : Option Nat) (method : String), History mayUnload ms s →
      History mayUnload ms (after (call obj method s))
  | get : ∀ {ms s} (addr : Nat) (name : String), History mayUnload ms s →
      History mayUnload ms (after (getField addr name s))
  | set : ∀ {ms s} (addr : Nat) (name : String) {v}, History mayUnload ms s → Obtained s.heap v →
      History mayUnload ms (after (setField addr name v s))

/-- What a session knows about the units that it has loaded. -/
structure Accounts (mayUnload : Prop) (ms : List CompiledModule) (cache : Cache)
    (registry : Registry) : Prop where
  cache : cache.Honest
  source : ∀ m ∈ ms, ∃ src, ClassAsm.compile src = .ok m
  home : ∀ e ∈ registry.entries, e.2.home ∈ ms
  listed : ¬mayUnload → ∀ m ∈ ms, ∀ c ∈ m.classes, ∃ e ∈ registry.entries, e.1 = c.name
  apart : ¬mayUnload → Apart ms

section Histories

variable {mayUnload : Prop} {ms : List CompiledModule} {s : Session}

theorem Accounts.load {cache : Cache} {registry : Registry} {src : String} {m : CompiledModule}
    (h : Accounts mayUnload ms cache registry) (hm : (cache.compile src).1 = .ok m)
    (hfree : ∀ c ∈ m.classes, registry.find? c.name = none) :
    Accounts mayUnload (m :: ms) (cache.compile src).2
    ⟨registry.entries ++ Registry.classesOf m⟩ := by
  obtain ⟨hcompile, hcache⟩ := h.cache.compile src
  have hlisted (hkeep : ¬mayUnload) {m' : CompiledModule} (hm' : m' ∈ ms) {c c' : CompiledClass}
      (hc : c ∈ m'.classes) (hc' : c' ∈ m.classes) (hname : c.name = c'.name) : False := by
    have hsome := Registry.find?_isSome_iff.2 (h.listed hkeep m' hm' c hc)
    rw [hname, hfree c' hc'] at hsome
    cases hsome
  refine ⟨hcache, List.forall_mem_cons.2 ⟨⟨src, hcompile ▸ hm⟩, h.source⟩, fun e he ↦ ?_,
    fun hkeep m' hm' c hc ↦ ?_, fun hkeep m₁ hm₁ m₂ hm₂ c₁ hc₁ c₂ hc₂ hname ↦ ?_⟩
  · rcases List.mem_append.1 he with he | he
    · exact List.mem_cons_of_mem _ (h.home e he)
    · rw [(mem_classesOf.1 he).1]
      exact List.mem_cons_self
  · rcases List.mem_cons.1 hm' with rfl | hm'
    · obtain ⟨e, he, hname⟩ := exists_mem_classesOf hc
      exact ⟨e, List.mem_append_right _ he, hname⟩
    · obtain ⟨e, he, hname⟩ := h.listed hkeep m' hm' c hc
      exact ⟨e, List.mem_append_left _ he, hname⟩
  · rcases List.mem_cons.1 hm₁ with rfl | hold₁ <;> rcases List.mem_cons.1 hm₂ with rfl | hold₂
    · rfl
    · exact (hlisted hkeep hold₂ hc₂ hc₁ hname.symm).elim
    · exact (hlisted hkeep hold₁ hc₁ hc₂ hname).elim
    · exact h.apart hkeep m₁ hold₁ m₂ hold₂ c₁ hc₁ c₂ hc₂ hname

/-- **The cache and the registry keep account of the units.** -/
theorem History.accounts (hs : History mayUnload ms s) :
    Accounts mayUnload ms s.cache s.registry := by
  induction hs with
  | start cacheSize gasLimit =>
    exact ⟨fun _ he ↦ (List.not_mem_nil he).elim, fun _ hm ↦ (List.not_mem_nil hm).elim,
      fun _ he ↦ (List.not_mem_nil he).elim, fun _ _ hm ↦ (List.not_mem_nil hm).elim,
      fun _ _ hm ↦ (List.not_mem_nil hm).elim⟩
  | compile src _ ih =>
    rw [after_compile]
    exact { ih with cache := (ih.cache.compile src).2 }
  | @load ms s src _ ih =>
    rcases load_cases src s with ⟨e, he, -⟩ | ⟨m, hm, hfree, hload⟩
    · rw [added, he]
      exact { ih with cache := (ih.cache.compile src).2 }
    · rw [added, hload, hm]
      exact ih.load hm hfree
  | unload name hmay _ ih =>
    exact ⟨ih.cache, ih.source, fun e he ↦ ih.home e (List.mem_filter.1 he).1, fun hkeep ↦
      (hkeep hmay).elim, ih.apart⟩
  | purge _ ih => exact { ih with cache := fun _ he ↦ (List.not_mem_nil he).elim }
  | @new ms s name ctor _ ih =>
    rcases new_cases name ctor s with ⟨e, he⟩ | ⟨cls, -, hnew⟩
    · rw [he]
      exact ih
    · rw [hnew, after_onMachine]
      exact ih
  | call obj method _ ih =>
    rw [Session.call, after_onMachine]
    exact ih
  | get addr name _ ih =>
    rw [after_getField]
    exact ih
  | @set ms s addr name v _ _ ih =>
    rcases setField_cases addr name v s with ⟨e, he⟩ | ⟨heap, -, hset⟩
    · rw [he]
      exact ih
    · rw [hset]
      exact ih

end Histories

end ClassAsm.Session
