import ClassAsm.Proofs.Session.Histories
import Mathlib.Data.List.Dedup
import Mathlib.Data.List.Induction

/-!
# What the cache does not change

A session answers as if it compiled every source text anew: a cached module is the module of its
source text (`Cache.Honest`), and nothing else of a session looks at the cache.  `Follows` compares
a request of a session with one of a session that has another cache, and `perform_follows` a whole
series of operations.

How many modules are cached does depend on the cache.  The source texts in it are the first of those
that have been compiled, the one asked for last first (`Cache.Recalls`).
-/

namespace ClassAsm.Session

open Bytecode Machine

variable {s : Session} {α β : Type} {src : String} {texts : List String}

/-! ## Operations -/

/-- What a host can ask of a session. -/
inductive Operation where
  | compile (src : String)
  | load (src : String)
  | unload (name : String)
  | purge
  | new (name : String) (ctor : Int)
  | call (obj : Option Nat) (method : String)
  | get (addr : Nat) (name : String)
  | set (addr : Nat) (name : String) (v : Value)
  | classes

/-- What a host is answered. -/
inductive Answer where
  | done
  | unit (m : CompiledModule)
  | names (names : List String)
  | value (v : Value)

/-- Compile a unit anew, whatever is cached. -/
def compileAnew (src : String) : Request CompiledModule := fun s ↦
  match ClassAsm.compile src with
  | .ok m => .ok m s
  | .error e => .error (.compile e) s

/-- An operation of a session that compiles its units by `compiling`. -/
def Operation.request (compiling : String → Request CompiledModule) : Operation → Request Answer
  | compile src => return .unit (← compiling src)
  | load src => return .names (← loadFrom (compiling src))
  | unload name => do
    Session.unload name
    return .done
  | purge => do
    Session.purge
    return .done
  | new name ctor => return .value (← Session.new name ctor)
  | call obj method => return .value (← Session.call obj method)
  | get addr name => return .value (← getField addr name)
  | set addr name v => do
    setField addr name v
    return .done
  | classes => return .names (← MonadState.get).registry.names

/-- The source text that an operation compiles. -/
def Operation.source? : Operation → Option String
  | compile src => some src
  | load src => some src
  | _ => none

/-- What a host sees of a request: how it ends, and all that has been printed by then. -/
def seen {α : Type} : EStateM.Result Error Session α → Except Error α × String
  | .ok a s => (.ok a, s.output)
  | .error e s => (.error e, s.output)

/-- Do operations one after the other, each of them however the last one has ended. -/
def perform (compiling : String → Request CompiledModule) :
    List Operation → Session → List (Except Error Answer × String) × Session
  | [], s => ([], s)
  | op :: ops, s =>
    let result := op.request compiling s
    let rest := perform compiling ops (after result)
    (seen result :: rest.1, rest.2)

section Perform

variable {compiling : String → Request CompiledModule}

/-- What is seen of an operation depends on the session that those before it have left. -/
theorem perform_getElem? (ops : List Operation) (i : Nat) : (perform compiling ops s).1[i]? =
      ops[i]?.map fun op ↦ seen (op.request compiling (perform compiling (ops.take i) s).2) := by
  induction ops generalizing s i with
  | nil => rfl
  | cons op ops ih =>
    cases i with
    | zero => rfl
    | succ i => exact ih i

theorem perform_append_singleton (ops : List Operation) (op : Operation) :
    (perform compiling (ops ++ [op]) s).2 = after
    (op.request compiling (perform compiling ops s).2) := by
  induction ops generalizing s with
  | nil => rfl
  | cons op ops ih => exact ih

end Perform

/-! ## Sessions with different caches -/

/-- The two requests have the same outcome, and leave sessions that only differ in their caches, of
which the first is honest. -/
inductive Match {α : Type} :
    EStateM.Result Error Session α → EStateM.Result Error Session α → Prop where
  | ok (a : α) (s : Session) (c : Cache) : s.cache.Honest →
      Match (.ok a s) (.ok a { s with cache := c })
  | error (e : Error) (s : Session) (c : Cache) : s.cache.Honest →
      Match (.error e s) (.error e { s with cache := c })

/-- A request that goes as `y` does in a session with any other cache. -/
def Follows {α : Type} (x y : Request α) : Prop :=
  ∀ (s : Session) (c : Cache), s.cache.Honest → Match (x s) (y { s with cache := c })

section Follows

variable {x y : Request α}

theorem follows_pure (a : α) : Follows (pure a) (pure a) := fun s c hs ↦ .ok a s c hs

theorem Follows.bind {f g : α → Request β} (h : Follows x y) (hf : ∀ a, Follows (f a) (g a)) :
    Follows (x >>= f) (y >>= g) := by
  intro s c hs
  generalize hx : x s = rx
  generalize hy : y { s with cache := c } = ry
  have hmatch := h s c hs
  rw [hx, hy] at hmatch
  cases hmatch with
  | ok a s' c' hs' =>
    rw [bind_of_ok hx, bind_of_ok hy]
    exact hf a s' c' hs'
  | error e s' c' hs' =>
    rw [bind_of_error hx, bind_of_error hy]
    exact .error e s' c' hs'

theorem follows_compile (src : String) : Follows (compile src) (compileAnew src) := by
  intro s c hs
  obtain ⟨hresult, hcache⟩ := hs.compile src
  rw [compile, compileAnew, ← hresult]
  rcases hc : s.cache.compile src with ⟨_ | m, cache⟩
  · rw [hc] at hcache
    exact .error _ { s with cache } c hcache
  · rw [hc] at hcache
    exact .ok m { s with cache } c hcache

theorem follows_loadFrom {x y : Request CompiledModule} (h : Follows x y) :
    Follows (loadFrom x) (loadFrom y) := by
  refine h.bind fun m s c hs ↦ ?_
  rw [get_bind, get_bind]
  dsimp only
  rcases s.registry.load m with ⟨_ | _, registry⟩
  · exact .error _ { s with registry } c hs
  · exact .ok _ { s with registry } c hs

theorem follows_onMachine (act : HostCall α) : Follows (onMachine act) (onMachine act) := by
  intro s c hs
  have hmachine : machine { s with cache := c } = s.machine := rfl
  rw [onMachine, onMachine, hmachine]
  dsimp only
  cases act s.machine with
  | ok a m => exact .ok a { s with heap := m.heap, output := m.output } c hs
  | error stop m => exact .error _ { s with heap := m.heap, output := m.output } c hs

theorem follows_new (name : String) (ctor : Int) : Follows (new name ctor) (new name ctor) := by
  intro s c hs
  rw [new, get_bind, get_bind]
  dsimp only
  cases s.registry.find? name with
  | none => exact .error _ s c hs
  | some cls => exact follows_onMachine _ s c hs

theorem follows_getField (addr : Nat) (name : String) :
    Follows (getField addr name) (getField addr name) := by
  intro s c hs
  rw [getField, get_bind, get_bind]
  dsimp only
  cases s.heap.objects[addr]? with
  | none => exact .ok _ s c hs
  | some cell =>
    dsimp only
    cases Machine.getField cell name with
    | error d => exact .error _ s c hs
    | ok v => exact .ok v s c hs

theorem follows_setField (addr : Nat) (name : String) (v : Value) :
    Follows (setField addr name v) (setField addr name v) := by
  intro s c hs
  rw [setField, get_bind, get_bind]
  dsimp only
  cases Machine.setField s.heap addr name v with
  | error d => exact .error _ s c hs
  | ok heap => exact .ok () { s with heap } c hs

/-- **Every operation goes as if nothing had been cached.** -/
theorem Operation.follows (op : Operation) :
    Follows (op.request Session.compile) (op.request compileAnew) := by
  cases op with
  | compile src => exact (follows_compile src).bind fun m ↦ follows_pure _
  | load src => exact (follows_loadFrom (follows_compile src)).bind fun names ↦ follows_pure _
  | unload name => exact fun s c hs ↦ .ok _ { s with registry := s.registry.erase name } c hs
  | purge =>
    exact fun s c _ ↦ .ok _ { s with cache := s.cache.clear } c.clear fun _ he ↦
      (List.not_mem_nil he).elim
  | new name ctor => exact (follows_new name ctor).bind fun v ↦ follows_pure _
  | call obj method => exact (follows_onMachine _).bind fun v ↦ follows_pure _
  | get addr name => exact (follows_getField addr name).bind fun v ↦ follows_pure _
  | set addr name v => exact (follows_setField addr name v).bind fun _ ↦ follows_pure _
  | classes => exact fun s c hs ↦ .ok _ s c hs

end Follows

theorem perform_follows (ops : List Operation) (hs : s.cache.Honest) (c : Cache) :
    (perform compile ops s).1 = (perform compileAnew ops { s with cache := c }).1 ∧
      (perform compile ops s).2.cache.Honest := by
  induction ops generalizing s c with
  | nil => exact ⟨rfl, hs⟩
  | cons op ops ih =>
    rw [perform, perform]
    dsimp only
    have hmatch := op.follows s c hs
    generalize op.request compile s = rx at hmatch ⊢
    generalize op.request compileAnew { s with cache := c } = ry at hmatch ⊢
    cases hmatch with
    | ok a s' c' hs' => exact ⟨congrArg _ (ih hs' c').1, (ih hs' c').2⟩
    | error e s' c' hs' => exact ⟨congrArg _ (ih hs' c').1, (ih hs' c').2⟩

theorem honest_start (size gas : Int) : (start size gas).cache.Honest :=
  fun _ he ↦ (List.not_mem_nil he).elim

/-- An operation that compiles anew complains about its source text exactly if that text does not
compile. -/
theorem seen_compileAnew_iff {op : Operation} (hop : op.source? = some src) (s : Session)
    (e : CompileError) :
    (seen (op.request compileAnew s)).1 = .error (.compile e) ↔
    ClassAsm.compile src = .error e := by
  cases h : ClassAsm.compile src with
  | error e' =>
    have hanew : compileAnew src s = .error (.compile e') s := by rw [compileAnew, h]
    have hseen : seen (op.request compileAnew s) = (.error (.compile e'), s.output) := by
      cases op with
      | compile =>
        cases hop
        rw [Operation.request, bind_of_error hanew, seen]
      | load =>
        cases hop
        have hload : loadFrom (compileAnew src) s = .error (.compile e') s := bind_of_error hanew
        rw [Operation.request, bind_of_error hload, seen]
      | _ => cases hop
    rw [hseen]
    simp
  | ok m =>
    have hanew : compileAnew src s = .ok m s := by rw [compileAnew, h]
    refine iff_of_false (fun hseen ↦ ?_) nofun
    cases op with
    | compile =>
      cases hop
      rw [Operation.request, bind_of_ok hanew] at hseen
      cases hseen
    | load =>
      cases hop
      have hload : loadFrom (compileAnew src) s = _ := bind_of_ok hanew
      rw [get_bind] at hload
      rcases hr : s.registry.load m with ⟨_ | _, registry⟩
      · rw [hr] at hload
        rw [Operation.request, bind_of_error hload] at hseen
        cases hseen
      · rw [hr] at hload
        rw [Operation.request, bind_of_ok hload] at hseen
        cases hseen
    | _ => cases hop

/-! ## How much is cached -/

/-- The operations after the last one that has emptied the cache. -/
def sincePurge (ops : List Operation) : List Operation :=
  ops.foldl (fun recent op ↦ match op with
    | .purge => []
    | op => recent ++ [op]) []

/-- The source texts that have been compiled since the cache was last emptied, each of them once. -/
def compiledTexts (ops : List Operation) : List String :=
  (((sincePurge ops).filterMap Operation.source?).filter fun src ↦
    (ClassAsm.compile src).isOk).dedup

/-- The cache has the first of the source texts, as many as it can hold. -/
structure Cache.Recalls (c : Cache) (texts : List String) : Prop where
  keys : c.entries.map (·.1) = texts.take c.capacity
  nodup : texts.Nodup

section Recalls

variable {c : Cache}

/-- A text that is asked for comes first. -/
theorem Cache.Recalls.insert (h : c.Recalls texts) (m : CompiledModule) :
    (c.insert src m).Recalls (src :: texts.filter (· ≠ src)) := by
  refine ⟨?_, List.nodup_cons.2 ⟨fun hmem ↦ of_decide_eq_true (List.mem_filter.1 hmem).2 rfl,
    h.nodup.filter _⟩⟩
  have hkeys : (c.entries.filter fun e ↦ e.1 ≠ src).map (·.1) =
    (texts.take c.capacity).filter (· ≠ src) := by
    rw [← h.keys, List.filter_map]
    rfl
  show (((src, m) :: c.entries.filter fun e ↦ e.1 ≠ src).take c.capacity).map (·.1) =
    (src :: texts.filter (· ≠ src)).take c.capacity
  rw [List.map_take, List.map_cons, hkeys]
  cases hn : c.capacity with
  | zero => rfl
  | succ n => rw [List.take_succ_cons, List.take_succ_cons, take_filter_take h.nodup src]

theorem Cache.Recalls.size (h : c.Recalls texts) : c.size = min c.capacity texts.length := by
  have hkeys := congrArg List.length h.keys
  rwa [List.length_map, List.length_take] at hkeys

/-- What compiling does to an honest cache. -/
theorem Cache.Honest.compile_cache (hc : c.Honest) (src : String) :
    (∃ m, ClassAsm.compile src = .ok m ∧ (c.compile src).2 = c.insert src m) ∨
      (ClassAsm.compile src).isOk = false ∧ (c.compile src).2 = c := by
  rw [Cache.compile]
  split
  · rename_i m hm
    exact .inl ⟨m, hc (src, m) (mem_of_lookup hm), rfl⟩
  · split
    · rename_i m hm
      exact .inl ⟨m, hm, rfl⟩
    · rename_i e he
      exact .inr ⟨by rw [he]; rfl, rfl⟩

end Recalls

theorem after_bind_pure (x : Request α) (f : α → β) (s : Session) :
    after ((x >>= fun a ↦ pure (f a)) s) = after (x s) := by
  cases h : x s with
  | ok a t => rw [bind_of_ok h]; rfl
  | error e t => rw [bind_of_error h]; rfl

/-- Only compiling and emptying the cache change it, and only loading and unloading the registry. -/
theorem Operation.after_request (op : Operation) (s : Session) :
    (after (op.request Session.compile s)).cache = (match op with
      | .purge => s.cache.clear
      | .compile src | .load src => (s.cache.compile src).2
      | _ => s.cache) ∧ (after (op.request Session.compile s)).registry = (match op with
      | .load src => (after (Session.load src s)).registry
      | .unload name => s.registry.erase name
      | _ => s.registry) := by
  cases op with
  | compile src =>
    rw [Operation.request, after_bind_pure, after_compile]
    exact ⟨rfl, rfl⟩
  | load src =>
    rw [Operation.request, after_bind_pure, ← Session.load]
    refine ⟨?_, rfl⟩
    rcases load_cases src s with ⟨e, he, -⟩ | ⟨m, -, -, hload⟩
    · rw [he]; rfl
    · rw [hload]; rfl
  | unload name => exact ⟨rfl, rfl⟩
  | purge => exact ⟨rfl, rfl⟩
  | new name ctor =>
    rw [Operation.request, after_bind_pure]
    rcases new_cases name ctor s with ⟨e, he⟩ | ⟨cls, -, hnew⟩
    · rw [he]
      exact ⟨rfl, rfl⟩
    · rw [hnew, after_onMachine]
      exact ⟨rfl, rfl⟩
  | call obj method =>
    rw [Operation.request, after_bind_pure, Session.call, after_onMachine]
    exact ⟨rfl, rfl⟩
  | get addr name =>
    rw [Operation.request, after_bind_pure, after_getField]
    exact ⟨rfl, rfl⟩
  | set addr name v =>
    have hset : after (Operation.request Session.compile (.set addr name v) s) =
        after (setField addr name v s) :=
      after_bind_pure (setField addr name v) (fun _ ↦ Answer.done) s
    rw [hset]
    rcases setField_cases addr name v s with ⟨e, he⟩ | ⟨heap, -, hset⟩
    · rw [he]
      exact ⟨rfl, rfl⟩
    · rw [hset]
      exact ⟨rfl, rfl⟩
  | classes => exact ⟨rfl, rfl⟩

theorem sincePurge_append (ops : List Operation) (op : Operation) :
    sincePurge (ops ++ [op]) = match op with
      | .purge => []
      | op => sincePurge ops ++ [op] := by
  rw [sincePurge, List.foldl_append]
  rfl

variable {ops : List Operation}

theorem mem_compiledTexts : src ∈ compiledTexts ops ↔
      (∃ op ∈ sincePurge ops, op.source? = some src) ∧ (ClassAsm.compile src).isOk = true := by
  rw [compiledTexts, List.mem_dedup, List.mem_filter, List.mem_filterMap]

/-- An operation adds the text that it compiles, if that can be done. -/
theorem mem_compiledTexts_append {op : Operation} (hpurge : op ≠ .purge) (src : String) :
    src ∈ compiledTexts (ops ++ [op]) ↔
      src ∈ compiledTexts ops ∨ op.source? = some src ∧ (ClassAsm.compile src).isOk = true := by
  have hsince : sincePurge (ops ++ [op]) = sincePurge ops ++ [op] := by
    rw [sincePurge_append]
    cases op with
    | purge => exact (hpurge rfl).elim
    | _ => rfl
  rw [mem_compiledTexts, mem_compiledTexts, hsince]
  simp only [List.mem_append, List.mem_singleton, or_and_right, exists_or, exists_eq_left]

/-- The texts that have been compiled after one more operation, the one asked for last first. -/
def Operation.recall (texts : List String) : Operation → List String
  | purge => []
  | compile src | load src =>
    if (ClassAsm.compile src).isOk then src :: texts.filter (· ≠ src) else texts
  | _ => texts

theorem mem_recalled : src ∈ ops.foldl Operation.recall [] ↔ src ∈ compiledTexts ops := by
  induction ops using List.reverseRecOn with
  | nil => exact Iff.rfl
  | append_singleton ops op ih =>
    rw [List.foldl_append]
    dsimp only [List.foldl_cons, List.foldl_nil]
    have hcompiled {src' : String} (hop : op.source? = some src') (hpurge : op ≠ .purge) :
        (src ∈ if (ClassAsm.compile src').isOk then
            src' :: (ops.foldl Operation.recall []).filter (· ≠ src') else
            ops.foldl Operation.recall []) ↔
          src ∈ compiledTexts (ops ++ [op]) := by
      rw [mem_compiledTexts_append hpurge, ← ih, hop]
      by_cases hsrc : src = src'
      · subst hsrc
        cases (ClassAsm.compile src).isOk <;> simp
      · cases (ClassAsm.compile src').isOk <;> simp [hsrc, Ne.symm hsrc]
    have hkept (hop : op.source? = none) (hpurge : op ≠ .purge) :
        src ∈ ops.foldl Operation.recall [] ↔ src ∈ compiledTexts (ops ++ [op]) := by
      rw [mem_compiledTexts_append hpurge, ih, hop]
      exact (or_iff_left fun h ↦ nomatch h.1).symm
    cases op with
    | purge =>
      rw [compiledTexts, sincePurge_append]
      exact Iff.rfl
    | compile src' => exact hcompiled rfl nofun
    | load src' => exact hcompiled rfl nofun
    | unload | new | call | get | set | classes => exact hkept rfl nofun

/-- Each operation keeps the order of the texts in the cache. -/
theorem Operation.recalls (op : Operation) (hs : s.cache.Honest) (h : s.cache.Recalls texts) :
    (after (op.request Session.compile s)).cache.Recalls (op.recall texts) ∧
      (after (op.request Session.compile s)).cache.capacity = s.cache.capacity := by
  rw [(op.after_request s).1]
  have hcompiled (src : String) : (s.cache.compile src).2.Recalls
          (if (ClassAsm.compile src).isOk then src :: texts.filter (· ≠ src) else texts) ∧
        (s.cache.compile src).2.capacity = s.cache.capacity := by
    rcases hs.compile_cache src with ⟨m, hm, hcache⟩ | ⟨hfail, hcache⟩
    · rw [hcache, hm]
      exact ⟨h.insert m, rfl⟩
    · rw [hcache, hfail]
      exact ⟨h, rfl⟩
  cases op with
  | purge => exact ⟨⟨(List.take_nil).symm, List.nodup_nil⟩, rfl⟩
  | compile src => exact hcompiled src
  | load src => exact hcompiled src
  | unload | new | call | get | set | classes => exact ⟨h, rfl⟩

theorem perform_recalls (ops : List Operation) (hs : s.cache.Honest) (h : s.cache.Recalls texts) :
    (perform compile ops s).2.cache.Recalls (ops.foldl Operation.recall texts) ∧
      (perform compile ops s).2.cache.capacity = s.cache.capacity := by
  induction ops generalizing s texts with
  | nil => exact ⟨h, rfl⟩
  | cons op ops ih =>
    obtain ⟨hrecalls, hcapacity⟩ := op.recalls hs h
    have hhonest : (after (op.request compile s)).cache.Honest :=
      (perform_follows [op] hs s.cache).2
    obtain ⟨hrecalls', hcapacity'⟩ := ih hhonest hrecalls
    exact ⟨hrecalls', hcapacity'.trans hcapacity⟩

/-! ## The answers of a session -/

/-- **Caching changes no answer.**  Whatever a host asks of a session, all answers and all that is
printed are the same for any two cache sizes, and the same as if every unit were compiled anew.  A
source text that does not compile is complained about in the same way whenever it is compiled.
After each operation there are as many modules in the cache as source texts have been compiled since
it was last emptied, up to its size. -/
theorem caching_changes_no_answer (size size' gas : Int) (ops : List Operation) :
    (perform compile ops (start size gas)).1 = (perform compile ops (start size' gas)).1 ∧
    (perform compile ops (start size gas)).1 = (perform compileAnew ops (start size gas)).1 ∧
    (∀ (i j : Nat) (op op' : Operation) src e, ops[i]? = some op → ops[j]? = some op' →
      op.source? = some src → op'.source? = some src →
      (perform compile ops (start size gas)).1[i]?.map (·.1) = some (.error (.compile e)) →
      (perform compile ops (start size gas)).1[j]?.map (·.1) = some (.error (.compile e))) ∧
    ∀ n, (perform compile (ops.take n) (start size gas)).2.cache.size =
      min (if size ≤ 0 then 128 else size.toNat) (compiledTexts (ops.take n)).length := by
  have hanew (size' : Int) :
      (perform compile ops (start size' gas)).1 = (perform compileAnew ops (start size gas)).1 :=
    (perform_follows ops (honest_start size' gas) (.ofSize size)).1
  refine ⟨(hanew size).trans (hanew size').symm, hanew size,
    fun i j op op' src e hi hj hop hop' hfails ↦ ?_, fun n ↦ ?_⟩
  · rw [hanew size, perform_getElem?, hi] at hfails
    rw [hanew size, perform_getElem?, hj]
    have hsrc := (seen_compileAnew_iff hop _ e).1 (Option.some.inj hfails)
    exact congrArg some ((seen_compileAnew_iff hop' _ e).2 hsrc)
  · obtain ⟨hrecalls, hcapacity⟩ := perform_recalls (ops.take n) (honest_start size gas)
      ⟨(List.take_nil).symm, List.nodup_nil⟩
    have hperm : ((ops.take n).foldl Operation.recall []).Perm (compiledTexts (ops.take n)) :=
      (List.perm_ext_iff_of_nodup hrecalls.nodup (List.nodup_dedup _)).2 fun _ ↦ mem_recalled
    rw [hrecalls.size, hcapacity, hperm.length_eq]
    rfl

/-- A sample: two units are loaded, and a text without its end is compiled before and after. -/
def samples : List Operation :=
  [.compile "class A", .load "class A public\nend", .load "class B public\nend", .load "class A"]

/-- The complaint about the sample that does not compile. -/
def unclosed : CompileError := .parse ⟨1, .classUnclosed "A"⟩

/-- A cache for one module answers as one for two does, and has one of the two units in the end. -/
theorem samples_are_answered_alike :
    (perform compile samples (start 1 0)).1[0]?.map (·.1) = some (.error (.compile unclosed)) ∧
      (perform compile samples (start 1 0)).1[3]?.map (·.1) = some (.error (.compile unclosed)) ∧
      (perform compile samples (start 1 0)).1 = (perform compile samples (start 2 0)).1 ∧
      (perform compile samples (start 1 0)).2.cache.size = 1 := by
  have hunclosed : ClassAsm.compile "class A" = .error unclosed := by cbv
  have hfirst : (perform compile samples (start 1 0)).1[0]?.map (·.1) =
    some (.error (.compile unclosed)) := by
    rw [(perform_follows samples (honest_start 1 0) (.ofSize 1)).1, perform_getElem?]
    have hop : (Operation.compile "class A").source? = some "class A" := rfl
    exact congrArg some ((seen_compileAnew_iff hop _ unclosed).2 hunclosed)
  obtain ⟨hsame, -, hagain, hsize⟩ := caching_changes_no_answer 1 2 0 samples
  refine ⟨hfirst, hagain 0 3 _ _ "class A" unclosed rfl rfl rfl rfl hfirst, hsame,
    (hsize 4).trans ?_⟩
  have htexts : (compiledTexts (samples.take 4)).length = 2 := by decide +kernel
  rw [htexts]
  rfl

end ClassAsm.Session
