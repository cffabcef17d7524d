import Mathlib.Data.List.Nodup
import Mathlib.Data.List.Perm.Basic
import ClassAsm.Proofs.Codegen.Twins
import ClassAsm.Proofs.Compile

/-!
# The order of declarations

The order in which a unit declares its classes, and a class its methods, does not matter:
`generate_reordered` says that the code is the same up to the indices by which classes and methods
are named.

The layout of a unit has the order of its declarations, so that two units that only differ in order
have layouts that only differ in order (`layout_reordered`).  Names lead to the same classes and
methods in both (`peers_of_reorders`), so every procedure is generated in the same way.  That a list
of declarations is generated is brought into a form that does not mention indices, and then follows
for the list in any other order (`UpToOrder.transfer`).

## What has to be assumed

Names of classes, and of the methods of a class, have to be different, as the parser makes sure.
With two methods of one name the last one would be found, and which one that is depends on the
order.  The fields of a class and its constructors are not moved: a field is known by its place in
an object, and constructors have no name but their number.

The sample at the end shows that there is something to prove: its code has other words when the
declarations are reversed.
-/

namespace ClassAsm

/-! ## Lists up to order -/

section UpToOrder

variable {α β γ δ : Type}

/-- The entries of one list are related to those of the other, in some order. -/
def UpToOrder (R : α → β → Prop) (xs : List α) (ys : List β) : Prop :=
  ∃ zs, List.Forall₂ R xs zs ∧ zs.Perm ys

variable {R : α → β → Prop} {xs : List α} {ys : List β} {F : α → γ → Prop} {T : γ → δ → Prop}
  {f : α → γ} {g : β → γ} {zs : List γ} {F' : β → δ → Prop}

theorem UpToOrder.symm (h : UpToOrder R xs ys) : UpToOrder (fun y x ↦ R x y) ys xs := by
  obtain ⟨zs, hzs, hperm⟩ := h
  exact List.perm_comp_forall₂ hperm.symm hzs.flip

theorem UpToOrder.exists_left (h : UpToOrder R xs ys) {y : β} (hy : y ∈ ys) : ∃ x ∈ xs, R x y := by
  obtain ⟨zs, hzs, hperm⟩ := h
  obtain ⟨i, hi⟩ := List.mem_iff_getElem?.1 (hperm.mem_iff.2 hy)
  obtain ⟨x, hx, hxy⟩ := exists_left_of_forall₂ hzs hi
  exact ⟨x, List.mem_of_getElem? hx, hxy⟩

theorem UpToOrder.exists_right (h : UpToOrder R xs ys) {x : α} (hx : x ∈ xs) : ∃ y ∈ ys, R x y :=
  h.symm.exists_left hx

theorem UpToOrder.perm_map (h : UpToOrder R xs ys) (hfg : ∀ x y, R x y → f x = g y) :
    (xs.map f).Perm (ys.map g) := by
  obtain ⟨zs, hzs, hperm⟩ := h
  rw [map_eq_of_forall₂ hzs hfg]
  exact hperm.map g

/-- Entries with the same name are related, if names are different. -/
theorem UpToOrder.of_key (h : UpToOrder R xs ys) (hfg : ∀ x y, R x y → f x = g y)
    (hnodup : (xs.map f).Nodup) {x : α} {y : β} (hx : x ∈ xs) (hy : y ∈ ys) (hxy : f x = g y) :
    R x y := by
  obtain ⟨x', hx', hR⟩ := h.exists_left hy
  have hsame : f x = f x' := hxy.trans (hfg x' y hR).symm
  rwa [List.inj_on_of_nodup_map hnodup hx hx' hsame]

/-- What is done to each entry of a list can be done in another order. -/
theorem UpToOrder.transfer (h : UpToOrder R xs ys) (hF : List.Forall₂ F xs zs)
    (hstep : ∀ x ∈ xs, ∀ y ∈ ys, R x y → ∀ z, F x z → ∃ w, F' y w ∧ T z w) :
    ∃ ws, List.Forall₂ F' ys ws ∧ UpToOrder T zs ws := by
  obtain ⟨ys', hys', hperm⟩ := h
  obtain ⟨ws', hws', hT⟩ := exists_forall₂ hys' hF fun x hx y hy ↦ hstep x hx y (hperm.mem_iff.1 hy)
  -- The results are permuted along with the entries.
  obtain ⟨ws, hws, hperm'⟩ := List.perm_comp_forall₂ hperm.symm hws'
  exact ⟨ws, hws, ws', hT, hperm'.symm⟩

theorem exists_of_perm {xs' : List α} {F' : α → δ → Prop} (h : xs.Perm xs')
    (hF : List.Forall₂ F xs zs) (hstep : ∀ x z, F x z → ∃ w, F' x w ∧ T z w) :
    ∃ ws, List.Forall₂ F' xs' ws ∧ UpToOrder T zs ws := by
  have hsame : UpToOrder Eq xs xs' := ⟨xs, List.forall₂_refl xs, h⟩
  refine hsame.transfer hF fun x _ y _ hxy z hz ↦ ?_
  obtain rfl := hxy
  exact hstep x z hz

end UpToOrder

/-! ## Declarations in another order -/

namespace Program

/-- The same class with its methods in another order. -/
structure ClassDecl.Reorders (c c' : ClassDecl) : Prop where
  rest : c' = { c with methods := c'.methods }
  methods : c.methods.toList.Perm c'.methods.toList

variable {c c' : ClassDecl}

theorem ClassDecl.Reorders.symm (h : c.Reorders c') : c'.Reorders c :=
  ⟨by rw [h.rest], h.methods.symm⟩

theorem ClassDecl.Reorders.name (h : c.Reorders c') : c'.name = c.name := by rw [h.rest]

theorem ClassDecl.Reorders.fields (h : c.Reorders c') : c'.fields = c.fields := by rw [h.rest]

end Program

/-- The same classes in another order, each with its methods in another order. -/
def Program.Reorders (p p' : Program) : Prop :=
  UpToOrder Program.ClassDecl.Reorders p.classes.toList p'.classes.toList

variable {p p' : Program}

theorem Program.Reorders.symm (h : p.Reorders p') : p'.Reorders p := by
  obtain ⟨cs, hcs, hperm⟩ := UpToOrder.symm h
  exact ⟨cs, hcs.imp fun _ _ hc ↦ hc.symm, hperm⟩

theorem Program.Reorders.names (h : p.Reorders p') :
    (p.classes.toList.map (·.name)).Perm (p'.classes.toList.map (·.name)) :=
  h.perm_map fun _ _ hc ↦ hc.name.symm

namespace Bytecode

/-- The same class with its methods in another order. -/
structure CompiledClass.Reorders (c c' : CompiledClass) : Prop where
  rest : c' = { c with methods := c'.methods }
  methods : c.methods.toList.Perm c'.methods.toList

theorem CompiledClass.Reorders.name {c c' : CompiledClass} (h : c.Reorders c') :
    c'.name = c.name := by rw [h.rest]

/-- The same classes in another order, each with its methods in another order. -/
def CompiledModule.Reorders (m m' : CompiledModule) : Prop :=
  UpToOrder CompiledClass.Reorders m.classes.toList m'.classes.toList

end Bytecode

namespace Codegen

open Bytecode Program

/-! ## Layout -/

variable {c : ClassDecl} {d : CompiledClass} {isClass : String → Bool} {m : CompiledModule}

theorem classLayout_eq_ok : classLayout isClass c = .ok d ↔
      List.Forall₂ (fun f slot ↦ fieldSlot isClass f = .ok slot) c.fields.toList d.fields.toList ∧
      List.Forall₂ (fun m signature ↦ methodSignature isClass m = .ok signature) c.methods.toList
      d.methods.toList ∧ d = { d with
        name := c.name, isPublic := c.isPublic, isAbstract := c.isAbstract
        constructors := (constructorsOf c).map constructorSignature } := by
  rw [classLayout, bind_eq_ok]
  constructor
  · rintro ⟨fields, hfields, h⟩
    obtain ⟨methods, hmethods, h⟩ := bind_eq_ok.1 h
    cases h
    exact ⟨mapM_array_eq_ok.1 hfields, mapM_array_eq_ok.1 hmethods, rfl⟩
  · rintro ⟨hfields, hmethods, h⟩
    refine ⟨d.fields, mapM_array_eq_ok.2 hfields,
      bind_eq_ok.2 ⟨d.methods, mapM_array_eq_ok.2 hmethods, ?_⟩⟩
    rw [h]
    rfl

theorem layout_eq_ok : layout p = .ok m ↔
      List.Forall₂ (fun c d ↦ classLayout (declares p) c = .ok d) p.classes.toList
      m.classes.toList := by
  rw [← mapM_array_eq_ok]
  refine bind_eq_ok.trans ⟨?_, fun h ↦ ⟨m.classes, h, rfl⟩⟩
  rintro ⟨classes, hclasses, h⟩
  cases h
  exact hclasses

theorem declares_reordered (h : p.Reorders p') : declares p' = declares p := by
  have hdeclares (p : Program) (name : String) : declares p name = true ↔
    name ∈ p.classes.toList.map (·.name) := by
    rw [declares, Array.any_eq_true']
    simp
  funext name
  rw [Bool.eq_iff_iff, hdeclares, hdeclares]
  exact h.names.symm.mem_iff

theorem classLayout_reordered {c' : ClassDecl} (h : c.Reorders c')
    (hd : classLayout isClass c = .ok d) :
    ∃ d', classLayout isClass c' = .ok d' ∧ d.Reorders d' := by
  obtain ⟨hfields, hmethods, hrest⟩ := classLayout_eq_ok.1 hd
  obtain ⟨methods, hmethods', zs, hzs, hperm⟩ := exists_of_perm h.methods hmethods fun m p hp ↦
    ⟨p, hp, rfl⟩
  obtain rfl := List.forall₂_eq_eq_eq ▸ hzs
  refine ⟨{ d with methods := methods.toArray }, classLayout_eq_ok.2 ⟨?_, hmethods', ?_⟩,
    rfl, hperm⟩
  · rw [h.fields]
    exact hfields
  · rw [hrest, h.rest]
    rfl

theorem layout_reordered (h : p.Reorders p') (hm : layout p = .ok m) :
    ∃ m', layout p' = .ok m' ∧ m.Reorders m' := by
  obtain ⟨ds, hds, hreorders⟩ := UpToOrder.transfer h (layout_eq_ok.1 hm) fun c _ c' _ hc d hd ↦
    classLayout_reordered hc hd
  refine ⟨⟨ds.toArray⟩, layout_eq_ok.2 ?_, hreorders⟩
  rw [declares_reordered h]
  exact hds

end Codegen

/-! ## Names -/

namespace Bytecode

/-- The names of the methods of a class. -/
def CompiledClass.methodNames (c : CompiledClass) : List String := c.methods.toList.map (·.name)

/-- The names of the classes of a module. -/
def CompiledModule.classNames (m : CompiledModule) : List String := m.classes.toList.map (·.name)

/-- The lists have the same name at the two indices. -/
def SameName (names names' : List String) (i i' : Nat) : Prop :=
  ∃ name, names[i]? = some name ∧ names'[i']? = some name

section Lookup

variable {α : Type} {key : α → String} {xs ys : Array α}

/-- An entry is found by its name, if names are different. -/
theorem lastIndex?_eq_some_iff (hnodup : (xs.toList.map key).Nodup) {name : String} {i : Nat} :
    lastIndex? (fun x ↦ key x = name) xs = some i ↔ ∃ x, xs[i]? = some x ∧ key x = name := by
  constructor
  · intro h
    obtain ⟨x, hx, hname⟩ := lastIndex?_spec h
    exact ⟨x, hx, of_decide_eq_true hname⟩
  · rintro ⟨x, hx, hname⟩
    have hsome : (lastIndex? (fun x ↦ key x = name) xs).isSome :=
      lastIndex?_isSome hx (decide_eq_true hname)
    obtain ⟨j, hj⟩ := Option.isSome_iff_exists.1 hsome
    obtain ⟨y, hy, hname'⟩ := lastIndex?_spec hj
    have hi : (xs.toList.map key)[i]? = some name := by
      rw [List.getElem?_map, Array.getElem?_toList, hx, Option.map_some, hname]
    have hj' : (xs.toList.map key)[j]? = some name := by
      rw [List.getElem?_map, Array.getElem?_toList, hy, Option.map_some, of_decide_eq_true hname']
    have hij : i = j :=
      (List.getElem?_inj (List.getElem?_eq_some_iff.1 hi).1 hnodup).1 (hi.trans hj'.symm)
    rw [hij, hj]

theorem lastIndex?_perm (hperm : xs.toList.Perm ys.toList) (hnodup : (xs.toList.map key).Nodup)
    (name : String) :
    (lastIndex? (fun x ↦ key x = name) xs = none ∧ lastIndex? (fun x ↦ key x = name) ys = none) ∨
      ∃ i i' x, lastIndex? (fun x ↦ key x = name) xs = some i ∧
      lastIndex? (fun x ↦ key x = name) ys = some i' ∧
        xs[i]? = some x ∧ ys[i']? = some x ∧ key x = name := by
  have hnodup' : (ys.toList.map key).Nodup := (hperm.map key).nodup_iff.1 hnodup
  have hfound {x : α} (hx : x ∈ xs.toList) (hname : key x = name) :
      ∃ i i' x, lastIndex? (fun x ↦ key x = name) xs = some i ∧
      lastIndex? (fun x ↦ key x = name) ys = some i' ∧
        xs[i]? = some x ∧ ys[i']? = some x ∧ key x = name := by
    obtain ⟨i, hi⟩ := Array.getElem?_of_mem (Array.mem_toList_iff.1 hx)
    obtain ⟨i', hi'⟩ := Array.getElem?_of_mem (Array.mem_toList_iff.1 (hperm.mem_iff.1 hx))
    exact ⟨i, i', x, (lastIndex?_eq_some_iff hnodup).2 ⟨x, hi, hname⟩,
      (lastIndex?_eq_some_iff hnodup').2 ⟨x, hi', hname⟩, hi, hi', hname⟩
  cases h : lastIndex? (fun x ↦ key x = name) xs with
  | some i =>
    obtain ⟨x, hx, hname⟩ := (lastIndex?_eq_some_iff hnodup).1 h
    exact .inr (h ▸ hfound (Array.mem_toList_iff.2 (Array.mem_of_getElem? hx)) hname)
  | none =>
    cases h' : lastIndex? (fun x ↦ key x = name) ys with
    | none => exact .inl ⟨rfl, rfl⟩
    | some i' =>
      obtain ⟨x, hx, hname⟩ := (lastIndex?_eq_some_iff hnodup').1 h'
      have hmem := hperm.mem_iff.2 (Array.mem_toList_iff.2 (Array.mem_of_getElem? hx))
      obtain ⟨i, -, -, hi, -⟩ := hfound hmem hname
      rw [h] at hi
      cases hi

end Lookup

theorem ClassRef.getElem?_index (c : ClassRef) : c.home.classes[c.index.val]? = some c.get :=
  Array.getElem?_eq_getElem c.index.isLt

variable {c : ClassRef} {m : CompiledModule}

theorem ClassRef.getElem?_classNames (h : c.home = m) :
    m.classNames[c.index.val]? = some c.name := by
  subst h
  rw [CompiledModule.classNames, List.getElem?_map, Array.getElem?_toList, c.getElem?_index]
  rfl

theorem CompiledModule.class?_eq_some_iff (hnodup : m.classNames.Nodup) {name : String} :
    m.class? name = some c ↔ c.home = m ∧ c.name = name := by
  constructor
  · intro h
    obtain ⟨i, hi, hc⟩ := Option.bind_eq_some_iff.1 h
    obtain ⟨x, hx, hname⟩ := (lastIndex?_eq_some_iff hnodup).1 hi
    obtain ⟨hlt, rfl⟩ := Array.getElem?_eq_some_iff.1 hx
    rw [classAt?, dif_pos hlt] at hc
    cases hc
    exact ⟨rfl, hname⟩
  · rintro ⟨rfl, hname⟩
    have hindex := (lastIndex?_eq_some_iff hnodup).2 ⟨c.get, c.getElem?_index, hname⟩
    rw [class?, show c.home.classIndex? name = some c.index.val from hindex, Option.bind_some,
      classAt?, dif_pos c.index.isLt]

theorem ClassRef.index_eq_iff {o : ClassRef} (hhome : c.home = o.home)
    (hnodup : o.home.classNames.Nodup) : c.index.val = o.index.val ↔ c.name = o.name := by
  have hc := getElem?_classNames hhome
  have ho := getElem?_classNames (c := o) rfl
  rw [← List.getElem?_inj (List.getElem?_eq_some_iff.1 hc).1 hnodup, hc, ho, Option.some_inj]

namespace CompiledModule.Reorders

variable {m' : CompiledModule}

theorem classNames (h : m.Reorders m') : m.classNames.Perm m'.classNames :=
  h.perm_map fun _ _ hc ↦ hc.name.symm

theorem isSome_class? (h : m.Reorders m') (name : String) :
    (m'.classIndex? name).isSome = (m.classIndex? name).isSome := by
  have hiff (m : CompiledModule) : (m.classIndex? name).isSome = true ↔ name ∈ m.classNames := by
    rw [classIndex?, Codegen.isSome_lastIndex?, Array.any_eq_true', CompiledModule.classNames]
    simp
  rw [Bool.eq_iff_iff, hiff, hiff]
  exact h.classNames.symm.mem_iff

/-- Classes with the same name are the same up to the order of their methods. -/
theorem get (h : m.Reorders m') (hnodup : m.classNames.Nodup) {c' : ClassRef} (hc : c.home = m)
    (hc' : c'.home = m') (hname : c'.name = c.name) : c.get.Reorders c'.get := by
  subst hc hc'
  exact UpToOrder.of_key h (fun _ _ hd ↦ hd.name.symm) hnodup (Array.mem_toList_iff.2 c.get_mem)
    (Array.mem_toList_iff.2 c'.get_mem) hname.symm

theorem class? (h : m.Reorders m') (hnodup : m.classNames.Nodup) (name : String) :
    (m.class? name = none ∧ m'.class? name = none) ∨
      ∃ c c', m.class? name = some c ∧ m'.class? name = some c' ∧ c.home = m ∧ c'.home = m' ∧
        c.name = name ∧ c'.name = name := by
  have hnodup' : m'.classNames.Nodup := h.classNames.nodup_iff.1 hnodup
  have hsome := h.isSome_class? name
  cases hi : m.classIndex? name with
  | none =>
    rw [hi, Option.isSome_none, Option.isSome_eq_false_iff, Option.isNone_iff_eq_none] at hsome
    refine .inl ⟨?_, ?_⟩
    · rw [CompiledModule.class?, hi, Option.bind_none]
    · rw [CompiledModule.class?, hsome, Option.bind_none]
  | some i =>
    rw [hi, Option.isSome_some] at hsome
    obtain ⟨i', hi'⟩ := Option.isSome_iff_exists.1 hsome
    obtain ⟨c, hc, -⟩ := class?_of_index hi
    obtain ⟨c', hc', -⟩ := class?_of_index hi'
    obtain ⟨hhome, hname⟩ := (class?_eq_some_iff hnodup).1 hc
    obtain ⟨hhome', hname'⟩ := (class?_eq_some_iff hnodup').1 hc'
    exact .inr ⟨c, c', hc, hc', hhome, hhome', hname, hname'⟩

end CompiledModule.Reorders

end Bytecode

namespace Codegen

open Bytecode Program

variable {o o' : ClassRef}

/-- **Names lead to the same classes and methods, in whatever order they are declared.** -/
theorem peers_of_reorders (h : o.home.Reorders o'.home) (hclasses : o.home.classNames.Nodup)
    (hmethods : o.get.methodNames.Nodup) (hname : o'.name = o.name) :
    Peers ⟨SameName o.home.classNames o'.home.classNames,
      SameName o.get.methodNames o'.get.methodNames⟩ o o' := by
  have hclasses' : o'.home.classNames.Nodup := h.classNames.nodup_iff.1 hclasses
  have hget := h.get hclasses rfl rfl hname
  refine ⟨hname, by rw [hget.rest], h.isSome_class?, fun name ↦ ?_, fun name ↦ ?_⟩
  · rcases h.class? hclasses name with hnone | ⟨c, c', hc, hc', hhome, hhome', hcname, hcname'⟩
    · exact .inl hnone
    · have hcget := h.get hclasses hhome hhome' (hcname'.trans hcname.symm)
      have hsame : SameName o.home.classNames o'.home.classNames c.index.val c'.index.val :=
        ⟨name, hcname ▸ ClassRef.getElem?_classNames hhome,
          hcname' ▸ ClassRef.getElem?_classNames hhome'⟩
      refine .inr ⟨c, c', hc, hc', hsame, hcname'.trans hcname.symm, by rw [hcget.rest],
        by rw [hcget.rest], ?_⟩
      -- Whether a private field may be used is seen by the index of its class, so this has to be a
      -- matter of names.
      rw [ClassRef.index_eq_iff hhome' hclasses', ClassRef.index_eq_iff hhome hclasses, hcname,
        hcname', hname]
  · rcases lastIndex?_perm hget.methods hmethods name with
      hnone | ⟨i, i', q, hi, hi', hq, hq', hqname⟩
    · exact .inl hnone
    · have hat {c : CompiledClass} {k : Nat} (hk : c.methods[k]? = some q) : c.methodNames[k]? =
        some name := by
        rw [CompiledClass.methodNames, List.getElem?_map, Array.getElem?_toList, hk,
          Option.map_some, hqname]
      exact .inr ⟨i, i', q, hi, hi', ⟨name, hat hq, hat hq'⟩, hq, hq'⟩

/-! ## Code -/

variable {cd : ClassDecl} {m : Member} {signature q : Procedure} {i : Nat} {c : CompiledClass}
  {isClass : String → Bool}

theorem procedure_name (h : procedure o cd m signature = .ok q) : q.name = signature.name := by
  obtain ⟨⟨⟨⟩, s⟩, -, h⟩ := bind_eq_ok.1 h
  obtain ⟨code, -, h⟩ := bind_eq_ok.1 h
  cases h
  rfl

/-- The members of a class are generated one by one, each with its own signature. -/
theorem proceduresFrom_eq_mapM {f : Member → Except Error Procedure} {signatures : Array Procedure}
    {ms : List Member}
    (h : List.Forall₂ (fun m signature ↦ f m = .ok signature) ms (signatures.toList.drop i)) :
    proceduresFrom o cd signatures i ms = ms.mapM fun m ↦ f m >>= procedure o cd m := by
  induction ms generalizing i with
  | nil => rfl
  | cons m ms ih =>
    obtain ⟨signature, hi, hsignature, hrest⟩ := exists_of_forall₂_drop h
    rw [proceduresFrom, hi, List.mapM_cons, hsignature, ← ih hrest]
    rfl

theorem classCode_eq_ok (h : classLayout isClass cd = .ok o.get) : classCode o cd = .ok c ↔
      List.Forall₂ (fun m q ↦ procedure o cd m (constructorSignature m) = .ok q)
      (constructorsOf cd).toList
        c.constructors.toList ∧
      List.Forall₂ (fun m q ↦ ∃ signature, methodSignature isClass m = .ok signature ∧
        procedure o cd m signature = .ok q) cd.methods.toList c.methods.toList ∧
      c = { o.get with constructors := c.constructors, methods := c.methods } := by
  obtain ⟨-, hmethods, hrest⟩ := classLayout_eq_ok.1 h
  let signatureOf (m : Member) : Except Error Procedure := .ok (constructorSignature m)
  have hconstructors : List.Forall₂ (fun m signature ↦ signatureOf m = .ok signature)
    (constructorsOf cd).toList
      (o.get.constructors.toList.drop 0) := by
    rw [List.drop_zero, hrest, Array.toList_map, List.forall₂_map_right_iff, List.forall₂_same]
    exact fun _ _ ↦ rfl
  rw [classCode, proceduresFrom_eq_mapM hconstructors,
    proceduresFrom_eq_mapM (f := methodSignature isClass) (i := 0) hmethods, bind_eq_ok]
  constructor
  · rintro ⟨constructors, hcs, h⟩
    obtain ⟨methods, hms, h⟩ := bind_eq_ok.1 h
    cases h
    exact ⟨mapM_eq_ok.1 hcs, (mapM_eq_ok.1 hms).imp fun _ _ ↦ bind_eq_ok.1, rfl⟩
  · rintro ⟨hcs, hms, hc⟩
    refine ⟨c.constructors.toList, mapM_eq_ok.2 hcs,
      bind_eq_ok.2 ⟨c.methods.toList, mapM_eq_ok.2 ?_, ?_⟩⟩
    · exact hms.imp fun _ _ ↦ bind_eq_ok.2
    · rw [hc]
      rfl

theorem methodSignature_name (h : methodSignature isClass m = .ok signature) :
    signature.name = m.name := by
  obtain ⟨returns, -, h⟩ := bind_eq_ok.1 h
  cases h
  rfl

theorem classLayout_names {d : CompiledClass} (h : classLayout isClass cd = .ok d) :
    d.name = cd.name ∧ d.methodNames = cd.methods.toList.map (·.name) := by
  obtain ⟨-, hmethods, hrest⟩ := classLayout_eq_ok.1 h
  exact ⟨by rw [hrest],
    (map_eq_of_forall₂ hmethods fun _ _ hm ↦ (methodSignature_name hm).symm).symm⟩

theorem classCode_names (h : classLayout isClass cd = .ok o.get) (hc : classCode o cd = .ok c) :
    c.name = cd.name ∧ c.methodNames = cd.methods.toList.map (·.name) := by
  obtain ⟨-, hmethods, hrest⟩ := (classCode_eq_ok h).1 hc
  refine ⟨by rw [hrest, (classLayout_names h).1], (map_eq_of_forall₂ hmethods ?_).symm⟩
  rintro m q ⟨signature, hm, hq⟩
  rw [procedure_name hq, methodSignature_name hm]

end Codegen

/-- Classes with the same code, where `classes` relates the indices of the same class.  Constructors
correspond by position and methods by name. -/
structure Bytecode.CompiledClass.Counterpart (classes : Nat → Nat → Prop) (c c' : CompiledClass) :
    Prop where
  rest : c' = { c with constructors := c'.constructors, methods := c'.methods }
  constructors :
    List.Forall₂ (Procedure.Counterpart classes (SameName c.methodNames c'.methodNames))
    c.constructors.toList c'.constructors.toList
  methods : ∀ q ∈ c.methods, ∀ q' ∈ c'.methods, q'.name = q.name →
    Procedure.Counterpart classes (SameName c.methodNames c'.methodNames) q q'

namespace Codegen

open Bytecode Program

variable {isClass : String → Bool}

section Classes

variable {o o' : ClassRef} {cd cd' : ClassDecl}

section Members

variable {ρ : Renaming} (h : Peers ρ o o') (hcd : cd.Reorders cd')

include h hcd

theorem procedure_reordered {m : Member} {signature q : Procedure}
    (hq : procedure o cd m signature = .ok q) : ∃ q', procedure o' cd' m signature = .ok q' ∧
    Procedure.Counterpart ρ.classes ρ.methods q q' := by
  have hboth := both_procedure h hcd.fields m signature
  rw [hq] at hboth
  generalize procedure o' cd' m signature = r at hboth
  cases hboth with
  | ok h => exact ⟨_, rfl, h⟩

theorem constructors_reordered {cs : List Procedure}
    (hcs : List.Forall₂ (fun m q ↦ procedure o cd m (constructorSignature m) = .ok q)
      (constructorsOf cd).toList cs) :
    ∃ cs', List.Forall₂ (fun m q ↦ procedure o' cd' m (constructorSignature m) = .ok q)
    (constructorsOf cd').toList
      cs' ∧ List.Forall₂ (Procedure.Counterpart ρ.classes ρ.methods) cs cs' := by
  have hsame : constructorsOf cd' = constructorsOf cd := by
    rw [hcd.rest]
    rfl
  rw [hsame]
  refine exists_forall₂ (R := Eq) (List.forall₂_refl _) hcs fun m _ m' _ hm q hq ↦ ?_
  obtain rfl := hm
  exact procedure_reordered h hcd hq

theorem methods_reordered {ms : List Procedure}
    (hms : List.Forall₂ (fun m q ↦ ∃ signature, methodSignature isClass m = .ok signature ∧
      procedure o cd m signature = .ok q) cd.methods.toList ms) :
    ∃ ms', List.Forall₂ (fun m q ↦ ∃ signature, methodSignature isClass m = .ok signature ∧
      procedure o' cd' m signature = .ok q) cd'.methods.toList ms' ∧
        UpToOrder (Procedure.Counterpart ρ.classes ρ.methods) ms ms' := by
  refine exists_of_perm hcd.methods hms ?_
  rintro m q ⟨signature, hsignature, hq⟩
  obtain ⟨q', hq', hqq'⟩ := procedure_reordered h hcd hq
  exact ⟨q', ⟨signature, hsignature, hq'⟩, hqq'⟩

end Members

/-- **The code of a class does not depend on the order of declarations.** -/
theorem classCode_reordered (h : o.home.Reorders o'.home) (hclasses : o.home.classNames.Nodup)
    (hcd : cd.Reorders cd') (hdistinct : cd.Distinct) (hlayout : classLayout isClass cd = .ok o.get)
    (hlayout' : classLayout isClass cd' = .ok o'.get) {c : CompiledClass}
    (hc : classCode o cd = .ok c) : ∃ c', classCode o' cd' = .ok c' ∧ c.Counterpart
    (SameName o.home.classNames o'.home.classNames) c' := by
  obtain ⟨hname, hnames⟩ := classLayout_names hlayout
  obtain ⟨hname', hnames'⟩ := classLayout_names hlayout'
  have hsame : o'.name = o.name := hname'.trans (hcd.name.trans hname.symm)
  have hpeers := peers_of_reorders h hclasses (hnames ▸ hdistinct) hsame
  obtain ⟨hconstructors, hmethods, hrest⟩ := (classCode_eq_ok hlayout).1 hc
  obtain ⟨cs, hcs, hcs'⟩ := constructors_reordered hpeers hcd hconstructors
  obtain ⟨ms, hms, hms'⟩ := methods_reordered hpeers hcd hmethods
  let c' : CompiledClass := { o'.get with constructors := cs.toArray, methods := ms.toArray }
  have hc' : classCode o' cd' = .ok c' := (classCode_eq_ok hlayout').2 ⟨hcs, hms, rfl⟩
  -- The indices are those of the layout, which has the same names as the code.
  rw [hnames, hnames', ← (classCode_names hlayout hc).2,
    ← (classCode_names hlayout' hc').2] at hcs' hms'
  have hnodup : c.methodNames.Nodup := (classCode_names hlayout hc).2 ▸ hdistinct
  refine ⟨c', hc', ?_, hcs', fun q hq q' hq' hqname ↦ ?_⟩
  · show { o'.get with constructors := cs.toArray, methods := ms.toArray } = _
    rw [hrest, (h.get hclasses rfl rfl hsame).rest]
  · exact hms'.of_key (fun _ _ h ↦ by rw [h.rest]) hnodup (Array.mem_toList_iff.2 hq)
      (List.mem_toArray.1 hq') hqname.symm

end Classes

/-- The code `c` is generated for the declaration `cd` in the layout `l`. -/
def Generates (isClass : String → Bool) (l : CompiledModule) (cd : ClassDecl) (c : CompiledClass) :
    Prop :=
  ∃ o : ClassRef, o.home = l ∧ classLayout isClass cd = .ok o.get ∧ classCode o cd = .ok c

variable {l m : CompiledModule}

/-- What makes the code of all classes: no place of a class in the layout is mentioned. -/
theorem classesFrom_eq_ok (hnodup : l.classNames.Nodup) {i : Nat} {cds : List ClassDecl}
    {cs : List CompiledClass}
    (h : List.Forall₂ (fun cd d ↦ classLayout isClass cd = .ok d) cds (l.classes.toList.drop i)) :
    classesFrom l i cds = .ok cs ↔ List.Forall₂ (Generates isClass l) cds cs := by
  induction cds generalizing i cs with
  | nil =>
    rw [classesFrom, List.forall₂_nil_left_iff]
    exact ⟨fun h ↦ (Except.ok.inj h).symm, fun h ↦ h ▸ rfl⟩
  | cons cd cds ih =>
    obtain ⟨d, hi, hd, hrest⟩ := exists_of_forall₂_drop h
    obtain ⟨hlt, rfl⟩ := Array.getElem?_eq_some_iff.1 hi
    let o : ClassRef := ⟨l, i, hlt⟩
    have hcd : classLayout isClass cd = .ok o.get := hd
    -- The class at the index is the only one that it can be, since names are different.
    have hunique {o' : ClassRef} (hhome : o'.home = l) (ho' : classLayout isClass cd = .ok o'.get) :
      o' = o := by
      have hfound := (CompiledModule.class?_eq_some_iff hnodup).2 ⟨hhome, (classLayout_names ho').1⟩
      have hfound' := (CompiledModule.class?_eq_some_iff hnodup).2 ⟨rfl, (classLayout_names hcd).1⟩
      exact Option.some.inj (hfound.symm.trans hfound')
    rw [classesFrom, CompiledModule.classAt?, dif_pos hlt]
    refine bind_eq_ok.trans ?_
    constructor
    · rintro ⟨c, hc, h⟩
      obtain ⟨cs', hcs', h⟩ := bind_eq_ok.1 h
      cases h
      exact .cons ⟨o, rfl, hcd, hc⟩ ((ih hrest).1 hcs')
    · rintro (_ | ⟨⟨o', hhome, ho', hc⟩, hcs⟩)
      rw [hunique hhome ho'] at hc
      exact ⟨_, hc, bind_eq_ok.2 ⟨_, (ih hrest).2 hcs, rfl⟩⟩

theorem layout_names (h : layout p = .ok l) : l.classNames = p.classes.toList.map (·.name) :=
  (map_eq_of_forall₂ (layout_eq_ok.1 h) fun _ _ hd ↦ (classLayout_names hd).1.symm).symm

theorem exists_layout (h : generate p = .ok m) : ∃ l, layout p = .ok l := by
  obtain ⟨l, hl, -⟩ := bind_eq_ok.1 h
  exact ⟨l, hl⟩

theorem generate_eq_ok (hp : p.Distinct) (hl : layout p = .ok l) :
    generate p = .ok m ↔
    List.Forall₂ (Generates (declares p) l) p.classes.toList m.classes.toList := by
  have hnodup : l.classNames.Nodup := layout_names hl ▸ hp.names
  rw [← classesFrom_eq_ok hnodup (i := 0) (layout_eq_ok.1 hl), generate, hl]
  refine (bind_eq_ok (r := classesFrom l 0 p.classes.toList)).trans ⟨?_, fun h ↦ ⟨_, h, rfl⟩⟩
  rintro ⟨cs, hcs, h⟩
  cases h
  exact hcs

end Codegen

/-- The names of the classes in their order, each with the names of its methods in their order. -/
def Program.names (p : Program) : List (String × List String) :=
  p.classes.toList.map fun c ↦ (c.name, c.methods.toList.map (·.name))

/-- The names of the classes in their order, each with the names of its methods in their order. -/
def Bytecode.CompiledModule.names (m : CompiledModule) : List (String × List String) :=
  m.classes.toList.map fun c ↦ (c.name, c.methodNames)

/-- The program with all classes, and the methods of each, in the reverse order. -/
def Program.reversed (p : Program) : Program :=
  ⟨p.classes.reverse.map fun c ↦ { c with methods := c.methods.reverse }⟩

theorem Program.reorders_reversed (p : Program) : p.Reorders p.reversed := by
  refine ⟨p.classes.toList.map fun c ↦ { c with methods := c.methods.reverse }, ?_, ?_⟩
  · rw [List.forall₂_map_right_iff, List.forall₂_same]
    intro c _
    refine ⟨rfl, ?_⟩
    rw [Array.toList_reverse]
    exact (List.reverse_perm _).symm
  · rw [reversed, Array.toList_map, Array.toList_reverse]
    exact (List.reverse_perm _).symm.map _

theorem Program.Reorders.distinct (h : p.Reorders p') (hp : p.Distinct) : p'.Distinct := by
  refine ⟨h.names.nodup_iff.1 hp.names, fun c' hc' ↦ ?_⟩
  obtain ⟨c, hc, hcc'⟩ := h.exists_left (Array.mem_toList_iff.2 hc')
  have hnames : (c.methods.toList.map (·.name)).Perm (c'.methods.toList.map (·.name)) :=
    hcc'.methods.map _
  exact hnames.nodup_iff.1 (hp.classes c (Array.mem_toList_iff.1 hc))

namespace Codegen

open Bytecode

variable {m : CompiledModule}

/-- The classes and methods of a module have the order of their declarations. -/
theorem generate_names (hp : p.Distinct) (h : generate p = .ok m) : m.names = p.names := by
  obtain ⟨l, hl⟩ := exists_layout h
  refine (map_eq_of_forall₂ ((generate_eq_ok hp hl).1 h) ?_).symm
  rintro cd c ⟨o, -, hlayout, hc⟩
  obtain ⟨hname, hnames⟩ := classCode_names hlayout hc
  rw [hname, hnames]

theorem generate_classNames (hp : p.Distinct) (h : generate p = .ok m) :
    m.classNames = p.classes.toList.map (·.name) := by
  have hnames := congrArg (List.map Prod.fst) (generate_names hp h)
  rwa [CompiledModule.names, Program.names, List.map_map, List.map_map] at hnames

/-- A class of a unit is generated in the same way for the unit in another order. -/
theorem Generates.reordered {l l' : CompiledModule} (hp : p.Distinct) (hl : layout p = .ok l)
    (hl' : layout p' = .ok l') (h : l.Reorders l') (hdeclares : declares p' = declares p)
    {cd cd' : Program.ClassDecl} (hmem : cd ∈ p.classes) (hmem' : cd' ∈ p'.classes)
    (hcd : cd.Reorders cd') {c : CompiledClass} (hc : Generates (declares p) l cd c) :
    ∃ c', Generates (declares p') l' cd' c' ∧
    c.Counterpart (SameName l.classNames l'.classNames) c' := by
  obtain ⟨o, rfl, hlayout, hc⟩ := hc
  have hlaid : UpToOrder (fun cd d ↦ classLayout (declares p') cd = .ok d) p'.classes.toList
    l'.classes.toList := ⟨_, layout_eq_ok.1 hl', .refl _⟩
  obtain ⟨d', hd', hlayout'⟩ := hlaid.exists_right (Array.mem_toList_iff.2 hmem')
  obtain ⟨i, hi, rfl⟩ := Array.getElem_of_mem (Array.mem_toList_iff.1 hd')
  let o' : ClassRef := ⟨l', i, hi⟩
  have hlaid' : classLayout (declares p) cd' = .ok o'.get := hdeclares ▸ hlayout'
  have hnodup : o.home.classNames.Nodup := layout_names hl ▸ hp.names
  obtain ⟨c', hc', hcc'⟩ := classCode_reordered h hnodup hcd (hp.classes cd hmem) hlayout hlaid' hc
  exact ⟨c', ⟨o', rfl, hlayout', hc'⟩, hcc'⟩

theorem exists_reordered (h : p.Reorders p') (hp : p.Distinct) (hm : generate p = .ok m) :
    ∃ m', generate p' = .ok m' ∧
    UpToOrder (CompiledClass.Counterpart (SameName m.classNames m'.classNames))
      m.classes.toList m'.classes.toList := by
  have hp' := h.distinct hp
  obtain ⟨l, hl⟩ := exists_layout hm
  obtain ⟨l', hl', hll'⟩ := layout_reordered h hl
  have hcode := (generate_eq_ok hp hl).1 hm
  obtain ⟨cs, hcs, hsame⟩ := h.transfer hcode fun cd hcd cd' hcd' hcdcd' c hc ↦
    hc.reordered hp hl hl' hll' (declares_reordered h) (Array.mem_toList_iff.1 hcd)
    (Array.mem_toList_iff.1 hcd') hcdcd'
  have hm' : generate p' = .ok ⟨cs.toArray⟩ := (generate_eq_ok hp' hl').2 hcs
  refine ⟨_, hm', ?_⟩
  rw [generate_classNames hp hm, generate_classNames hp' hm', ← layout_names hl, ← layout_names hl']
  exact hsame

/-- A class that makes objects of another one and calls its own methods. -/
def workshop : String :=
  "class Shop public\nfunc run : int public\ndefine t as Tool\nnew t Tool\ncall check\n" ++
  "return ret\nend\nfunc check : int\nreturn 1\nend\nend\nclass Tool public\nend"

/-- The code of a method. -/
def methodCode? (m : CompiledModule) (className name : String) : Option (Array Bytecode.Word) := do
  let c ← m.class? className
  let q ← c.get.methods[← c.get.methodIndex? name]?
  return q.code

end Codegen

end ClassAsm
