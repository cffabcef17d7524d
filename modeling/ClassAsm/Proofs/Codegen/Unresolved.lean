import ClassAsm.Proofs.Codegen.Resolution

/-!
# Names that stand for nothing

The generator goes through the classes of a program, the members of each and the instructions of
their blocks in the order of the text, and stops at the first that it complains about.  `Reaches`
says that it comes to the block of a member, since there is code for everything before.

All instructions of the blocks of an accepted program are resolved.  And if the first pass over a
block that the generator comes to has got to an instruction whose first operand is a name that
stands for nothing, then that name is what the program is refused for: `names_resolve`.

## How it is put together

* `generate_eq_error` and `exists_reaches` are about the way of the generator through a program, and
  do not look at instructions.
* `keeps_resolved` and `Traced.lower_refuses` are about one instruction in a pass.  The variables
  that the pass knows are those that the text has in scope (`Traced.local?_eq_none_iff`).
* Only the first pass over a block has to be followed, as a name that stands for nothing is refused
  where it is first met.
-/

namespace ClassAsm.Codegen

open Bytecode
open Program (Block ClassDecl Instruction Member Operand)
open Reference

variable {ctx : Context} {name : String} {α β : Type} {x : Instruction} {i : Nat}

/-! ## Where the generator comes to -/

variable {p : Program} {owner : ClassRef} {cd : ClassDecl} {member : Member} {signature : Procedure}
  {s t : State} {e : Error} {signatures : Array Procedure} {members : Array Member}
  {m : CompiledModule}

theorem proceduresFrom_append (i : Nat) (before after : List Member) :
    proceduresFrom owner cd signatures i (before ++ after) = (do
      let ps ← proceduresFrom owner cd signatures i before
      return ps ++ (← proceduresFrom owner cd signatures (i + before.length) after)) := by
  induction before generalizing i with
  | nil => exact (bind_pure _).symm
  | cons member before ih =>
    rw [List.cons_append, proceduresFrom, proceduresFrom, ih, List.length_cons, ← Nat.add_assoc,
      Nat.add_right_comm]
    cases signatures[i]? with
    | none => rfl
    | some signature => simp only [bind_assoc, pure_bind, List.cons_append]

theorem classesFrom_append (i : Nat) (before after : List ClassDecl) :
    classesFrom m i (before ++ after) = (do
      let cs ← classesFrom m i before
      return cs ++ (← classesFrom m (i + before.length) after)) := by
  induction before generalizing i with
  | nil => exact (bind_pure _).symm
  | cons cd before ih =>
    rw [List.cons_append, classesFrom, classesFrom, ih, List.length_cons, ← Nat.add_assoc,
      Nat.add_right_comm]
    cases m.classAt? i with
    | none => rfl
    | some owner => simp only [bind_assoc, pure_bind, List.cons_append]

/-- There is code for all members before one of them. -/
def Turn (owner : ClassRef) (cd : ClassDecl) (signatures : Array Procedure) (members : Array Member)
    (member : Member) (signature : Procedure) : Prop :=
  ∃ before after ps, members.toList = before ++ member :: after ∧
  signatures[before.length]? = some signature ∧
    proceduresFrom owner cd signatures 0 before = .ok ps

theorem Turn.eq_error (h : Turn owner cd signatures members member signature)
    (he : procedure owner cd member signature = .error e) :
    proceduresFrom owner cd signatures 0 members.toList = .error e := by
  obtain ⟨before, after, ps, hsplit, hsignature, hbefore⟩ := h
  rw [hsplit, proceduresFrom_append, hbefore, Nat.zero_add, proceduresFrom, hsignature]
  simp only [he]
  rfl

theorem exists_turn {ps : List Procedure}
    (h : proceduresFrom owner cd signatures 0 members.toList = .ok ps) (hm : member ∈ members) :
    ∃ signature q, Turn owner cd signatures members member signature ∧
      procedure owner cd member signature = .ok q := by
  obtain ⟨before, after, hsplit⟩ := List.append_of_mem (Array.mem_toList_iff.2 hm)
  rw [hsplit, proceduresFrom_append, Nat.zero_add] at h
  obtain ⟨qs, hbefore, h⟩ := bind_eq_ok.1 h
  obtain ⟨_, hrest, -⟩ := bind_eq_ok.1 h
  rw [proceduresFrom] at hrest
  split at hrest
  · cases hrest
  · rename_i signature hsignature
    obtain ⟨q, hq, -⟩ := bind_eq_ok.1 hrest
    exact ⟨signature, q, ⟨before, after, qs, hsplit, hsignature, hbefore⟩, hq⟩

/-- There is code for all members of a class before one of them, of which the constructors come
first. -/
def InTurn (owner : ClassRef) (cd : ClassDecl) (member : Member) (signature : Procedure) : Prop :=
  Turn owner cd owner.get.constructors (constructorsOf cd) member signature ∨
    (∃ cs, proceduresFrom owner cd owner.get.constructors 0 (constructorsOf cd).toList = .ok cs) ∧
      Turn owner cd owner.get.methods cd.methods member signature

/-- The generator comes to the block of a member in the state `s`: there is code for all classes and
members before, and for the defaults of the fields. -/
structure Reaches (p : Program) (owner : ClassRef) (cd : ClassDecl) (member : Member)
    (signature : Procedure) (s : State) : Prop where
  laid : layout p = .ok owner.home
  classes : ∃ before after cs, p.classes.toList = before ++ cd :: after ∧
    owner.home.classAt? before.length = some owner ∧ classesFrom owner.home 0 before = .ok cs
  members : InTurn owner cd member signature
  defaults :
    (if member.isConstructor then prologue owner.get.fields 0 cd.fields.toList else pure ())
    { line := member.line } = .ok ((), s)

namespace Reaches

variable (h : Reaches p owner cd member signature s)

include h

theorem decl : p.classes[owner.index.val]? = some cd := by
  obtain ⟨before, after, -, hsplit, howner, -⟩ := h.classes
  have hindex : owner.index.val = before.length := by
    rw [CompiledModule.classAt?] at howner
    split at howner
    · exact Option.some.inj howner ▸ rfl
    · cases howner
  rw [hindex, ← Array.getElem?_toList, hsplit]
  simp

theorem mem : member ∈ constructorsOf cd ∨ member ∈ cd.methods := by
  rcases h.members with ⟨before, after, -, hsplit, -⟩ | ⟨-, before, after, -, hsplit, -⟩
  · exact .inl (Array.mem_toList_iff.1 (hsplit ▸ List.mem_append_right before List.mem_cons_self))
  · exact .inr (Array.mem_toList_iff.1 (hsplit ▸ List.mem_append_right before List.mem_cons_self))

/-- **The generator stops at the first complaint.** -/
theorem generate_eq_error (hm : member.isAbstract = false)
    (he : body ⟨owner, signature, member.body, #[]⟩ s = .error e) : generate p = .error e := by
  have hcode : memberCode ⟨owner, signature, member.body, #[]⟩ cd member { line := member.line } =
    .error e := by
    rw [memberCode_eq, hm]
    show Except.bind ((if member.isConstructor then
      prologue owner.get.fields 0 cd.fields.toList else
      pure () : Gen Unit) { line := member.line }) _ = _
    rw [h.defaults]
    show Except.bind (body _ s) _ = _
    rw [he]
    rfl
  have hprocedure : procedure owner cd member signature = .error e := by
    rw [procedure, hcode]
    rfl
  have hclass : classCode owner cd = .error e := by
    rw [classCode]
    rcases h.members with hturn | ⟨⟨cs, hcs⟩, hturn⟩
    · rw [hturn.eq_error hprocedure]
      rfl
    · rw [hcs, hturn.eq_error hprocedure]
      rfl
  obtain ⟨before, after, cs, hsplit, howner, hbefore⟩ := h.classes
  have hclasses : classesFrom owner.home 0 p.classes.toList = .error e := by
    rw [hsplit, classesFrom_append, hbefore, Nat.zero_add, classesFrom, howner]
    simp only [hclass]
    rfl
  rw [generate, h.laid]
  show Except.bind (classesFrom _ _ _) _ = _
  rw [hclasses]
  rfl

end Reaches

/-- **The generator comes to all members of an accepted program.** -/
theorem exists_reaches (h : generate p = .ok m) (hcd : cd ∈ p.classes)
    (hmember : member ∈ constructorsOf cd ∨ member ∈ cd.methods) :
    ∃ owner signature s, Reaches p owner cd member signature s ∧
      (member.isAbstract = false → ∃ t, body ⟨owner, signature, member.body, #[]⟩ s =
        .ok ((), t)) := by
  obtain ⟨l, hl, h⟩ := bind_eq_ok.1 h
  obtain ⟨cs, hcs, -⟩ := bind_eq_ok.1 h
  obtain ⟨before, after, hsplit⟩ := List.append_of_mem (Array.mem_toList_iff.2 hcd)
  rw [hsplit, classesFrom_append, Nat.zero_add] at hcs
  obtain ⟨ds, hbefore, hcs⟩ := bind_eq_ok.1 hcs
  obtain ⟨_, hcs, -⟩ := bind_eq_ok.1 hcs
  rw [classesFrom] at hcs
  split at hcs
  · cases hcs
  rename_i owner howner
  obtain ⟨d, hd, -⟩ := bind_eq_ok.1 hcs
  obtain rfl := CompiledModule.home_of_classAt? howner
  obtain ⟨constructors, hconstructors, hd⟩ := bind_eq_ok.1 hd
  obtain ⟨methods, hmethods, -⟩ := bind_eq_ok.1 hd
  obtain ⟨signature, q, hmembers, hq⟩ :
      ∃ signature q, InTurn owner cd member signature ∧
      procedure owner cd member signature = .ok q := by
    rcases hmember with hm | hm
    · obtain ⟨signature, q, hturn, hq⟩ := exists_turn hconstructors hm
      exact ⟨signature, q, .inl hturn, hq⟩
    · obtain ⟨signature, q, hturn, hq⟩ := exists_turn hmethods hm
      exact ⟨signature, q, .inr ⟨⟨_, hconstructors⟩, hturn⟩, hq⟩
  obtain ⟨⟨⟨⟩, t⟩, hcode, -⟩ := bind_eq_ok.1 hq
  rw [memberCode_eq] at hcode
  obtain ⟨⟨⟨⟩, s⟩, hdefaults, hcode⟩ := bind_eq_ok.1 hcode
  obtain ⟨⟨⟨⟩, u⟩, hbody, -⟩ := bind_eq_ok.1 hcode
  refine ⟨owner, signature, s,
    ⟨hl, ⟨before, after, ds, hsplit, howner, hbefore⟩, hmembers, hdefaults⟩, fun hm ↦ ⟨u, ?_⟩⟩
  rw [hm] at hbody
  exact hbody

/-! ## Complaints about names -/

/-- The first operand of an instruction is a simple name that stands for nothing. -/
def Unresolved (cd : ClassDecl) (b : Block) (i : Nat) (x : Instruction) (name : String) : Prop :=
  x.operands.head? = some (.identifier name) ∧ SimpleName name.toList ∧ match x.op with
  | .set | .select | .compare | .print =>
    name ≠ "this" ∧ (∀ typeName, ¬InScope b i name typeName) ∧ ∀ f ∈ cd.fields, f.name ≠ name
  | .goto | .jump => ∀ l ∈ b.labels, l.1 ≠ name
  | .call => ∀ m ∈ cd.methods, m.name ≠ name
  | .delete => ∀ typeName, ¬InScope b i name typeName
  | _ => False

/-- A complaint about a name on a line. -/
def Blames (line : Int) (name : String) (e : Error) : Prop :=
  ∃ c : Cause, e = .diagnostic line c ∧ c.kind = .resolution ∧ c.construct = name

/-- A step ends with a complaint about a name. -/
def Refuses {α : Type} (name : String) (m : Gen α) (s : State) : Prop :=
  ∃ e, m s = .error e ∧ Blames s.line name e

theorem Refuses.of_bind {m : Gen α} {k : Gen β} {g : α × State → Except Error (β × State)}
    (h : Refuses name m s) (hk : k s = (m s).bind g) : Refuses name k s := by
  obtain ⟨e, he, hblames⟩ := h
  refine ⟨e, ?_, hblames⟩
  rw [hk, he]
  rfl

theorem Refuses.after {m : Gen α} {k : α → Gen β} (a : α) (hm : m s = .ok (a, s))
    (h : Refuses name (k a) s) : Refuses name (m >>= k) s := by
  obtain ⟨e, he, hblames⟩ := h
  refine ⟨e, ?_, hblames⟩
  show Except.bind (m s) _ = _
  rw [hm]
  exact he

theorem lowerDelete_refuses (h : s.local? name = none) :
    Refuses name (lowerDelete [.identifier name]) s := by
  have hnone : (s.local? name).isNone = true := by rw [h, Option.isNone_none]
  refine .after (.identifier name) rfl (.after name rfl (.after s rfl ?_))
  rw [if_pos hnone]
  exact ⟨_, rfl, .unknownLocal name, rfl, rfl, rfl⟩

theorem splitFrom_simple {previous : Option Char} {read text : List Char} (h : SimpleName text)
    (hprevious : previous ≠ some '.') (hne : read ≠ [] ∨ text ≠ []) :
    splitFrom previous 0 read text = some [read.reverse ++ text] := by
  induction text generalizing previous read with
  | nil =>
    have hread : read ≠ [] := hne.resolve_right fun h ↦ h rfl
    simp [splitFrom, hprevious, hread]
  | cons c text ih =>
    obtain ⟨⟨hdot, hopen, hclose⟩, hrest⟩ := List.forall_mem_cons.1 h
    have hsplit :=
      @ih (some c) (c :: read) hrest (by simpa using hdot) (.inl (List.cons_ne_nil _ _))
    simpa [splitFrom, hdot, hopen, hclose] using hsplit

theorem root_refuses (hlocal : s.local? name = none)
    (hfield : ctx.owner.get.fieldIndex? name = none) : Refuses name (root ctx name) s := by
  refine .after s rfl ?_
  rw [hlocal]
  dsimp only
  rw [hfield]
  exact ⟨_, rfl, .unknownIdentifier name, rfl, rfl, rfl⟩

/-- A name that is neither a variable in scope nor a field is refused. -/
theorem resolve_refuses (hsimple : SimpleName name.toList) (hthis : name ≠ "this")
    (hlocal : s.local? name = none) (hfield : ctx.owner.get.fieldIndex? name = none) :
    Refuses name (resolve ctx name) s := by
  have hname : String.ofList name.toList = name := String.ofList_toList
  rw [resolve, resolveWithin, hname]
  by_cases hempty : name.toList = []
  · rw [hempty]
    exact ⟨_, rfl, .malformedChain name, rfl, rfl, rfl⟩
  · have hsplit : splitChain name.toList = some [name.toList] := by
      have hfrom := @splitFrom_simple none [] _ hsimple (by simp) (.inr hempty)
      rw [splitChain, hfrom]
      rfl
    rw [hsplit]
    suffices hsegment :
      Refuses name (segment ctx (resolveWithin ctx name.toList.length) name none name.toList) s from
      hsegment.of_bind rfl
    unfold segment
    rw [hname]
    split
    · rename_i heq
      exact absurd heq hempty
    · rename_i heq _
      rw [heq] at hsimple
      exact absurd rfl (hsimple '[' List.mem_cons_self).2.1
    · rename_i heq
      cases heq
    · rw [if_neg hthis]
      exact root_refuses hlocal hfield
    · rename_i heq _ _
      cases heq

/-! ## Blocks -/

section Blocks

variable {start : State} {ps : List Point}

/-- The context of the first pass over a block, in which nothing is known about backward edges. -/
def Context.first (ctx : Context) : Context := { ctx with back := .empty ctx.body.code.size }

theorem exists_pass_of_body (hblock : ctx.body.WellFormed) (h : body ctx s = .ok ((), t)) :
    ∃ u, pass ctx.first (s.atBlock ctx.body) = .ok ((), u) := by
  rw [body, strayLabel?_eq_none hblock] at h
  obtain ⟨v, hv, -⟩ := bind_eq_ok.1 h
  rw [Nat.add_comm, settle] at hv
  obtain ⟨⟨⟨⟩, u⟩, hpass, -⟩ := bind_eq_ok.1 hv
  exact ⟨u, hpass⟩

theorem body_eq_error (hblock : ctx.body.WellFormed)
    (h : pass ctx.first (s.atBlock ctx.body) = .error e) : body ctx s = .error e := by
  have hsettle : settle ctx (s.atBlock ctx.body) (1 + 7 * ctx.body.code.size)
    (.empty ctx.body.code.size) =
      .error e := by
    rw [Nat.add_comm, settle, show pass { ctx with back := _ } _ = _ from h]
    rfl
  rw [body, strayLabel?_eq_none hblock]
  show Except.bind (settle ctx (s.atBlock ctx.body) _ _) _ = _
  rw [hsettle]
  rfl

/-- A pass ends at the first instruction that the generator complains about. -/
theorem pass_eq_error
    (hbefore : instructionsFrom ctx 0 (ctx.body.code.toList.take i) start = .ok ((), s))
    (hx : ctx.body.code[i]? = some x) (he : lower ctx i x (s.entered ctx i x) = .error e) :
    pass ctx start = .error e := by
  obtain ⟨hi, rfl⟩ := Array.getElem?_eq_some_iff.1 hx
  have hsplit : ctx.body.code.toList = ctx.body.code.toList.take i ++
      ctx.body.code[i] :: ctx.body.code.toList.drop (i + 1) := by
    rw [← Array.getElem_toList hi, List.getElem_cons_drop, List.take_append_drop]
  have hlength : (ctx.body.code.toList.take i).length = i :=
    List.length_take_of_le (by simpa using hi.le)
  have hinstruction : instruction ctx i ctx.body.code[i] s = .error e := by
    rw [instruction_eq]
    show Except.bind (lower ctx i _ _) _ = _
    rw [he]
    rfl
  rw [pass, hsplit, instructionsFrom_append, hlength, Nat.zero_add]
  show Except.bind (instructionsFrom ctx 0 _ start) _ = _
  rw [hbefore]
  show Except.bind (instruction ctx i _ s) _ = _
  rw [hinstruction]
  rfl

theorem local?_ne_none_of_lowerDelete {ops : List Operand} (h : lowerDelete ops s = .ok ((), t))
    (hmost : ops.length ≤ Program.Opcode.delete.arity.2) :
    ∃ name, ops = [.identifier name] ∧ s.local? name ≠ none := by
  cases ops with
  | nil => cases h
  | cons o rest =>
    obtain rfl : rest = [] :=
      List.eq_nil_of_length_eq_zero (Nat.le_zero.1 (Nat.le_of_succ_le_succ hmost))
    cases o with
    | identifier name =>
      refine ⟨name, rfl, fun hnone ↦ ?_⟩
      obtain ⟨e, he, -⟩ := lowerDelete_refuses hnone
      cases he.symm.trans h
    | _ => cases h

variable (hlaid : List.Forall₂ (LayoutOf (declares p)) p.classes.toList
    ctx.owner.home.classes.toList)
  (hdecl : p.classes[ctx.owner.index.val]? = some cd)

include hlaid hdecl

/-- The names that a pass has are those of the text. -/
theorem Traced.speaks (h : Traced ctx start ps s) (hle : ps.length ≤ ctx.body.code.size)
    (rs : Registers) : Speaks p cd ctx.body ps.length (ctx.namesAt ps.length rs) := by
  have hclass : ctx.isClass = declares p := funext (isClass_eq_declares hlaid)
  refine ⟨hlaid, hdecl, by rw [Context.namesAt, hclass], hle, fun j name typeName hj hdefines ↦ ?_⟩
  obtain ⟨x, o, hx, hop, hoperands⟩ := hdefines
  obtain ⟨y, hy, hst⟩ := (h.placed j _ (List.getElem?_eq_getElem hj)).reads
  cases hx.symm.trans hy
  generalize ps[j].stmt = st at hst
  cases Names.statement?_eq_some_iff.1 hst with
  | define _ _ _ ht =>
    cases hoperands
    exact ⟨_, (congrFun (congrArg Ty.ofName? hclass) _).symm.trans ht⟩
  | _ => grind [Names.arith?, Names.test?]

/-- The locals that a pass has at an instruction are the variables in scope. -/
theorem Traced.local?_eq_none_iff (h : Traced ctx start ps s)
    (hle : ps.length ≤ ctx.body.code.size) : (s.entered ctx ps.length x).local? name = none ↔
    ∀ typeName, ¬InScope ctx.body ps.length name typeName := by
  have hspeaks := h.speaks hlaid hdecl hle (entry ctx ps.length s)
  have hdescribes : Describes (ctx.namesAt ps.length (entry ctx ps.length s)) ctx
    (s.entered ctx ps.length x) := ⟨⟨h.scope.locals, h.scope.next, h.scope.loops⟩, rfl, fun _ ↦ rfl⟩
  rw [hdescribes.local?, Option.map_eq_none_iff]
  refine ⟨fun hnone _ ↦ hspeaks.not_inScope hnone, fun hscope ↦
    Option.eq_none_iff_forall_ne_some.2 fun v hv ↦ ?_⟩
  obtain ⟨typeName, hin, -⟩ := hspeaks.find?.1 ⟨v, hv, rfl⟩
  exact hscope typeName hin

/-- **A pass resolves every instruction that it comes to.** -/
theorem keeps_resolved (hblock : ctx.body.WellFormed) :
    Keeps (fun _ _ ↦ True) ctx start fun (ps : List Point) _ ↦ ∀ k x, k < ps.length →
    ctx.body.code[k]? = some x → Resolved p cd ctx.body k x := by
  refine ⟨fun _ _ _ _ _ _ ↦ trivial,
    fun {ps s t instr st} htraced hI hinstr hrun hlow k x hk hx ↦ ?_⟩
  rw [List.length_append, List.length_singleton] at hk
  rcases Nat.lt_succ_iff_lt_or_eq.1 hk with hk | rfl
  · exact hI k x hk hx
  cases hinstr.symm.trans hx
  have hle : ps.length ≤ ctx.body.code.size := (Array.getElem?_eq_some_iff.1 hx).1.le
  have hwell := hblock.code instr (Array.mem_of_getElem? hx)
  refine (htraced.speaks hlaid hdecl hle _).resolved hwell hlow.reads fun hop ↦ ?_
  rw [instruction_eq, lower, hop] at hrun
  obtain ⟨⟨⟨⟩, u⟩, hdelete, -⟩ := bind_eq_ok.1 hrun
  obtain ⟨name, hoperands, hlocal⟩ := local?_ne_none_of_lowerDelete hdelete (hop ▸ hwell.most)
  by_contra hscope
  refine hlocal ((htraced.local?_eq_none_iff hlaid hdecl hle).2 fun typeName hin ↦ hscope ?_)
  exact ⟨name, typeName, hoperands, hin⟩

/-- **An instruction with a name that stands for nothing is refused.** -/
theorem Traced.lower_refuses (h : Traced ctx start ps s) (hblock : ctx.body.WellFormed)
    (hx : ctx.body.code[ps.length]? = some x)
    (hunresolved : Unresolved cd ctx.body ps.length x name) :
    Refuses name (lower ctx ps.length x) (s.entered ctx ps.length x) := by
  obtain ⟨hname, hsimple, hunresolved⟩ := hunresolved
  have hle : ps.length ≤ ctx.body.code.size := (Array.getElem?_eq_some_iff.1 hx).1.le
  obtain ⟨hcode, hleast, hmost, -⟩ := hblock.code x (Array.mem_of_getElem? hx)
  have howner := (h.speaks hlaid hdecl hle (entry ctx ps.length s)).owner
  have hlocal : (∀ typeName, ¬InScope ctx.body ps.length name typeName) →
      (s.entered ctx ps.length x).local? name = none := (h.local?_eq_none_iff hlaid hdecl hle).2
  have hfield (hnone : ∀ f ∈ cd.fields, f.name ≠ name) : ctx.owner.get.fieldIndex? name = none := by
    refine Option.eq_none_iff_forall_ne_some.2 fun k hk ↦ ?_
    obtain ⟨f, hf, -⟩ := lastIndex?_spec hk
    obtain ⟨d, hd, hdname, -⟩ := howner.exists_field hk hf
    exact hnone d hd hdname
  have hresolve (hnone : name ≠ "this" ∧ (∀ typeName, ¬InScope ctx.body ps.length name typeName) ∧
      ∀ f ∈ cd.fields, f.name ≠ name) :
      Refuses name (resolve ctx name) (s.entered ctx ps.length x) :=
    resolve_refuses hsimple hnone.1 (hlocal hnone.2.1) (hfield hnone.2.2)
  obtain ⟨op, ops, line⟩ := x
  obtain ⟨rest, rfl⟩ : ∃ rest, ops = .identifier name :: rest := by
    cases ops with
    | nil => cases hname
    | cons o rest =>
      cases hname
      exact ⟨rest, rfl⟩
  have hoperand (hnone) : Refuses name (operand ctx (.identifier name)) _ :=
    (hresolve hnone).of_bind rfl
  cases op with
  | set =>
    cases rest with
    | nil => exact absurd hleast (Nat.not_succ_le_self 1)
    | cons value rest => exact (hresolve hunresolved).of_bind rfl
  | select | compare | print => exact (hoperand hunresolved).of_bind rfl
  | goto | jump =>
    have hlabel : ctx.body.label? name = none := by
      refine Option.eq_none_iff_forall_ne_some.2 fun j hj ↦ ?_
      obtain ⟨l, hl, hlname⟩ := exists_label hj
      exact hunresolved l hl hlname
    refine .after (.identifier name) rfl (.after name rfl ?_)
    rw [hlabel]
    exact ⟨_, rfl, .undefinedLabel name, rfl, rfl, rfl⟩
  | call =>
    have hmethod : ctx.owner.get.methodIndex? name = none := by
      refine Option.eq_none_iff_forall_ne_some.2 fun k hk ↦ ?_
      obtain ⟨m, hm, hmname⟩ := howner.exists_method hk
      exact hunresolved m hm hmname
    refine .after (.identifier name) rfl (.after name rfl ?_)
    dsimp only
    rw [hmethod]
    exact ⟨_, rfl, .unknownMethod name ctx.owner.get.name, rfl, rfl, rfl⟩
  | delete =>
    obtain rfl : rest = [] :=
      List.eq_nil_of_length_eq_zero (Nat.le_zero.1 (Nat.le_of_succ_le_succ hmost))
    exact lowerDelete_refuses (hlocal hunresolved)
  | _ => exact hunresolved.elim

theorem Fresh.resolved (h : Fresh s) (hproper : ctx.owner.home.Proper)
    (hblock : ctx.body.WellFormed) (hbody : body ctx s = .ok ((), t))
    (hx : ctx.body.code[i]? = some x) : Resolved p cd ctx.body i x := by
  obtain ⟨u, hpass⟩ := exists_pass_of_body hblock hbody
  have htraced : Traced ctx.first s [] (s.atBlock ctx.body) := h.traced
  have hends := pass_ends htraced (keeps_resolved hlaid hdecl hblock) (fun _ _ hk ↦
    absurd hk (Nat.not_lt_zero _)) hproper hblock
  rw [Ends, hpass] at hends
  obtain ⟨qs, hlength, -, hresolved⟩ := hends
  exact hresolved i x (hlength ▸ (Array.getElem?_eq_some_iff.1 hx).1) hx

/-- A block is refused if its first pass comes to a name that stands for nothing. -/
theorem Fresh.body_refuses (h : Fresh s) (hproper : ctx.owner.home.Proper)
    (hblock : ctx.body.WellFormed)
    (hbefore : instructionsFrom ctx.first 0 (ctx.body.code.toList.take i) (s.atBlock ctx.body) =
      .ok ((), t))
    (hx : ctx.body.code[i]? = some x) (hunresolved : Unresolved cd ctx.body i x name) :
    ∃ e, body ctx s = .error e ∧ Blames x.line name e := by
  have htraced : Traced ctx.first s [] (s.atBlock ctx.body) := h.traced
  have hkeeps : Keeps (fun _ _ ↦ True) ctx.first s fun _ _ ↦ True :=
    ⟨fun _ _ _ _ _ _ ↦ trivial, fun _ _ _ _ _ ↦ trivial⟩
  have hends : Ends _ (instructionsFrom ctx.first 0 (ctx.body.code.toList.take i))
    (s.atBlock ctx.body) _ := instructionsFrom_ends htraced hkeeps trivial hproper hblock
    (List.take_prefix i _)
  rw [Ends, hbefore] at hends
  obtain ⟨qs, hlength, ht, -⟩ := hends
  have hi : i ≤ ctx.body.code.toList.length := by simpa using (Array.getElem?_eq_some_iff.1 hx).1.le
  obtain rfl : qs.length = i := hlength.trans ((Nat.zero_add _).trans (List.length_take_of_le hi))
  have hlaid : List.Forall₂ _ p.classes.toList ctx.first.owner.home.classes.toList := hlaid
  obtain ⟨e, hlower, hblames⟩ := ht.lower_refuses hlaid hdecl hblock hx hunresolved
  exact ⟨e, body_eq_error hblock (pass_eq_error hbefore hx hlower), hblames⟩

end Blocks

/-! ## Programs -/

section Programs

variable {rows : List (List Token)} (hparse : Program.parse rows = .ok p)

include hparse

theorem layouts_of_parsed {l : CompiledModule} (h : layout p = .ok l) :
    List.Forall₂ (LayoutOf (declares p)) p.classes.toList l.classes.toList :=
  (layout_concludes (E := fun _ _ ↦ True) ((Program.wellFormed_of_parse hparse).mono
    fun _ _ _ _ _ ↦ trivial)).of_ok h

theorem isAbstract_eq_false_of_parsed (hcd : cd ∈ p.classes)
    (hmember : member ∈ constructorsOf cd ∨ member ∈ cd.methods)
    (hx : member.body.code[i]? = some x) : member.isAbstract = false := by
  have hclass := (Program.wellFormed_of_parse hparse).classes cd hcd
  have hwell := hmember.elim (fun hm ↦ (constructorsOf_wellFormed hclass hm).1) fun hm ↦
    (hclass.methods member hm).1
  rw [← Bool.not_eq_true]
  intro habstract
  rw [hwell.empty habstract] at hx
  cases hx

/-- All instructions of an accepted program are resolved. -/
theorem resolved_of_generate (h : generate p = .ok m) (hcd : cd ∈ p.classes)
    (hmember : member ∈ constructorsOf cd ∨ member ∈ cd.methods)
    (hx : member.body.code[i]? = some x) : Resolved p cd member.body i x := by
  obtain ⟨owner, signature, s, hreaches, hbody⟩ := exists_reaches h hcd hmember
  obtain ⟨t, hbody⟩ := hbody (isAbstract_eq_false_of_parsed hparse hcd hmember hx)
  obtain ⟨hproper, hblock, hfresh⟩ :=
    fresh_of_parsed hparse hreaches.laid hreaches.decl hmember hreaches.defaults
  exact hfresh.resolved (layouts_of_parsed hparse hreaches.laid) hreaches.decl hproper
    hblock hbody hx

/-- A name that stands for nothing is what a program is refused for, if the generator comes to
it. -/
theorem generate_refuses (h : Reaches p owner cd member signature s)
    (hbefore : instructionsFrom ⟨owner, signature, member.body, .empty member.body.code.size⟩ 0
      (member.body.code.toList.take i) (s.atBlock member.body) = .ok ((), t))
    (hx : member.body.code[i]? = some x) (hunresolved : Unresolved cd member.body i x name) :
    ∃ e, generate p = .error e ∧ Blames x.line name e := by
  obtain ⟨hproper, hblock, hfresh⟩ := fresh_of_parsed hparse h.laid h.decl h.mem h.defaults
  obtain ⟨e, hbody, hblames⟩ : ∃ e, body ⟨owner, signature, member.body, #[]⟩ s = .error e ∧
      Blames x.line name e :=
    hfresh.body_refuses (layouts_of_parsed hparse h.laid) h.decl hproper hblock hbefore hx
      hunresolved
  have hconcrete := isAbstract_eq_false_of_parsed hparse (Array.mem_of_getElem? h.decl) h.mem hx
  exact ⟨e, h.generate_eq_error hconcrete hbody, hblames⟩

end Programs

end ClassAsm.Codegen

namespace ClassAsm

open Bytecode (CompiledModule)
open Codegen
open Program (Block)
open Reference

/-- **The names of a program are resolved, or it is refused for one that is not.**  All names in all
instructions of an accepted program stand for something.  If the first pass over a block that the
generator comes to has got to an instruction whose first operand is a simple name that stands for
nothing, then the program is refused for that name, on the line of that instruction. -/
theorem names_resolve {src : String} {p : Program} (hparse : parseSource src = .ok p) :
    (∀ m, compile src = .ok m → ∀ cd ∈ p.classes, ∀ member, member ∈ constructorsOf cd ∨
      member ∈ cd.methods → ∀ i x, member.body.code[i]? = some x → Resolved p cd member.body i x) ∧
    ∀ owner cd member signature s t i x name, Reaches p owner cd member signature s →
      instructionsFrom ⟨owner, signature, member.body, .empty member.body.code.size⟩ 0
        (member.body.code.toList.take i) (s.atBlock member.body) = .ok ((), t) →
      member.body.code[i]? = some x → Unresolved cd member.body i x name →
      ∃ e f d, compile src = .error e ∧ e.failure? = some f ∧ f.diagnostic? = some d ∧
        d.kind = .resolution ∧ d.line = x.line ∧ d.construct = name := by
  refine ⟨fun m hm cd hcd member hmember i x hx ↦ ?_,
    fun owner cd member signature s t i x name h hbefore hx hunresolved ↦ ?_⟩
  · obtain ⟨p', hp', hgenerate⟩ := compile_eq_ok_iff.1 hm
    cases hparse.symm.trans hp'
    exact resolved_of_generate hparse hgenerate hcd hmember hx
  · obtain ⟨_, hgenerate, c, rfl, hkind, hconstruct⟩ :=
      generate_refuses hparse h hbefore hx hunresolved
    have hcompile : compile src = .error (.generate (.diagnostic x.line c)) := by
      rw [compile, hparse]
      dsimp only
      rw [hgenerate]
    exact ⟨_, _, ⟨c.kind, x.line, c.construct, c.message⟩, hcompile, rfl, rfl, hkind, rfl,
      hconstruct⟩

/-- A sample: the block of a method that prints a variable which it has deleted. -/
def stale : Block where
  code := #[⟨.define, [.identifier "x", .identifier "as", .identifier "int"], 3⟩,
    ⟨.delete, [.identifier "x"], 4⟩, ⟨.print, [.identifier "x"], 5⟩]

theorem stale_refused :
    (∃ p m, parseSource countdown = .ok p ∧ compile countdown = .ok m ∧ ∃ cd ∈ p.classes,
      ∃ member ∈ cd.methods, ∃ x, member.body.code[1]? = some x ∧ Resolved p cd member.body 1 x) ∧
    parseSource (methodText ["define x as int", "delete x", "print x"]) =
    .ok (methodProgram stale) ∧ ∃ e f d, compile
    (methodText ["define x as int", "delete x", "print x"]) = .error e ∧ e.failure? = some f ∧
      f.diagnostic? = some d ∧ d.kind = .resolution ∧ d.line = 5 ∧ d.construct = "x" := by
  have hgood : ((parseSource countdown).toOption.any fun p ↦ (compile countdown).toOption.isSome &&
      p.classes[0]?.any fun cd ↦ cd.methods[0]?.any fun member ↦ member.body.code[1]?.isSome) =
      true := by
    decide +kernel
  have hparse : (parseSource (methodText ["define x as int", "delete x", "print x"])).toOption =
      some (methodProgram stale) := by decide +kernel
  let cd := (methodProgram stale).classes[0]
  have hreached : ((layout (methodProgram stale)).toOption.any fun l ↦
    (l.classAt? 0).any fun owner ↦
      (proceduresFrom owner cd owner.get.constructors 0
        (constructorsOf cd).toList).toOption.isSome && owner.get.methods[0]?.any fun signature ↦
        (instructionsFrom ⟨owner, signature, stale, .empty 3⟩ 0
          (stale.code.toList.take 2) (State.atBlock { line := 2 } stale)).toOption.isSome) =
          true := by
    decide +kernel
  simp only [Option.any_eq_true, Bool.and_eq_true, Option.isSome_iff_exists] at hgood hreached
  obtain ⟨p, hp, ⟨m, hm⟩, c, hc, member, hmember, x, hx⟩ := hgood
  obtain ⟨l, hl, owner, howner, ⟨cs, hcs⟩, signature, hsignature, ⟨⟨⟩, t⟩, hbefore⟩ := hreached
  obtain rfl := CompiledModule.home_of_classAt? howner
  have hclass := Array.mem_of_getElem? hc
  have hmethod := Array.mem_of_getElem? hmember
  refine ⟨⟨p, m, eq_of_toOption hp, eq_of_toOption hm, c, hclass, member, hmethod, x, hx, ?_⟩,
    eq_of_toOption hparse, ?_⟩
  · exact (names_resolve (eq_of_toOption hp)).1 m (eq_of_toOption hm) c hclass member
      (.inr hmethod) 1 x hx
  · have hreaches : Reaches (methodProgram stale) owner cd cd.methods[0] signature { line := 2 } :=
      ⟨eq_of_toOption hl, ⟨[], [], [], rfl, howner, rfl⟩,
        .inr ⟨⟨cs, eq_of_toOption hcs⟩, [], [], [], rfl, hsignature, rfl⟩, rfl⟩
    refine (names_resolve (eq_of_toOption hparse)).2 owner cd cd.methods[0] signature
      { line := 2 } t 2 ⟨.print, [.identifier "x"], 5⟩ "x" hreaches (eq_of_toOption hbefore) rfl
      ⟨rfl, by simp [SimpleName], by decide, ?_, fun f hf ↦ absurd hf (Array.not_mem_empty f)⟩
    rintro typeName ⟨j, hj, ⟨y, o, hy, hop, -⟩, hkept⟩
    rcases Nat.le_one_iff_eq_zero_or_eq_one.1 (Nat.le_of_lt_succ hj) with rfl | rfl
    · exact hkept 1 (by decide) (by decide) (.inl ⟨_, rfl, rfl, rfl⟩)
    · cases hy
      cases hop

end ClassAsm
