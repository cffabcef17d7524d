import Mathlib.Order.Lattice
import ClassAsm.Proofs.Codegen.Precision

/-!
# The passes over a block

A block is generated again and again, until a pass finds nothing new on backward edges.  `Passes` is
this loop without a bound on its length, with the number of its passes and the facts that the last
of them starts with.

Only the targets of backward edges ever have a record, so that there is only something to lose for
them: seven for each of them, and every pass but the last loses something.  Hence the bound of
`passes_exist`.  In the last pass the records are below what flows along every backward edge, in the
order whose infimum is `meet`.
-/

namespace ClassAsm

namespace Program.Block

variable (b : Block)

/-- Control goes from one instruction back to another, or to itself. -/
def BackEdge (i j : Nat) : Prop := j ≤ i ∧ b.Edge i j

instance (i j : Nat) : Decidable (b.BackEdge i j) := inferInstanceAs (Decidable (_ ∧ _))

/-- The targets of backward edges. -/
def backTargets : List Nat :=
  (List.range b.code.size).filter fun j ↦ ∃ i, i < b.code.size ∧ b.BackEdge i j

theorem mem_backTargets {b : Block} {j : Nat} : j ∈ b.backTargets ↔ ∃ i, b.BackEdge i j := by
  simp only [backTargets, List.mem_filter, List.mem_range, decide_eq_true_eq]
  refine ⟨fun ⟨_, i, _, h⟩ ↦ ⟨i, h⟩, fun ⟨i, h⟩ ↦ ?_⟩
  have hi := h.2.lt
  exact ⟨Nat.lt_of_le_of_lt h.1 hi, i, hi, h⟩

theorem length_backTargets_le (b : Block) : b.backTargets.length ≤ b.code.size :=
  (List.length_filter_le _ _).trans List.length_range.le

end Program.Block

namespace Codegen

open Program Bytecode Reference

variable {a : Registers} {f : Flow} {ctx : Context} {start s : State} {ps : List Point}
  {rows : List (List Token)} {c : ClassDecl} {member : Member}

/-! ## The order of facts -/

theorem Fact.meet_self (a : Fact) : a.meet a = a := by
  cases a <;> simp [meet]

theorem Fact.meet_comm (a b : Fact) : a.meet b = b.meet a := by
  cases a <;> cases b <;> grind [meet]

theorem Fact.meet_assoc (a b c : Fact) : (a.meet b).meet c = a.meet (b.meet c) := by
  cases a <;> cases b <;> cases c <;> grind [meet]

/-- A typed register is above a mixed one, which is above an unset one. -/
instance : SemilatticeInf Fact where
  le a b := a.meet b = a
  inf := Fact.meet
  le_refl := Fact.meet_self
  le_trans a b c hab hbc := by rw [← hab, Fact.meet_assoc, hbc]
  le_antisymm a b hab hba := by rw [← hab, Fact.meet_comm, hba]
  inf_le_left a b := by rw [Fact.meet_comm a, Fact.meet_assoc, Fact.meet_self]
  inf_le_right a b := by rw [Fact.meet_assoc, Fact.meet_self]
  le_inf a b c hab hac := by rw [← Fact.meet_assoc, hab, hac]

example (t : Ty) : Fact.unset ≤ .mixed ∧ Fact.mixed ≤ .typed t := ⟨rfl, rfl⟩

/-- Facts about all registers are compared one by one. -/
instance : SemilatticeInf Registers where
  le a b := ∀ r, a.get r ≤ b.get r
  inf := Registers.meet
  le_refl a r := le_rfl
  le_trans a b c hab hbc r := (hab r).trans (hbc r)
  le_antisymm a b hab hba := by
    have heq (r : Register) : a.get r = b.get r := le_antisymm (hab r) (hba r)
    exact Registers.mk.injEq .. ▸ ⟨heq .selected, heq .comparing, heq .result⟩
  inf_le_left a b r := by
    rw [Registers.get_meet]
    exact inf_le_left
  inf_le_right a b r := by
    rw [Registers.get_meet]
    exact inf_le_right
  le_inf a b c hab hac r := by
    rw [Registers.get_meet]
    exact le_inf (hab r) (hac r)

theorem merge_le_left (x : Option Registers) :
    ∃ c, Option.merge Registers.meet (some a) x = some c ∧ c ≤ a := by
  cases x with
  | none => exact ⟨a, rfl, le_rfl⟩
  | some b => exact ⟨a.meet b, rfl, inf_le_left⟩

theorem merge_le_right (x : Option Registers) {b : Registers} :
    ∃ c, Option.merge Registers.meet x (some b) = some c ∧ c ≤ b := by
  cases x with
  | none => exact ⟨b, rfl, le_rfl⟩
  | some a => exact ⟨a.meet b, rfl, inf_le_right⟩

namespace Flow

variable {g : Flow} {i j : Nat} {b : Registers}

theorem lt_size_of_at (h : f.at i ≠ none) : i < f.size := by
  refine Nat.lt_of_not_le fun hi ↦ h ?_
  rw [Flow.at, Array.getElem?_eq_none hi]
  rfl

/-- A record only goes down when facts are added to it. -/
theorem at_add_le (i : Nat) (rs : Registers) (h : f.at j = some a) :
    ∃ c, (f.add i rs).at j = some c ∧ c ≤ a := by
  by_cases hij : i = j
  · subst hij
    rw [at_add_self (lt_size_of_at (by simp [h])), h]
    exact merge_le_left _
  · rw [at_add_of_ne hij]
    exact ⟨a, h, le_rfl⟩

/-- Records that a join does not change are below what was joined into them. -/
theorem le_of_merge_eq (hsize : f.size = g.size) (h : f.merge g = f) (hb : g.at i = some b) :
    ∃ a, f.at i = some a ∧ a ≤ b := by
  have hi := at_merge hsize i
  rw [h, hb] at hi
  rw [hi]
  exact merge_le_right _

theorem at_empty (n i : Nat) : (Flow.empty n).at i = none := by
  rw [Flow.at, Flow.empty, Array.getElem?_replicate]
  split <;> rfl

theorem at_merge_ne_none (hsize : f.size = g.size) (h : (f.merge g).at i ≠ none) :
    f.at i ≠ none ∨ g.at i ≠ none := by
  rw [at_merge hsize, Ne, Option.merge_eq_none_iff, not_and_or] at h
  exact h

end Flow

/-! ## What can be lost -/

/-- Records that are empty have all there is to lose. -/
theorem sum_recordRank_ge (q : Nat → Bool) (xs : List (Option Registers)) (i : Nat)
    (h : ∀ k, xs[k]?.join ≠ none → q (i + k) = true) :
    7 * xs.length ≤ (xs.map recordRank).sum + 7 * (List.range' i xs.length).countP q := by
  induction xs generalizing i with
  | nil => simp
  | cons x xs ih =>
    have hrest := ih (i + 1) fun k hk ↦ by
      rw [Nat.add_assoc, Nat.add_comm 1]
      exact h (k + 1) hk
    simp only [List.length_cons, List.map_cons, List.sum_cons, List.range'_succ, List.countP_cons]
    cases x with
    | none =>
      simp only [recordRank]
      omega
    | some rs =>
      have hi : q i = true := h 0 (by simp)
      simp only [hi, if_true]
      omega

/-- **A flow with records for some instructions only** has lost at most seven for each of them. -/
theorem Flow.rank_ge {b : Block} (hsize : f.size = b.code.size)
    (h : ∀ j, f.at j ≠ none → j ∈ b.backTargets) :
    7 * b.code.size ≤ f.rank + 7 * b.backTargets.length := by
  have hsum := sum_recordRank_ge (fun j ↦ ∃ i, i < b.code.size ∧ b.BackEdge i j) f.toList 0
    fun k hk ↦ by
    have hmem := h k (by rwa [Flow.at, ← Array.getElem?_toList])
    simpa using (List.mem_filter.1 hmem).2
  rw [Array.length_toList, hsize, List.countP_eq_length_filter, ← List.range_eq_range'] at hsum
  exact hsum

/-! ## One pass -/

/-- What a pass from `start` knows about the registers when it comes to the instruction with index
`i`.  A jump writes no register, so that this is also what flows along its edge. -/
def factsAt (ctx : Context) (start : State) (i : Nat) : Except Error Registers := do
  let ((), s) ← instructionsFrom ctx 0 (ctx.body.code.toList.take i) start
  let ((), s) ← enter ctx i s
  return s.registers

section Pass

variable {start₀ t : State} {instr : Instruction} {st : Statement}

theorem instructionsFrom_append (ctx : Context) (i : Nat) (xs ys : List Instruction) :
    instructionsFrom ctx i (xs ++ ys) = (do
      instructionsFrom ctx i xs
      instructionsFrom ctx (i + xs.length) ys) := by
  induction xs generalizing i with
  | nil => rfl
  | cons x xs ih =>
    rw [List.cons_append, instructionsFrom, instructionsFrom, ih, bind_assoc, List.length_cons,
      Nat.add_right_comm i, Nat.add_assoc i]

/-- What a branch does to the records of backward edges. -/
theorem State.backward_branch (ctx : Context) (s : State) (x : Option Nat) :
    ((s.branch ctx x).backward = s.backward ∧ ∀ j, x = some j → j < ctx.body.code.size →
      s.current < j) ∨ ∃ j, x = some j ∧ j < ctx.body.code.size ∧ j ≤ s.current ∧
        (s.branch ctx x).backward = s.backward.add j s.registers := by
  cases x with
  | none => exact .inl ⟨rfl, nofun⟩
  | some j =>
    rw [State.branch, State.flow]
    split
    · rename_i hj
      refine .inl ⟨rfl, fun k hk hlt ↦ ?_⟩
      cases hk
      omega
    · split
      · exact .inr ⟨j, rfl, by omega, by omega, rfl⟩
      · refine .inl ⟨rfl, fun k hk _ ↦ ?_⟩
        cases hk
        omega

/-- What a pass from `start` has found when it has come to `s` with the trace `ps`. -/
structure Recorded (ctx : Context) (start : State) (ps : List Point) (s : State) : Prop where
  reached : instructionsFrom ctx 0 (ctx.body.code.toList.take ps.length) start = .ok ((), s)
  facts : ∀ k p, ps[k]? = some p → factsAt ctx start k = .ok p.facts
  behind : ∀ k p j, ps[k]? = some p → ctx.body.BackEdge k j → ∃ f, s.backward.at j = some f ∧
    f ≤ p.facts
  only : ∀ j, s.backward.at j ≠ none → ∃ k, ctx.body.BackEdge k j

/-- **One instruction records what flows back from it, and nothing else.** -/
theorem Recorded.step (h : Recorded ctx start₀ ps s) (htraced : Traced ctx start ps s)
    (hinstr : ctx.body.code[ps.length]? = some instr)
    (hrun : instruction ctx ps.length instr s = .ok ((), t))
    (hlow : LoweredAt ctx ps.length instr st s t) :
    Recorded ctx start₀ (ps ++ [⟨entry ctx ps.length s, st⟩]) t := by
  have hi : ps.length < ctx.body.code.size := (Array.getElem?_eq_some_iff.1 hinstr).1
  have hbwd : t.backward =
    ((s.entered ctx ps.length instr).branch ctx (st.branch? ps.length)).backward := by
    rw [hlow.rest]
  have hedge {j : Nat} := hlow.edge_iff (j := j) hinstr rfl
  have hcases := (s.entered ctx ps.length instr).backward_branch ctx (st.branch? ps.length)
  rw [← hbwd] at hcases
  refine ⟨?_, fun k p hp ↦ ?_, fun k p j hp hback ↦ ?_, fun j hj ↦ ?_⟩
  · have htake : ctx.body.code.toList.take (ps.length + 1) = ctx.body.code.toList.take ps.length ++
      [instr] := by
      rw [List.take_add_one, Array.getElem?_toList, hinstr, Option.toList_some]
    have hlength : (ctx.body.code.toList.take ps.length).length = ps.length :=
      List.length_take_of_le (by simpa using hi.le)
    rw [List.length_append, List.length_singleton, htake, instructionsFrom_append, hlength]
    show (instructionsFrom ctx 0 _ start₀).bind _ = _
    rw [h.reached]
    show (instruction ctx (0 + ps.length) instr s).bind _ = _
    rw [Nat.zero_add, hrun]
    rfl
  · rcases getElem?_append_point hp with hp | ⟨rfl, rfl⟩
    · exact h.facts k p hp
    · rw [factsAt, h.reached]
      rfl
  · rcases getElem?_append_point hp with hp | ⟨rfl, rfl⟩
    · obtain ⟨f, hf, hle⟩ := h.behind k p j hp hback
      rcases hcases with ⟨heq, -⟩ | ⟨j', -, -, -, heq⟩
      · exact ⟨f, heq ▸ hf, hle⟩
      · obtain ⟨c, hc, hcf⟩ := Flow.at_add_le j' (s.entered ctx ps.length instr).registers hf
        exact ⟨c, heq ▸ hc, hcf.trans hle⟩
    · -- Only a branch leads back.
      obtain ⟨hjk, hkj⟩ := hback
      have hbranch : st.branch? ps.length = some j := (hedge.1 hkj).resolve_left fun hfall ↦ by
        omega
      rcases hcases with ⟨-, hahead⟩ | ⟨j', hj', -, -, heq⟩
      · have hlt : ps.length < j := hahead j hbranch (by omega)
        omega
      · cases hbranch.symm.trans hj'
        have hsize : j < (s.entered ctx ps.length instr).backward.size :=
          htraced.backward_size ▸ Nat.lt_of_le_of_lt hjk hi
        rw [heq, Flow.at_add_self hsize]
        exact merge_le_right _
  · rcases hcases with ⟨heq, -⟩ | ⟨j', hj', -, hle, heq⟩
    · exact h.only j (heq ▸ hj)
    · by_cases hjj : j' = j
      · exact ⟨ps.length, hjj ▸ hle, hedge.2 (.inr (hjj ▸ hj'))⟩
      · rw [heq, Flow.at_add_of_ne hjj] at hj
        exact h.only j hj

/-- **A pass records what flows along all backward edges, and nothing else.** -/
theorem keeps_recorded : Keeps (fun _ _ ↦ True) ctx start (Recorded ctx start₀) :=
  ⟨fun _ _ _ _ _ _ ↦ trivial, fun htraced h hinstr hrun hlow ↦ h.step htraced hinstr hrun hlow⟩

end Pass

/-! ## All passes -/

/-- The passes over a block from `start` on, which begin with what is known on backward edges: how
many there are, what the last of them begins with, and what it comes to. -/
inductive Passes (ctx : Context) (start : State) :
    Flow → Nat → Flow → Except Error State → Prop where
  | failed {back : Flow} {e : Error} : pass { ctx with back := back } start = .error e →
      Passes ctx start back 1 back (.error e)
  | settled {back : Flow} {s : State} : pass { ctx with back := back } start = .ok ((), s) →
      back.merge s.backward = back → Passes ctx start back 1 back (.ok s)
  | again {back last : Flow} {s : State} {n : Nat} {r : Except Error State} :
      pass { ctx with back := back } start = .ok ((), s) → back.merge s.backward ≠ back →
      Passes ctx start (back.merge s.backward) n last r → Passes ctx start back (n + 1) last r

section Passes

variable {back last last' : Flow} {n n' : Nat} {r r' : Except Error State}

theorem Passes.unique (h : Passes ctx start back n last r)
    (h' : Passes ctx start back n' last' r') : n' = n ∧ last' = last ∧ r' = r := by
  induction h generalizing n' with
  | failed hpass =>
    cases h' with
    | failed hpass' =>
      cases hpass'.symm.trans hpass
      exact ⟨rfl, rfl, rfl⟩
    | settled hpass' _ | again hpass' _ _ => cases hpass'.symm.trans hpass
  | settled hpass heq =>
    cases h' with
    | failed hpass' => cases hpass'.symm.trans hpass
    | settled hpass' _ =>
      cases hpass'.symm.trans hpass
      exact ⟨rfl, rfl, rfl⟩
    | again hpass' hne _ =>
      cases hpass'.symm.trans hpass
      exact absurd heq hne
  | again hpass hne _ ih =>
    cases h' with
    | failed hpass' => cases hpass'.symm.trans hpass
    | settled hpass' heq =>
      cases hpass'.symm.trans hpass
      exact absurd heq hne
    | again hpass' _ hrest =>
      cases hpass'.symm.trans hpass
      obtain ⟨rfl, rfl, rfl⟩ := ih hrest
      exact ⟨rfl, rfl, rfl⟩

/-- The bound on the number of passes is all that the generator adds. -/
theorem Passes.settle_eq (h : Passes ctx start back n last r) {fuel : Nat} (hfuel : n ≤ fuel) :
    settle ctx start fuel back = r := by
  induction h generalizing fuel with
  | failed hpass =>
    obtain ⟨fuel, rfl⟩ := Nat.exists_eq_add_of_le' hfuel
    rw [settle, hpass]
    rfl
  | settled hpass heq =>
    obtain ⟨fuel, rfl⟩ := Nat.exists_eq_add_of_le' hfuel
    rw [settle, hpass]
    exact if_pos heq
  | again hpass hne _ ih =>
    obtain ⟨fuel, rfl⟩ := Nat.exists_eq_add_of_le' (Nat.le_trans (Nat.le_add_left 1 _) hfuel)
    rw [settle, hpass]
    exact (if_neg hne).trans (ih (Nat.le_of_succ_le_succ hfuel))

/-- The state in which every pass over a block starts. -/
def State.atBlock (s : State) (b : Block) : State :=
  { s with forward := .empty b.code.size, backward := .empty b.code.size }

/-- The records for the targets of backward edges are below what a pass that begins with them finds
at the sources of these edges. -/
def Consistent (ctx : Context) (start : State) (back : Flow) : Prop :=
  ∀ i j, ctx.body.BackEdge i j → ∃ b rs, back.at j = some b ∧
    factsAt { ctx with back := back } start i = .ok rs ∧ b ≤ rs

theorem Fresh.recorded : Recorded ctx (s.atBlock ctx.body) [] (s.atBlock ctx.body) where
  reached := rfl
  facts _ _ hp := nomatch hp
  behind _ _ _ hp := nomatch hp
  only j hj := absurd (Flow.at_empty _ j) hj

/-- **A pass that changes no record is consistent with them.** -/
theorem Recorded.consistent (h : Recorded { ctx with back := back } start ps s)
    (hlength : ps.length = ctx.body.code.size) (hsize : back.size = s.backward.size)
    (heq : back.merge s.backward = back) : Consistent ctx start back := by
  intro i j hback
  have hi : i < ps.length := hlength ▸ hback.2.lt
  have hp : ps[i]? = some ps[i] := List.getElem?_eq_getElem hi
  obtain ⟨f, hf, hle⟩ := h.behind i _ j hp hback
  obtain ⟨b, hb, hbf⟩ := Flow.le_of_merge_eq hsize heq hf
  exact ⟨b, _, hb, h.facts i _ hp, hbf.trans hle⟩

/-- **The passes over a block end**, since all but the last of them lose something on the target of
a backward edge. -/
theorem passes_exist (h : Fresh s) (hproper : ctx.owner.home.Proper) (hblock : ctx.body.WellFormed)
    (hsize : back.size = ctx.body.code.size)
    (hback : ∀ j, back.at j ≠ none → j ∈ ctx.body.backTargets) :
    ∃ n last r, Passes ctx (s.atBlock ctx.body) back n last r ∧
      n + 7 * ctx.body.code.size ≤ 1 + back.rank + 7 * ctx.body.backTargets.length ∧
      ∀ t, r = .ok t → Consistent ctx (s.atBlock ctx.body) last := by
  induction hrank : back.rank using Nat.strongRecOn generalizing back with
  | ind rank ih =>
    have hge := Flow.rank_ge hsize hback
    have htraced : Traced { ctx with back := back } s [] (s.atBlock ctx.body) := h.traced
    have hpass : Ends _ (pass { ctx with back := back }) (s.atBlock ctx.body) fun _ t ↦
        ∃ qs, qs.length = ctx.body.code.size ∧ Traced { ctx with back := back } s qs t ∧
          Recorded { ctx with back := back } (s.atBlock ctx.body) qs t :=
      pass_ends htraced keeps_recorded Fresh.recorded hproper hblock
    cases hresult : pass { ctx with back := back } (s.atBlock ctx.body) with
    | error e => exact ⟨1, back, _, .failed hresult, by omega, nofun⟩
    | ok result =>
      obtain ⟨⟨⟩, t⟩ := result
      rw [Ends, hresult] at hpass
      obtain ⟨qs, hlength, ht, hr⟩ := hpass
      have hsizes : back.size = t.backward.size := hsize.trans ht.backward_size.symm
      by_cases heq : back.merge t.backward = back
      · exact ⟨1, back, _, .settled hresult heq, by omega, fun _ _ ↦
          hr.consistent hlength hsizes heq⟩
      · have hlt := Flow.rank_merge hsizes heq
        obtain ⟨n, last, r, hpasses, hle, hconsistent⟩ :=
          ih _ (hrank ▸ hlt) ((Flow.size_merge hsizes).trans hsize) (fun j hj ↦
            (Flow.at_merge_ne_none hsizes hj).elim (hback j) fun hj ↦ Block.mem_backTargets.2
            (hr.only j hj)) rfl
        exact ⟨n + 1, last, r, .again hresult heq hpasses, by omega, hconsistent⟩

end Passes

/-- The block of a member of a parsed program starts from a fresh state, once the defaults are
stored. -/
theorem fresh_of_parsed {p : Program} {o : ClassRef} (hparse : parse rows = .ok p)
    (hlayout : layout p = .ok o.home) (hclass : p.classes[o.index.val]? = some c)
    (hmember : member ∈ constructorsOf c ∨ member ∈ c.methods)
    (hdefaults : (if member.isConstructor then prologue o.get.fields 0 c.fields.toList
      else pure ()) { line := member.line } = .ok ((), s)) :
    o.home.Proper ∧ member.body.WellFormed ∧ Fresh s := by
  have hparses := (wellFormed_of_parse hparse).mono
    (show ∀ line, True → Admits (fun _ _ ↦ True) line from fun _ _ _ _ _ ↦ trivial)
  have hlaid := (layout_concludes hparses).of_ok hlayout
  have hproper := proper_of_layout hlaid
  have hc := hparses.classes c (Array.mem_of_getElem? hclass)
  have hslots : o.get.fields.size = c.fields.size := by
    have howner : o.home.classes.toList[o.index.val]? = some o.get :=
      Array.getElem?_toList.trans (Array.getElem?_eq_getElem o.index.isLt)
    obtain ⟨c', hc', hof⟩ := exists_left_of_forall₂ hlaid howner
    cases (Array.getElem?_toList.symm.trans hc').symm.trans hclass
    simpa using hof.fields.length_eq.symm
  have hends := defaults_ends (m := member) hproper hc.fields hslots
  rw [Ends, hdefaults] at hends
  exact ⟨hproper,
    (BlockOf.wellFormed ⟨hlayout, c, member, hclass, hmember, rfl⟩ hparses).2.1, hends.1⟩

/-- **The passes over every block of a parsed program end** after at most one and seven for each
target of a backward edge, in an error or with consistent records. -/
theorem passes_settle {rows : List (List Token)} {p : ClassAsm.Program}
    (hparse : Program.parse rows = .ok p) {ctx : Context} (hlayout : layout p = .ok ctx.owner.home)
    {c : ClassDecl} {member : Member} {s : State}
    (hclass : p.classes[ctx.owner.index.val]? = some c)
    (hmember : member ∈ constructorsOf c ∨ member ∈ c.methods) (hbody : ctx.body = member.body)
    (hdefaults : (if member.isConstructor then prologue ctx.owner.get.fields 0 c.fields.toList
      else pure ()) { line := member.line } = .ok ((), s)) :
    ∃ n last r, Passes ctx (s.atBlock ctx.body) (.empty ctx.body.code.size) n last r ∧
      (∀ n' last' r', Passes ctx (s.atBlock ctx.body) (.empty ctx.body.code.size) n' last' r' →
        n' = n ∧ last' = last ∧ r' = r) ∧
      body ctx s = r.map ((), ·) ∧
      n ≤ 1 + 7 * ctx.body.backTargets.length ∧
      ∀ t, r = .ok t → ∀ i j, ctx.body.BackEdge i j → ∃ b rs, last.at j = some b ∧
        factsAt { ctx with back := last } (s.atBlock ctx.body) i = .ok rs ∧ b ≤ rs := by
  obtain ⟨hproper, hblock, hfresh⟩ := fresh_of_parsed hparse hlayout hclass hmember hdefaults
  rw [← hbody] at hblock
  have hsize : (Flow.empty ctx.body.code.size).size = ctx.body.code.size := by simp [Flow.empty]
  obtain ⟨n, last, r, hpasses, hle, hconsistent⟩ := passes_exist hfresh hproper hblock hsize
    fun j hj ↦ absurd (Flow.at_empty _ j) hj
  rw [Flow.rank_empty] at hle
  have htargets := ctx.body.length_backTargets_le
  refine ⟨n, last, r, hpasses, fun _ _ _ h ↦ hpasses.unique h, ?_, by omega, hconsistent⟩
  have hsettle : settle ctx (s.atBlock ctx.body) (1 + 7 * ctx.body.code.size)
    (.empty ctx.body.code.size) = r := hpasses.settle_eq (by omega)
  rw [body, strayLabel?_eq_none hblock]
  show (settle ctx (s.atBlock ctx.body) _ _ >>= fun t ↦ pure ((), t)) = _
  rw [hsettle]
  cases r <;> rfl

/-- A sample: a loop that comes back with another type in a register. -/
def spin : String := "class C\nfunc f\nop_select 1\nloop\nop_select \"s\"\ndoop\nend\nend"

theorem spin_settles : ∃ (p : ClassAsm.Program) (ctx : Context) (c : ClassDecl) (member : Member),
    Program.parse (Token.scan spin) = .ok p ∧ layout p = .ok ctx.owner.home ∧
    p.classes[ctx.owner.index.val]? = some c ∧ member ∈ c.methods ∧ ctx.body = member.body ∧
    ctx.body.backTargets = [1] ∧ ∃ n last r,
      Passes ctx (State.atBlock { line := member.line } ctx.body)
      (.empty ctx.body.code.size) n last r ∧ n ≤ 8 ∧ (∃ t, r = .ok t) ∧ last.at 1 ≠ none := by
  have h : ((parse (Token.scan spin)).toOption.any fun p ↦ (layout p).toOption.any fun m ↦
      (m.classAt? 0).any fun owner ↦ p.classes[owner.index.val]?.any fun c ↦
      c.methods[0]?.any fun member ↦
        decide (owner.home = m) && !member.isConstructor &&
          decide (member.body.backTargets = [1]) &&
          decide (member.body.BackEdge 3 1) &&
          (body ⟨owner, { name := "f" }, member.body, #[]⟩ { line := member.line }).isOk) =
          true := by
    decide +kernel
  simp only [Option.any_eq_true, Bool.and_eq_true, decide_eq_true_eq, Bool.not_eq_true'] at h
  obtain ⟨p, hp, m, hm, owner, -, c, hc, member, hmember, ⟨⟨⟨rfl, hctor⟩, htargets⟩, hback⟩,
    hok⟩ := h
  have hmember := Array.mem_of_getElem? hmember
  obtain ⟨ctx, hctx⟩ : ∃ ctx : Context, ctx = ⟨owner, { name := "f" }, member.body, #[]⟩ := ⟨_, rfl⟩
  have howner : ctx.owner = owner := hctx ▸ rfl
  have hmbody : ctx.body = member.body := hctx ▸ rfl
  have hdefaults :
    (if member.isConstructor then prologue ctx.owner.get.fields 0 c.fields.toList else pure ())
      { line := member.line } = .ok ((), { line := member.line }) := by
    rw [hctor]
    rfl
  rw [← hctx] at hok
  rw [← howner] at hm hc
  rw [← hmbody] at htargets hback
  obtain ⟨n, last, r, hpasses, -, hbody, hle, hedges⟩ :=
    passes_settle (eq_of_toOption hp) (eq_of_toOption hm) hc (.inr hmember) hmbody hdefaults
  rw [htargets] at hle
  cases r with
  | error e =>
    rw [hbody] at hok
    cases hok
  | ok t =>
    obtain ⟨b, rs, hb, -⟩ := hedges t rfl 3 1 hback
    exact ⟨p, ctx, c, member, eq_of_toOption hp, eq_of_toOption hm, hc, hmember, hmbody, htargets,
      n, last, _, hpasses, hle, ⟨t, rfl⟩, by simp [hb]⟩

end Codegen

end ClassAsm
