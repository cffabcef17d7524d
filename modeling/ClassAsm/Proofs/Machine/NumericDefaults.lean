import ClassAsm.Proofs.Codegen.ByteRange
import ClassAsm.Proofs.Machine.FieldDefaults
import ClassAsm.Proofs.Number.Singles
import ClassAsm.Proofs.Program.Image
import ClassAsm.Proofs.Token.Lines

/-!
# The defaults of byte and integer fields

Integer literals are stored as they are; the generator refuses those that do not fit a byte.  All
other numbers are constants of single precision, and these are not checked: the default is the
single nearest to the literal, cut off toward zero, and a field keeps of it what fits.  So a byte is
taken modulo 256, and a literal that lies below a whole number can become this number.

## What is here

* `Takes`: what a byte or an integer field takes from a literal.
* `takes_of_constantAs?`: the conversion of literals, said in terms of their values.
* `numeric_defaults_are_narrowed`: what the fields of a new object hold behind the prologue of its
  constructor.
-/

namespace ClassAsm

open Number Program

/-! ## Literals -/

/-- The value `v` of type `t` is the integer `i`. -/
inductive HoldsInteger : Ty → Value → ℤ → Prop where
  | int (w : Int64) : HoldsInteger .int (.ofInt w) w.toInt
  | byte (b : UInt8) : HoldsInteger .byte (.ofByte b) b.toNat

/-- What a word keeps of an integer: all of it if it fits. -/
def inWord (i : ℤ) : ℤ := if -2 ^ 63 ≤ i ∧ i < 2 ^ 63 then i else -2 ^ 63

/-- What a value of type `t` keeps of an integer: bytes keep the remainder of the word. -/
def kept (t : Ty) (i : ℤ) : ℤ := if t = .byte then inWord i % 256 else inWord i

/-- What a byte or integer field, or an item of an array of these, takes from a literal. -/
inductive Takes (t : Ty) : Operand → Value → Prop where
  /-- An integer is taken as it is.  It is a byte if the field is one. -/
  | int {i : Int64} {v : Value} : (t = .byte → 0 ≤ i.toInt ∧ i.toInt ≤ 255) →
      HoldsInteger t v i.toInt → Takes t (.int i) v
  /-- Any other number is rounded to the nearest single and cut off. -/
  | single {x : Float} {p s : Number.Parts} {v : Value} : parts? x = some p → |p.value| <
      Grid.single.limit → Grid.single.IsNearest p.value s →
      HoldsInteger t v (kept t (towardZero s.value)) → Takes t (.float x) v
  /-- Beyond the singles the least word is taken. -/
  | large {x : Float} {v : Value} : (∀ p, parts? x = some p → Grid.single.limit ≤ |p.value|) →
      HoldsInteger t v (kept t (-2 ^ 63)) → Takes t (.float x) v

theorem inWord_toInt (w : Int64) : inWord w.toInt = w.toInt := if_pos ⟨w.le_toInt, w.toInt_lt⟩

theorem inWord_inWord (i : ℤ) : inWord (inWord i) = inWord i := by
  unfold inWord
  split <;> rfl

theorem kept_inWord (t : Ty) (i : ℤ) : kept t (inWord i) = kept t i := by
  rw [kept, kept, inWord_inWord]

variable {x : Float}

theorem toInt_truncate {q : ℚ} (h : HasValue x q) : (truncate x).toInt = inWord (towardZero q) := by
  obtain ⟨p, hp, rfl⟩ := h
  rw [truncate_of_parts? hp, inWord]
  cases hw : toInt64? (towardZero p.value) with
  | some w =>
    rw [Option.getD_some, ← toInt64?_eq_some_iff.1 hw]
    exact (inWord_toInt w).symm
  | none =>
    rw [if_neg]
    · rfl
    · rintro ⟨hlow, hhigh⟩
      have hw' := toInt64?_eq_some_iff.2 (Int64.toInt_ofInt_of_le hlow hhigh)
      cases hw.symm.trans hw'

theorem toInt_truncate_of_none (h : parts? x = none) : (truncate x).toInt = -2 ^ 63 := by
  rw [truncate, h]
  rfl

theorem toNat_toUInt8 (w : Int64) : (w.toUInt64.toUInt8.toNat : ℤ) = w.toInt % 256 := by
  have hint : w.toInt = if 2 * w.toUInt64.toNat < 2 ^ 64 then (w.toUInt64.toNat : ℤ) else
    w.toUInt64.toNat - 2 ^ 64 := BitVec.toInt_eq_toNat_cond w.toBitVec
  rw [UInt64.toNat_toUInt8, hint]
  split <;> omega

variable {t : Ty} {w : Value}

/-- A numeric constant is converted to the integer that its type keeps. -/
theorem holdsInteger_of_convert? {v : Value} (ht : t = .byte ∨ t = .int)
    (h : Heap.convert? {} v t = some w) :
    v.tag.isNumeric = true ∧ HoldsInteger t w (kept t v.toInt.toInt) := by
  rcases ht with rfl | rfl
  · obtain ⟨hv, ⟨⟩⟩ := Option.ite_none_right_eq_some.1 h
    rw [kept, if_pos rfl, inWord_toInt, ← toNat_toUInt8]
    exact ⟨hv, .byte _⟩
  · obtain ⟨hv, ⟨⟩⟩ := Option.ite_none_right_eq_some.1 h
    rw [kept, if_neg nofun, inWord_toInt]
    exact ⟨hv, .int _⟩

theorem toInt_ofInt (i : Int64) : (Value.ofInt i).toInt = i := by
  change i.toUInt64.toInt64 = i
  simp

theorem toInt_ofSingle (x : Float) :
    (Value.ofSingle x).toInt = truncate (Float.ofBits (toSingle x).toBits) := rfl

/-- A constant of single precision is the single nearest to its literal, cut off. -/
theorem takes_float (h : HoldsInteger t w (kept t (Value.ofSingle x).toInt.toInt)) :
    Takes t (.float x) w := by
  have hbits := parts?_ofBits_toBits (toSingle x)
  rw [toInt_ofSingle] at h
  cases hx : parts? x with
  | none =>
    have hsingle : toSingle x = x := by rw [toSingle, hx]
    rw [hsingle, hx] at hbits
    rw [hsingle, toInt_truncate_of_none hbits] at h
    exact .large (fun p hp ↦ by cases hx.symm.trans hp) h
  | some p =>
    rcases toSingle_of_parts? hx with ⟨hlt, s, hnear, ps, hps, hvalue⟩ | ⟨hle, hnone⟩
    · rw [toInt_truncate ⟨ps, hbits.trans hps, hvalue⟩, kept_inWord] at h
      exact .single hx hlt hnear h
    · rw [toInt_truncate_of_none (hbits.trans hnone)] at h
      refine .large (fun p' hp' ↦ ?_) h
      cases hx.symm.trans hp'
      exact hle

/-- **The conversion of literals** to bytes and integers, said in terms of their values. -/
theorem takes_of_constantAs? {o : Operand} (ht : t = .byte ∨ t = .int) (ho : o.Writable)
    (hrange : Codegen.InByteRange t o) (h : Reference.constantAs? t o = some w) : Takes t o w := by
  obtain ⟨⟨v, source⟩, hliteral, hconvert⟩ := Option.bind_eq_some_iff.1 h
  obtain ⟨hnumeric, hholds⟩ := holdsInteger_of_convert? ht hconvert
  cases o with
  | identifier | returnValue | unknown => cases hliteral
  | string | bool | null =>
    cases hliteral
    cases hnumeric
  | byte | double => exact ho.elim
  | int i =>
    cases hliteral
    rw [toInt_ofInt] at hholds
    refine .int (fun ht ↦ hrange ht i rfl) ?_
    rcases ht with rfl | rfl
    · obtain ⟨hlow, hhigh⟩ := hrange rfl i rfl
      rwa [kept, if_pos rfl, inWord_toInt, Int.emod_eq_of_lt hlow (by omega)] at hholds
    · rwa [kept, if_neg nofun, inWord_toInt] at hholds
  | float x =>
    cases hliteral
    exact takes_float hholds

/-! ## Fields -/

namespace Machine

open Bytecode Codegen Program Reference

/-- What a field of type `t` holds for its literals if it is a byte, an integer or an array of
these: it takes its only literal, or is a new array whose items take one literal each, or null. -/
structure TakesDefaults (h : Heap) (t : Ty) (literals : List Operand) (v : Value) : Prop where
  single : t = .byte ∨ t = .int → ∃ o, literals = [o] ∧ Takes t o v
  items : ∀ elem, t = .array elem → elem = .byte ∨ elem = .int → (literals = [.null] ∧ v = .null) ∨
    ∃ a ws, v = .ofArray a ∧ h.arrays[a]? = some ⟨elem, ws⟩ ∧
    List.Forall₂ (Takes elem) literals ws.toList

theorem takesDefaults_of_starts {h : Heap} {n : Nat} {f : FieldDecl} {t : Ty} {v : Value}
    (hf : f.Writable) (hvalue : f.hasValue = true) (hrange : Codegen.DefaultsInByteRange f t)
    (hstarts : Starts h n f t v) : TakesDefaults h t f.defaults v := by
  have hchecked := hrange hvalue
  cases hstarts with
  | zero hnone => cases hvalue.symm.trans hnone
  | @literal _ o _ _ harray hdefaults hconstant =>
    have ho : o ∈ f.defaults := hdefaults ▸ List.mem_singleton_self o
    refine ⟨fun ht ↦ ⟨o, hdefaults, ?_⟩, fun elem ht ↦ absurd ht (harray elem)⟩
    exact takes_of_constantAs? ht (hf.literals o ho).1 (hchecked o ho).1 hconstant
  | null _ hdefaults => exact ⟨fun ht ↦ by simp at ht, fun _ _ _ ↦ .inl ⟨hdefaults, rfl⟩⟩
  | @items elem a ws _ _ _ harray hitems =>
    refine ⟨fun ht ↦ by simp at ht, fun elem' ht helem ↦ .inr ?_⟩
    cases ht
    have hliterals (o : Operand) (ho : o ∈ f.defaults) : o.Writable ∧ Codegen.InByteRange elem o :=
      ⟨(hf.literals o ho).1, (hchecked o ho).2 elem rfl⟩
    refine ⟨a, ws, rfl, harray, ((List.forall₂_and_left _ _).2 ⟨hliterals, hitems⟩).imp ?_⟩
    rintro o w ⟨⟨ho, hrange⟩, hconstant⟩
    exact takes_of_constantAs? helem ho hrange hconstant

/-- **Defaults of bytes and integers.**  Let a source text compile.  Then every integer literal that
is the default of a byte field, or an item of one, is a byte.  Let the module be small as well, and
let a constructor of one of its classes be entered on a new object.  When the run first comes to the
first instruction of the constructor, every byte or integer field with a default, and every item of
such an array, holds what it takes from its literal: an integer as it is, and any other number as
the integer part of the single nearest to it, as far as the type keeps it. -/
theorem numeric_defaults_are_narrowed {src : String} {m : CompiledModule}
    (hm : compile src = .ok m) : ∃ p, parseSource src = .ok p ∧
      (∀ (cls : ClassRef) (decl : ClassDecl) (i : Nat) (f : FieldDecl) (slot : FieldSlot),
        cls.home = m → p.classes[cls.index.val]? = some decl → decl.fields[i]? = some f →
        cls.get.fields[i]? = some slot → f.hasValue = true →
        slot.type = .byte ∨ slot.type = .array .byte →
        ∀ w, .int w ∈ f.defaults → 0 ≤ w.toInt ∧ w.toInt ≤ 255) ∧
      (m.Small → ∀ (cls : ClassRef) (k : Nat) (code : Procedure), cls.home = m →
        cls.get.constructors[k]? = some code →
        ∃ im : Image p m, im.owner = cls ∧ im.code = code ∧
          (constructorsOf im.decl)[k]? = some im.member ∧
          ∀ s s₀ : State, s.host = builtins → enter ⟨code, some cls⟩ (some s.heap.objects.size) true
              { s with heap := s.heap.addObject (Heap.freshObject cls) } = .ok () s₀ →
            ∀ past t, Begins im s s₀ past t →
              ∃ cell, t.heap.objects = s.heap.objects.push cell ∧ cell.cls = cls ∧
                ∀ (i : Nat) (f : FieldDecl), im.decl.fields[i]? = some f →
                  ∃ (slot : FieldSlot) (v : Value), cls.get.fields[i]? = some slot ∧
                    slot.name = f.name ∧ cell.fields[i]? = some v ∧
                    (f.hasValue = true → TakesDefaults t.heap slot.type f.defaults v)) := by
  obtain ⟨p, hp, ⟨ok, hwf⟩, -⟩ := compiled_of_compile hm
  obtain ⟨p', hp', hgenerate⟩ := compile_eq_ok_iff.1 hm
  cases hp.symm.trans hp'
  have hrange {cls : ClassRef} {decl : ClassDecl} {i : Nat} {f : FieldDecl} {slot : FieldSlot}
    (hhome : cls.home = m)
      (hdecl : p.classes[cls.index.val]? = some decl) (hf : decl.fields[i]? = some f)
      (hslot : cls.get.fields[i]? = some slot) : DefaultsInByteRange f slot.type :=
    defaultsInByteRange (parse_distinct hp) hgenerate hhome hdecl
      (fun m hm ↦
        (constructorsOf_wellFormed (hwf.classes decl (Array.mem_of_getElem? hdecl)) hm).2) hf hslot
  refine ⟨p, hp, fun cls decl i f slot hhome hdecl hf hslot hvalue ht w hw ↦ ?_,
    fun hsmall cls k code hhome hcode ↦ ?_⟩
  · obtain ⟨hsingle, hitems⟩ := hrange hhome hdecl hf hslot hvalue _ hw
    rcases ht with ht | ht
    · exact hsingle ht w rfl
    · exact hitems _ ht rfl w rfl
  · obtain ⟨p', hp', hl⟩ := loaded_of_compile hm hsmall
    cases hp.symm.trans hp'
    obtain ⟨im, rfl, rfl, hmember, hctor, -⟩ := hl.image_constructor hhome hcode
    refine ⟨im, rfl, rfl, hmember, fun s s₀ hhost henter past t hbegins ↦ ?_⟩
    obtain ⟨-, hout, hheap⟩ := (prologue_leads hl hctor hhost henter).of_trace hbegins.trace
      (fun u hu hQ ↦ hbegins.first u hu hQ.1) fun hT ↦ hT.not_stationed hbegins.here
    have hinit := initialised_of_plus hl hctor hheap hout
    refine ⟨_, hinit.objects, rfl, fun i f hf ↦ ?_⟩
    obtain ⟨slot, v, hslot, hname, hv, hstarts⟩ := hinit.fields i f hf
    refine ⟨slot, v, hslot, hname, hv, fun hvalue ↦ ?_⟩
    have hwritable := (Grammar.writable_of_parse (Token.named_scan src) hp).classes im.decl
      (Array.mem_of_getElem? im.declared)
    exact takesDefaults_of_starts (hwritable.fields f (Array.mem_of_getElem? hf)) hvalue
      (hrange hhome im.declared hf hslot) hstarts

/-- A sample: fields with literals that are whole numbers and literals that are not. -/
def gauge : String :=
  "class Gauge public\nfield a : byte = 7\nfield b : byte = 255.99999999\nfield c : byte = 300.5\n"
  ++
    "field n : int = 16777217.5\nfield xs : byte[] = 1 300.5\nend"

/-- A run that returns has come to the first instruction of the constructor. -/
theorem exists_begins {p : Program} {m : CompiledModule} {im : Image p m} {s s₀ u : State}
    {gas : Nat} (hl : Loaded p m) (hctor : im.member.isConstructor = true)
    (hhost : s.host = builtins) (henter : enter im.routine (some s.heap.objects.size) true
      { s with heap := s.heap.addObject (Heap.freshObject im.owner) } = .ok () s₀)
    (hrun : run s.frames.top gas s₀ = .ok () u) : ∃ past t, Begins im s s₀ past t := by
  rcases (prologue_leads hl hctor hhost henter).run_trace .start (List.forall_mem_nil _) gas with
    ⟨past, t, htrace, hbefore, ⟨hhere, -⟩, -⟩ | ⟨c, place, t, hfault, -⟩
  · rw [List.append_nil] at htrace hbefore
    exact ⟨past, t, htrace, hhere, fun u hu ↦ (hbefore u hu).not_stationed⟩
  · cases hrun.symm.trans hfault

/-- The constructor of the gauge stores what its fields take. -/
theorem gauge_takes_defaults : ∃ (m : CompiledModule) (p : Program) (im : Image p m) (s₀ t : State)
    (past : List State) (cell : ObjectCell), compile gauge = .ok m ∧ m.Small ∧
      newlyEntered im.owner im.code = .ok () s₀ ∧ Begins im { host := builtins } s₀ past t ∧
      ∀ (i : Nat) (f : FieldDecl), im.decl.fields[i]? = some f → ∃ (slot : FieldSlot) (v : Value),
        im.owner.get.fields[i]? = some slot ∧ slot.name = f.name ∧ cell.fields[i]? = some v ∧
          (f.hasValue = true → TakesDefaults t.heap slot.type f.defaults v) := by
  obtain ⟨m, cls, code, hm, hsmall, hhome, hcode, hreturns⟩ :=
    exists_constructor_of_any gauge (P := fun c code ↦ returnsSoon (newlyEntered c code))
    (by decide +kernel)
  obtain ⟨p, hp, -, hall⟩ := numeric_defaults_are_narrowed hm
  obtain ⟨im, rfl, rfl, hmember, htakes⟩ := hall hsmall cls 0 code hhome hcode
  obtain ⟨p', hp', hl⟩ := loaded_of_compile hm hsmall
  cases hp.symm.trans hp'
  obtain ⟨ok, hwf⟩ := hl.wellFormed
  have hctor := (constructorsOf_wellFormed (hwf.classes im.decl (Array.mem_of_getElem? im.declared))
    (Array.mem_of_getElem? hmember)).2
  cases henter : newlyEntered im.owner im.code with
  | error e t =>
    rw [henter] at hreturns
    cases hreturns
  | ok _ s₀ =>
    rw [henter, returnsSoon] at hreturns
    split at hreturns
    · rename_i hrun
      obtain ⟨past, t, hbegins⟩ :=
        exists_begins (s := { host := builtins }) hl hctor rfl henter hrun
      obtain ⟨cell, -, -, hcell⟩ := htakes { host := builtins } s₀ rfl henter past t hbegins
      exact ⟨m, p, im, s₀, t, past, cell, hm, hsmall, henter, hbegins, hcell⟩
    · cases hreturns

/-- The fields of the new object and the items of the new array, once the constructor has
returned. -/
def heldSoon : EStateM.Result Signal State Unit → Option (Array Value × Array Value)
  | .ok () s₀ =>
    match run 0 50 s₀ with
    | .ok () t => do return ((← t.heap.objects[0]?).fields, (← t.heap.arrays[0]?).items)
    | .error _ _ => none
  | .error _ _ => none

/-- **Numbers with places wrap silently.**  A byte with the default `255.99999999` is zero and one
with the default `300.5` is `44`; the nearest single to `255.99999999` is `256`.  An integer with
the default `16777217.5` is `16777218`, the nearest single. -/
theorem fractional_defaults_wrap : ∃ (m : CompiledModule) (cls : ClassRef) (code : Procedure),
    compile gauge = .ok m ∧ m.Small ∧ cls.home = m ∧ cls.get.constructors[0]? = some code ∧
      heldSoon (newlyEntered cls code) =
        some (#[.ofByte 7, .ofByte 0, .ofByte 44, .ofInt 16777218, .ofArray 0],
          #[.ofByte 1, .ofByte 44]) := by
  obtain ⟨m, cls, code, hm, hsmall, hhome, hcode, hheld⟩ := exists_constructor_of_any gauge
    (P := fun c code ↦ heldSoon (newlyEntered c code) =
      some (#[.ofByte 7, .ofByte 0, .ofByte 44, .ofInt 16777218, .ofArray 0],
        #[.ofByte 1, .ofByte 44]))
    (by decide +kernel)
  exact ⟨m, cls, code, hm, hsmall, hhome, hcode, of_decide_eq_true hheld⟩

end Machine

end ClassAsm
