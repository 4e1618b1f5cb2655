import Scriptc.Proofs.Balance
import Scriptc.Proofs.Machine

/-!
# Scriptc: reading a structured program

While a structured program is read, all names stand for variables of type integer or boolean and
every variable that has a place has an address of its own: `Ready`. A step of the reading goes
`Onward`: it keeps the state ready, only adds code and places, and hands out no temporary that was
in use.

* `place_spec`: a declared variable has an address from its first use on.
* `declare_spec`: a declaration makes its name known.
* `store_spec`: a value is stored by a copy to the address of the variable.
-/

namespace Scriptc

open Build (Ends ends_bind ends_get_bind ends_modify ends_ofExcept ends_pure)
open Emit (Free Idle Silent TempsOk tempCount)

/-! ## Places of variables -/

/-- Every place is an address below the next one, and no two variables share it. -/
structure Storage.Apart (s : Storage) : Prop where
  start : 0 ≤ s.nextGlobal
  address : ∀ x p, s.slot? x = some p → ∃ n : Nat, p = .address n ∧ (n : Int) < s.nextGlobal
  apart : ∀ x y p, s.slot? x = some p → s.slot? y = some p → x = y

namespace Storage

/-- A variable that is given a place has it from then on, and the others keep theirs. -/
theorem allocGlobal_spec {s : Storage} (h : s.Apart) (x : String) {size : Int} (hsize : 0 < size) :
    ∃ n : Nat, (s.allocGlobal x size).1 = .address n ∧
      (s.allocGlobal x size).2.slot? x = some (.address n) ∧ (s.allocGlobal x size).2.Apart ∧
      ∀ y p, s.slot? y = some p → (s.allocGlobal x size).2.slot? y = some p := by
  unfold allocGlobal
  split
  · rename_i p hp
    obtain ⟨n, rfl, _⟩ := h.address x p hp
    exact ⟨n, rfl, hp, h, fun _ _ hy => hy⟩
  · rename_i hnone
    have hstart := h.start
    have hle := le_align s.nextGlobal
    obtain ⟨n, hn⟩ := Int.eq_ofNat_of_zero_le (Int.le_trans hstart hle)
    rw [hn] at hle
    have hself : (s.slots.put x (.address n)).get? x = some (.address (n : Int)) :=
      Assoc.get?_put_self _ _ _
    have hother : ∀ y, y ≠ x → (s.slots.put x (.address n)).get? y = s.slot? y :=
      fun y hy => Assoc.get?_put_of_ne _ _ hy
    dsimp only
    rw [hn]
    refine ⟨n, rfl, hself, ⟨?_, fun y p hy => ?_, fun y z p hy hz => ?_⟩, fun y p hy => ?_⟩
    · show 0 ≤ (n : Int) + size
      omega
    · show ∃ m : Nat, p = .address m ∧ (m : Int) < n + size
      by_cases hyx : y = x
      · subst hyx
        exact ⟨n, (Option.some.inj (hself.symm.trans hy)).symm, by omega⟩
      · obtain ⟨m, rfl, hm⟩ := h.address y p ((hother y hyx).symm.trans hy)
        exact ⟨m, rfl, by omega⟩
    · -- The new address lies behind all the others.
      have hnew : ∀ z, z ≠ x → s.slot? z ≠ some (.address (n : Int)) := by
        intro z _ hz
        obtain ⟨m, hm, hlt⟩ := h.address z _ hz
        cases hm
        omega
      by_cases hyx : y = x <;> by_cases hzx : z = x
      · exact hyx.trans hzx.symm
      · subst hyx
        obtain rfl := Option.some.inj (hself.symm.trans hy)
        exact absurd ((hother z hzx).symm.trans hz) (hnew z hzx)
      · subst hzx
        obtain rfl := Option.some.inj (hself.symm.trans hz)
        exact absurd ((hother y hyx).symm.trans hy) (hnew y hyx)
      · exact h.apart y z p ((hother y hyx).symm.trans hy) ((hother z hzx).symm.trans hz)
    · by_cases hyx : y = x
      · subst hyx
        rw [hnone] at hy
        cases hy
      · exact (hother y hyx).trans hy

end Storage

/-! ## Declared names -/

namespace SymbolTable

/-- A symbol that is kept and then declared is added to the innermost scope. -/
theorem declare_keep {t t' : SymbolTable} {s : Symbol}
    (h : (t.keep s).2.declare (t.keep s).1 = .ok t') :
    t' = { t with
      symbols := (t.symbols.push s).modify t.symbols.size ({ · with scope := t.currentId })
      scopes := t.scopes.modify t.currentId fun c =>
        { c with entries := c.entries.put s.name t.symbols.size } } := by
  have hs : (t.keep s).2.symbol? (t.keep s).1 = some s := Array.getElem?_push_size
  unfold declare at h
  rw [hs] at h
  dsimp only at h
  split at h
  · cases h
  · exact (Except.ok.inj h).symm

/-- The innermost scope is the first that is asked for a name. -/
theorem lookup?_of_current {t : SymbolTable} {x : String} {id : SymbolId}
    (h : t.findIn? t.currentId x = some id) : t.lookup? x = some id := by
  rw [lookup?, openIds, List.findSome?_cons, h]

section
variable {t t' : SymbolTable} {s : Symbol} (h : (t.keep s).2.declare (t.keep s).1 = .ok t')
include h

/-- The new symbol is given its scope; the others are as they were. -/
theorem symbol?_declare_keep (id : SymbolId) :
    t'.symbol? id =
      if t.symbols.size = id then some { s with scope := t.currentId } else t.symbol? id := by
  unfold symbol?
  rw [declare_keep h, Array.getElem?_modify]
  split
  · rename_i hid
    rw [← hid, Array.getElem?_push_size]
    rfl
  · rename_i hid
    rw [Array.getElem?_push, if_neg (Ne.symm hid)]

theorem lookup?_declare_keep (hcurrent : t.currentId < t.scopes.size) :
    t'.lookup? s.name = some t.symbols.size := by
  have hid : t'.currentId = t.currentId := by
    unfold currentId
    rw [declare_keep h]
  refine lookup?_of_current ?_
  unfold findIn?
  rw [hid, declare_keep h, Array.getElem?_modify, if_pos rfl, Array.getElem?_eq_getElem hcurrent]
  exact Assoc.get?_put_self _ _ _

end

end SymbolTable

namespace Compile

/-! ## The state -/

/-- The types of numbers and truth values. -/
def Plain (t : Ty) : Prop := t = .integer ∨ t = .boolean

/-- A variable must be of a plain type. -/
def PlainVariable (s : Symbol) : Prop :=
  ∀ v, s.body = .variable v → ∃ t, v.type? = some t ∧ Plain t

/-- A name stands for a variable. -/
def HasVariable (t : SymbolTable) (x : String) : Prop :=
  ∃ s v, t.lookupSymbol? x = some s ∧ s.body = .variable v

/-- What holds all along while a structured program is read. -/
structure Ready (b : Build) : Prop where
  function : b.function = "global"
  routine? : b.routine? = none
  inClass? : b.inClass? = none
  symbols : ∀ id s, b.table.symbol? id = some s → PlainVariable s
  scopes : b.table.Numbered
  temps : TempsOk b
  places : b.storage.Apart
  loop : b.loops.Any → b.loop?.isSome

/-- The state stays ready, code and places are only added, and no temporary in use becomes free. -/
structure Onward (b b' : Build) : Prop where
  ready : Ready b → Ready b'
  quads : b.quads.toList <+: b'.quads.toList
  slots : ∀ x p, b.storage.slot? x = some p → b'.storage.slot? x = some p
  free : ∀ k, Free b' k → Free b k
  loop? : b'.loop? = b.loop?
  loops : b.loops.Kept b'.loops

variable {b b' c : Build} {o t : Operand} {u : Unit} {x : String}

/-- A step without code that keeps the names. -/
theorem Ready.silent (hr : Ready b) (h : Silent b c) (htemps : TempsOk c)
    (hplaces : c.storage.Apart) :
    Ready c where
  function := h.function.trans hr.function
  routine? := h.routine?.trans hr.routine?
  inClass? := h.inClass?.trans hr.inClass?
  symbols := h.table ▸ hr.symbols
  scopes := h.table ▸ hr.scopes
  temps := htemps
  places := hplaces
  loop := h.loops ▸ h.loop? ▸ hr.loop

namespace Onward

theorem refl (b : Build) : Onward b b :=
  ⟨id, List.prefix_rfl, fun _ _ h => h, fun _ h => h, rfl, .refl _⟩

theorem trans (h₁ : Onward b c) (h₂ : Onward c b') : Onward b b' where
  ready hr := h₂.ready (h₁.ready hr)
  quads := h₁.quads.trans h₂.quads
  slots x p h := h₂.slots x p (h₁.slots x p h)
  free k h := h₁.free k (h₂.free k h)
  loop? := h₂.loop?.trans h₁.loop?
  loops := h₁.loops.trans h₂.loops

theorem of_idle (h : Idle b c) : Onward b c where
  ready hr := hr.silent h.toSilent (h.temps hr.temps) (h.storage ▸ hr.places)
  quads := h.quads ▸ List.prefix_rfl
  slots _ _ hs := h.storage ▸ hs
  free := h.free
  loop? := h.loop?
  loops := .of_eq h.loops

end Onward

/-- The quadruples `qs` have been written, and nothing else has changed but the count of labels. -/
def Writes (qs : Array Quad) (b b' : Build) : Prop :=
  ∃ n, b' = { b with quads := b.quads ++ qs, labelCount := n }

namespace Writes

variable {qs : Array Quad} {d : Build}

theorem start (b : Build) : Writes #[] b b := ⟨b.labelCount, by rw [Array.append_empty]⟩

theorem label (h : Writes qs b d) (hlabel : Ends Emit.newLabel d o b') :
    Writes qs b b' ∧ ∃ k, o = .label k := by
  obtain ⟨n, rfl⟩ := h
  obtain ⟨rfl, rfl⟩ := Emit.ends_newLabel.mp hlabel
  exact ⟨⟨n + 1, rfl⟩, n, rfl⟩

theorem push (h : Writes qs b d) {q : Quad} (hquad : Ends (Emit.quad q) d u b') :
    Writes (qs.push q) b b' := by
  obtain ⟨n, rfl⟩ := h
  rw [Emit.ends_quad.mp hquad]
  exact ⟨n, by rw [Array.push_append]⟩

theorem onward (h : Writes qs b b') : Onward b b' := by
  obtain ⟨n, rfl⟩ := h
  refine { Onward.refl b with ready := fun hr =>
    { hr with temps := { hr.temps with } }, quads := ?_ }
  rw [Array.toList_append]
  exact List.prefix_append _ _

theorem errors (h : Writes qs b b') : b'.errors = b.errors := by
  obtain ⟨n, rfl⟩ := h
  rfl

theorem quads (h : Writes qs b b') : b'.quads = b.quads ++ qs := by
  obtain ⟨n, rfl⟩ := h
  rfl

theorem size (h : Writes qs b b') : b'.quads.size = b.quads.size + qs.size := by
  rw [h.quads, Array.size_append]

end Writes

theorem Onward.quad {q : Quad} (h : Ends (Emit.quad q) b u c) :
    Onward b c := ((Writes.start b).push h).onward

/-! ## Variables -/

theorem Ready.lookup (hr : Ready b) {s : Symbol} (h : b.table.lookupSymbol? x = some s) :
    PlainVariable s := by
  obtain ⟨id, _, hs⟩ := Option.bind_eq_some_iff.mp h
  exact hr.symbols id s hs

/-- Room for a global variable is made without code. -/
theorem allocGlobal_spec (hr : Ready b) {size : Int} (hsize : 0 < size)
    (h : Ends (Emit.allocate (·.allocGlobal x size)) b o b') :
    ∃ n : Nat, o = .address n ∧ b'.storage.slot? x = some (.address n) ∧ Onward b b' ∧ Silent b b' ∧
      b'.value = b.value := by
  have hsilent := Silent.allocate _ h
  obtain ⟨n, hslot, hplace, happart, hkeep⟩ := Storage.allocGlobal_spec hr.places x hsize
  obtain ⟨a, ha, rfl, rfl⟩ := Emit.allocate_ends h
  obtain rfl := Slot.address.inj (ha.symm.trans hslot)
  refine ⟨n, rfl, hplace,
    ⟨fun hr => ?_, List.prefix_rfl, hkeep, fun _ hk => hk, rfl, .refl _⟩, hsilent, rfl⟩
  exact hr.silent hsilent ⟨hr.temps.nodup, hr.temps.below⟩ happart

/-- A declared variable has an address from its first use on. -/
theorem place_spec (hr : Ready b) (hx : HasVariable b.table x)
    (h : Ends (Emit.place x) b o b') :
    ∃ n : Nat, o = .address n ∧ b'.storage.slot? x = some (.address n) ∧ Onward b b' ∧ Silent b b' ∧
      b'.value = b.value := by
  obtain ⟨s, v, hs, hbody⟩ := hx
  obtain ⟨t, htype, hplain⟩ := hr.lookup hs v hbody
  have hst : s.type? = some t := by
    unfold Symbol.type?
    rw [hbody]
    exact htype
  unfold Emit.place at h
  rw [ends_get_bind, hs] at h
  dsimp only at h
  rw [hst] at h
  split at h
  -- A variable of the main program.
  · obtain ⟨size, b₁, hsize, h⟩ := ends_bind.mp h
    obtain ⟨hsize, rfl⟩ := ends_ofExcept.mp hsize
    cases hsize
    rcases hplain with rfl | rfl
    · exact allocGlobal_spec hr (by decide) h
    · exact allocGlobal_spec hr (by decide) h
  -- One of a block, outside of functions: it gets an address as well.
  · have hglobal : (b.function != "global") = false := by
      rw [hr.function]
      rfl
    rw [hglobal] at h
    split at h
    · rename_i htrue
      cases htrue
    · obtain ⟨size, b₁, hsize, h⟩ := ends_bind.mp h
      obtain ⟨hsize, rfl⟩ := ends_ofExcept.mp hsize
      cases hsize
      exact allocGlobal_spec hr (by rcases hplain with rfl | rfl <;> decide) h

/-- A report is one too many. -/
theorem not_clean_of_error {line : Option Nat} {text : String}
    (h : Ends (Build.error line text) b u b') :
    b'.errors ≠ #[] := by
  rw [ends_modify.mp h]
  exact Array.push_ne_empty

/-- So is one with an answer behind it. -/
theorem not_clean_of_report {α : Type} {line : Option Nat} {text : String} {a a' : α} (h : Ends (do
      Build.error line text
      return a) b a' b') : b'.errors ≠ #[] := by
  obtain ⟨_, b₁, herror, hpure⟩ := ends_bind.mp h
  obtain ⟨_, rfl⟩ := ends_pure.mp hpure
  exact not_clean_of_error herror

/-- A declaration that is accepted makes its name known, and changes nothing but the names. -/
theorem declare_spec (hr : Ready b) {line scope : Nat} {v : Variable} {t : Ty}
    (htype : v.type? = some t) (hplain : Plain t) {p : SymbolId × Bool}
    (h : Ends (Compile.declare line ⟨x, scope, .variable v⟩) b p b') (hclean : b'.errors = #[]) :
    ∃ table, b' = { b with table := table } ∧ HasVariable table x ∧ Onward b b' := by
  rcases declare_cases h with ⟨table, hdeclare, -, rfl⟩ | ⟨_, _, -, -, rfl⟩
  · have htable := SymbolTable.declare_keep hdeclare
    have hsymbol := SymbolTable.symbol?_declare_keep hdeclare
    have hsymbols : ∀ id s, table.symbol? id = some s → PlainVariable s := by
      intro id s hs
      rw [hsymbol id] at hs
      split at hs
      · rw [← Option.some.inj hs]
        rintro _ ⟨rfl⟩
        exact ⟨t, htype, hplain⟩
      · exact hr.symbols id s hs
    have hcurrent : b.table.currentId < b.table.scopes.size := hr.scopes.opened _ (.head _)
    have hlookup := SymbolTable.lookup?_declare_keep hdeclare hcurrent
    refine ⟨table, rfl, ?_, ?_⟩
    · have hs := hsymbol b.table.symbols.size
      rw [if_pos rfl] at hs
      exact ⟨_, v, (congrArg (Option.bind · table.symbol?) hlookup).trans hs, rfl⟩
    · refine ⟨fun hr => ?_, List.prefix_rfl, fun _ _ hs => hs, fun _ hk => hk, rfl, .refl _⟩
      have hscopes := (hr.scopes.keep _).declare hdeclare
      exact { hr with symbols := hsymbols, scopes := hscopes, temps := { hr.temps with } }
  · exact absurd hclean Array.push_ne_empty

/-! ## Operands -/

/-- An operand with a value: a temporary that is in use, a variable or a constant. -/
def Held (b : Build) : Operand → Prop
  | .temp k => ¬ Free b k
  | .address _ => True
  | .text s => (Machine.constant? s).isSome
  | _ => False

theorem Held.onward (hv : Held b o) (h : Onward b c) : Held c o := by
  cases o with
  | temp k => exact fun hk => hv (h.free k hk)
  | address _ => trivial
  | text s => exact hv
  | _ => exact hv.elim

/-- A constant is not called like a temporary. -/
theorem isTempName_of_constant {s : String} (h : (Machine.constant? s).isSome) :
    (Operand.text s).isTempName = false := by
  unfold Machine.constant? at h
  split at h
  · rename_i hs
    subst hs
    decide +kernel
  split at h
  · rename_i hs
    subst hs
    decide +kernel
  · rw [Operand.isTempName]
    split
    · rename_i ds hds
      rw [hds] at h
      cases h
    · rfl

/-- Only temporaries in use are released. -/
theorem Held.isTempName (hv : Held b o) (h : o.isTempName = true) :
    ∃ k, o = .temp k ∧ k < tempCount b := by
  cases o with
  | temp k => exact ⟨k, rfl, Nat.lt_of_not_le fun hle => hv (.inr hle)⟩
  | text s =>
    rw [isTempName_of_constant hv] at h
    cases h
  | address _ => cases h
  | _ => exact hv.elim

/-- The value `v` has been copied to the address of `x`. -/
structure Stored (x : String) (v : Operand) (b b' : Build) : Prop where
  ready : Ready b'
  slots : ∀ y p, b.storage.slot? y = some p → b'.storage.slot? y = some p
  free : ∀ k, Free b' k → Free b k ∨ v = .temp k
  loop? : b'.loop? = b.loop?
  loops : b.loops.Kept b'.loops
  copied : ∃ n : Nat, b'.storage.slot? x = some (.address n) ∧
    b'.quads = b.quads.push { op := .copy, arg1 := v, result := .address n }

/-- A value is stored by a copy, and may then be given up. -/
theorem store_spec (hr : Ready b) (hx : HasVariable b.table x) {v a : Operand}
    (hv : Held b v) (hplace : Ends (Emit.place x) b a c) (hassign : Ends (Emit.assign a v) c o b') :
    Stored x v b b' := by
  obtain ⟨n, rfl, hslot, honward, hsilent, _⟩ := place_spec hr hx hplace
  have hrc := honward.ready hr
  have hvc := hv.onward honward
  unfold Emit.assign at hassign
  obtain ⟨isTemp, c₁, hask, hcopy⟩ := ends_bind.mp hassign
  obtain ⟨_, rfl⟩ := ends_ofExcept.mp hask
  obtain ⟨_, c₂, hquad, hrelease⟩ := ends_bind.mp hcopy
  have hcode := Onward.quad hquad
  obtain rfl := Emit.ends_quad.mp hquad
  dsimp only at hrelease
  split at hrelease
  · obtain ⟨_, c₃, hrelease, hpure⟩ := ends_bind.mp hrelease
    obtain ⟨_, rfl⟩ := ends_pure.mp hpure
    obtain ⟨hsilent', hstorage, hfree, htemps⟩ :=
      Emit.release_spec (hvc.onward hcode).isTempName hrelease
    have hrq := hcode.ready hrc
    refine ⟨hrq.silent hsilent' (htemps hrq.temps) (hstorage ▸ hrq.places),
      fun y p hy => ?_, fun k hk => ?_,
      ?_, ?_, n, ?_, ?_⟩
    · exact hstorage ▸ honward.slots y p hy
    · exact (hfree k hk).imp_left fun hk => honward.free k hk
    · exact hsilent'.loop?.trans honward.loop?
    · exact honward.loops.trans (.of_eq hsilent'.loops)
    · exact hstorage ▸ hslot
    · exact hsilent'.quads.trans (congrArg (Array.push · _) hsilent.quads)
  · obtain ⟨_, rfl⟩ := ends_pure.mp hrelease
    exact ⟨hcode.ready hrc, honward.slots, fun k hk => .inl (honward.free k hk), honward.loop?,
      honward.loops, n, hslot, congrArg (Array.push · _) hsilent.quads⟩

end Compile

end Scriptc
