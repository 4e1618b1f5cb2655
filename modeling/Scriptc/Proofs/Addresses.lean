import Scriptc.Proofs.Balance
import Scriptc.Proofs.Formed

/-!
# Scriptc: addresses of variables

A variable that is not kept in a frame has an address, and addresses are kept by name. So two
declarations of one name have one address, whatever their scopes are; and two names have different
ones (`same_address_iff_same_name`), on two conditions that hold of the state at the end:

* no name that has an address is declared with a type that takes no room (`Build.Roomy`), and
* the variables have not grown into the region of arrays and objects.

`Storage.Separate` is what the allocation of addresses keeps. Reading any part of a program keeps it
as long as the conditions hold: `Placed.stable`.
-/

namespace Scriptc

open Build (Ends Keeps ends_bind ends_get_bind ends_modify ends_modify_bind ends_pure ends_throw)
variable {x : String} {s : Symbol} {size : Int} {b b' : Build}

/-! ## Storage -/

namespace Storage

variable {count : Int}

/-- A name as variables have it; the places of variables of functions are kept under names with
colons. -/
def Plain (x : String) : Prop := ':' ∉ x.toList

instance (x : String) : Decidable (Plain x) := inferInstanceAs (Decidable (¬ _))

theorem Plain.ne_localKey (h : Plain x) (function name : String) :
    x ≠ localKey function name := by
  rintro rfl
  refine h ?_
  rw [localKey, String.toList_append, String.toList_append]
  simp

/-- The last separator divides a text in one way. -/
theorem split_inj {c : Char} {xs ys as bs : List Char} (hx : c ∉ xs) (hy : c ∉ ys)
    (h : as ++ c :: xs = bs ++ c :: ys) :
    as = bs ∧ xs = ys := by
  have htake {us vs : List Char} (hu : c ∉ us) :
    (vs ++ c :: us).reverse.takeWhile (· ≠ c) = us.reverse := by
    rw [List.reverse_append, List.reverse_cons, List.append_assoc, List.takeWhile_append_of_pos]
    · simp
    · grind
  have hxy : xs = ys := by
    grind
  rw [hxy] at h
  exact ⟨List.append_cancel_right h, hxy⟩

/-- Where arrays and objects begin. -/
def heapStart : Int := 0x8000

/-- Variables are below the next free address of their region, and no two names share one. -/
structure Separate (s : Storage) : Prop where
  heap : heapStart ≤ s.nextHeap
  within : ∀ x a, Plain x → s.slot? x = some (.address a) →
    a < s.nextGlobal ∨ heapStart ≤ a ∧ a < s.nextHeap
  inj : ∀ x y a, Plain x → Plain y → s.slot? x = some (.address a) →
    s.slot? y = some (.address a) → x = y

variable {s : Storage} {x : String} {a size heap global : Int}

theorem slot?_put_of_ne {y : String} {p : Slot} {stack : Int} (h : y ≠ x) :
    slot? ⟨global, heap, stack, s.slots.put x p⟩ y = s.slot? y :=
  Assoc.get?_put_of_ne _ _ h

/-- A name that has no place gets one, and every other place stays. -/
theorem slot?_put {p : Slot} {stack : Int} (hnone : s.slot? x = none) :
    slot? ⟨global, heap, stack, s.slots.put x p⟩ x = some p ∧
      ∀ y q, s.slot? y = some q → slot? ⟨global, heap, stack, s.slots.put x p⟩ y = some q := by
  refine ⟨Assoc.get?_put_self _ _ _, fun y q hy => ?_⟩
  rw [slot?_put_of_ne]
  · exact hy
  · rintro rfl
    rw [hnone] at hy
    cases hy

theorem slot?_allocGlobal : (s.allocGlobal x size).2.slot? x = some (s.allocGlobal x size).1 ∧
    ∀ y p, s.slot? y = some p → (s.allocGlobal x size).2.slot? y = some p := by
  unfold allocGlobal
  split
  · exact ⟨‹_›, fun _ _ hy => hy⟩
  · exact slot?_put ‹_›

theorem slot?_allocArray :
    (s.allocArray x count size).2.slot? x = some (s.allocArray x count size).1 ∧
    ∀ y p, s.slot? y = some p → (s.allocArray x count size).2.slot? y = some p := by
  unfold allocArray
  split
  · exact ⟨‹_›, fun _ _ hy => hy⟩
  · exact slot?_put ‹_›

/-- A block at the end of the variables or of the heap. -/
def AtEnd (s : Storage) (a size global heap : Int) : Prop :=
  a = align s.nextGlobal ∧ global = a + size ∧ heap = s.nextHeap ∨
    a = align s.nextHeap ∧ heap = a + size ∧ global = s.nextGlobal

/-- A name that has no place gets an address that no other name has. -/
theorem Separate.put (h : s.Separate) (hend : s.AtEnd a size global heap) (hsize : 0 ≤ size)
    (hroom : Plain x → size ≠ 0) (hbelow : global ≤ heapStart) :
    Separate { s with nextGlobal := global, nextHeap := heap, slots := s.slots.put x (.address a) }
      := by
  have hself : slot? ⟨global, heap, s.nextStack, s.slots.put x (.address a)⟩ x =
    some (.address a) :=
    Assoc.get?_put_self _ _ _
  have hglobal := le_align s.nextGlobal
  have hnext := le_align s.nextHeap
  have hheap := h.heap
  unfold AtEnd at hend
  have hnew (hx : Plain x) (y : String) (a' : Int) (hy : Plain y)
    (hslot : s.slot? y = some (.address a')) : a' ≠ a := by
    have := h.within y a' hy hslot
    have := hroom hx
    omega
  have hheap : heapStart ≤ heap := by omega
  refine ⟨hheap, fun y a' hy hslot => ?_, fun y z a' hy hz hslot hslot' => ?_⟩
  · show a' < global ∨ heapStart ≤ a' ∧ a' < heap
    by_cases hyx : y = x
    · grind
    · rw [slot?_put_of_ne hyx] at hslot
      have := h.within y a' hy hslot
      omega
  · by_cases hyx : y = x <;> by_cases hzx : z = x
    · exact hyx.trans hzx.symm
    · subst hyx
      obtain rfl : a = a' := Slot.address.inj (Option.some.inj (hself.symm.trans hslot))
      rw [slot?_put_of_ne hzx] at hslot'
      exact absurd rfl (hnew hy z a hz hslot')
    · subst hzx
      obtain rfl : a = a' := Slot.address.inj (Option.some.inj (hself.symm.trans hslot'))
      rw [slot?_put_of_ne hyx] at hslot
      exact absurd rfl (hnew hz y a hy hslot)
    · rw [slot?_put_of_ne hyx] at hslot
      rw [slot?_put_of_ne hzx] at hslot'
      exact h.inj y z a' hy hz hslot hslot'

theorem nextGlobal_allocGlobal (hsize : 0 ≤ size) :
    s.nextGlobal ≤ (s.allocGlobal x size).2.nextGlobal := by
  unfold allocGlobal
  split
  · exact Int.le_refl _
  · exact Int.le_trans (le_align _) (Int.le_add_of_nonneg_right hsize)

theorem Separate.allocGlobal (h : s.Separate) (hsize : 0 ≤ size) (hroom : Plain x → size ≠ 0)
    (hbelow : (s.allocGlobal x size).2.nextGlobal ≤ heapStart) :
    (s.allocGlobal x size).2.Separate := by
  unfold Storage.allocGlobal at hbelow ⊢
  split
  · exact h
  · rename_i hnone
    rw [hnone] at hbelow
    exact h.put (.inl ⟨rfl, rfl, rfl⟩) hsize hroom hbelow

theorem Separate.allocArray (h : s.Separate) (hsize : 0 ≤ count * size)
    (hroom : Plain x → count * size ≠ 0) (hbelow : s.nextGlobal ≤ heapStart) :
    (s.allocArray x count size).2.Separate := by
  unfold Storage.allocArray
  split
  · exact h
  · exact h.put (.inr ⟨rfl, rfl, rfl⟩) hsize hroom hbelow

theorem nextHeap_allocArray (hsize : 0 ≤ count * size) :
    s.nextHeap ≤ (s.allocArray x count size).2.nextHeap := by
  unfold allocArray
  split
  · exact Int.le_refl _
  · exact Int.le_trans (le_align _) (Int.le_add_of_nonneg_right hsize)

theorem Separate.allocHeap (h : s.Separate) (hsize : 0 ≤ size) : (s.allocHeap size).2.Separate := by
  have halign := le_align s.nextHeap
  have hheap := h.heap
  refine ⟨?_, fun x a hx hslot => ?_, h.inj⟩
  · show heapStart ≤ align s.nextHeap + size
    omega
  · have := h.within x a hx hslot
    show a < s.nextGlobal ∨ heapStart ≤ a ∧ a < align s.nextHeap + size
    omega

end Storage

/-- What a table says of a key, every longer one says. -/
theorem Assoc.get?_of_prefix {κ ν : Type} [DecidableEq κ] {t t' : Assoc κ ν} {x : κ} {v : ν}
    (h : t <+: t') (hx : t.get? x = some v) : t'.get? x = some v := by
  obtain ⟨rest, rfl⟩ := h
  induction t with
  | nil => cases hx
  | cons e t ih =>
    obtain ⟨k, w⟩ := e
    rw [List.cons_append, Assoc.get?]
    rw [Assoc.get?] at hx
    grind

/-! ## Types that take room -/

/-- Types are known by name: the type of a variable that waits for one is that of null. -/
theorem Ty.size_of_beq_null {t : Ty} (h : (some t == some Ty.null) = true) : t.size = 4 := by
  have hname : (t.name == "null") = true := h
  have h : t.name = "null" := eq_of_beq hname
  cases t with
  | null => rfl
  | named n =>
    obtain rfl : n = "null" := h
    rfl
  | array e dims =>
    have hlist := congrArg String.toList h
    rw [Ty.name, String.toList_append, String.toList_append] at hlist
    cases (List.cons.inj hlist).1
  | _ => cases (String.toList_inj.mpr h : _)

theorem Symbol.size_of_awaitsType {t : Ty} (h : s.awaitsType = true)
    (ht : s.type? = some t) : t.size = 4 := by
  have hnull := (Bool.and_eq_true_iff.mp h).2
  rw [ht] at hnull
  exact Ty.size_of_beq_null hnull

namespace Build

variable {b c d : Build} {x : String} {s : Symbol}

/-- The name is declared in some scope, open or not. -/
def Declares (b : Build) (x : String) (s : Symbol) : Prop :=
  ∃ (i : Nat) (sc : Scope) (id : SymbolId), b.table.scopes[i]? = some sc ∧
    sc.entries.get? x = some id ∧
    b.table.symbol? id = some s

theorem declares_of_lookup (h : b.table.lookupSymbol? x = some s) : b.Declares x s := by
  obtain ⟨id, hid, hs⟩ := Option.bind_eq_some_iff.mp h
  obtain ⟨i, -, hi⟩ := List.exists_of_findSome?_eq_some hid
  obtain ⟨sc, hsc, hentry⟩ := Option.bind_eq_some_iff.mp hi
  exact ⟨i, sc, id, hsc, hentry, hs⟩

/-- No type takes less than no room. -/
def TypesFit (b : Build) : Prop :=
  ∀ id s t, b.table.symbol? id = some s → s.type? = some t → 0 ≤ t.size

/-- No object takes less than no room. -/
def LayoutsFit (b : Build) : Prop := ∀ cls l, b.layouts.get? cls = some l → 0 ≤ l.size

/-- Types take room, and a name that has a place is not declared with a type that takes none. -/
structure Roomy (b : Build) : Prop where
  sizes : b.TypesFit
  placed : ∀ x s t, b.Declares x s → Storage.Plain x →
    (b.storage.slot? x).isSome → s.type? = some t →
    t.size ≠ 0

/-- Addresses are apart, and objects take room. -/
structure Settled (b : Build) : Prop where
  separate : b.storage.Separate
  layouts : b.LayoutsFit

theorem settled_start : Settled {} := ⟨⟨by decide, nofun, nofun⟩, nofun⟩

end Build

open Build (Declares LayoutsFit Roomy Settled TypesFit)

namespace Compile

variable {o : Operand} {n : Nat}

/-- A symbol has the type that it had, unless that takes a word anyway. -/
def SameRoom (s s' : Symbol) : Prop := s'.type? = s.type? ∨ ∀ t, s.type? = some t → t.size = 4

theorem SameRoom.trans {s' s'' : Symbol} (h₁ : SameRoom s s') (h₂ : SameRoom s' s'') :
    SameRoom s s'' := by
  rcases h₁ with h₁ | h₁
  · exact h₂.imp (·.trans h₁) fun h t ht => h t (h₁.trans ht)
  · exact .inr h₁

/-- Names keep their places, symbols their types and classes their layouts. If in the end no type
takes less than no room, objects only go behind those there are; if every type takes room, so do
variables, and addresses that were apart still are. -/
structure Placed (b b' : Build) : Prop where
  symbols : ∀ id s, b.table.symbol? id = some s → ∃ s',
    b'.table.symbol? id = some s' ∧ SameRoom s s'
  declares : ∀ x s, b.Declares x s → ∃ s', b'.Declares x s' ∧ SameRoom s s'
  slots : ∀ x p, Storage.Plain x → b.storage.slot? x = some p → b'.storage.slot? x = some p
  layouts : ∀ cls l, b.layouts.get? cls = some l → b'.layouts.get? cls = some l
  heap : b'.TypesFit → b.LayoutsFit → b'.LayoutsFit ∧ b.storage.nextHeap ≤ b'.storage.nextHeap
  settled : b'.Roomy → b.storage.nextGlobal ≤ b'.storage.nextGlobal ∧
    (b'.storage.nextGlobal ≤ Storage.heapStart → b.Settled → b'.Settled)

namespace Placed

variable {b c d : Build}

/-- If types take no less than no room in the end, so it was before. -/
theorem typesFit (h : Placed b c) (hc : c.TypesFit) : b.TypesFit := by
  intro id s t hs ht
  obtain ⟨s', hs', hsame | hword⟩ := h.symbols id s hs
  · exact hc id s' t hs' (hsame.trans ht)
  · rw [hword t ht]
    decide

/-- If every type takes room in the end, so it was before. -/
theorem roomy (h : Placed b c) (hc : c.Roomy) : b.Roomy := by
  refine ⟨h.typesFit hc.sizes, fun x s t hs hx hslot ht => ?_⟩
  · obtain ⟨p, hp⟩ := Option.isSome_iff_exists.mp hslot
    obtain ⟨s', hs', hsame | hword⟩ := h.declares x s hs
    · exact hc.placed x s' t hs' hx (by rw [h.slots x p hx hp]; rfl) (hsame.trans ht)
    · rw [hword t ht]
      decide

theorem trans (h₁ : Placed b c) (h₂ : Placed c d) : Placed b d where
  symbols id s hs := by
    obtain ⟨s', hs', hsame⟩ := h₁.symbols id s hs
    obtain ⟨s'', hs'', hsame'⟩ := h₂.symbols id s' hs'
    exact ⟨s'', hs'', hsame.trans hsame'⟩
  declares x s hs := by
    obtain ⟨s', hs', hsame⟩ := h₁.declares x s hs
    obtain ⟨s'', hs'', hsame'⟩ := h₂.declares x s' hs'
    exact ⟨s'', hs'', hsame.trans hsame'⟩
  slots x p hx hp := h₂.slots x p hx (h₁.slots x p hx hp)
  layouts cls l hl := h₂.layouts cls l (h₁.layouts cls l hl)
  heap hd hb := by
    obtain ⟨hc, hle₁⟩ := h₁.heap (h₂.typesFit hd) hb
    obtain ⟨hd, hle₂⟩ := h₂.heap hd hc
    exact ⟨hd, Int.le_trans hle₁ hle₂⟩
  settled hd := by
    obtain ⟨hle₂, hset₂⟩ := h₂.settled hd
    obtain ⟨hle₁, hset₁⟩ := h₁.settled (h₂.roomy hd)
    exact ⟨Int.le_trans hle₁ hle₂,
      fun hbelow hb => hset₂ hbelow (hset₁ (Int.le_trans hle₂ hbelow) hb)⟩

/-- A step that leaves the names alone. -/
theorem of_table (table : c.table = b.table)
    (slots : ∀ x p, Storage.Plain x → b.storage.slot? x = some p → c.storage.slot? x = some p)
    (layouts : ∀ cls l, b.layouts.get? cls = some l → c.layouts.get? cls = some l)
    (heap : c.TypesFit → b.LayoutsFit → c.LayoutsFit ∧ b.storage.nextHeap ≤ c.storage.nextHeap)
    (settled : c.Roomy → b.storage.nextGlobal ≤ c.storage.nextGlobal ∧
      (c.storage.nextGlobal ≤ Storage.heapStart → b.Settled → c.Settled)) : Placed b c where
  symbols _ s hs := ⟨s, table ▸ hs, .inl rfl⟩
  declares x s hs := ⟨s, by unfold Build.Declares at hs ⊢; rwa [table], .inl rfl⟩
  slots := slots
  layouts := layouts
  heap := heap
  settled := settled

theorem heap_of_same (storage : c.storage = b.storage) (layouts : c.layouts = b.layouts)
    (hb : b.LayoutsFit) :
    c.LayoutsFit ∧ b.storage.nextHeap ≤ c.storage.nextHeap := by
  unfold LayoutsFit
  rw [storage, layouts]
  exact ⟨hb, Int.le_refl _⟩

theorem settled_of_same (storage : c.storage = b.storage) (layouts : c.layouts = b.layouts) :
    b.storage.nextGlobal ≤ c.storage.nextGlobal ∧
      (c.storage.nextGlobal ≤ Storage.heapStart → b.Settled → c.Settled) := by
  refine ⟨Int.le_of_eq (by rw [storage]), fun _ hb => ⟨storage ▸ hb.separate, ?_⟩⟩
  exact (heap_of_same storage layouts hb.layouts).1

theorem same (table : c.table = b.table) (storage : c.storage = b.storage)
    (layouts : c.layouts = b.layouts) : Placed b c :=
  of_table table (fun _ _ _ hp => storage ▸ hp) (fun _ _ hl => layouts ▸ hl)
    (fun _ => heap_of_same storage layouts) fun _ => settled_of_same storage layouts

theorem refl (b : Build) : Placed b b := same rfl rfl rfl

/-- A step that leaves storage alone and only adds to scopes and symbols. -/
theorem of_scopes
    (scopes : ∀ (i : Nat) (sc : Scope), b.table.scopes[i]? = some sc →
      ∃ sc', c.table.scopes[i]? = some sc' ∧ sc.Extends sc')
    (symbols : ∀ id s, b.table.symbol? id = some s → ∃ s',
      c.table.symbol? id = some s' ∧ SameRoom s s')
    (storage : c.storage = b.storage) (layouts : c.layouts = b.layouts) : Placed b c where
  symbols := symbols
  declares x s hs := by
    obtain ⟨i, sc, id, hsc, hentry, hs⟩ := hs
    obtain ⟨sc', hsc', hext⟩ := scopes i sc hsc
    obtain ⟨s', hs', hsame⟩ := symbols id s hs
    exact ⟨s', ⟨i, sc', id, hsc', Assoc.get?_of_prefix hext.entries hentry, hs'⟩, hsame⟩
  slots _ _ _ hp := storage ▸ hp
  layouts _ _ hl := layouts ▸ hl
  heap _ := heap_of_same storage layouts
  settled _ := settled_of_same storage layouts

theorem of_kept {allow : Use → Prop} (h : Kept allow b c) (storage : c.storage = b.storage)
    (layouts : c.layouts = b.layouts) : Placed b c := by
  refine of_scopes h.scopes (fun id s hs => ?_) storage layouts
  obtain ⟨s', hs', -⟩ := h.symbols id s hs
  refine ⟨s', hs', (h.types id s s' hs hs').imp_right fun hnew t ht => ?_⟩
  exact Symbol.size_of_awaitsType hnew.1 ht

/-- A step between two others. -/
theorem around {e : Build} (h : Placed c d) (hopen : Placed b c) (hclose : Placed d e) :
    Placed b e :=
  (hopen.trans h).trans hclose

theorem enter (kind : String) : Placed b { b with table := b.table.enter kind } :=
  of_scopes (Build.Grown.enter b kind).scopes (fun _ s hs => ⟨s, hs, .inl rfl⟩) rfl rfl

theorem exit : Placed b { b with table := b.table.exit.2 } := by
  have hexit : b.table.exit.2.scopes = b.table.scopes ∧
    b.table.exit.2.symbols = b.table.symbols := by
    unfold SymbolTable.exit
    split <;> exact ⟨rfl, rfl⟩
  refine of_scopes (fun i sc hsc => ⟨sc, ?_, .refl sc⟩) (fun id s hs => ⟨s, ?_, .inl rfl⟩) rfl rfl
  · rw [hexit.1]
    exact hsc
  · unfold SymbolTable.symbol? at hs ⊢
    rw [hexit.2]
    exact hs

/-! ### Steps that give places -/

theorem type_of_sizeOf? (h : Ty.sizeOf? s.type? = .ok size) :
    ∃ t, s.type? = some t ∧ t.size = size := by
  cases ht : s.type? with
  | none =>
    rw [ht] at h
    cases h
  | some t =>
    rw [ht] at h
    exact ⟨t, rfl, Except.ok.inj h⟩

theorem size_of_lookup (hs : b.table.lookupSymbol? x = some s)
    (hsize : Ty.sizeOf? s.type? = .ok size) (hb : b.TypesFit) : 0 ≤ size := by
  obtain ⟨id, -, hid⟩ := Option.bind_eq_some_iff.mp hs
  obtain ⟨t, ht, rfl⟩ := type_of_sizeOf? hsize
  exact hb id s t hid ht

/-- The type of a symbol that is looked up says how much room it takes. -/
theorem room_of_lookup (hs : b.table.lookupSymbol? x = some s)
    (hsize : Ty.sizeOf? s.type? = .ok size) (hc : c.Roomy) (htable : c.table = b.table) {p : Slot}
    (hslot : c.storage.slot? x = some p) : 0 ≤ size ∧ (Storage.Plain x → size ≠ 0) := by
  rw [← htable] at hs
  refine ⟨size_of_lookup hs hsize hc.sizes, fun hx => ?_⟩
  obtain ⟨t, ht, rfl⟩ := type_of_sizeOf? hsize
  exact hc.placed x s t (Build.declares_of_lookup hs) hx (by rw [hslot]; rfl) ht

theorem allocGlobal
    (hs : b.table.lookupSymbol? x = some s) (hsize : Ty.sizeOf? s.type? = .ok size)
    (hend : Ends (Emit.allocate (·.allocGlobal x size)) b o c) : Placed b c := by
  obtain ⟨a, -, -, rfl⟩ := Emit.allocate_ends hend
  have hheap : (b.storage.allocGlobal x size).2.nextHeap = b.storage.nextHeap := by
    unfold Storage.allocGlobal
    split <;> rfl
  refine of_table rfl (fun y p _ hp => Storage.slot?_allocGlobal.2 y p hp) (fun _ _ hl => hl)
    (fun _ hb => ⟨hb, Int.le_of_eq hheap.symm⟩) fun hroomy => ?_
  obtain ⟨hle, hne⟩ := room_of_lookup hs hsize hroomy rfl Storage.slot?_allocGlobal.1
  exact ⟨Storage.nextGlobal_allocGlobal hle, fun hbelow hb =>
    ⟨hb.separate.allocGlobal hle hne hbelow, hb.layouts⟩⟩

theorem allocArray
    (hs : b.table.lookupSymbol? x = some s) (hsize : Ty.sizeOf? s.type? = .ok size)
    (hend : Ends (Emit.allocate (·.allocArray x Emit.arrayCapacity size)) b o c) : Placed b c := by
  obtain ⟨a, -, -, rfl⟩ := Emit.allocate_ends hend
  refine of_table rfl (fun y p _ hp => Storage.slot?_allocArray.2 y p hp) (fun _ _ hl => hl)
    (fun hfit hb => ⟨hb, ?_⟩)
    fun hroomy => ?_
  · have hle := size_of_lookup hs hsize hfit
    refine Storage.nextHeap_allocArray ?_
    unfold Emit.arrayCapacity
    omega
  obtain ⟨hle, hne⟩ := room_of_lookup hs hsize hroomy rfl Storage.slot?_allocArray.1
  have hnext : (b.storage.allocArray x Emit.arrayCapacity size).2.nextGlobal =
    b.storage.nextGlobal := by
    unfold Storage.allocArray
    split <;> rfl
  refine ⟨Int.le_of_eq hnext.symm, fun hbelow hb => ⟨?_, hb.layouts⟩⟩
  refine hb.separate.allocArray ?_ (fun hx => ?_) (hnext ▸ hbelow)
  · unfold Emit.arrayCapacity
    omega
  · have := hne hx
    unfold Emit.arrayCapacity
    omega

/-- A place in a frame is kept under a name that no variable has. -/
theorem frameSlot (id : FrameId) (x : String) (type? : Option Ty) :
    Keeps Placed (Emit.frameSlot id x type?) := by
  intro b o c hend
  rcases Emit.frameSlot_ends hend with ⟨n, -, -, rfl⟩ | ⟨-, function, slot, -, rfl⟩
  · exact refl _
  · have hslots : ∀ y, Storage.Plain y → Storage.slot? { b.storage with
        slots := b.storage.slots.put (Storage.localKey function x) slot } y = b.storage.slot? y :=
      fun y hy => Storage.slot?_put_of_ne (hy.ne_localKey function x)
    refine of_table rfl (fun y p hy hp => (hslots y hy).trans hp) (fun _ _ hl => hl)
      (fun _ hb => ⟨hb, Int.le_refl _⟩) fun _ => ⟨Int.le_refl _, fun _ hb => ?_⟩
    refine ⟨⟨hb.separate.heap, fun y a hy ha => ?_, fun y z a hy hz ha ha' => ?_⟩, hb.layouts⟩
    · exact hb.separate.within y a hy ((hslots y hy).symm.trans ha)
    · exact hb.separate.inj y z a hy hz ((hslots y hy).symm.trans ha) ((hslots z hz).symm.trans ha')

/-- A class without a layout gets one without fields when an object of it is made. -/
theorem newObject_layouts {cls cls' : String} {l : Layout}
    (h : (if b.layouts.contains cls then b.layouts else b.layouts.put cls {}).get? cls' = some l) :
    b.layouts.get? cls' = some l ∨ l = {} := by
  split at h
  · exact .inl h
  · by_cases heq : cls' = cls
    · rw [heq, Assoc.get?_put_self] at h
      exact .inr (Option.some.inj h).symm
    · rw [Assoc.get?_put_of_ne _ _ heq] at h
      exact .inl h

theorem layoutSize_nonneg (hb : b.LayoutsFit) (cls : String) :
    0 ≤ ((b.layouts.get? cls).getD {}).size := by
  cases hl : b.layouts.get? cls with
  | none => exact Int.le_refl _
  | some l => exact hb cls l hl

theorem newObject (cls : String) : Keeps Placed (Emit.newObject cls) := by
  intro b o c hend
  obtain ⟨htable, hstorage, hlayouts, -⟩ := Emit.newObject_storage hend
  have hfit : b.LayoutsFit → c.LayoutsFit := fun hb cls' l hl => by
    rw [hlayouts] at hl
    rcases newObject_layouts hl with hl | rfl
    · exact hb cls' l hl
    · exact Int.le_refl _
  refine of_table htable (fun y p _ hp => by rw [hstorage]; exact hp) (fun cls' l hl => ?_)
    (fun _ hb => ⟨hfit hb, ?_⟩) fun _ =>
    ⟨Int.le_of_eq (by rw [hstorage]; rfl), fun _ hb => ⟨?_, hfit hb.layouts⟩⟩
  · rw [hlayouts]
    split
    · exact hl
    · rename_i hnone
      rw [Assoc.get?_put_of_ne]
      · exact hl
      · rintro rfl
        rw [Assoc.contains, hl] at hnone
        exact absurd rfl hnone
  · rw [hstorage]
    exact Int.le_trans (Storage.le_align _) (Int.le_add_of_nonneg_right (layoutSize_nonneg hb cls))
  · rw [hstorage]
    exact hb.separate.allocHeap (layoutSize_nonneg hb.layouts cls)

/-! ### Layouts -/

theorem extend_size {l : Layout} (hl : 0 ≤ l.size) {own : List (String × Option Ty)}
    (hown : ∀ f ∈ own, ∀ t, f.2 = some t → 0 ≤ t.size) : 0 ≤ (l.extend own).size := by
  have hfields : ∀ l : Layout, 0 ≤ l.size →
      0 ≤ (own.foldl (fun l f => l.addField f.1 f.2) l).size := by
    induction own with
    | nil => exact fun l hl => hl
    | cons f own ih =>
      intro l hl
      refine ih (fun f hf => hown f (.tail _ hf)) _ ?_
      have hfield : 0 ≤ Layout.fieldSize f.2 := by
        unfold Layout.fieldSize
        cases ht : f.2 with
        | none => decide
        | some t => exact hown f (.head _) t ht
      have halign := Storage.le_align l.size
      show 0 ≤ Storage.align l.size + Layout.fieldSize f.2
      omega
  exact hfields _ (Int.le_trans hl (Storage.le_align _))

/-- Making the layout of a class changes layouts only, and none that there are. If types take no
less than no room, neither do objects. -/
structure LaysOut (b : Build) (l? : Option Layout) (c : Build) : Prop where
  eq : c = { b with layouts := c.layouts }
  kept : ∀ cls l, b.layouts.get? cls = some l → c.layouts.get? cls = some l
  fits : b.TypesFit → b.LayoutsFit → c.LayoutsFit ∧ ∀ l, l? = some l → 0 ≤ l.size

theorem LaysOut.none (b : Build) :
    LaysOut b none b := ⟨rfl, fun _ _ hl => hl, fun _ hlayouts => ⟨hlayouts, nofun⟩⟩

/-- The layout of a class is written once that of its parent is known. -/
theorem LaysOut.put {b₁ : Build} {cls : String} {attributes : Assoc String SymbolId}
    {parent? l? : Option Layout}
    (hparent : LaysOut b parent? b₁) (hnone : b.layouts.get? cls = .none)
    (h : Ends (do
      let table := (← get).table
      let own := attributes.map fun (n, a) => (n, (table.symbol? a).bind Symbol.type?)
      let l := (parent?.getD {}).extend own
      modify fun b => { b with layouts := b.layouts.put cls l }
      return some l : BuildM (Option Layout)) b₁ l? c) : LaysOut b l? c := by
  rw [ends_get_bind] at h
  dsimp only at h
  rw [ends_modify_bind, ends_pure] at h
  obtain ⟨rfl, rfl⟩ := h
  refine ⟨by rw [hparent.eq], fun cls' l hl => ?_, fun htypes hlayouts => ?_⟩
  · refine (Assoc.get?_put_of_ne _ _ ?_).trans (hparent.kept cls' l hl)
    rintro rfl
    cases hnone.symm.trans hl
  obtain ⟨hlayouts, hsize⟩ := hparent.fits htypes hlayouts
  have hnew : 0 ≤ ((parent?.getD {}).extend
      (attributes.map fun (n, a) => (n, (b₁.table.symbol? a).bind Symbol.type?))).size := by
    refine extend_size ?_ fun f hf t ht => ?_
    · cases parent? with
      | none => exact Int.le_refl _
      | some l => exact hsize l rfl
    · obtain ⟨⟨n, a⟩, -, rfl⟩ := List.mem_map.mp hf
      obtain ⟨s, hs, ht⟩ := Option.bind_eq_some_iff.mp ht
      rw [hparent.eq] at hs
      exact htypes a s t hs ht
  refine ⟨fun cls' l hl => ?_, fun l hl => Option.some.inj hl ▸ hnew⟩
  by_cases heq : cls' = cls
  · rw [heq, Assoc.get?_put_self] at hl
    exact Option.some.inj hl ▸ hnew
  · rw [Assoc.get?_put_of_ne _ _ heq] at hl
    exact hlayouts cls' l hl

theorem laysOut_layout (id : SymbolId) {l? : Option Layout} (h : Ends (Emit.layout id) b l? c) :
    LaysOut b l? c := by
  induction id using Nat.strongRecOn generalizing b c l? with
  | ind id ih =>
    rw [Emit.layout, ends_get_bind] at h
    split at h
    · obtain ⟨rfl, rfl⟩ := ends_pure.mp h
      exact .none _
    · split at h
      · obtain ⟨rfl, rfl⟩ := ends_pure.mp h
        exact .none _
      · rw [ends_get_bind] at h
        split at h
        · rename_i l hl
          obtain ⟨rfl, rfl⟩ := ends_pure.mp h
          exact { LaysOut.none _ with
            fits := fun _ hlayouts =>
              ⟨hlayouts, fun l' hl' => Option.some.inj hl' ▸ hlayouts _ l hl⟩ }
        · rename_i hnone
          split at h
          · exact absurd h ends_throw
          · -- The parent comes first, if the class has one that was declared before it.
            split at h
            · obtain ⟨_, _, hparent, h⟩ := ends_bind.mp h
              obtain ⟨rfl, rfl⟩ := ends_pure.mp hparent
              exact .put (.none _) hnone h
            · split at h
              · obtain ⟨parent?, b₁, hparent, h⟩ := ends_bind.mp h
                exact .put (ih _ ‹_› hparent) hnone h
              · obtain ⟨_, _, hparent, h⟩ := ends_bind.mp h
                obtain ⟨rfl, rfl⟩ := ends_pure.mp hparent
                exact .put (.none _) hnone h

theorem layout (id : SymbolId) : Keeps Placed (Emit.layout id) := by
  intro b l? c hend
  obtain ⟨hc, hkept, hfits⟩ := laysOut_layout id hend
  have htable : c.table = b.table := by rw [hc]
  have hstorage : c.storage = b.storage := by rw [hc]
  have htypes : c.TypesFit → b.TypesFit := by
    intro hfit id s t hs
    exact hfit id s t (htable ▸ hs)
  refine of_table htable (fun _ _ _ hp => hstorage ▸ hp) hkept
    (fun hfit hb => ⟨(hfits (htypes hfit) hb).1, Int.le_of_eq (by rw [hstorage])⟩) fun hroomy => ?_
  refine ⟨Int.le_of_eq (by rw [hstorage]), fun _ hb => ⟨hstorage ▸ hb.separate, ?_⟩⟩
  exact (hfits (htypes hroomy.sizes) hb.layouts).1

/-! ### All other steps -/

theorem newTemp : Keeps Placed Emit.newTemp := by
  intro b t c hend
  obtain ⟨counts, rest, rfl, -, -⟩ := Emit.newTemp_ends hend
  exact same rfl rfl rfl

theorem quad (q : Quad) : Keeps Placed (Emit.quad q) := Keeps.modify fun _ => same rfl rfl rfl

theorem stringLabel (literal : String) : Keeps Placed (Emit.stringLabel literal) := by
  intro b l c hend
  rcases Emit.stringLabel_ends hend with ⟨-, rfl⟩ | ⟨-, rfl⟩
  · exact refl _
  · exact same rfl rfl rfl

theorem newFrame (function : String) : Keeps Placed (Emit.newFrame function) := by
  intro b id c hend
  obtain ⟨-, rfl⟩ := Emit.ends_newFrame.mp hend
  exact same rfl rfl rfl

theorem flow : Flow (Since Placed) :=
  .of_same trans (fun htable hstorage hlayouts _ _ => same htable hstorage hlayouts)
    fun _ _ => same rfl rfl rfl

theorem exprStable : ExprStable (fun _ => True) Placed where
  refl := refl
  trans _ _ _ := trans
  error _ _ := Keeps.modify fun _ => same rfl rfl rfl
  say _ := Keeps.modify fun _ => same rfl rfl rfl
  newTemp := newTemp
  use o := Keeps.modify fun b => by split <;> exact same rfl rfl rfl
  release o := Keeps.modify fun b => by split <;> exact same rfl rfl rfl
  setValue _ := Keeps.modify fun _ => same rfl rfl rfl
  setLastTemp _ := Keeps.modify fun _ => same rfl rfl rfl
  quad q _ := quad q
  stack q _ := quad q
  operator _ _ _ _ _ _ := quad _
  shortCircuit _ constant left right htest := fun b _ _ hend =>
    flow.shortCircuit (S := [left, right]) htest constant (by simp) (by simp) (refl b) hend
  allocGlobal := allocGlobal
  allocArray := allocArray
  frameSlot := frameSlot
  newFrame := newFrame
  modifyFrame _ _ := Keeps.modify fun _ => same rfl rfl rfl
  stringLabel := stringLabel
  newObject := newObject

theorem declare (line : Nat) (s : Symbol) : Keeps Placed (Compile.declare line s) := by
  intro b p c hend
  have hkept : Kept (fun _ => True) b c := Kept.stable.declare line s hend
  have hsame : c.storage = b.storage ∧ c.layouts = b.layouts := by
    rcases declare_cases hend with ⟨t, -, -, rfl⟩ | ⟨f, message, -, -, rfl⟩ <;> exact ⟨rfl, rfl⟩
  exact of_kept hkept hsame.1 hsame.2

/-- A variable whose type is fixed has taken a word before. -/
theorem retype {id : SymbolId} {v : Variable} {value? : Option Ty}
    (hs : b.table.symbol? id = some s) (hbody : s.body = .variable v)
    (hfixes : fixesType v value? = true) :
    Placed b { b with table := b.table.modifySymbol id fun s =>
      { s with body := .variable { v with type? := value? } } } := by
  refine of_scopes (fun i sc hsc => ⟨sc, hsc, .refl sc⟩) (fun i s' hs' => ?_) rfl rfl
  rw [SymbolTable.symbol?_modifySymbol, hs']
  split
  · subst id
    obtain rfl := Option.some.inj (hs.symm.trans hs')
    refine ⟨_, rfl, .inr fun t ht => ?_⟩
    have hnull : s.type? == some .null := by
      unfold fixesType at hfixes
      simp only [Bool.and_eq_true] at hfixes
      rw [Symbol.type?, hbody]
      exact hfixes.1.1.1.1
    rw [ht] at hnull
    exact Ty.size_of_beq_null hnull
  · exact ⟨s', rfl, .inl rfl⟩

theorem stable : Stable (fun _ => True) (fun _ => True) Placed where
  toExprStable := exprStable
  sound _ _ := Expr.all_of_forall (fun _ => trivial) _
  warn _ _ := Keeps.modify fun _ => same rfl rfl rfl
  aside _ _ := same rfl rfl rfl
  layout := layout
  declare := declare
  modifyFunction id f hf := fun b u c hend => by
    have hkept : Kept (fun _ => True) b c := Kept.stable.modifyFunction id f hf hend
    obtain rfl := ends_modify.mp hend
    exact of_kept hkept rfl rfl
  modifyClass id f hf := fun b u c hend => by
    have hkept : Kept (fun _ => True) b c := Kept.stable.modifyClass id f hf hend
    obtain rfl := ends_modify.mp hend
    exact of_kept hkept rfl rfl
  assignName line x e _ :=
    exprStable.toCodeStable.assignName_of_retype (fun _ _ => same rfl rfl rfl) retype line x
    (exprStable.expr e (Expr.all_of_forall (fun _ => trivial) e))
  scope kind _ _ h := h.around (enter kind) exit
  loops _ _ h := h.around (same rfl rfl rfl) (same rfl rfl rfl)
  inClass _ _ _ h := h.around (same rfl rfl rfl) (same rfl rfl rfl)
  __ := flow.controlStable exprStable.toCodeStable
  routine name frame label result? body hbody := by
    intro b r c hend
    obtain ⟨ending, d, hin, rfl, -⟩ := Emit.routine_ends hend
    exact Placed.around (hbody hin) (same rfl rfl rfl) (same rfl rfl rfl)

end Placed

/-! ## From names to addresses -/

/-- The code takes an operand for a variable: its place, or its value as an operand. -/
inductive Takes (x : String) (o : Operand) (b b' : Build) : Prop where
  | place (h : Ends (Emit.place x) b o b')
  | value (h : Ends (Emit.variableValue x) b o b')

theorem Takes.placed (h : Takes x o b b') : Placed b b' := by
  cases h with
  | place h => exact Placed.exprStable.keeps (S := []) (Placed.exprStable.walk.place x) h
  | value h => exact Placed.exprStable.keeps (S := []) (Placed.exprStable.walk.variableValue x) h

/-- What lies between two moments of a reading: whole parts of the program, the steps by which a
part in which one of the moments lies changes names or storage, and whatever leaves both alone. -/
inductive Reading (b : Build) : Build → Prop where
  | refl : Reading b b
  | part {c d : Build} {p : Part} {type? : Option Ty} :
      Reading b c → Ends (part p) c type? d → Reading b d
  | declare {c d : Build} {line : Nat} {s : Symbol} {r : SymbolId × Bool} : Reading b c →
    Ends (Compile.declare line s) c r d → Reading b d
  | enter {c : Build} (kind : String) :
      Reading b c → Reading b { c with table := c.table.enter kind }
  | exit {c : Build} : Reading b c → Reading b { c with table := c.table.exit.2 }
  | modifyFunction {c d : Build} {id : SymbolId} {f : Function → Function} : Reading b c →
    (∀ g, (f g).result? = g.result?) → Ends (Compile.modifyFunction id f) c () d → Reading b d
  | modifyClass {c d : Build} {id : SymbolId} {f : Class → Class} : Reading b c →
    (∀ k : Class, k.Extends (f k)) → Ends (Compile.modifyClass id f) c () d → Reading b d
  | retype {c : Build} {id : SymbolId} {s : Symbol} {v : Variable} {value? : Option Ty} :
      Reading b c →
    c.table.symbol? id = some s → s.body = .variable v → fixesType v value? = true →
    Reading b { c with table := c.table.modifySymbol id fun s =>
      { s with body := .variable { v with type? := value? } } }
  | take {c d : Build} {x : String} {o : Operand} : Reading b c → Takes x o c d → Reading b d
  | layout {c d : Build} {id : SymbolId} {l? : Option Layout} : Reading b c →
    Ends (Emit.layout id) c l? d → Reading b d
  | newObject {c d : Build} {cls : String} {o : Operand} : Reading b c →
    Ends (Emit.newObject cls) c o d → Reading b d
  | other {c d : Build} : Reading b c → d.table = c.table → d.storage = c.storage →
    d.layouts = c.layouts → Reading b d

theorem Reading.placed {c : Build} (h : Reading b c) : Placed b c := by
  induction h with
  | refl => exact .refl b
  | part _ hend ih => exact ih.trans (Placed.stable.part _ (fun _ _ => trivial) hend)
  | declare _ hend ih => exact ih.trans (Placed.declare _ _ hend)
  | enter kind _ ih => exact ih.trans (.enter kind)
  | exit _ ih => exact ih.trans .exit
  | modifyFunction _ hf hend ih => exact ih.trans (Placed.stable.modifyFunction _ _ hf hend)
  | modifyClass _ hf hend ih => exact ih.trans (Placed.stable.modifyClass _ _ hf hend)
  | retype _ hs hbody hfixes ih => exact ih.trans (.retype hs hbody hfixes)
  | take _ htakes ih => exact ih.trans htakes.placed
  | layout _ hend ih => exact ih.trans (Placed.layout _ hend)
  | newObject _ hend ih => exact ih.trans (Placed.newObject _ hend)
  | other _ htable hstorage hlayouts ih => exact ih.trans (.same htable hstorage hlayouts)

theorem ofAddress_eq {a : Int} (h : Operand.ofAddress a = .address n) : a = n := by
  cases a with
  | ofNat k => exact congrArg Int.ofNat (Operand.address.inj h)
  | negSucc k => cases h

/-- A name has a place in a frame or an address that is kept for it, if it has been declared. -/
theorem place_cases (h : Ends (Emit.place x) b o b') :
    (∃ frames storage, b' = { b with frames := frames, storage := storage }) ∧
    (b.table.lookupSymbol? x = none ∧ o = .text ("UNDEFINED_" ++ x) ∨ (∃ n, o = .frame n) ∨
      ∃ a, o = .ofAddress a ∧ b'.storage.slot? x = some (.address a)) := by
  unfold Emit.place at h
  rw [ends_get_bind] at h
  split at h
  · obtain ⟨rfl, rfl⟩ := ends_pure.mp h
    exact ⟨⟨_, _, rfl⟩, .inl ⟨‹_›, rfl⟩⟩
  split at h
  · obtain ⟨size, -, h⟩ := Build.ends_ofExcept_bind.mp h
    split at h
    · obtain ⟨a, ha, ho, rfl⟩ := Emit.allocate_ends h
      exact ⟨⟨_, _, rfl⟩, .inr (.inr ⟨a, ho, ha ▸ Storage.slot?_allocArray.1⟩)⟩
    · obtain ⟨a, ha, ho, rfl⟩ := Emit.allocate_ends h
      exact ⟨⟨_, _, rfl⟩, .inr (.inr ⟨a, ho, ha ▸ Storage.slot?_allocGlobal.1⟩)⟩
  split at h
  · rcases Emit.frameSlot_ends h with ⟨n, -, ho, rfl⟩ | ⟨-, _, _, ho, hb'⟩
    · exact ⟨⟨_, _, rfl⟩, .inr (.inl ⟨n, ho⟩)⟩
    · exact ⟨⟨_, _, hb'⟩, .inr (.inl ⟨_, ho⟩)⟩
  · obtain ⟨size, -, h⟩ := Build.ends_ofExcept_bind.mp h
    obtain ⟨a, ha, ho, rfl⟩ := Emit.allocate_ends h
    exact ⟨⟨_, _, rfl⟩, .inr (.inr ⟨a, ho, ha ▸ Storage.slot?_allocGlobal.1⟩)⟩

/-- An address that is taken for a variable is the one that is kept under its name. -/
theorem place_address (h : Ends (Emit.place x) b (.address n) b') :
    b'.storage.slot? x = some (.address n) := by
  rcases (place_cases h).2 with ⟨-, ho⟩ | ⟨k, ho⟩ | ⟨a, ho, hslot⟩
  · cases ho
  · cases ho
  · rw [← ofAddress_eq ho.symm]
    exact hslot

theorem Takes.address (h : Takes x (.address n) b b') : b'.storage.slot? x = some (.address n) := by
  cases h with
  | place h => exact place_address h
  | value h =>
    unfold Emit.variableValue at h
    obtain ⟨n?, b₁, -, h⟩ := ends_bind.mp h
    split at h
    · simp only [ends_bind] at h
      grind
    · simp only [ends_bind, ends_pure] at h
      obtain ⟨o, b₂, hplace, _, b₃, hset, rfl, rfl⟩ := h
      obtain rfl := ends_modify.mp hset
      have hslot := place_address hplace
      exact hslot

/-- **One name, one address.** Of two moments of a reading at which the code takes an address for a
variable, the addresses are the same exactly if the names are: a variable that hides another has the
address of the one that it hides, and all other variables are apart. In the end every type of a name
with an address takes room, and the variables are below the arrays and objects. -/
theorem same_address_iff_same_name {x y : String} {m n : Nat} {b b₁ c d : Build} (hb : Reading {} b)
    (hx : Takes x (.address m) b b₁) (hc : Reading b₁ c) (hy : Takes y (.address n) c d)
    (hplain : Storage.Plain x ∧ Storage.Plain y) (hroomy : d.Roomy)
    (hbelow : d.storage.nextGlobal ≤ Storage.heapStart) : m = n ↔ x = y := by
  have hlater : Placed b₁ d := (hc.take hy).placed
  have hsettled : d.Settled :=
    (((hb.take hx).placed.trans hlater).settled hroomy).2 hbelow Build.settled_start
  have hkept : d.storage.slot? x = some (.address m) := hlater.slots x _ hplain.1 hx.address
  constructor
  · rintro rfl
    exact hsettled.separate.inj x y m hplain.1 hplain.2 hkept hy.address
  · rintro rfl
    exact Int.ofNat.inj (Slot.address.inj (Option.some.inj (hkept.symm.trans hy.address)))

/-- If every type takes room, so do those of the names with an address. -/
theorem roomy_of_all (h : ∀ s ∈ b.table.symbols.toList, ∀ t ∈ s.type?, 0 < t.size) : b.Roomy := by
  have hall : ∀ id s t, b.table.symbol? id = some s → s.type? = some t → 0 < t.size :=
    fun id s t hs ht =>
    h s (List.mem_of_getElem? (by rw [Array.getElem?_toList]; exact hs)) t ht
  refine ⟨fun id s t hs ht => Int.le_of_lt (hall id s t hs ht), ?_⟩
  rintro x s t ⟨i, sc, id, -, -, hs⟩ - - ht
  exact Int.ne_of_gt (hall id s t hs ht)

/-- A variable of the main program and one of a block inside of it. -/
theorem same_address_iff_same_name_block : ∃ b b₁ c d,
    Ends (part (.stmt (.declare ⟨1, "x", some "integer", none⟩))) {} none b ∧
    Takes "x" (.address 4096) b b₁ ∧
    Ends (part (.stmt (.declare ⟨1, "y", some "integer", none⟩)))
      { b₁ with table := b₁.table.enter "block" } none c ∧
    Takes "y" (.address 4100) c d ∧ d.errors = #[] ∧ (4096 = 4100 ↔ "x" = "y") := by
  obtain ⟨b, b₁, c, d, hb, hx, hc, hy, hd, hroomy⟩ : ∃ b b₁ c d,
      Ends (part (.stmt (.declare ⟨1, "x", some "integer", none⟩))) {} none b ∧
      Ends (Emit.place "x") b (.address 4096) b₁ ∧
      Ends (part (.stmt (.declare ⟨1, "y", some "integer", none⟩)))
        { b₁ with table := b₁.table.enter "block" } none c ∧
      Ends (Emit.place "y") c (.address 4100) d ∧
      (d.errors = #[] ∧ d.storage.nextGlobal = 4104) ∧
      ∀ s ∈ d.table.symbols.toList, ∀ t ∈ s.type?, 0 < t.size :=
    ⟨_, _, _, _, rfl, rfl, rfl, rfl, ⟨rfl, rfl⟩, by decide⟩
  refine ⟨b, b₁, c, d, hb, .place hx, hc, .place hy, hd.1, ?_⟩
  refine same_address_iff_same_name (Reading.refl.part hb) (.place hx)
    ((Reading.refl.enter "block").part hc)
    (.place hy) (by decide) (roomy_of_all hroomy) ?_
  rw [hd.2]
  decide

/-- Two variables of one name, the inner one in a block, share their address: what is stored in the
inner one is what is printed of the outer one. -/
theorem same_address_shadowed : ∃ s b,
    Source.ofText "let x: integer = 1; \x7b let x: integer = 2; \x7d print(x);" = .ok s ∧
    Ends (statements s.program) {} () b ∧ b.errors = #[] ∧
    b.table.symbols.toList.map (fun s => (s.name, s.scope)) = [("x", 0), ("x", 1)] ∧
    b.quads.toList = [{ op := .copy, arg1 := .text "1", result := .address 4096 },
      { op := .copy, arg1 := .text "2", result := .address 4096 },
      { op := .printInt, arg1 := .address 4096, comment? := some "Print integer" }] :=
  Source.ends_of_read? statements _ (by decide +kernel)

end Compile

end Scriptc
