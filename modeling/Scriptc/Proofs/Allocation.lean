import Mathlib.Data.List.Pairwise
import Scriptc.Proofs.Addresses
import Scriptc.Proofs.Layouts
import Scriptc.Proofs.Selection

/-!
# Scriptc: what storage hands out

Storage is asked for global variables, arrays, objects and variables of functions, in any order. A
ledger keeps the blocks that the answers begin. A request either repeats one for the same name and
finds it served, or adds a block at the end of one of two regions, or takes the next word of a
frame, so the blocks stay apart as long as global variables do not reach the heap. Then an address,
written out and read again, leads to the one name that lies there.
-/

namespace Scriptc

namespace Hex

theorem digit?_digitChar : ∀ d < 16, digit? d.digitChar.toUpper = some d := by decide +kernel

/-- The digits of a number have its value. -/
theorem foldlM_digits (n : Nat) :
    ((digits n).map Char.toUpper).foldlM (fun n c => (digit? c).map (16 * n + ·)) 0 = some n := by
  unfold digits
  induction n using Nat.strongRecOn with
  | ind n ih =>
    by_cases hn : n < 16
    · rw [Nat.toDigits_of_lt_base hn]
      simp [digit?_digitChar n hn]
    · rw [Nat.toDigits_of_base_le (by decide) (by omega), List.map_append, List.foldlM_append,
        ih (n / 16) (by omega)]
      simp [digit?_digitChar (n % 16) (Nat.mod_lt _ (by decide)), Nat.div_add_mod]

/-- The text of an address is read as the address. -/
theorem ofText_wide (n : Nat) : Operand.ofText (wide n) = .address n := by
  have hzeros (k : Nat) :
    (List.replicate k '0').foldlM (fun n c => (digit? c).map (16 * n + ·)) 0 = some 0 := by
    induction k with
    | zero => rfl
    | succ k ih => exact ih
  have hread : read? (pad 4 false ((digits n).map Char.toUpper)) = some n := by
    have hne : digits n ≠ [] := Nat.toDigits_ne_nil
    simp [read?, pad, hne, hzeros, foldlM_digits]
  have hwide : (wide n).toList = '0' :: 'x' :: pad 4 false ((digits n).map Char.toUpper) := by
    rw [wide, String.toList_ofList, decide_eq_false (by omega)]
    rfl
  have hcandidate : Operand.candidate (wide n) = .address n := by
    simp only [Operand.candidate, hwide, hread]
    rfl
  rw [Operand.ofText, hcandidate]
  exact if_pos rfl

end Hex

namespace Storage

/-- Something that storage is asked for. -/
inductive Request where
  | global (x : String) (size : Int)
  | array (x : String) (count size : Int)
  | object (size : Int)
  | inFrame (x function : String)

namespace Request

/-- Names are plain, and sizes are positive. -/
def Proper : Request → Prop
  | global x size => Plain x ∧ 0 < size
  | array x count size => Plain x ∧ 0 < count ∧ 0 < size
  | object size => 0 < size
  | inFrame x f => Plain x ∧ Plain f

/-- The name under which the place is kept. -/
def key? : Request → Option String
  | global x _ | array x _ _ => some x
  | object _ => none
  | inFrame x f => some (localKey f x)

/-- The bytes asked for outside of frames. -/
def bytes : Request → Int
  | global _ size | object size => size
  | array _ count size => count * size
  | inFrame _ _ => 0

end Request

/-- Bytes that have been handed out, to a name or for an object. -/
structure Block where
  owner? : Option String
  base : Int
  size : Int
  deriving DecidableEq

/-- No byte is in both. -/
def Block.Apart (B C : Block) : Prop := B.base + B.size ≤ C.base ∨ C.base + C.size ≤ B.base

instance : Std.Symm Block.Apart := ⟨fun _ _ => Or.symm⟩

/-- What a request gets. -/
def serve (s : Storage) : Request → Slot × Storage
  | .global x size => s.allocGlobal x size
  | .array x count size => s.allocArray x count size
  | .object size => ((s.allocHeap size).1 |> .address, (s.allocHeap size).2)
  | .inFrame x f => s.allocLocal x f

/-- Storage and the blocks that it has handed out. -/
structure Ledger where
  storage : Storage := {}
  blocks : List Block := []

/-- A request is served. An address for what had no place is the beginning of a block. -/
def Ledger.step (r : Ledger) (q : Request) : Ledger where
  storage := (r.storage.serve q).2
  blocks := r.blocks ++ match (r.storage.serve q).1, q.key?.bind r.storage.slot? with
    | .address a, none => [⟨q.key?, a, q.bytes⟩]
    | _, _ => []

def ledger (qs : List Request) : Ledger := qs.foldl Ledger.step {}

variable {s : Storage} {r : Ledger} {q : Request} {slots : Assoc String Slot}
    {bs : List Block} {x : String}
variable {p : Slot} {f : String}

/-- The places of the variables of a function. -/
def inFunction (slots : Assoc String Slot) (f : String) : Assoc String Slot :=
  slots.filter (Affix.begins ·.1 (f ++ "::"))

theorem localCount_eq (f : String) : s.localCount f = (inFunction s.slots f).length := by
  rw [localCount, Assoc.keys, List.filter_map, List.length_map]
  rfl

theorem serve_known (h : q.key?.bind s.slot? = some p) : s.serve q = (p, s) := by
  cases q with
  | object size => cases h
  | global x size => simp only [serve, allocGlobal, show s.slot? x = some p from h]
  | array x count size => simp only [serve, allocArray, show s.slot? x = some p from h]
  | inFrame x f => simp only [serve, allocLocal, show s.slot? (localKey f x) = some p from h]

/-- What has no place gets a block, or the next word of a frame. -/
theorem serve_new (hq : q.Proper) (h : q.key?.bind s.slot? = none) :
    (∃ a global heap, s.AtEnd a q.bytes global heap ∧ 0 < q.bytes ∧
      (∀ x ∈ q.key?, Plain x) ∧ s.serve q =
      (.address a, ⟨global, heap, s.nextStack, q.key?.elim s.slots (s.slots.put · (.address a))⟩)) ∨
    ∃ x f, Plain f ∧ q = .inFrame x f ∧ s.serve q = (.inFrame (4 * (inFunction s.slots f).length),
      { s with slots := s.slots.put (localKey f x) (.inFrame (4 * (inFunction s.slots f).length)) })
        := by
  cases q with
  | object size => exact .inl ⟨_, _, _, .inr ⟨rfl, rfl, rfl⟩, hq, nofun, rfl⟩
  | global x size =>
    refine .inl ⟨_, _, _, .inl ⟨rfl, rfl, rfl⟩, hq.2, fun y hy => Option.some.inj hy ▸ hq.1, ?_⟩
    simp only [serve, allocGlobal, show s.slot? x = none from h]
    rfl
  | array x count size =>
    refine .inl ⟨_, _, _, .inr ⟨rfl, rfl, rfl⟩, Int.mul_pos hq.2.1 hq.2.2,
      fun y hy => Option.some.inj hy ▸ hq.1, ?_⟩
    simp only [serve, allocArray, show s.slot? x = none from h]
    rfl
  | inFrame x f =>
    refine .inr ⟨x, f, hq.2, rfl, ?_⟩
    simp only [serve, allocLocal, show s.slot? (localKey f x) = none from h, localCount_eq]

/-! ## Blocks -/

/-- Blocks begin at words, lie in the regions that are in use, and are apart. -/
structure Fenced (s : Storage) (bs : List Block) : Prop where
  global : 0 ≤ s.nextGlobal
  heap : heapStart ≤ s.nextHeap
  aligned : ∀ B ∈ bs, 4 ∣ B.base
  within : ∀ B ∈ bs, 0 ≤ B.base ∧ 0 < B.size ∧
    (B.base + B.size ≤ s.nextGlobal ∨ heapStart ≤ B.base ∧ B.base + B.size ≤ s.nextHeap)
  apart : bs.Pairwise Block.Apart

/-- Storage grows by a block. -/
theorem Fenced.add (h : Fenced s bs) {owner? : Option String} {a size global heap : Int}
    (hend : s.AtEnd a size global heap) (hsize : 0 < size) (hroom : global ≤ heapStart) :
    Fenced ⟨global, heap, s.nextStack, slots⟩ (bs ++ [⟨owner?, a, size⟩]) := by
  obtain ⟨k, hk, hle, -⟩ := align_eq s.nextGlobal
  obtain ⟨m, hm, hle', -⟩ := align_eq s.nextHeap
  have hglobal := h.global
  have hheap := h.heap
  have hstart : heapStart = 0x8000 := rfl
  unfold AtEnd at hend
  have hglobal : 0 ≤ global := by omega
  have hheap : heapStart ≤ heap := by omega
  refine ⟨hglobal, hheap, List.forall_mem_append.mpr ⟨h.aligned, ?_⟩,
    List.forall_mem_append.mpr ⟨fun B hB => ?_, ?_⟩,
    List.pairwise_append.mpr ⟨h.apart, List.pairwise_singleton _ _, ?_⟩⟩
  · grind
  · have := h.within B hB
    grind
  · grind
  · refine fun B hB => List.forall_mem_singleton.mpr ?_
    have := h.within B hB
    show B.base + B.size ≤ a ∨ a + size ≤ B.base
    omega

/-! ## Names -/

/-- Names with addresses own blocks, and the variables of a function have the words of its frame in
a row. -/
structure Listed (slots : Assoc String Slot) (bs : List Block) : Prop where
  owned : ∀ B ∈ bs, ∀ x ∈ B.owner?, (x, .address B.base) ∈ slots
  placed : ∀ x a, (x, .address a) ∈ slots → ∃ B ∈ bs, B.owner? = some x ∧ B.base = a
  frames : ∀ f, Plain f → (inFunction slots f).values =
    (List.range (inFunction slots f).length).map fun i => Slot.inFrame (4 * i)

theorem Plain.not_begins (h : Plain x) (f : String) : Affix.begins x (f ++ "::") = false := by
  refine Bool.eq_false_iff.mpr fun hbegins => h ?_
  exact (List.isPrefixOf_iff_prefix.mp hbegins).subset (by simp)

/-- Which function a variable is of can be told from its key. -/
theorem begins_localKey {g : String} (hf : Plain f) (hg : Plain g) :
    Affix.begins (localKey f x) (g ++ "::") = true ↔ f = g := by
  constructor
  · intro h
    obtain ⟨rest, hrest⟩ := List.isPrefixOf_iff_prefix.mp h
    have hlist : (rest.reverse ++ [':']) ++ ':' :: g.toList.reverse = (x.toList.reverse ++ [':']) ++
      ':' :: f.toList.reverse := by
      simpa [localKey] using congrArg List.reverse hrest
    obtain ⟨-, hsame⟩ := split_inj (mt List.mem_reverse.mp hg) (mt List.mem_reverse.mp hf) hlist
    exact (String.toList_inj.mp (List.reverse_injective hsame)).symm
  · rintro rfl
    exact List.isPrefixOf_iff_prefix.mpr ⟨x.toList, by simp [localKey]⟩

/-- A plain name gets an address. -/
theorem Listed.name (h : Listed slots bs) (hx : Plain x) (hnew : slots.get? x = none)
    (a size : Int) :
    Listed (slots.put x (.address a)) (bs ++ [⟨some x, a, size⟩]) := by
  rw [Assoc.put_of_not_contains _ (by rw [Assoc.contains, hnew]; rfl)]
  refine ⟨List.forall_mem_append.mpr
    ⟨fun B hB y hy => List.mem_append_left _ (h.owned B hB y hy), ?_⟩,
    fun y c hy => ?_, fun f hf => ?_⟩
  · simp
  · rcases List.mem_append.mp hy with hy | hy
    · obtain ⟨B, hB, hown⟩ := h.placed y c hy
      exact ⟨B, List.mem_append_left _ hB, hown⟩
    · cases List.mem_singleton.mp hy
      exact ⟨_, List.mem_append_right _ (List.mem_singleton_self _), rfl, rfl⟩
  · have hsame : inFunction (slots ++ [(x, .address a)]) f = inFunction slots f := by
      simp [inFunction, hx.not_begins f]
    rw [hsame]
    exact h.frames f hf

/-- A variable of a function gets the next word of its frame. -/
theorem Listed.inFrame (h : Listed slots bs) (hf : Plain f)
    (hnew : slots.get? (localKey f x) = none) :
    Listed (slots.put (localKey f x) (.inFrame (4 * (inFunction slots f).length))) bs := by
  rw [Assoc.put_of_not_contains _ (by rw [Assoc.contains, hnew]; rfl)]
  refine ⟨fun B hB y hy => List.mem_append_left _ (h.owned B hB y hy),
    fun y c hy => ?_, fun g hg => ?_⟩
  · rcases List.mem_append.mp hy with hy | hy
    · exact h.placed y c hy
    · cases List.mem_singleton.mp hy
  · have hframes := h.frames g hg
    by_cases hfg : f = g
    · subst hfg
      have hmore (p : Slot) :
        inFunction (slots ++ [(localKey f x, p)]) f = inFunction slots f ++
        [(localKey f x, p)] := by
        simp [inFunction, (begins_localKey hf hf).mpr]
      rw [hmore, Assoc.values, List.map_append, ← Assoc.values, hframes, List.length_append,
        List.length_singleton,
        List.range_succ, List.map_append]
      rfl
    · have hsame (p : Slot) : inFunction (slots ++ [(localKey f x, p)]) g = inFunction slots g := by
        simp [inFunction, (begins_localKey (x := x) hf hg).not.mpr hfg]
      rw [hsame]
      exact hframes

/-- A block without a name. -/
theorem Listed.object (h : Listed slots bs) (a size : Int) :
    Listed slots (bs ++ [⟨none, a, size⟩]) :=
  { h with
    owned := List.forall_mem_append.mpr ⟨h.owned, by simp⟩
    placed := fun y c hy => (h.placed y c hy).imp fun _ hB => ⟨List.mem_append_left _ hB.1, hB.2⟩ }

/-! ## Requests in a row -/

structure Orderly (r : Ledger) : Prop where
  fenced : Fenced r.storage r.blocks
  listed : Listed r.storage.slots r.blocks

/-- One request keeps order, as long as there is room. -/
theorem Orderly.step (h : Orderly r) (hq : q.Proper)
    (hroom : (r.step q).storage.nextGlobal ≤ heapStart) :
    Orderly (r.step q) := by
  unfold Ledger.step at hroom ⊢
  cases hknown : q.key?.bind r.storage.slot? with
  | some p =>
    rw [serve_known hknown]
    simpa using h
  | none =>
    obtain ⟨a, global, heap, hend, hsize, hplain, hserve⟩ | ⟨x, f, hf, rfl, hserve⟩ :=
      serve_new hq hknown
    · rw [hserve] at hroom ⊢
      refine ⟨h.fenced.add hend hsize hroom, ?_⟩
      cases hkey : q.key? with
      | none => exact h.listed.object a q.bytes
      | some x =>
        rw [hkey] at hknown
        exact h.listed.name (hplain x hkey) hknown a q.bytes
    · rw [hserve]
      refine ⟨?_, ?_⟩
      · simpa [Slot.inFrame] using { h.fenced with }
      · simpa [Slot.inFrame] using h.listed.inFrame hf hknown

theorem nextGlobal_step (r : Ledger) (hq : q.Proper) :
    r.storage.nextGlobal ≤ (r.step q).storage.nextGlobal := by
  cases q with
  | object size => exact Int.le_refl _
  | global x size => exact nextGlobal_allocGlobal (Int.le_of_lt hq.2)
  | array x count size =>
    show _ ≤ (r.storage.allocArray x count size).2.nextGlobal
    unfold allocArray
    split <;> exact Int.le_refl _
  | inFrame x f =>
    show _ ≤ (r.storage.allocLocal x f).2.nextGlobal
    unfold allocLocal
    dsimp only
    split <;> exact Int.le_refl _

theorem orderly {qs : List Request} (hproper : ∀ q ∈ qs, q.Proper)
    (hroom : (ledger qs).storage.nextGlobal ≤ heapStart) :
    Orderly (ledger qs) := by
  induction qs using List.reverseRecOn with
  | nil => exact ⟨⟨by decide, by decide, nofun, nofun, .nil⟩, ⟨nofun, nofun, fun _ _ => rfl⟩⟩
  | append_singleton qs q ih =>
    obtain ⟨hqs, hq⟩ := List.forall_mem_append.mp hproper
    replace hq := List.forall_mem_singleton.mp hq
    rw [ledger, List.foldl_concat] at hroom ⊢
    exact (ih hqs (Int.le_trans (nextGlobal_step _ hq) hroom)).step hq hroom

/-! ## Names keep their places -/

/-- What is served has its place afterwards, and other names keep theirs. -/
theorem slot?_serve (s : Storage) (q : Request) :
    (∀ k ∈ q.key?, (s.serve q).2.slot? k = some (s.serve q).1) ∧
    ∀ y p, s.slot? y = some p → (s.serve q).2.slot? y = some p := by
  have hown {k p} {s : Storage} (h : s.slot? k = some p) : ∀ j ∈ some k, s.slot? j = some p :=
    fun j hj => Option.some.inj hj ▸ h
  cases q with
  | object size => exact ⟨nofun, fun _ _ => id⟩
  | global x size => exact slot?_allocGlobal.imp_left hown
  | array x count size => exact slot?_allocArray.imp_left hown
  | inFrame x f =>
    show (∀ k ∈ some (localKey f x), (s.allocLocal x f).2.slot? k = some (s.allocLocal x f).1) ∧
      ∀ y p, s.slot? y = some p → (s.allocLocal x f).2.slot? y = some p
    unfold allocLocal
    dsimp only
    split
    · exact ⟨hown ‹_›, fun _ _ => id⟩
    · exact (slot?_put ‹_›).imp_left hown

/-- A name has the place that it got at first, however many requests follow. -/
theorem slot?_foldl (qs : List Request) {y : String} (h : r.storage.slot? y = some p) :
    (qs.foldl Ledger.step r).storage.slot? y = some p := by
  induction qs generalizing r with
  | nil => exact h
  | cons q qs ih => exact ih ((slot?_serve r.storage q).2 y p h)

theorem serve_again (before after : List Request) {again : Request} {k : String}
    (hq : q.key? = some k) (hagain : again.key? = some k) :
    (ledger (before ++ q :: after)).storage.serve again =
      (((ledger before).storage.serve q).1, (ledger (before ++ q :: after)).storage) := by
  refine serve_known ?_
  rw [hagain, Option.bind_some, ledger, List.foldl_append, List.foldl_cons]
  exact slot?_foldl after ((slot?_serve _ q).1 k hq)

/-! ## Frames -/

/-- The place of a variable of a function is a word of the frame. -/
theorem Listed.inFunction (h : Listed s.slots bs) (hf : Plain f)
    (hslot : s.slot? (localKey f x) = some p) :
    ∃ i, (Storage.inFunction s.slots f)[i]? = some (localKey f x, p) ∧ p = .inFrame (4 * i) ∧
      4 * i < s.frameSize f := by
  have hmem : (localKey f x, p) ∈ Storage.inFunction s.slots f :=
    List.mem_filter.mpr ⟨Assoc.mem_of_get? hslot, (begins_localKey hf hf).mpr rfl⟩
  obtain ⟨i, hi, hget⟩ := List.mem_iff_getElem.mp hmem
  refine ⟨i, List.getElem?_eq_some_iff.mpr ⟨hi, hget⟩, ?_, ?_⟩
  · have hvalue := congrArg (·[i]?) (h.frames f hf)
    simpa [Assoc.values, hi, hget] using hvalue
  · rw [frameSize, localCount_eq]
    omega

/-! ## Names at addresses -/

/-- At the beginning of a block that a name owns, the name is found. -/
theorem Orderly.nameAt? (h : Orderly r) {B : Block} (hB : B ∈ r.blocks) (hx : x ∈ B.owner?) :
    Mips.Select.nameAt? r.storage.slots B.base = some x := by
  have howned := h.listed.owned B hB x hx
  unfold Mips.Select.nameAt?
  cases hfind : r.storage.slots.find? fun e => e.2 = .address B.base with
  | none => simpa using List.find?_eq_none.mp hfind _ howned
  | some e =>
    have he : e.2 = .address B.base := by simpa using List.find?_some hfind
    obtain ⟨C, hC, hown, hbase⟩ := h.listed.placed e.1 B.base (he ▸ List.mem_of_find?_eq_some hfind)
    -- two blocks that begin at the same byte are the same
    have hsame : B = C := by
      by_contra hne
      have hapart := h.fenced.apart.forall hB hC hne
      have hsizeB := h.fenced.within B hB
      have hsizeC := h.fenced.within C hC
      unfold Block.Apart at hapart
      omega
    grind

/-- However requests follow each other, as long as global variables stay below the heap: blocks
begin at words and are apart; a name that is asked for again has the place that it got at first, and
nothing changes; the variables of a function have places of their own in its frame; and the text of
an address leads back to the name that lies there. -/
theorem storage_orderly (qs : List Request) (hproper : ∀ q ∈ qs, q.Proper)
    (hroom : (ledger qs).storage.nextGlobal ≤ heapStart) :
    (∀ B ∈ (ledger qs).blocks, 4 ∣ B.base) ∧ (ledger qs).blocks.Pairwise Block.Apart ∧
    (∀ before q after again k, qs = before ++ q :: after → q.key? = some k → again.key? = some k →
      (ledger qs).storage.serve again = (((ledger before).storage.serve q).1,
        (ledger qs).storage)) ∧
    (∀ f x, .inFrame x f ∈ qs → ∃ m, m < (ledger qs).storage.frameSize f ∧
      (ledger qs).storage.serve (.inFrame x f) = (.inFrame m, (ledger qs).storage) ∧
      ∀ y, .inFrame y f ∈ qs → x ≠ y → ∃ n, m ≠ n ∧
        (ledger qs).storage.serve (.inFrame y f) = (.inFrame n, (ledger qs).storage)) ∧
    ∀ B ∈ (ledger qs).blocks, ∀ x ∈ B.owner?, ∃ n : Nat, B.base = n ∧
      ∀ input sel, input.slots = (ledger qs).storage.slots →
        Mips.Select.Ends input (Mips.Select.memoryLabel (.ofText (Hex.wide n))) sel
          ("var_" ++ x) sel := by
  have h := orderly hproper hroom
  -- A local variable has the word of its position among those of its function.
  have hword {f x : String} (hmem : .inFrame x f ∈ qs) :
      ∃ i, (inFunction (ledger qs).storage.slots f)[i]? = some (localKey f x, .inFrame (4 * i)) ∧
        4 * i < (ledger qs).storage.frameSize f ∧
        (ledger qs).storage.serve (.inFrame x f) = (.inFrame (4 * i), (ledger qs).storage) := by
    obtain ⟨before, after, rfl⟩ := List.append_of_mem hmem
    have hkey : Request.key? (.inFrame x f) = some (localKey f x) := rfl
    have hserve := serve_again before after hkey hkey
    have hslot := (slot?_serve (ledger (before ++ .inFrame x f :: after)).storage _).1 _ hkey
    rw [hserve] at hslot
    obtain ⟨i, hi, hp, hframe⟩ := h.listed.inFunction (hproper _ hmem).2 hslot
    exact ⟨i, hp ▸ hi, hframe, hp ▸ hserve⟩
  refine ⟨h.fenced.aligned, h.fenced.apart, ?_, ?_, ?_⟩
  · rintro before q after again k rfl hq hagain
    exact serve_again before after hq hagain
  · intro f x hx
    obtain ⟨i, hi, hiframe, hix⟩ := hword hx
    refine ⟨4 * i, hiframe, hix, fun y hy hne => ?_⟩
    obtain ⟨j, hj, -, hjy⟩ := hword hy
    refine ⟨4 * j, fun heq => hne ?_, hjy⟩
    -- Two names at one position would be one entry.
    obtain rfl : i = j := by omega
    rw [hi] at hj
    simpa [localKey] using congrArg Prod.fst (Option.some_inj.mp hj)
  · intro B hB x hx
    have hbase := (h.fenced.within B hB).1
    refine ⟨B.base.toNat, by omega, fun input sel hslots => ?_⟩
    unfold Mips.Select.memoryLabel
    rw [Mips.Select.ends_read_bind, Hex.ofText_wide]
    simp [Operand.hexValue?, hslots, Int.toNat_of_nonneg hbase, h.nameAt? hB hx]

/-- A flag of one byte, an array, an object and a number, with the variables of a function in
between. -/
def mixed : List Request :=
  [.global "a" 1, .inFrame "x" "f", .array "b" 10 4, .global "a" 4, .object 6, .inFrame "y" "f",
    .object 8, .global "c" 4]

theorem storage_orderly_mixed :
    (∀ q ∈ mixed, q.Proper) ∧ (ledger mixed).storage.nextGlobal = 0x1008 ∧
    (ledger mixed).blocks =
      [⟨some "a", 0x1000, 1⟩, ⟨some "b", 0x8000, 40⟩, ⟨none, 0x8028, 6⟩, ⟨none, 0x8030, 8⟩,
        ⟨some "c", 0x1004, 4⟩] ∧
    (ledger mixed).blocks.Pairwise Block.Apart := by
  have hproper : ∀ q ∈ mixed, q.Proper := by simp [mixed, Request.Proper, Plain]
  have hroom : (ledger mixed).storage.nextGlobal = 0x1008 := by decide +kernel
  exact ⟨hproper, hroom, by
    decide +kernel, (storage_orderly mixed hproper (by rw [hroom]; decide)).2.1⟩

end Storage

end Scriptc
