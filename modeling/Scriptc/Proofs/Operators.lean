import Scriptc.Proofs.Addends
import Scriptc.Proofs.Frames
import Scriptc.Proofs.Registers

/-!
# Scriptc: operators in the target code

The code of an arithmetic operator leaves its value in the register of the result, as long as there
are temporaries to spare (`Allocator.Roomy`): `arithmetic_correct`. What an operand stands for is
`word?`, and `Computes` says what the code does to the machine.

A comparison asks for a register for the moment for each operand that has none, and gets the same
one twice. So it is right if one of its operands is a temporary, and compares the second operand
with itself otherwise: `comparison_outcome`.
-/

namespace Scriptc

/-- No numeral begins with a letter. -/
theorem Numeral.read?_of_letter {s : String} {cs : List Char} (h : s.toList = 't' :: cs) :
    read? 10 s = none := by
  obtain ⟨ds, hds⟩ : ∃ ds, plainAll s = 't' :: ds := by
    unfold plainAll
    rw [h]
    split
    · exact ⟨cs, rfl⟩
    · exact ⟨cs.map plain, rfl⟩
  have hleft : ('t' :: ds).dropWhile isSpace = 't' :: ds := rfl
  obtain ⟨es, hes⟩ : ∃ es, (('t' :: ds).reverse.dropWhile isSpace).reverse = 't' :: es := by
    rw [List.reverse_cons, List.dropWhile_append]
    split
    · exact ⟨[], rfl⟩
    · exact ⟨_, by rw [List.reverse_append]; rfl⟩
  have hdigits : digits? 10 ('t' :: es) = none := by
    have hletter : digit? 10 't' = none := rfl
    unfold digits?
    grind
  unfold read?
  rw [hds]
  dsimp only
  rw [hleft, hes]
  show ((digits? 10 ('t' :: es)).bind _).map Int.ofNat = none
  rw [hdigits]
  rfl

namespace Mips

theorem Allocator.isName_of_isTempName {o : Operand} (h : o.isTempName = true) :
    Allocator.IsName o := by
  refine ⟨?_, fun hnone => ?_, fun vs hcells => ?_⟩
  rotate_left
  · rw [hnone] at h
    cases h
  · rw [hcells] at h
    cases h
  cases o with
  | text s =>
    obtain ⟨ds, hds⟩ := Operand.toList_of_isTempName (s := s) h rfl
    rw [Allocator.isNumber, Numeral.read?_of_letter hds]
    rfl
  | temp k => rfl
  | _ => cases h

namespace Allocator

/-- No two names share a register, the registers of names are in use, and `k` temporaries are
not. -/
@[grind cases] structure Roomy (k : Nat) (a : Allocator) : Prop where
  inj : ∀ {x y r}, a.map.get? x = some r → a.map.get? y = some r → x = y
  used : ∀ {x r}, a.map.get? x = some r → r ∈ a.used
  nonzero : ∀ {x r}, a.map.get? x = some r → r ≠ .zero
  room : k ≤ (Reg.temporaries.filter (!a.used.contains ·)).length

/-- The register of a name that is given now if there was none. -/
structure Gives (a : Allocator) (x : String) (r : Reg) (a' : Allocator) : Prop where
  has : a'.map.get? x = some r
  others : ∀ y ≠ x, a'.map.get? y = a.map.get? y
  used : ∀ s ∈ a.used, s ∈ a'.used
  free : ∀ s ∈ a'.free, s ∈ a.free
  own : a.map.get? x = some r ∨ a.map.get? x = none ∧ r ∉ a.used

variable {a : Allocator} {k : Nat} {x : String} {r : Reg}

theorem Gives.keeps {a' : Allocator} (h : a.Gives x r a') {y : String} {t : Reg}
    (hy : a.map.get? y = some t) :
    a'.map.get? y = some t := by
  by_cases hyx : y = x
  · subst hyx
    obtain hown | ⟨hnone, -⟩ := h.own
    · rw [h.has, ← hown, hy]
    · rw [hnone] at hy
      cases hy
  · rw [h.others y hyx, hy]

theorem length_unused_le (rs ss : List Reg) (h : ∀ r ∈ Reg.temporaries, r ∉ rs → r ∈ ss) :
    (Reg.temporaries.filter (!rs.contains ·)).length ≤ ss.length := by
  refine (List.subperm_of_subset ((List.filter_sublist ..).nodup (by decide))
    fun r hr => ?_).length_le
  obtain ⟨htemp, hnot⟩ := List.mem_filter.mp hr
  exact h r htemp (by simpa using hnot)

theorem Roomy.exists_unused (h : a.Roomy k) (rs : List Reg) (hrs : rs.length < k) :
    ∃ r ∈ Reg.temporaries, r ∉ a.used ∧ r ∉ rs := by
  by_contra! hall
  have := length_unused_le a.used rs hall
  have := h.room
  omega

theorem regOf_mapped {p : Pool} (hx : a.map.get? x = some r) : a.regOf x p = (r, a) := by
  unfold regOf
  rw [hx]

theorem Roomy.regOf (h : a.Roomy (k + 1)) (x : String) :
    ∃ r a', a.regOf x .temporary = (r, a') ∧ a'.Roomy k ∧ Gives a x r a' := by
  cases hx : a.map.get? x with
  | some r => exact ⟨r, a, regOf_mapped hx, { h with room := Nat.le_of_succ_le h.room }, hx,
      fun _ _ => rfl, fun _ hs => hs,
      fun _ hs => hs, .inl hx⟩
  | none =>
    obtain ⟨t, ht, hunused, -⟩ := h.exists_unused [] (Nat.succ_pos k)
    -- The temporaries are tried first, so one of them is found.
    obtain ⟨r, hfind, htemp, hnew⟩ := find?_unused ht hunused
    have hunused? : a.unused? .temporary = some r := by
      rw [unused?, Pool.order, Pool.regs, List.find?_append, hfind]
      rfl
    refine ⟨r, { a.give x r with free := a.free.erase r }, by
      simp only [Allocator.regOf, hx, hunused?], ?_, ?_⟩
    · refine ⟨fun {y z s} hy hz => ?_, fun {y s} hy => ?_, fun {y s} hy => ?_, ?_⟩
      · replace hy := get?_give.symm.trans hy
        replace hz := get?_give.symm.trans hz
        split at hy <;> split at hz
        · simp_all
        · exact absurd (Option.some.inj hy ▸ h.used hz) hnew
        · exact absurd (Option.some.inj hz ▸ h.used hy) hnew
        · exact h.inj hy hz
      · replace hy := get?_give.symm.trans hy
        refine List.mem_insert_iff.mpr ?_
        split at hy
        · exact .inl (Option.some.inj hy).symm
        · exact .inr (h.used hy)
      · replace hy := get?_give.symm.trans hy
        split at hy
        · cases hy
          rintro rfl
          exact absurd htemp (by decide)
        · exact h.nonzero hy
      · have hle := length_unused_le a.used
          (r :: Reg.temporaries.filter (!(a.used.insert r).contains ·)) fun s hs hnot => by
            by_cases hsr : s = r <;> simp_all
        have := h.room
        rw [List.length_cons] at hle
        show k ≤ (Reg.temporaries.filter (!(a.used.insert r).contains ·)).length
        omega
    · exact ⟨get?_give.trans (if_pos rfl), fun y hy => get?_give.trans (if_neg hy),
        fun s hs => List.mem_insert_of_mem hs, fun s hs =>
          List.mem_of_mem_erase hs, .inr ⟨hx, hnew⟩⟩

theorem get?_single {y : String} {t : Reg} (h : Assoc.get? [(x, r)] y = some t) :
    y = x ∧ t = r := by
  unfold Assoc.get? at h
  split at h
  · exact ⟨(‹x = y›).symm, (Option.some.inj h).symm⟩
  · cases h

theorem roomy_single (hk : k ≤ 9) (x : String) : Roomy k { map := [(x, .t 0)], used := [.t 0] } :=
  ⟨fun hy hz => (get?_single hy).1.trans (get?_single hz).1.symm, fun hy => by
    simp [(get?_single hy).2],
    fun hy => by simp [(get?_single hy).2], hk⟩

theorem Roomy.scratch (h : a.Roomy (k + 1)) (hfree : ∀ r ∈ a.free, r ∈ Reg.temporaries) :
    a.scratch ∈ Reg.temporaries ∧ a.scratch ∉ a.used := by
  obtain ⟨t, ht, hunused, -⟩ := h.exists_unused [] (Nat.succ_pos k)
  obtain ⟨r, hfind, hr, hnew⟩ := find?_unused (List.mem_append_right a.free ht) hunused
  rw [Allocator.scratch, hfind, Option.getD_some]
  exact ⟨(List.mem_append.mp hr).elim (hfree r) id, hnew⟩

end Allocator

namespace Select

variable {input : Input} {s s' : Select} {o : Operand} {r : Reg} {c : Cpu} {k : Nat}

theorem reg_mapped (ho : Allocator.IsName o) (hr : s.alloc.map.get? o.render = some r) :
    Ends input (reg o) s r s := by
  unfold reg
  rw [ends_get_bind]
  refine ends_bind.mpr ⟨(r, s.alloc), s, ends_ofExcept.mpr ⟨?_, rfl⟩, rfl⟩
  rw [Allocator.regFor_name ho, Allocator.regOf_mapped hr]

theorem reg_gives (input : Input) (ho : Allocator.IsName o) (h : s.alloc.Roomy (k + 1)) :
    ∃ r a, Ends input (reg o) s r { s with alloc := a } ∧
    a.Roomy k ∧ s.alloc.Gives o.render r a := by
  obtain ⟨r, a, hreg, hroomy, hgives⟩ := h.regOf o.render
  refine ⟨r, a, ?_, hroomy, hgives⟩
  unfold reg
  rw [ends_get_bind]
  refine ends_bind.mpr ⟨(r, a), s, ends_ofExcept.mpr ⟨?_, rfl⟩, rfl⟩
  rw [Allocator.regFor_name ho, hreg]

end Select

/-! ## What operands stand for -/

/-- A number is loaded as its text says, in any spelling. -/
def Instr.literal : Instr → Instr
  | .li d n => .li d ((Numeral.read? 0 n.render).elim n .int)
  | i => i

/-- The instructions of lines of code, as they are run. -/
def assembled (code : List Line) : List Instr := (instrs code).map Instr.literal

/-- The word that an operand stands for: what is in the register of a temporary, a word of the
frame, the word of the variable at an address, or a number. Addresses of objects and arrays are left
out. -/
def word? (input : Input) (map : Assoc String Reg) (c : Cpu) (o : Operand) : Option Word :=
  if o.isTempName then (map.get? o.render).map c.get
  else match o.frameOffset? with
    | some (.int n) => some (c.mem (c.get .fp + .ofInt 32 n))
    | some (.text _) => none
    | none =>
      if o.isHex then
        ((o.hexValue?.filter (· < Operand.heapStart)).bind
          (Select.nameAt? input.slots)).map fun x =>
          c.mem (c.labels ("var_" ++ x))
      else match o with
        | .int _ | .text _ => (Numeral.read? 0 o.render).map (.ofInt 32)
        | _ => none

/-- The machine after `is`: the word is in the register `d`, memory is as it was, and so is the
register of every name but `x`. Without a word the machine has stopped. -/
def Computes (map : Assoc String Reg) (x : String) (d : Reg) (w? : Option Word) (c : Cpu)
    (is : List Instr) : Prop :=
  w?.elim (c.run is = none) fun w => ∃ c', c.run is = some c' ∧ c'.get d = w ∧ c'.mem = c.mem ∧
    ∀ y r, y ≠ x → map.get? y = some r → c'.get r = c.get r

/-- Nothing has changed but the register `r`, which holds `w`. -/
@[grind cases] structure Cpu.Sets (c : Cpu) (r : Reg) (w : Word) (c' : Cpu) : Prop where
  word : c'.get r = w
  others : ∀ x ≠ r, c'.get x = c.get x
  mem : c'.mem = c.mem
  labels : c'.labels = c.labels

theorem Cpu.sets_set {c : Cpu} {r : Reg} (w : Word) (hr : r ≠ .zero) : c.Sets r w (c.set r w) :=
  ⟨get_set_self hr, fun _ hx => get_set_of_ne hx, rfl, rfl⟩

theorem assembled_append (code code' : List Line) :
    assembled (code ++ code') = assembled code ++ assembled code' := by
  rw [assembled, instrs, List.filterMap_append, List.map_append]
  rfl

/-- The same operand stands for the same word if its register, the frame pointer and memory have not
changed. -/
theorem word?_congr {input : Input} {map : Assoc String Reg} {c c' : Cpu} {o : Operand}
    (hmem : c'.mem = c.mem) (hlabels : c'.labels = c.labels) (hfp : c'.get .fp = c.get .fp)
    (hreg : ∀ r, map.get? o.render = some r → c'.get r = c.get r) :
    word? input map c' o = word? input map c o := by
  unfold word?
  rw [hmem, hlabels, hfp]
  split
  · cases hmap : map.get? o.render with
    | none => rfl
    | some r => exact congrArg some (hreg r hmap)
  · rfl

namespace Select

variable {input : Input} {s s' : Select} {o : Operand} {r : Reg} {c : Cpu} {w : Word}
    {map : Assoc String Reg}

/-- The code that brings an operand into a register. A temporary is in its register already. -/
theorem loadOperand_sets (hw : word? input map c o = some w) (hr : r ≠ .zero)
    (htemp : o.isTempName = true → map.get? o.render = some r) :
    ∃ ls, Ends input (loadOperand o r) s ls s ∧ ∃ c', c.run (assembled ls) = some c' ∧
      c.Sets r w c' := by
  unfold word? at hw
  unfold loadOperand
  split at hw
  -- A temporary is in its register already.
  · rw [if_pos ‹_›]
    rw [htemp ‹_›] at hw
    exact ⟨[], ends_pure.mpr ⟨rfl, rfl⟩, c, rfl, Option.some.inj hw, fun _ _ => rfl, rfl, rfl⟩
  rw [if_neg ‹_›]
  have hset (ls : List Line) (h : c.run (assembled ls) = some (c.set r w)) :
      ∃ c', c.run (assembled ls) = some c' ∧ c.Sets r w c' := ⟨_, h, Cpu.sets_set w hr⟩
  split at hw
  -- A word of the frame.
  · rename_i n hframe
    cases hw
    rw [hframe]
    exact ⟨_, ends_pure.mpr ⟨rfl, rfl⟩, hset _ rfl⟩
  · cases hw
  rename_i hframe
  rw [hframe]
  split at hw
  -- A variable below the heap has a label.
  · obtain ⟨x, hx, rfl⟩ := Option.map_eq_some_iff.mp hw
    obtain ⟨a, ha, hname⟩ := Option.bind_eq_some_iff.mp hx
    obtain ⟨hhex, hlt⟩ := Option.filter_eq_some_iff.mp ha
    have hheap : o.heapValue?.isSome = false := by
      have hlow : ¬ Operand.heapStart ≤ a := by simpa using hlt
      simp [Operand.heapValue?, hhex, Option.filter, hlow]
    have hlabel : Ends input (memoryLabel o) s ("var_" ++ x) s := by
      unfold memoryLabel
      grind
    dsimp only
    rw [if_pos ‹_›, hheap]
    exact ⟨_, ends_bind.mpr ⟨_, s, hlabel, ends_pure.mpr ⟨rfl, rfl⟩⟩, hset _ rfl⟩
  · dsimp only
    rw [if_neg ‹_›]
    -- A number, written as it is or as a text.
    have hli (himmediate : o.isImmediate = true) (hrender : o.toImm.render = o.render)
        (hw : (Numeral.read? 0 o.render).map (.ofInt 32) = some w) :
        ∃ ls, Ends input (if o.isImmediate = true then pure [.code (.li r o.toImm)] else
          loadLabel r o) s ls s ∧
          ∃ c', c.run (assembled ls) = some c' ∧ c.Sets r w c' := by
      obtain ⟨n, hn, rfl⟩ := Option.map_eq_some_iff.mp hw
      rw [if_pos himmediate]
      refine ⟨_, ends_pure.mpr ⟨rfl, rfl⟩, hset _ ?_⟩
      show c.run [.li r ((Numeral.read? 0 o.toImm.render).elim o.toImm .int)] = _
      rw [hrender, hn]
      rfl
    cases o with
    | int n => exact hli rfl rfl hw
    | text t =>
      refine hli ?_ (Imm.render_ofText t) hw
      obtain ⟨n, hn, -⟩ := Option.map_eq_some_iff.mp hw
      rw [Operand.isImmediate, show Numeral.read? 0 t = some n from hn,
        Option.isSome_some, Bool.or_true]
    | _ => cases hw

/-- The register that an operand is brought into: that of a temporary, or a temporary that nobody
uses. -/
def Holds (a : Allocator) (o : Operand) (r : Reg) : Prop :=
  if o.isTempName then a.map.get? o.render = some r else r ∈ Reg.temporaries ∧ r ∉ a.used

variable {a b : Operand} {al : Allocator} {r₁ r₂ : Reg} {u v : Word} {k : Nat} {op : Op}

theorem Holds.nonzero (h : Holds al o r) (hal : al.Roomy k) : r ≠ .zero := by
  unfold Holds at h
  split at h
  · exact hal.nonzero h
  · rintro rfl
    exact absurd h.1 (by decide)

/-- What is in use, and what is no temporary at all, is not touched by the loading of an operand. -/
theorem Holds.kept (h : Holds al o r) {c' : Cpu} (hw : word? input al.map c o = some w)
    (hset : c.Sets r w c') (x : Reg) (hx : x ∈ al.used ∨ x ∉ Reg.temporaries) :
    c'.get x = c.get x := by
  by_cases hxr : x = r
  · subst hxr
    unfold Holds at h
    split at h
    · unfold word? at hw
      grind
    · exact (hx.elim h.2 fun hx => hx h.1).elim
  · exact hset.others x hxr

/-- Two operands that are loaded one behind the other. Where both take the same register, the second
one stays. -/
theorem loadOperands_run (hal : al.Roomy k) (ha : word? input al.map c a = some u)
    (hb : word? input al.map c b = some v) (h₁ : Holds al a r₁) (h₂ : Holds al b r₂) (s : Select) :
    ∃ ls ms, Ends input (loadOperand a r₁) s ls s ∧
      Ends input (loadOperand b r₂) s ms s ∧ ∃ c',
        c.run (assembled (ls ++ ms)) = some c' ∧ c'.get r₂ = v ∧
        (r₁ ≠ r₂ ∨ b.isTempName = true → c'.get r₁ = u) ∧ c'.mem = c.mem ∧
        ∀ x, x ∈ al.used ∨ x ∉ Reg.temporaries → c'.get x = c.get x := by
  have htemp {o r} (h : Holds al o r) (ho : o.isTempName = true) :
    al.map.get? o.render = some r := by
    rwa [Holds, if_pos ho] at h
  obtain ⟨ls, hls, c₁, hrun₁, hset₁⟩ := loadOperand_sets (s := s) ha (h₁.nonzero hal) (htemp h₁)
  have hkept₁ := h₁.kept ha hset₁
  have hb₁ : word? input al.map c₁ b = some v :=
    (word?_congr hset₁.mem hset₁.labels (hkept₁ .fp (.inr (by decide))) fun r hr =>
      hkept₁ r (.inl (hal.used hr))).trans hb
  obtain ⟨ms, hms, c₂, hrun₂, hset₂⟩ := loadOperand_sets (s := s) hb₁ (h₂.nonzero hal) (htemp h₂)
  have hkept₂ := h₂.kept hb₁ hset₂
  refine ⟨ls, ms, hls, hms, c₂, ?_, hset₂.word, fun h => ?_, hset₂.mem.trans hset₁.mem,
    fun x hx => (hkept₂ x hx).trans (hkept₁ x hx)⟩
  · rw [assembled_append, Cpu.run_append, hrun₁]
    exact hrun₂
  · grind

/-! ## Arithmetic -/

/-- A whole number as a word, if it is one. -/
def fit? (n : Int) : Option Word := if -2 ^ 31 ≤ n ∧ n < 2 ^ 31 then some (.ofInt 32 n) else none

/-- An operator on whole numbers, as words. Sums and differences that are no words stop the machine;
products are cut off, and quotients rounded towards zero. A quotient by zero is no word. -/
def arith? (op : Op) (x y : Int) : Option Word :=
  match op with
  | .add => fit? (x + y)
  | .sub => fit? (x - y)
  | .mul => some (.ofInt 32 (x * y))
  | .div => if y = 0 then none else some (.ofInt 32 (x.tdiv y))
  | _ => none

theorem compute?_eq_arith? {alu : AluOp} (h : aluOp? op = some alu) (a b : Word) :
    alu.compute? a b = arith? op a.toInt b.toInt := by
  cases op <;> cases h
  · show (if a.saddOverflow b then none else some (a + b)) = fit? _
    rw [fit?, BitVec.ofInt_add, BitVec.ofInt_toInt, BitVec.ofInt_toInt, BitVec.saddOverflow]
    split <;> split <;> simp_all
    all_goals omega
  · show (if a.ssubOverflow b then none else some (a - b)) = fit? _
    rw [fit?, Int.sub_eq_add_neg, BitVec.ofInt_add, BitVec.ofInt_neg, BitVec.ofInt_toInt,
      BitVec.ofInt_toInt,
      BitVec.ssubOverflow, ← BitVec.sub_eq_add_neg]
    split <;> split <;> simp_all
    all_goals omega
  · show some (a * b) = some _
    rw [BitVec.ofInt_mul, BitVec.ofInt_toInt, BitVec.ofInt_toInt]

theorem sdiv_eq_ofInt (a b : Word) : a.sdiv b = .ofInt 32 (a.toInt.tdiv b.toInt) := by
  apply BitVec.eq_of_toInt_eq
  rw [BitVec.toInt_sdiv, BitVec.toInt_ofInt]

theorem otherThan_of_exists (rs : List Reg) (h : ∃ r ∈ Reg.temporaries, r ∉ rs) :
    ∃ r, otherThan rs = some r ∧ r ∈ Reg.temporaries ∧ r ∉ rs := by
  obtain ⟨t, ht, hnot⟩ := h
  exact Allocator.find?_unused ht hnot

variable {q : Quad} {d : Reg} {s₁ : Select} {ls ms : List Line}

theorem ends_ite_bind {α β : Type} {p : Prop} [Decidable p] {m n : SelectM α} {f : α → SelectM β}
    {y : β} :
    Ends input (if p then m >>= f else n >>= f) s y s' ↔
      ∃ x s₁, Ends input (if p then m else n) s x s₁ ∧ Ends input (f x) s₁ y s' := by
  split <;> exact ends_bind

theorem exists_mapped (hw : word? input map c o = some w) (ho : o.isTempName = true) :
    ∃ r, map.get? o.render = some r := by
  unfold word? at hw
  rw [if_pos ho] at hw
  exact (Option.map_eq_some_iff.mp hw).imp fun _ => And.left

/-- The register that an operand has already: only temporaries have one. -/
theorem ownReg_ends (hw : word? input s.alloc.map c o = some w) : ∃ r?,
    Ends input (if o.isTempName then some <$> reg o else pure none) s r? s ∧
      (o.isTempName = true ∧ (∃ r, r? = some r ∧ s.alloc.map.get? o.render = some r) ∨
        ¬ o.isTempName = true ∧ r? = none) := by
  by_cases ho : o.isTempName = true
  · obtain ⟨r, hr⟩ := exists_mapped hw ho
    rw [if_pos ho]
    exact ⟨some r, ends_map.mpr ⟨r, reg_mapped (Allocator.isName_of_isTempName ho) hr, rfl⟩,
      .inl ⟨ho, r, rfl, hr⟩⟩
  · grind

/-- Temporaries keep their registers, and the other operands of a sum take two that nobody uses. -/
theorem operandRegs_ends (h : s.alloc.Roomy 2) (hd : d ∈ s.alloc.used)
    (ha : word? input s.alloc.map c a = some u) (hb : word? input s.alloc.map c b = some v) :
    ∃ r₁ r₂, Ends input (operandRegs d a b) s (r₁, r₂) s ∧
      Holds s.alloc a r₁ ∧ Holds s.alloc b r₂ ∧ (r₁ ≠ r₂ ∨ b.isTempName = true) := by
  obtain ⟨left?, hleft, hown⟩ := ownReg_ends ha
  obtain ⟨right?, hright, hown'⟩ := ownReg_ends hb
  refine ⟨_, _, ends_ite_bind.mpr ⟨left?, s, hleft, ends_ite_bind.mpr ⟨right?, s, hright, rfl⟩⟩, ?_⟩
  generalize hr₁ : left?.getD (leftReg s.alloc.used d right?) = r₁
  have hfirst : Holds s.alloc a r₁ := by
    rw [Holds]
    obtain ⟨ho, r, rfl, hr⟩ | ⟨ho, rfl⟩ := hown
    · rwa [if_pos ho, ← hr₁]
    · rw [if_neg ho, ← hr₁]
      obtain ⟨t, ht, hunused, -⟩ := h.exists_unused [] Nat.two_pos
      have hright : ∀ r ∈ right?.toList, r ∈ s.alloc.used := by
        grind
      obtain ⟨r, hother, hr, hnot⟩ :=
        otherThan_of_exists (d :: right?.toList ++ s.alloc.used) ⟨t, ht, by
        grind⟩
      rw [Option.getD_none, leftReg, hother]
      exact ⟨hr, fun h => hnot (.tail _ (List.mem_append_right _ h))⟩
  obtain ⟨ho, r, rfl, hr⟩ | ⟨ho, rfl⟩ := hown'
  · exact ⟨hfirst, by rwa [Holds, if_pos ho], .inr ho⟩
  · obtain ⟨t, ht, hunused, hne⟩ := h.exists_unused [r₁] Nat.one_lt_two
    obtain ⟨r, hother, hr, hnot⟩ := otherThan_of_exists (d :: r₁ :: s.alloc.used) ⟨t, ht, by
      grind⟩
    rw [Option.getD_none, rightReg, hother]
    simp only [List.mem_cons, not_or] at hnot
    refine ⟨hfirst, ?_, .inl fun h => hnot.2.1 h.symm⟩
    rw [Holds, if_neg ho]
    exact ⟨hr, hnot.2.2⟩

theorem word?_gives {al' : Allocator} {x : String} (hgives : al.Gives x d al')
    (hw : word? input al.map c o = some w) :
    word? input al'.map c o = some w := by
  unfold word? at hw ⊢
  split at hw
  · rw [if_pos ‹_›]
    obtain ⟨r, hr, rfl⟩ := Option.map_eq_some_iff.mp hw
    rw [hgives.keeps hr, Option.map_some]
  · rwa [if_neg ‹_›]

/-- The instructions of an operator, for operands in registers. -/
def operate (op : Op) (d a b : Reg) : List Line :=
  match aluOp? op with
  | some op => [.code (.alu op d a b)]
  | none => [.code (.div a b), .noted (.mflo d) "quotient"]

theorem operate_run (hop : op ∈ [.add, .sub, .mul, .div]) (hd : d ≠ .zero) (r₁ r₂ : Reg) :
    (arith? op (c.get r₁).toInt (c.get r₂).toInt).elim
    (c.run (assembled (operate op d r₁ r₂)) = none) fun w =>
      ∃ c', c.run (assembled (operate op d r₁ r₂)) = some c' ∧ c.Sets d w c' := by
  cases halu : aluOp? op with
  | some alu =>
    have hcode : c.run (assembled (operate op d r₁ r₂)) =
      (alu.compute? (c.get r₁) (c.get r₂)).map (c.set d) := by
      rw [operate, halu]
      exact Option.bind_fun_some _
    rw [hcode, ← compute?_eq_arith? halu]
    cases alu.compute? (c.get r₁) (c.get r₂) with
    | none => rfl
    | some w => exact ⟨_, rfl, Cpu.sets_set w hd⟩
  | none =>
    obtain rfl : op = .div := by
      simp only [List.mem_cons, List.not_mem_nil, or_false] at hop
      rcases hop with rfl | rfl | rfl | rfl <;> first | rfl | cases halu
    have hzero : (c.get r₂).toInt = 0 ↔ c.get r₂ = 0 := BitVec.toInt_inj (y := 0)
    have hcode : c.run (assembled (operate .div d r₁ r₂)) = (c.exec (.div r₁ r₂)).bind
      (·.run [.mflo d]) := rfl
    rw [hcode, arith?, Cpu.exec]
    by_cases h : c.get r₂ = 0
    · rw [if_pos (hzero.mpr h), if_pos h]
      rfl
    · rw [if_neg (mt hzero.mp h), if_neg h]
      exact ⟨_, rfl, (Cpu.get_set_self hd).trans (sdiv_eq_ofInt _ _),
        fun x hx => Cpu.get_set_of_ne hx, rfl, rfl⟩

theorem quad_arithmetic (hop : q.op ∈ [.add, .sub, .mul, .div]) (hskip : s.skipping = false)
    (hmember : isMemberAddress q = false)
    (hjoin : q.op = .add → Ends input (isConcat q.arg1 q.arg2) s false s)
    (hresult : q.result.isTempName = true) (hreg : Ends input (reg q.result) s d s₁)
    (hregs : Ends input (operandRegs d q.arg1 q.arg2) s₁ (r₁, r₂) s₁)
    (hls : Ends input (loadOperand q.arg1 r₁) s₁ ls s₁)
    (hms : Ends input (loadOperand q.arg2 r₂) s₁ ms s₁) :
    Ends input (quad q) s (ls ++ ms ++ operate q.op d r₁ r₂)
      { s₁ with types := s₁.types.put q.result.render "int" } := by
  -- The part that all four operators share.
  have hcompute : Ends input (do
      let d ← reg q.result
      let rs ← operandRegs d q.arg1 q.arg2
      let first ← loadOperand q.arg1 rs.1
      let second ← loadOperand q.arg2 rs.2
      if q.result.isTempName then setType q.result "int"
      return first ++ second ++ operate q.op d rs.1 rs.2) s (ls ++ ms ++ operate q.op d r₁ r₂)
        { s₁ with types := s₁.types.put q.result.render "int" } := by
    refine ends_bind.mpr ⟨d, s₁, hreg, ends_bind.mpr ⟨_, s₁, hregs, ends_bind.mpr ⟨ls, s₁, hls,
      ends_bind.mpr ⟨ms, s₁, hms, ?_⟩⟩⟩⟩
    rw [if_pos hresult]
    exact ends_modify_bind.mpr (ends_pure.mpr ⟨rfl, rfl⟩)
  obtain ⟨op, a, b, result, remark?⟩ := q
  unfold quad
  rw [ends_get_bind, hskip, if_neg Bool.false_ne_true]
  simp only [List.mem_cons, List.not_mem_nil, or_false] at hop
  rcases hop with rfl | rfl | rfl | rfl
  · dsimp only
    rw [not_isStackPointer hresult, Bool.and_false, if_neg Bool.false_ne_true, arithmetic, hmember,
      if_neg Bool.false_ne_true]
    exact ends_bind.mpr ⟨false, s, hjoin rfl, hcompute⟩
  all_goals
    dsimp only
    rw [arithmetic, hmember, if_neg Bool.false_ne_true]
    exact hcompute

/-- The code of an operator on numbers leaves its value in the register of the result. It takes no
register from anybody. -/
theorem arithmetic_correct (hop : q.op ∈ [.add, .sub, .mul, .div]) (hskip : s.skipping = false)
    (hmember : isMemberAddress q = false)
    (hjoin : q.op = .add → Ends input (isConcat q.arg1 q.arg2) s false s)
    (hresult : q.result.isTempName = true) (hroom : s.alloc.Roomy 3)
    (ha : word? input s.alloc.map c q.arg1 = some u)
    (hb : word? input s.alloc.map c q.arg2 = some v) : ∃ ls s' d, Ends input (quad q) s ls s' ∧
      s'.alloc.map.get? q.result.render = some d ∧
      (∀ x r, s.alloc.map.get? x = some r → s'.alloc.map.get? x = some r) ∧
      Computes s'.alloc.map q.result.render d (arith? q.op u.toInt v.toInt) c (assembled ls) := by
  obtain ⟨d, al, hreg, hroomy, hgives⟩ :=
    reg_gives input (Allocator.isName_of_isTempName hresult) hroom
  replace ha := word?_gives hgives ha
  replace hb := word?_gives hgives hb
  obtain ⟨r₁, r₂, hregs, h₁, h₂, hne⟩ :=
    operandRegs_ends (s := { s with alloc := al }) hroomy (hroomy.used hgives.has) ha hb
  obtain ⟨ls, ms, hls, hms, c', hrun, hvb, hva, hmem, hkept⟩ :=
    loadOperands_run hroomy ha hb h₁ h₂ { s with alloc := al }
  refine ⟨_, _, d, quad_arithmetic hop hskip hmember hjoin hresult hreg hregs hls hms, hgives.has,
    fun x r => hgives.keeps, ?_⟩
  have hcode := operate_run (c := c') hop (hroomy.nonzero hgives.has) r₁ r₂
  rw [hva hne, hvb] at hcode
  have hall : c.run (assembled (ls ++ ms ++ operate q.op d r₁ r₂)) =
    c'.run (assembled (operate q.op d r₁ r₂)) := by
    rw [assembled_append, Cpu.run_append, hrun]
    rfl
  rw [Computes, hall]
  cases harith : arith? q.op u.toInt v.toInt with
  | none => rwa [harith] at hcode
  | some w =>
    rw [harith] at hcode
    obtain ⟨c'', hrun', hset⟩ := hcode
    refine ⟨c'', hrun', hset.word, hset.mem.trans hmem, fun y r hy hr => ?_⟩
    rw [hset.others r fun h => hy (hroomy.inj (h ▸ hr) hgives.has), hkept r (.inl (hroomy.used hr))]

/-- The quotient of a variable and a temporary. -/
theorem arithmetic_correct_quotient : ∃ ls s' d,
    Ends { slots := [("x", .address 0x1000)] }
      (quad { op := .div, arg1 := .address 0x1000, arg2 := .temp 0, result := .temp 1 })
      { alloc := { map := [((Operand.temp 0).render, .t 0)], used := [.t 0] } } ls s' ∧
    s'.alloc.map.get? (Operand.temp 1).render = some d ∧
    (∀ x r, Assoc.get? [((Operand.temp 0).render, Reg.t 0)] x = some r →
      s'.alloc.map.get? x = some r) ∧
    Computes s'.alloc.map (Operand.temp 1).render d (some 3)
      { reg := fun _ => 2, mem := fun _ => 7, labels := fun _ => 0 } (assembled ls) :=
  arithmetic_correct (u := 7) (v := 2) (by decide) rfl rfl (fun h => by cases h) rfl
    (Allocator.roomy_single (by decide) _)
    rfl (by simp [word?, Assoc.get?, Operand.isTempName]; rfl)

/-! ## Comparisons -/

/-- Whether a comparison of whole numbers holds. -/
def compares (op : Op) (x y : Int) : Bool :=
  match op with
  | .lt => x < y
  | .le => x ≤ y
  | .gt => y < x
  | .ge => y ≤ x
  | .eq => x = y
  | .ne => x ≠ y
  | _ => false

/-- Words differ exactly if some bit does. -/
theorem xor_ult_one (a b : Word) : (a ^^^ b).ult 1 = decide (a.toInt = b.toInt) := by
  rw [Bool.eq_iff_iff, decide_eq_true_iff, BitVec.toInt_inj, ← BitVec.xor_eq_zero_iff]
  simp [BitVec.ult, ← BitVec.toNat_inj]

theorem zero_ult_xor (a b : Word) : (0 : Word).ult (a ^^^ b) = decide (a.toInt ≠ b.toInt) := by
  rw [Bool.eq_iff_iff, decide_eq_true_iff, Ne, BitVec.toInt_inj, ← BitVec.xor_eq_zero_iff]
  simp [BitVec.ult, ← BitVec.toNat_inj, Nat.pos_iff_ne_zero]

theorem slt_xor_one (a b : Word) :
    (if a.slt b then (1 : Word) else 0) ^^^ 1 = if decide (b.toInt ≤ a.toInt) then 1 else 0 := by
  unfold BitVec.slt
  by_cases h : a.toInt < b.toInt
  · simp [h, Int.not_le.mpr h]
  · simp [h, Int.not_lt.mp h]

theorem compareRegs_run (hop : op ∈ [.lt, .le, .gt, .ge, .eq, .ne]) {m : Reg} (hd : d ≠ .zero)
    (hm : m ≠ .zero) (r₁ r₂ : Reg) :
    ∃ c', c.run (assembled (lines (compareRegs op d r₁ r₂ m))) = some c' ∧
      c'.get d = (if compares op (c.get r₁).toInt (c.get r₂).toInt then 1 else 0) ∧ c'.mem = c.mem ∧
      ∀ x, x ≠ d → x ≠ m → c'.get x = c.get x := by
  have hone (c : Cpu) (w : Word) (x : Reg) (hx : x ≠ d) (_ : x ≠ m) : (c.set d w).get x = c.get x :=
    Cpu.get_set_of_ne hx
  simp only [List.mem_cons, List.not_mem_nil, or_false] at hop
  rcases hop with rfl | rfl | rfl | rfl | rfl | rfl
  -- The two that turn the outcome round go by the scratch register.
  iterate 2
    · exact ⟨_, rfl, Cpu.get_set_self hd, rfl, hone c _⟩
    · refine ⟨_, rfl, (Cpu.get_set_self hd).trans ?_, rfl,
        fun x hx hx' => (hone _ _ x hx hx').trans (Cpu.get_set_of_ne hx')⟩
      rw [Cpu.get_set_self hm]
      exact slt_xor_one _ _
  · refine ⟨_, rfl, (Cpu.get_set_self hd).trans ?_, rfl,
      fun x hx hx' => (hone _ _ x hx hx').trans (hone _ _ x hx hx')⟩
    rw [Cpu.get_set_self hd]
    exact congrArg (fun b : Bool => if b then (1 : Word) else 0) (xor_ult_one _ _)
  · refine ⟨_, rfl, (Cpu.get_set_self hd).trans ?_, rfl,
      fun x hx hx' => (hone _ _ x hx hx').trans (hone _ _ x hx hx')⟩
    rw [Cpu.get_set_self hd]
    exact congrArg (fun b : Bool => if b then (1 : Word) else 0) (zero_ult_xor _ _)

/-- The register for an operand of a comparison: its own, or one for the moment. -/
theorem comparedReg_ends (hroom : s.alloc.Roomy (k + 1))
    (hfree : ∀ r ∈ s.alloc.free, r ∈ Reg.temporaries) (hw : word? input s.alloc.map c o = some w) :
    ∃ r, Ends input (if o.isTempName then reg o else scratch) s r s ∧
      Holds s.alloc o r ∧ (¬ o.isTempName = true → r = s.alloc.scratch) := by
  unfold Holds
  by_cases ho : o.isTempName = true
  · obtain ⟨r, hr⟩ := exists_mapped hw ho
    simp only [if_pos ho]
    exact ⟨r, reg_mapped (Allocator.isName_of_isTempName ho) hr, hr, fun h => absurd ho h⟩
  · simp only [if_neg ho]
    exact ⟨_, rfl, hroom.scratch hfree, fun _ => rfl⟩

theorem Holds.used (h : Holds al o r) (ho : o.isTempName = true) (hal : al.Roomy k) :
    r ∈ al.used := by
  rw [Holds, if_pos ho] at h
  exact hal.used h

/-- Registers for a comparison. Two operands without a register get the same one. -/
theorem comparedRegs_ends (hroom : s.alloc.Roomy (k + 1))
    (hfree : ∀ r ∈ s.alloc.free, r ∈ Reg.temporaries)
    (ha : word? input s.alloc.map c q.arg1 = some u)
    (hb : word? input s.alloc.map c q.arg2 = some v) (hreg : Ends input (reg q.result) s d s₁) :
    ∃ r₁ r₂, Ends input (comparedRegs q) s (r₁, r₂, d) s₁ ∧
      Holds s.alloc q.arg1 r₁ ∧ Holds s.alloc q.arg2 r₂ ∧
      (if q.arg1.isTempName || q.arg2.isTempName then r₁ ≠ r₂ ∨
        q.arg2.isTempName = true else r₁ = r₂) := by
  obtain ⟨r₁, hr₁, h₁, hs₁⟩ := comparedReg_ends hroom hfree ha
  obtain ⟨r₂, hr₂, h₂, hs₂⟩ := comparedReg_ends hroom hfree hb
  have hagain : ¬ (r₁ = r₂ && !q.arg1.isTempName && q.arg2.isTempName) = true := by
    simp only [Bool.and_eq_true, decide_eq_true_eq, Bool.not_eq_true', not_and]
    rintro ⟨rfl, hleft⟩ hright
    rw [Holds, hleft] at h₁
    exact h₁.2 (h₂.used hright hroom)
  refine ⟨r₁, r₂, ?_, h₁, h₂, ?_⟩
  · refine ends_ite_bind.mpr
      ⟨r₁, s, hr₁, ends_ite_bind.mpr ⟨r₂, s, hr₂, ends_bind.mpr ⟨d, s₁, hreg, ?_⟩⟩⟩
    rw [if_neg hagain]
    rfl
  · cases hright : q.arg2.isTempName with
    | true => simp
    | false =>
      rw [Bool.or_false]
      split
      · rw [Holds, hright] at h₂
        exact .inl fun h => h₂.2 (h ▸ h₁.used ‹_› hroom)
      · rw [hs₁ ‹_›, hs₂ (hright ▸ Bool.false_ne_true)]

theorem quad_comparison (hop : q.op ∈ [.lt, .le, .gt, .ge, .eq, .ne]) (hskip : s.skipping = false)
    (hstring : q.op = .eq ∨ q.op = .ne → Ends input (anyString q.arg1 q.arg2) s false s)
    (hregs : Ends input (comparedRegs q) s (r₁, r₂, d) s₁)
    (hls : Ends input (loadOperand q.arg1 r₁) s₁ ls s₁)
    (hms : Ends input (loadOperand q.arg2 r₂) s₁ ms s₁) : Ends input (quad q) s
      (ls ++ ms ++ lines (compareRegs q.op d r₁ r₂ s₁.alloc.scratch)) s₁ := by
  have hcompare : Ends input (do
      let rs ← comparedRegs q
      let first ← loadOperand q.arg1 rs.1
      let second ← loadOperand q.arg2 rs.2.1
      return first ++ second ++ lines (compareRegs q.op rs.2.2 rs.1 rs.2.1 (← scratch))) s
        (ls ++ ms ++ lines (compareRegs q.op d r₁ r₂ s₁.alloc.scratch)) s₁ :=
    ends_bind.mpr ⟨_, s₁, hregs, ends_bind.mpr ⟨ls, s₁, hls, ends_bind.mpr ⟨ms, s₁, hms, rfl⟩⟩⟩
  obtain ⟨op, a, b, result, remark?⟩ := q
  unfold quad
  rw [ends_get_bind, hskip, if_neg Bool.false_ne_true]
  simp only [List.mem_cons, List.not_mem_nil, or_false] at hop
  rcases hop with rfl | rfl | rfl | rfl | rfl | rfl
  iterate 4 exact hcompare
  · exact ends_bind.mpr ⟨false, s, hstring (.inl rfl), hcompare⟩
  · exact ends_bind.mpr ⟨false, s, hstring (.inr rfl), hcompare⟩

/-- What a comparison comes to. The code leaves the truth value in the register of the result, and
takes no register from anybody; but unless one of the operands is a temporary it compares the second
one with itself. -/
theorem comparison_outcome (hop : q.op ∈ [.lt, .le, .gt, .ge, .eq, .ne])
    (hskip : s.skipping = false)
    (hstring : q.op = .eq ∨ q.op = .ne → Ends input (anyString q.arg1 q.arg2) s false s)
    (hresult : q.result.isTempName = true) (hroom : s.alloc.Roomy 2)
    (hfree : ∀ r ∈ s.alloc.free, r ∈ Reg.temporaries)
    (ha : word? input s.alloc.map c q.arg1 = some u)
    (hb : word? input s.alloc.map c q.arg2 = some v) :
    ∃ ls s' d, Ends input (quad q) s ls s' ∧ s'.alloc.map.get? q.result.render = some d ∧
      (∀ x r, s.alloc.map.get? x = some r → s'.alloc.map.get? x = some r) ∧
      Computes s'.alloc.map q.result.render d (some (if compares q.op
        (if q.arg1.isTempName || q.arg2.isTempName then u else v).toInt v.toInt then 1 else
          0)) c (assembled ls) := by
  obtain ⟨d, al, hreg, hroomy, hgives⟩ :=
    reg_gives input (Allocator.isName_of_isTempName hresult) hroom
  obtain ⟨r₁, r₂, hregs, h₁, h₂, hsame⟩ := comparedRegs_ends hroom hfree ha hb hreg
  obtain ⟨ls, ms, hls, hms, c', hrun, hvb, hva, hmem, hkept⟩ :=
    loadOperands_run hroom ha hb h₁ h₂ { s with alloc := al }
  -- Two operands without a register are given the same one, and the second is loaded last.
  have hfirst : c'.get r₁ = if q.arg1.isTempName || q.arg2.isTempName then u else v := by
    split at hsame
    · rw [if_pos ‹_›, hva hsame]
    · rw [if_neg ‹_›, hsame, hvb]
  obtain ⟨hm, hunused⟩ := hroomy.scratch fun r hr => hfree r (hgives.free r hr)
  obtain ⟨c'', hrun', hword, hmem', hkept'⟩ := compareRegs_run (c := c') hop
    (hroomy.nonzero hgives.has) (m := al.scratch)
    (by rintro h; rw [h] at hm; exact absurd hm (by decide)) r₁ r₂
  refine ⟨_, _, d, quad_comparison hop hskip hstring hregs hls hms, hgives.has,
    fun x r => hgives.keeps,
    c'', ?_, ?_, hmem'.trans hmem, fun y r hy hr => ?_⟩
  · rw [assembled_append, Cpu.run_append, hrun]
    exact hrun'
  · rw [hword, hfirst, hvb]
  · have hmapped : s.alloc.map.get? y = some r := (hgives.others y hy).symm.trans hr
    rw [hkept' r (fun h => hy (hroomy.inj (h ▸ hr) hgives.has))
      (fun h => hunused (h ▸ hroomy.used hr)),
      hkept r (.inl (hroom.used hmapped))]

/-- A variable is compared with a temporary. -/
theorem comparison_outcome_temporary : ∃ ls s' d,
    Ends { slots := [("x", .address 0x1000)] }
      (quad { op := .le, arg1 := .address 0x1000, arg2 := .temp 0, result := .temp 1 })
      { alloc := { map := [((Operand.temp 0).render, .t 0)], used := [.t 0] } } ls s' ∧
    s'.alloc.map.get? (Operand.temp 1).render = some d ∧
    (∀ x r, Assoc.get? [((Operand.temp 0).render, Reg.t 0)] x = some r →
      s'.alloc.map.get? x = some r) ∧
    Computes s'.alloc.map (Operand.temp 1).render d (some 0)
      { reg := fun _ => 2, mem := fun _ => 7, labels := fun _ => 0 } (assembled ls) :=
  comparison_outcome (u := 7) (v := 2) (by decide) rfl (fun h => by simp at h) rfl
    (Allocator.roomy_single (by decide) _) (by decide) rfl
    (by simp [word?, Assoc.get?, Operand.isTempName]; rfl)

/-- Of two variables with the words 3 and 5, the first is not less than the second. -/
theorem comparison_of_variables : ∃ ls s',
    Ends { slots := [("a", .address 0x1000), ("b", .address 0x1004)] }
      (quad { op := .lt, arg1 := .address 0x1000, arg2 := .address 0x1004, result := .temp 0 })
        {} ls s' ∧
    assembled ls = [.lw (.t 0) (.label "var_a"), .lw (.t 0) (.label "var_b"),
      .alu .slt (.t 0) (.t 0) (.t 0)] ∧
    s'.alloc.map.get? (Operand.temp 0).render = some (.t 0) ∧
    ∀ c : Cpu, c.mem (c.labels "var_a") = 3 → c.mem (c.labels "var_b") = 5 →
      (c.run (assembled ls)).map (·.get (.t 0)) = some 0 := by
  refine ⟨_, _, rfl, rfl, Assoc.get?_put_self _ _ _, fun c _ _ => ?_⟩
  have hself (w : Word) : (if w.slt w then (1 : Word) else 0) = 0 := by simp [BitVec.slt]
  exact congrArg some (hself _)

end Select

end Mips

end Scriptc
