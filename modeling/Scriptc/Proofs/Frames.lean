import Scriptc.Proofs.Calls
import Scriptc.Proofs.Selection
import Scriptc.Proofs.Slots

/-!
# Scriptc: opening and closing a frame

`Cpu.exec` says what an instruction of the target machine does to registers and memory, and
`Cpu.run` what instructions in a row do. Words are of 32 bits, so addresses wrap around.

A frame keeps the return address, the old frame pointer and saved registers in the words directly
below the stack pointer of the caller (`keptWord`). The prologue counts them from its own stack
pointer, which depends on the size of the frame; the epilogue counts them from the frame pointer,
last one first. Both come to the same words: `prologue_epilogue_inverse`.

The room for variables is below the frame pointer too, but their offsets are counted upwards from
it, behind the arguments. So a variable is written to a word of the caller: `frame_write_in_caller`.
-/

namespace Scriptc.Mips

/-! ## The machine -/

abbrev Word := BitVec 32

structure Cpu where
  reg : Reg → Word
  /-- The word at each address. -/
  mem : Word → Word
  /-- The address of each label. -/
  labels : String → Word
  /-- Quotient and remainder of the last division. -/
  lo : Word := 0
  hi : Word := 0
  /-- Where the last jump through a register went. -/
  target? : Option Word := none

/-- A sum or a difference that needs more bits stops the machine. -/
def AluOp.compute? (a b : Word) : AluOp → Option Word
  | add => if a.saddOverflow b then none else some (a + b)
  | addu => some (a + b)
  | sub => if a.ssubOverflow b then none else some (a - b)
  | mul => some (a * b)
  | slt => some (if a.slt b then 1 else 0)
  | sltu => some (if a.ult b then 1 else 0)
  | xor => some (a ^^^ b)
  | and => some (a &&& b)
  | or => some (a ||| b)

def ImmOp.compute (a b : Word) : ImmOp → Word
  | addiu => a + b
  | xori => a ^^^ b
  | sltiu => if a.ult b then 1 else 0

namespace Cpu

variable {c : Cpu} {r x : Reg} {w : Word}

def get (c : Cpu) (r : Reg) : Word := if r = .zero then 0 else c.reg r

def set (c : Cpu) (r : Reg) (w : Word) : Cpu :=
  { c with reg := fun x => if x = r then w else c.reg x }

def store (c : Cpu) (a w : Word) : Cpu := { c with mem := fun x => if x = a then w else c.mem x }

def address? (c : Cpu) : Addr → Option Word
  | .at_ (.int n) r => some (c.get r + .ofInt 32 n)
  | .at_ (.text _) _ => none
  | .label l => some (c.labels l)

/-- What an instruction does. There is no result where it leaves the code at hand other than through
a register, where a number in it is none, and where it divides by zero, of which the machine says
nothing. -/
def exec (c : Cpu) : Instr → Option Cpu
  | .alu op d a b => (op.compute? (c.get a) (c.get b)).map (c.set d)
  | .alui op d a (.int n) => some (c.set d (op.compute (c.get a) (.ofInt 32 n)))
  | .li d (.int n) => some (c.set d (.ofInt 32 n))
  | .mem .lw r a => (c.address? a).map fun a => c.set r (c.mem a)
  | .mem .sw r a => (c.address? a).map fun a => c.store a (c.get r)
  | .mem .la r a => (c.address? a).map (c.set r)
  | .move d s => some (c.set d (c.get s))
  | .neg d s => some (c.set d (-c.get s))
  | .div a b =>
    if c.get b = 0 then none
    else some { c with lo := (c.get a).sdiv (c.get b), hi := (c.get a).srem (c.get b) }
  | .mflo d => some (c.set d c.lo)
  | .mfhi d => some (c.set d c.hi)
  | .jr r => some { c with target? := some (c.get r) }
  | .nop => some c
  | _ => none

/-- What instructions in a row do. -/
def run (c : Cpu) (is : List Instr) : Option Cpu := is.foldlM exec c

theorem run_cons (i : Instr) (is : List Instr) : c.run (i :: is) = (c.exec i).bind (·.run is) := rfl

theorem run_append (is js : List Instr) : c.run (is ++ js) = (c.run is).bind (·.run js) :=
  List.foldlM_append

@[simp] theorem get_set_self (h : r ≠ .zero) : (c.set r w).get r = w := by simp [get, set, h]

@[simp] theorem get_set_of_ne (h : x ≠ r) : (c.set r w).get x = c.get x := by simp [get, set, h]

@[simp] theorem mem_set : (c.set r w).mem = c.mem := rfl

@[simp] theorem get_store (a : Word) : (c.store a w).get x = c.get x := rfl

@[simp] theorem mem_store_self (a : Word) : (c.store a w).mem a = w := if_pos rfl

@[simp] theorem mem_store_of_ne {a b : Word} (h : b ≠ a) : (c.store a w).mem b = c.mem b := if_neg h

theorem exec_addiu (d a : Reg) (n : Int) :
    c.exec (.addiu d a (.int n)) = some (c.set d (c.get a + .ofInt 32 n)) := rfl

theorem exec_sw (r : Reg) (n : Int) :
    c.exec (.sw r (Instr.onStack n)) = some (c.store (c.get .sp + .ofInt 32 n) (c.get r)) := rfl

end Cpu

/-! ## Words of a frame -/

open Instr (onStack)

/-- The `j`-th word below an address. -/
def keptWord (base : Word) (j : Nat) : Word := base + .ofInt 32 (-4 * (j + 1))

theorem keptWord_inj {base : Word} {i j : Nat} (hi : i < 2 ^ 30) (hj : j < 2 ^ 30)
    (h : keptWord base i = keptWord base j) : i = j := by
  have hwords : BitVec.ofInt 32 (-4 * (i + 1)) = BitVec.ofInt 32 (-4 * (j + 1)) := by
    unfold keptWord at h
    bv_omega
  have hnat := congrArg BitVec.toNat hwords
  rw [BitVec.toNat_ofInt, BitVec.toNat_ofInt] at hnat
  omega

namespace Cpu

variable {c : Cpu} {base : Word}

/-- Registers that are stored one below the other, down from the `k`-th word below `base`. The stack
pointer may be anywhere: only the sum with the offset counts. -/
theorem run_saves (rs : List Reg) (k : Nat) (offset : Nat → Int)
    (hoffset : ∀ j, c.get .sp + .ofInt 32 (offset j) = keptWord base j)
    (hroom : k + rs.length ≤ 2 ^ 30) :
    ∃ c', c.run ((rs.zipIdx k).map fun p => .sw p.1 (onStack (offset p.2))) = some c' ∧
      (∀ r, c'.get r = c.get r) ∧
      (∀ a, (∀ j < rs.length, a ≠ keptWord base (k + j)) → c'.mem a = c.mem a) ∧
      ∀ j r, rs[j]? = some r → c'.mem (keptWord base (k + j)) = c.get r := by
  induction rs generalizing c k with
  | nil => exact ⟨c, rfl, fun _ => rfl, fun _ _ => rfl, fun j r h => by simp at h⟩
  | cons r rs ih =>
    rw [List.length_cons] at hroom
    obtain ⟨c', hrun, hregs, hothers, hsaved⟩ :=
      ih (c := c.store (keptWord base k) (c.get r)) (k + 1)
      hoffset (by omega)
    refine ⟨c', ?_, hregs, fun a ha => ?_, fun j r' hr' => ?_⟩
    -- The word of `r` is written first, and the others lie above it.
    · rw [List.zipIdx_cons, List.map_cons, run_cons, exec_sw, hoffset]
      exact hrun
    · have hlater : ∀ j < rs.length, a ≠ keptWord base (k + 1 + j) := fun j hj => by
        rw [Nat.succ_add_eq_add_succ]
        exact ha (j + 1) (Nat.succ_lt_succ hj)
      exact (hothers a hlater).trans (mem_store_of_ne (ha 0 (Nat.succ_pos _)))
    · cases j with
      | zero =>
        rw [List.getElem?_cons_zero, Option.some.injEq] at hr'
        -- Its word is not written again.
        have hlater : ∀ j < rs.length,
          keptWord base k ≠ keptWord base (k + 1 + j) := fun j hj h => by
          have := keptWord_inj (by omega) (by omega) h
          omega
        rw [← hr', Nat.add_zero, hothers _ hlater, mem_store_self]
      | succ j =>
        rw [← Nat.succ_add_eq_add_succ]
        exact hsaved j r' hr'

/-- Registers that are loaded one behind the other, up from the `k`-th word above the stack
pointer. -/
theorem run_loads (rs : List Reg) (k : Nat) (hnodup : rs.Nodup)
    (hregs : ∀ r ∈ rs, r ≠ .sp ∧ r ≠ .zero) :
    ∃ c', c.run ((rs.zipIdx k).map fun p => .lw p.1 (onStack (4 * p.2))) =
      some c' ∧ c'.mem = c.mem ∧
      (∀ r, r ∉ rs → c'.get r = c.get r) ∧
      ∀ j r, rs[j]? = some r → c'.get r = c.mem (c.get .sp + .ofInt 32 (4 * (k + j : Nat))) := by
  induction rs generalizing c k with
  | nil => exact ⟨c, rfl, rfl, fun _ _ => rfl, fun j r h => by simp at h⟩
  | cons r rs ih =>
    obtain ⟨hnot, hnodup⟩ := List.nodup_cons.mp hnodup
    obtain ⟨hsp, hzero⟩ := hregs r (.head _)
    obtain ⟨c', hrun, hmem, hothers, hloaded⟩ :=
      ih (c := c.set r (c.mem (c.get .sp + .ofInt 32 (4 * k))))
      (k + 1) hnodup fun r' hr' => hregs r' (.tail _ hr')
    refine ⟨c', hrun, hmem, fun r' hr' => ?_, fun j r' hr' => ?_⟩
    · rw [List.mem_cons, not_or] at hr'
      rw [hothers r' hr'.2, get_set_of_ne hr'.1]
    · cases j with
      | zero =>
        rw [List.getElem?_cons_zero, Option.some.injEq] at hr'
        rw [← hr', hothers r hnot, get_set_self hzero, Nat.add_zero]
      | succ j =>
        rw [hloaded j r' hr', mem_set, get_set_of_ne (Ne.symm hsp), Nat.succ_add_eq_add_succ]

end Cpu

/-! ## Prologue and epilogue -/

theorem Imm.minus_ofNat {n : Nat} (h : 0 < n) : Imm.minus n = .int (-n) := by
  have htext : ("-" ++ toString (n : Int)).toList = '-' :: (toString n).toList := by
    rw [String.toList_append]
    rfl
  have hcandidate : Imm.candidate ("-" ++ toString (n : Int)) = .int (-n) := by
    unfold Imm.candidate
    rw [htext]
    simp only [Decimal.read?_toString, Option.map_some, Option.getD_some, Int.ofNat_eq_natCast]
  have hrender : (Imm.int (-n)).render = "-" ++ toString (n : Int) := by
    obtain ⟨m, rfl⟩ := Nat.exists_eq_succ_of_ne_zero (Nat.ne_of_gt h)
    rfl
  unfold Imm.minus Imm.ofText
  dsimp only
  rw [hcandidate, if_pos hrender]

/-- The instructions among lines of code. -/
def instrs (code : List Line) : List Instr := code.filterMap Line.instr?

namespace Select

variable {kept : List Reg} {input : Input} {s : Select} {q : Quad}

/-- All that a prologue keeps is stored in one row, the return address first. -/
theorem instrs_prologue (n : Nat) (kept : List Reg) : instrs (prologue n kept) =
    .addiu .sp .sp (.int (-(8 + 4 * kept.length + n : Nat))) ::
      (((Reg.ra :: .fp :: kept).zipIdx 0).map fun p =>
        Instr.sw p.1 (onStack ((8 + 4 * kept.length + n : Nat) - 4 * (p.2 + 1)))) ++
      [.addiu .fp .sp (.int (8 + 4 * kept.length + n : Nat))] := by
  have htotal : 8 + 4 * (kept.length : Int) + n = (8 + 4 * kept.length + n : Nat) := by omega
  unfold prologue
  dsimp only
  rw [htotal, Imm.minus_ofNat (by omega)]
  generalize 8 + 4 * kept.length + n = total
  have hrow : (kept.zipIdx.map fun p => Instr.sw p.1 (onStack (total - 8 - 4 * (p.2 + 1)))) =
      (kept.zipIdx 2).map fun p => Instr.sw p.1 (onStack (total - 4 * (p.2 + 1))) := by
    rw [List.zipIdx_eq_map_add (i := 2), List.map_map]
    refine List.map_congr_left fun p _ => ?_
    show Instr.sw p.1 (onStack _) = Instr.sw p.1 (onStack _)
    congr 2
    push_cast
    omega
  have hsaves : instrs (kept.zipIdx.map fun p =>
      Line.noted (.sw p.1 (onStack (total - 8 - 4 * (p.2 + 1)))) ("Save " ++ p.1.text)) =
      kept.zipIdx.map fun p => Instr.sw p.1 (onStack (total - 8 - 4 * (p.2 + 1))) := by
    rw [instrs, List.filterMap_map]
    exact congrFun List.filterMap_eq_map _
  unfold instrs at hsaves ⊢
  rw [List.filterMap_append, List.filterMap_append, hsaves, hrow]
  rfl

theorem instrs_epilogue (kept : List Reg) : instrs (epilogue kept) =
    .addiu .sp .fp (.int (-(8 + 4 * kept.length : Nat))) ::
      ((kept.reverse.zipIdx 0).map fun p => Instr.lw p.1 (onStack (4 * p.2))) ++
      (if kept.isEmpty then [] else [.moveSp (4 * kept.length)]) ++
      [.lw .fp (onStack 0), .lw .ra (onStack 4), .moveSp 8, .jr .ra] := by
  have htotal : 8 + 4 * (kept.length : Int) = (8 + 4 * kept.length : Nat) := by omega
  unfold epilogue
  dsimp only
  rw [htotal, Imm.minus_ofNat (by omega)]
  unfold instrs
  rw [List.filterMap_append, List.filterMap_append, List.filterMap_append, List.filterMap_map]
  congr 1
  congr 1
  · exact congrArg₂ _ rfl (congrFun List.filterMap_eq_map _)
  · split <;> rfl

theorem keptWord_of_add {base : Word} {a b : Int} {j : Nat} (h : a + b = -4 * (j + 1)) :
    base + .ofInt 32 a + .ofInt 32 b = keptWord base j := by
  rw [BitVec.add_assoc, ← BitVec.ofInt_add, h, keptWord]

theorem ne_of_isSaved {r : Reg} (h : r.isSaved = true) :
    r ≠ .sp ∧ r ≠ .fp ∧ r ≠ .ra ∧ r ≠ .zero := by
  refine ⟨?_, ?_, ?_, ?_⟩ <;> rintro rfl <;> cases h

theorem run_prologue (n : Nat) (hsaved : ∀ r ∈ kept, r.isSaved = true)
    (hroom : kept.length + 2 ≤ 2 ^ 30) (entry : Cpu) :
    ∃ opened, entry.run (instrs (prologue n kept)) = some opened ∧
      opened.get .fp = entry.get .sp ∧
      ∀ j r, (Reg.ra :: .fp :: kept)[j]? = some r →
        opened.mem (keptWord (entry.get .sp) j) = entry.get r := by
  rw [instrs_prologue]
  generalize htotal : 8 + 4 * kept.length + n = total
  have hsp : (entry.set .sp (entry.get .sp + .ofInt 32 (-total))).get .sp =
      entry.get .sp + .ofInt 32 (-total) := Cpu.get_set_self (by decide)
  obtain ⟨c, hrun, hregs, -, hmem⟩ :=
    Cpu.run_saves (c := entry.set .sp (entry.get .sp + .ofInt 32 (-total)))
    (Reg.ra :: .fp :: kept) 0 (fun j => total - 4 * (j + 1))
    (fun j => show _ = keptWord (entry.get .sp) j by
      rw [hsp]; exact keptWord_of_add (by omega)) (by simp; omega)
  refine ⟨c.set .fp (c.get .sp + .ofInt 32 total), ?_, ?_, fun j r hr => ?_⟩
  · rw [List.cons_append, Cpu.run_cons, Cpu.exec_addiu, Option.bind_some, Cpu.run_append, hrun]
    rfl
  · rw [Cpu.get_set_self (by decide), hregs, hsp, BitVec.add_assoc,
      ← BitVec.ofInt_add, Int.add_left_neg]
    simp
  · have hne : r ≠ .sp := by
      rcases List.mem_cons.mp (List.mem_of_getElem? hr) with rfl | hr
      · decide
      rcases List.mem_cons.mp hr with rfl | hr
      · decide
      · exact (ne_of_isSaved (hsaved r hr)).1
    have := hmem j r hr
    rw [Nat.zero_add, Cpu.get_set_of_ne hne] at this
    exact this

/-- The last instructions of every epilogue. -/
theorem run_return (d : Cpu) : ∃ last,
    d.run [.lw .fp (onStack 0), .lw .ra (onStack 4), .moveSp 8, .jr .ra] = some last ∧
      last.target? = some (d.mem (d.get .sp + .ofInt 32 4)) ∧
        last.get .sp = d.get .sp + .ofInt 32 8 ∧
      last.get .fp = d.mem (d.get .sp + .ofInt 32 0) ∧
      ∀ r, r ≠ .sp → r ≠ .fp → r ≠ .ra → last.get r = d.get r := by
  refine ⟨_, rfl, rfl, rfl, rfl, fun r hsp hfp hra => ?_⟩
  show (((d.set .fp _).set .ra _).set .sp _).get r = d.get r
  rw [Cpu.get_set_of_ne hsp, Cpu.get_set_of_ne hra, Cpu.get_set_of_ne hfp]

theorem run_epilogue (hnodup : kept.Nodup) (hsaved : ∀ r ∈ kept, r.isSaved = true) (body : Cpu) :
    ∃ last, body.run (instrs (epilogue kept)) = some last ∧
      last.target? = some (body.mem (keptWord (body.get .fp) 0)) ∧ last.get .sp = body.get .fp ∧
      last.get .fp = body.mem (keptWord (body.get .fp) 1) ∧
      ∀ j r, kept[j]? = some r → last.get r = body.mem (keptWord (body.get .fp) (j + 2)) := by
  rw [instrs_epilogue]
  generalize hroom : 8 + 4 * kept.length = room
  have hsp : (body.set .sp (body.get .fp + .ofInt 32 (-room))).get .sp =
      body.get .fp + .ofInt 32 (-room) := Cpu.get_set_self (by decide)
  obtain ⟨c, hrun, hmem, hothers, hloaded⟩ := Cpu.run_loads
    (c := body.set .sp (body.get .fp + .ofInt 32 (-room))) kept.reverse 0
    (List.nodup_reverse.mpr hnodup)
    fun r hr => have h := ne_of_isSaved (hsaved r (List.mem_reverse.mp hr)); ⟨h.1, h.2.2.2⟩
  have hcsp : c.get .sp = body.get .fp + .ofInt 32 (-room) := by
    rw [hothers .sp fun h => (ne_of_isSaved (hsaved _ (List.mem_reverse.mp h))).1 rfl, hsp]
  -- Behind the loads the stack pointer is two words below the frame pointer, moved or not.
  obtain ⟨d, hmove, hdsp, hdmem, hdregs⟩ : ∃ d,
      c.run (if kept.isEmpty then [] else [.moveSp (4 * kept.length)]) = some d ∧
      d.get .sp = body.get .fp + .ofInt 32 (-8) ∧ d.mem = body.mem ∧ ∀ r, r ≠ .sp →
        d.get r = c.get r := by
    split
    · rename_i hempty
      have hlength : kept.length = 0 := by rw [List.isEmpty_iff.mp hempty]; rfl
      refine ⟨c, rfl, ?_, hmem, fun _ _ => rfl⟩
      rw [hcsp, show -(room : Int) = -8 by omega]
    · refine ⟨c.set .sp (c.get .sp + .ofInt 32 (4 * kept.length)), rfl, ?_, hmem, fun r hr => ?_⟩
      · rw [Cpu.get_set_self (by decide), hcsp, BitVec.add_assoc, ← BitVec.ofInt_add,
          show -(room : Int) + 4 * kept.length = -8 by omega]
      · exact Cpu.get_set_of_ne hr
  obtain ⟨last, hreturn, htarget, hlsp, hlfp, hlregs⟩ := run_return d
  have word (n : Int) (j : Nat) (h : -8 + n = -4 * (j + 1)) :
      d.mem (d.get .sp + .ofInt 32 n) = body.mem (keptWord (body.get .fp) j) := by
    rw [hdmem, hdsp, keptWord_of_add h]
  refine ⟨last, ?_, ?_, ?_, ?_, fun j r hr => ?_⟩
  · rw [List.cons_append, List.cons_append, Cpu.run_cons, Cpu.exec_addiu,
      Option.bind_some, Cpu.run_append,
      Cpu.run_append, hrun, Option.bind_some, hmove]
    exact hreturn
  · rw [htarget, word 4 0 (by omega)]
  · grind
  · rw [hlfp, word 0 1 (by omega)]
  · obtain ⟨hsp', hfp', hra', -⟩ := ne_of_isSaved (hsaved r (List.mem_of_getElem? hr))
    have hj : j < kept.length := (List.getElem?_eq_some_iff.mp hr).1
    have hback : kept.reverse[kept.length - 1 - j]? = some r := by
      grind
    rw [hlregs r hsp' hfp' hra', hdregs r hsp', hloaded _ r hback, Cpu.mem_set, hsp]
    exact congrArg body.mem (keptWord_of_add (by push_cast; omega))

theorem quad_enter {size : Int} (hop : q.op = .enter) (hs : s.skipping = false)
    (hsize : q.arg1.toInt = .ok size) (hkept : Ends input keptRegs s kept s) :
    Ends input (quad q) s (prologue size kept) s := by
  unfold quad
  rw [ends_get_bind, hs, if_neg Bool.false_ne_true, hop]
  show Ends input (function q) s _ s
  unfold function
  rw [hop]
  exact ends_bind.mpr ⟨size, s, ends_ofExcept.mpr ⟨hsize, rfl⟩,
    ends_bind.mpr ⟨kept, s, hkept, ends_pure.mpr ⟨rfl, rfl⟩⟩⟩

theorem quad_leave (hop : q.op = .leave) (hs : s.skipping = false)
    (hkept : Ends input keptRegs s kept s) :
    ∃ closing, Ends input (quad q) s closing s ∧ instrs closing = instrs (epilogue kept) := by
  have hcurrent : Ends input current? s (s.function?.filter (· ≠ "")) s :=
    ends_get_bind.mpr (ends_pure.mpr ⟨rfl, rfl⟩)
  unfold quad
  rw [hop]
  simp only [ends_get_bind, hs, Bool.false_eq_true, if_false]
  show ∃ closing, Ends input (function q) s closing s ∧ _
  unfold function
  rw [hop]
  refine ⟨_, ends_bind.mpr ⟨_, s, hcurrent,
    ends_bind.mpr ⟨kept, s, hkept, ends_pure.mpr ⟨rfl, rfl⟩⟩⟩, ?_⟩
  unfold instrs
  rw [List.filterMap_append]
  split <;> rfl

/-- The code of `opening`, any code that leaves the frame pointer and the kept words alone, and the
code of `closing` return to the caller with its stack pointer, its frame pointer and its saved
registers, wherever the stack pointer was in the end. In between, the frame pointer is the stack
pointer of the caller. -/
def Restores (kept : List Reg) (opening closing : List Line) (entry : Cpu) : Prop :=
  ∃ opened, entry.run (instrs opening) = some opened ∧ opened.get .fp = entry.get .sp ∧
    ∀ body : Cpu, body.get .fp = opened.get .fp →
      (∀ j < kept.length + 2,
        body.mem (keptWord (body.get .fp) j) = opened.mem (keptWord (body.get .fp) j)) →
      ∃ last, body.run (instrs closing) = some last ∧ last.target? = some (entry.get .ra) ∧
        last.get .sp = entry.get .sp ∧ last.get .fp = entry.get .fp ∧ ∀ r ∈ kept,
          last.get r = entry.get r

/-- **Prologue and epilogue are inverse**, for a frame of any size and any set of saved
registers. -/
theorem prologue_epilogue_inverse {input : Input} {s t : Select} {q q' : Quad} {size : Int}
    (henter : q.op = .enter) (hleave : q'.op = .leave) (hs : s.skipping = false)
    (ht : t.skipping = false) (hsize : q.arg1.toInt = .ok size) (hnonneg : 0 ≤ size)
    (hkept : Ends input keptRegs s kept s) (hsame : Ends input keptRegs t kept t)
    (hnodup : kept.Nodup) (hsaved : ∀ r ∈ kept, r.isSaved = true)
    (hroom : kept.length + 2 ≤ 2 ^ 30) : ∃ opening closing, Ends input (quad q) s opening s ∧
      Ends input (quad q') t closing t ∧ ∀ entry : Cpu, Restores kept opening closing entry := by
  obtain ⟨n, rfl⟩ := Int.eq_ofNat_of_zero_le hnonneg
  obtain ⟨closing, hclosing, hinstrs⟩ := quad_leave hleave ht hsame
  refine ⟨_, closing, quad_enter henter hs hsize hkept, hclosing, fun entry => ?_⟩
  obtain ⟨opened, hopened, hfp, hwords⟩ := run_prologue n hsaved hroom entry
  refine ⟨opened, hopened, hfp, fun body hbody hleft => ?_⟩
  obtain ⟨last, hlast, htarget, hlsp, hlfp, hregs⟩ := run_epilogue hnodup hsaved body
  rw [hinstrs]
  have hword (j : Nat) (r : Reg) (hr : (Reg.ra :: .fp :: kept)[j]? = some r) :
      body.mem (keptWord (body.get .fp) j) = entry.get r := by
    have hj : j < kept.length + 2 := (List.getElem?_eq_some_iff.mp hr).1
    rw [hleft j hj, hbody, hfp, hwords j r hr]
  refine ⟨last, hlast, ?_, ?_, ?_, fun r hr => ?_⟩
  · rw [htarget, hword 0 .ra rfl]
  · rw [hlsp, hbody, hfp]
  · rw [hlfp, hword 1 .fp rfl]
  · obtain ⟨j, hj⟩ := List.getElem?_of_mem hr
    rw [hregs j r hj, hword (j + 2) r hj]

/-- A function with eight bytes of variables that keeps two registers. -/
theorem prologue_epilogue_inverse_two :
    let s : Select := { function? := some "FUNC_f", saved := [("FUNC_f", [.s 0, .s 1])] }
    Ends {} keptRegs s [.s 0, .s 1] s ∧ ∃ opening closing,
      Ends {} (quad { op := .enter, arg1 := .text "8" }) s opening s ∧
      Ends {} (quad { op := .leave }) s closing s ∧
      ∀ entry : Cpu, Restores [.s 0, .s 1] opening closing entry := by
  intro s
  have hkept : Ends {} keptRegs s [.s 0, .s 1] s := rfl
  have hsize : (Operand.text "8").toInt = .ok 8 := rfl
  exact ⟨hkept, prologue_epilogue_inverse rfl rfl rfl rfl hsize (by decide) hkept hkept (by decide)
    (by decide) (by decide)⟩

end Select

end Scriptc.Mips

/-! ## What a function writes to its frame -/

namespace Scriptc.Compile

open Build (Ends)

/-- Without arguments, the first word that is not below the frame pointer is the last one that the
caller has pushed. -/
theorem frame_write_in_caller : ∃ s b q r t,
    Source.ofText "function f() \x7b let x: integer = 1; \x7d f();" = .ok s ∧
    Ends (program s.program) {} () b ∧ b.errors = #[] ∧ (∀ q ∈ b.quads, q.op ≠ .push) ∧
    b.quads.toList.take 3 = [{ op := .label, result := .text "FUNC_f" },
      { op := .enter, arg1 := .text "4" }, q] ∧
    Mips.Select.Ends {} (Mips.Select.quad q) {}
      [.code (.li r (.int 1)), .code (.sw r (Mips.Select.inFrame (.int 0)))] t := by
  obtain ⟨s, b, hs, hb, hclean, hpush, hcode⟩ := Source.ends_of_read? program
    "function f() \x7b let x: integer = 1; \x7d f();"
    (P := fun _ b => b.errors = #[] ∧ (∀ q ∈ b.quads, q.op ≠ .push) ∧
      b.quads.toList.take 3 = [{ op := .label, result := .text "FUNC_f" },
        { op := .enter, arg1 := .text "4" },
        { op := .copy, arg1 := .text "1", result := .frame 0 }]) (by decide +kernel)
  exact ⟨s, b, _, .t 0, _, hs, hb, hclean, hpush, hcode, rfl⟩

end Scriptc.Compile
