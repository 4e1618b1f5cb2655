import Mathlib.Logic.Relation
import Scriptc.Mips.Library
import Scriptc.Proofs.Frames

/-!
# Scriptc: numbers written out at run time

The routine that turns a number into a string works on single bytes: it writes the digits backwards
into a buffer below the stack pointer, counts them, asks for room and copies them there. `Cpu.byte`
and `Cpu.storeByte` say where a byte is in the words of memory, and `step?` carries out one line of
code, jumps included.

Each of the three loops is a lemma of its own: `digits_go` by the recursion of decimal digits,
`count_goes` and `copy_goes` along the text. What a stretch of code leaves alone is said by
`Touches`. The whole is `intToString_writes`.
-/

namespace Scriptc.Mips

/-! ## Bytes -/

/-- The address of the word that a byte lies in. -/
def wordOf (x : Word) : Word := .ofNat 32 (x.toNat - x.toNat % 4)

/-- A byte of a word, the lowest one first. -/
def byteOf (w : Word) (k : Nat) : BitVec 8 := w.extractLsb' (8 * k) 8

def ofBytes (f : Nat → BitVec 8) : Word := f 3 ++ f 2 ++ f 1 ++ f 0

theorem byteOf_ofBytes (f : Nat → BitVec 8) {k : Nat} (hk : k < 4) :
    byteOf (ofBytes f) k = f k := by
  have hcases : k = 0 ∨ k = 1 ∨ k = 2 ∨ k = 3 := by omega
  unfold byteOf ofBytes
  rcases hcases with rfl | rfl | rfl | rfl <;> ext i hi <;> simp <;> grind

theorem toNat_wordOf (x : Word) : (wordOf x).toNat = x.toNat - x.toNat % 4 := by
  rw [wordOf, BitVec.toNat_ofNat]
  omega

namespace Cpu

variable {c c' d : Cpu} {x y a : Word} {v : BitVec 8}

def byte (c : Cpu) (x : Word) : BitVec 8 := byteOf (c.mem (wordOf x)) (x.toNat % 4)

/-- Stores a byte; the other bytes of its word stay. -/
def storeByte (c : Cpu) (x : Word) (v : BitVec 8) : Cpu :=
  c.store (wordOf x) (ofBytes fun k => if k = x.toNat % 4 then v else byteOf (c.mem (wordOf x)) k)

@[simp] theorem get_zero : c.get .zero = 0 := rfl

@[simp] theorem get_storeByte (r : Reg) : (c.storeByte x v).get r = c.get r := rfl

@[simp] theorem byte_set (r : Reg) (w : Word) : (c.set r w).byte x = c.byte x := rfl

theorem byte_storeByte_self : (c.storeByte x v).byte x = v := by
  rw [byte, storeByte, mem_store_self, byteOf_ofBytes _ (Nat.mod_lt _ (by decide)), if_pos rfl]

theorem byte_storeByte_of_ne (h : y ≠ x) : (c.storeByte x v).byte y = c.byte y := by
  unfold byte storeByte
  by_cases hword : wordOf y = wordOf x
  · have hplace : y.toNat % 4 ≠ x.toNat % 4 := by
      have hnat := congrArg BitVec.toNat hword
      rw [toNat_wordOf, toNat_wordOf] at hnat
      exact fun hmod => h (BitVec.eq_of_toNat_eq (by omega))
    rw [hword, mem_store_self, byteOf_ofBytes _ (Nat.mod_lt _ (by decide)), if_neg hplace]
  · rw [mem_store_of_ne hword]

/-! ## Code with jumps -/

/-- What an instruction does that goes on with the next line. -/
def execByte (c : Cpu) : Instr → Option Cpu
  | .mem .lb r a => (c.address? a).map fun x => c.set r ((c.byte x).signExtend 32)
  | .mem .sb r a => (c.address? a).map fun x => c.storeByte x ((c.get r).setWidth 8)
  | .divu a b =>
    if c.get b = 0 then none
    else some { c with lo := c.get a / c.get b, hi := c.get a % c.get b }
  | .jr _ => none
  | i => c.exec i

/-- What a line does that is none of control flow. -/
def line? (c : Cpu) (l : Line) : Option Cpu :=
  match l.instr? with
  | some i => c.execByte i
  | none => some c

end Cpu

def Cond1.holds (w : Word) : Cond1 → Bool
  | gez => 0 ≤ w.toInt
  | nez => w ≠ 0
  | eqz => w = 0

def Cond2.holds (v w : Word) : Cond2 → Bool
  | eq => v = w
  | ne => v ≠ w
  | ge => w.toInt ≤ v.toInt

/-- Where a label stands. -/
def placeOf? (code : List Line) (label : String) : Option Nat := code.findIdx? (· = .label label)

/-- The line that control flow goes to, and the system call that makes room: `sbrk` gives the
address of a block of the size that is asked for. A jump through a register leaves the code. -/
def flow? (sbrk : Word → Word) (code : List Line) (i : Nat) (c : Cpu) : Instr → Option (Nat × Cpu)
  | .branch1 k a l => if k.holds (c.get a) then (placeOf? code l).map (·, c) else some (i + 1, c)
  | .branch2 k a b l =>
    if k.holds (c.get a) (c.get b) then (placeOf? code l).map (·, c) else some (i + 1, c)
  | .j l => (placeOf? code l).map (·, c)
  | .jr r => some (code.length, { c with target? := some (c.get r) })
  | .syscall => if c.get (.v 0) = 9 then some (i + 1, c.set (.v 0) (sbrk (c.get (.a 0)))) else none
  | _ => none

/-- Carries out the line at hand. -/
def step? (sbrk : Word → Word) (code : List Line) (s : Nat × Cpu) : Option (Nat × Cpu) :=
  code[s.1]?.bind fun l =>
    ((s.2.line? l).map (s.1 + 1, ·)).or (l.instr?.bind (flow? sbrk code s.1 s.2))

/-- The code goes from one place and state to another. -/
def Goes (sbrk : Word → Word) (code : List Line) : Nat × Cpu → Nat × Cpu → Prop :=
  Relation.ReflTransGen fun s s' => step? sbrk code s = some s'

section
variable {sbrk : Word → Word} {code : List Line} {i : Nat} {c c' : Cpu}

variable (sbrk) in
/-- Lines without control flow are carried out one after the other. -/
theorem goes_lines (ls rest : List Line) (hcode : code.drop i = ls ++ rest)
    (h : ls.foldlM Cpu.line? c = some c') : Goes sbrk code (i, c) (i + ls.length, c') := by
  induction ls generalizing i c with
  | nil =>
    cases h
    exact .refl
  | cons l ls ih =>
    obtain ⟨d, hd, h⟩ := Option.bind_eq_some_iff.mp h
    have hline : code[i]? = some l := by rw [← Nat.add_zero i, ← List.getElem?_drop, hcode]; rfl
    have hrest : code.drop (i + 1) = ls ++ rest := by rw [← List.drop_drop, hcode]; rfl
    rw [List.length_cons, ← Nat.add_assoc, Nat.add_right_comm]
    refine .head ?_ (ih hrest h)
    show step? sbrk code (i, c) = some (i + 1, d)
    rw [step?, hline, Option.bind_some, hd]
    rfl

theorem goes_take (n : Nat) (hn : i + n ≤ code.length)
    (h : ((code.drop i).take n).foldlM Cpu.line? c = some c') :
    Goes sbrk code (i, c) (i + n, c') := by
  have hgoes := goes_lines sbrk _ _ (List.take_append_drop n (code.drop i)).symm h
  rwa [List.length_take_of_le (by rw [List.length_drop]; omega)] at hgoes

variable (sbrk) in
/-- Instructions of which none is a jump through a register. -/
theorem goes_run (n : Nat) (hn : i + n ≤ code.length) {is : List Instr} (h : c.run is = some c')
    (his : instrs ((code.drop i).take n) = is) (hstay : ∀ i ∈ is, ∀ r, i ≠ .jr r) :
    Goes sbrk code (i, c) (i + n, c') := by
  refine goes_take n hn ?_
  subst his
  generalize (code.drop i).take n = ls at hstay h
  induction ls generalizing c with
  | nil => exact h
  | cons l ls ih =>
    rw [List.foldlM_cons, Cpu.line?]
    unfold instrs at hstay h ih
    cases hi : l.instr? with
    | none =>
      rw [List.filterMap_cons_none hi] at hstay h
      exact ih hstay h
    | some i =>
      rw [List.filterMap_cons_some hi] at hstay h
      obtain ⟨d, hd, h⟩ := Option.bind_eq_some_iff.mp h
      have hsame : c.execByte i = some d := by
        unfold Cpu.execByte
        split
        · cases hd
        · cases hd
        · cases hd
        · exact absurd rfl (hstay _ (.head _) _)
        · exact hd
      show (c.execByte i).bind _ = _
      rw [hsame]
      exact ih (fun i hi => hstay i (.tail _ hi)) h

theorem goes_flow {x : Instr} {s : Nat × Cpu} (hline : code[i]?.bind Line.instr? = some x)
    (hexec : c.execByte x = none) (h : flow? sbrk code i c x = some s) :
    Goes sbrk code (i, c) s := by
  obtain ⟨l, hl, hi⟩ := Option.bind_eq_some_iff.mp hline
  refine .single ?_
  show step? sbrk code (i, c) = some s
  have hnone : c.line? l = none := by rw [Cpu.line?, hi]; exact hexec
  rw [step?, hl, Option.bind_some, hnone, hi]
  exact h

variable (sbrk) in
/-- A branch that looks at one register. -/
theorem goes_branch1 {k : Cond1} {a : Reg} {l : String} {p : Nat}
    (hline : code[i]?.bind Line.instr? = some (.branch1 k a l))
    (hplace : placeOf? code l = some p) :
    Goes sbrk code (i, c) (if k.holds (c.get a) then p else i + 1, c) := by
  refine goes_flow hline rfl ?_
  rw [flow?, hplace]
  split <;> rfl

variable (sbrk) in
/-- A branch that compares two registers. -/
theorem goes_branch2 {k : Cond2} {a b : Reg} {l : String} {p : Nat}
    (hline : code[i]?.bind Line.instr? = some (.branch2 k a b l))
    (hplace : placeOf? code l = some p) :
    Goes sbrk code (i, c) (if k.holds (c.get a) (c.get b) then p else i + 1, c) := by
  refine goes_flow hline rfl ?_
  rw [flow?, hplace]
  split <;> rfl

theorem goes_j {l : String} {p : Nat} (hline : code[i]?.bind Line.instr? = some (.j l))
    (hplace : placeOf? code l = some p) : Goes sbrk code (i, c) (p, c) :=
  goes_flow hline rfl (congrArg (Option.map (·, c)) hplace)

end

/-! ## What code leaves alone -/

/-- All that has changed are the registers `rs` and the bytes at `A`. -/
structure Touches (rs : List Reg) (A : Word → Prop) (c c' : Cpu) : Prop where
  regs : ∀ r, r ∉ rs → c'.get r = c.get r
  bytes : ∀ x, ¬ A x → c'.byte x = c.byte x
  words : ∀ a, (∀ x, A x → wordOf x ≠ a) → c'.mem a = c.mem a

/-- The bytes from an address on. -/
def Spells (c : Cpu) : Word → List (BitVec 8) → Prop
  | _, [] => True
  | a, v :: vs => c.byte a = v ∧ Spells c (a + 1) vs

theorem Spells.congr {c c' : Cpu} {a : Word} {vs : List (BitVec 8)} (h : Spells c a vs)
    (hmem : c'.mem = c.mem) :
    Spells c' a vs := by
  induction vs generalizing a with
  | nil => trivial
  | cons v vs ih => exact ⟨by rw [Cpu.byte, hmem]; exact h.1, ih h.2⟩

/-- The bytes of a block. -/
def Span (a : Word) (n : Nat) (x : Word) : Prop := (x - a).toNat < n

namespace Touches

variable {rs rs' : List Reg} {A B : Word → Prop} {c c' c'' : Cpu} {r : Reg}

theorem trans (h : Touches rs A c c') (h' : Touches rs A c' c'') : Touches rs A c c'' where
  regs r hr := (h'.regs r hr).trans (h.regs r hr)
  bytes x hx := (h'.bytes x hx).trans (h.bytes x hx)
  words a ha := (h'.words a ha).trans (h.words a ha)

theorem mono (h : Touches rs A c c') (hrs : rs ⊆ rs') (hA : ∀ x, A x → B x) :
    Touches rs' B c c' where
  regs r hr := h.regs r fun hr' => hr (hrs hr')
  bytes x hx := h.bytes x fun hx' => hx (hA x hx')
  words a ha := h.words a fun x hx => ha x (hA x hx)

/-- Registers alone. -/
theorem of_mem (hmem : c'.mem = c.mem) (hregs : ∀ r, r ∉ rs → c'.get r = c.get r) :
    Touches rs A c c' where
  regs := hregs
  bytes x _ := by rw [Cpu.byte, hmem, ← Cpu.byte]
  words a _ := congrFun hmem a

theorem set (w : Word) (hr : r ∈ rs) : Touches rs A c (c.set r w) :=
  of_mem rfl fun _ hr' => Cpu.get_set_of_ne fun h => hr' (h ▸ hr)

theorem storeByte {x : Word} (v : BitVec 8) (hx : A x) : Touches rs A c (c.storeByte x v) where
  regs _ _ := rfl
  bytes _ hy := Cpu.byte_storeByte_of_ne fun h => hy (h ▸ hx)
  words _ ha := Cpu.mem_store_of_ne (ha x hx).symm

theorem spells (h : Touches rs A c c') {a : Word} {vs : List (BitVec 8)}
    (hA : ∀ x, Span a vs.length x → ¬ A x) (hlen : vs.length < 2 ^ 32) (hs : Spells c a vs) :
    Spells c' a vs := by
  induction vs generalizing a with
  | nil => trivial
  | cons v vs ih =>
    rw [List.length_cons] at hA hlen
    refine ⟨(h.bytes a (hA a ?_)).trans hs.1, ih (fun x hx => hA x ?_) (by omega) hs.2⟩
    · simp [Span]
    · unfold Span at hx ⊢
      bv_omega

end Touches

/-! ## The loops -/

section
open Library (intToString)

variable (sbrk : Word → Word) {c : Cpu}

theorem setWidth_signExtend_byte (v : BitVec 8) : (v.signExtend 32).setWidth 8 = v := by
  ext i hi
  rw [BitVec.getElem_setWidth, BitVec.getLsbD_signExtend]
  simp [hi, show i < 32 by omega, BitVec.getLsbD_eq_getElem]

theorem signExtend_byte_eq_zero {v : BitVec 8} : v.signExtend 32 = 0 ↔ v = 0 := by
  constructor
  · intro h
    rw [← setWidth_signExtend_byte v, h]
    rfl
  · rintro rfl
    rfl

/-- One round of the last loop, up to the test. -/
theorem copy_round {a d : Word} (ha : c.get (.a 0) = a) (hd : c.get (.a 1) = d) :
    Goes sbrk intToString (71, c)
      (74, (c.set (.t 0) ((c.byte a).signExtend 32)).storeByte d (c.byte a)) := by
  refine goes_take 3 (by decide) ?_
  show some (Cpu.storeByte (c.set (.t 0) ((c.byte (c.get (.a 0) + .ofInt 32 0)).signExtend 32))
    (c.get (.a 1) + .ofInt 32 0)
    (((c.byte (c.get (.a 0) + .ofInt 32 0)).signExtend 32).setWidth 8)) = _
  simp [setWidth_signExtend_byte, ha, hd]

/-- Where the byte is not zero, both addresses move on behind the test. -/
theorem copy_turn {a d : Word} (ha : c.get (.a 0) = a) (hd : c.get (.a 1) = d)
    (hbyte : c.byte a ≠ 0) :
    ∃ c₁, Goes sbrk intToString (71, c) (71, c₁) ∧ Touches [.t 0, .a 0, .a 1] (· = d) c c₁ ∧
      c₁.byte d = c.byte a ∧ c₁.get (.a 0) = a + 1 ∧ c₁.get (.a 1) = d + 1 := by
  have hdone : placeOf? intToString "__its_copy_done" = some 78 := by decide +kernel
  have hagain : placeOf? intToString "__its_copy" = some 71 := by decide +kernel
  have hne : ¬ (c.byte a).signExtend 32 = 0 := fun h => hbyte (signExtend_byte_eq_zero.mp h)
  have htest := goes_branch2 sbrk (i := 74)
    (c := (c.set (.t 0) ((c.byte a).signExtend 32)).storeByte d (c.byte a)) rfl hdone
  rw [if_neg (by simpa [Cond2.holds] using hne)] at htest
  refine ⟨_, ((copy_round sbrk ha hd).trans htest).trans
    ((goes_take 2 (by decide) rfl).trans (goes_j (i := 77) rfl hagain)), ?_, ?_, ?_, ?_⟩
  · exact .trans (.set (r := .t 0) _ (by simp)) <| .trans (.storeByte (x := d) _ rfl) <|
      .trans (.set (r := .a 0) _ (by simp)) (.set (r := .a 1) _ (by simp))
  · exact Cpu.byte_storeByte_self
  · rw [← ha]
    rfl
  · rw [← hd]
    rfl

/-- The last loop copies a text up to its zero byte. -/
theorem copy_goes (vs : List (BitVec 8)) (hvs : ∀ v ∈ vs, v ≠ 0) (hlen : vs.length + 1 < 2 ^ 32)
    {a d : Word} (ha : c.get (.a 0) = a) (hd : c.get (.a 1) = d) (hs : Spells c a (vs ++ [0]))
    (hapart : ∀ x, Span a (vs.length + 1) x → ¬ Span d (vs.length + 1) x) :
    ∃ c', Goes sbrk intToString (71, c) (78, c') ∧
      Touches [.t 0, .a 0, .a 1] (Span d (vs.length + 1)) c c' ∧ Spells c' d (vs ++ [0]) := by
  have hself (d : Word) (n : Nat) : Span d (n + 1) d := by simp [Span]
  have hdone : placeOf? intToString "__its_copy_done" = some 78 := by decide +kernel
  induction vs generalizing c a d with
  | nil =>
    have hround := copy_round sbrk ha hd
    rw [hs.1] at hround
    have htest := goes_branch2 sbrk (i := 74)
      (c := (c.set (.t 0) ((0 : BitVec 8).signExtend 32)).storeByte d 0) rfl hdone
    rw [if_pos (by simp [Cond2.holds])] at htest
    refine ⟨_, hround.trans htest, ?_, ?_⟩
    · exact .trans (.set _ (by simp)) (.storeByte 0 (hself d 0))
    · exact ⟨Cpu.byte_storeByte_self, trivial⟩
  | cons v vs ih =>
    obtain ⟨rfl, hs⟩ := hs
    rw [List.length_cons] at hlen hapart ⊢
    obtain ⟨c₁, hgoes, htouch, hbyte, ha₁, hd₁⟩ := copy_turn sbrk ha hd (hvs _ (.head _))
    -- The text lies apart from the copy, so its rest can still be read.
    have hs₁ : Spells c₁ (a + 1) (vs ++ [0]) := by
      refine htouch.spells (fun x hx hxd => ?_) (by simpa using by omega) hs
      refine hapart x ?_ (hxd ▸ hself d _)
      rw [List.length_append, List.length_singleton] at hx
      unfold Span at hx ⊢
      bv_omega
    obtain ⟨c', hrest, htouch', hs'⟩ :=
      ih (fun w hw => hvs w (.tail _ hw)) (by omega) ha₁ hd₁ hs₁ fun x hx hxd =>
      hapart x (by unfold Span at hx ⊢; bv_omega) (by unfold Span at hxd ⊢; bv_omega)
    refine ⟨c', hgoes.trans hrest, ?_, ?_, hs'⟩
    · exact .trans (htouch.mono (List.Subset.refl _) fun x hx => hx ▸ hself d _)
        (htouch'.mono (List.Subset.refl _) fun x hx => by unfold Span at hx ⊢; bv_omega)
    · rw [htouch'.bytes d (by unfold Span; bv_omega), hbyte]

/-- One round of the loop before it, up to the test. -/
theorem count_round {a : Word} (ha : c.get (.t 3) = a) :
    Goes sbrk intToString (53, c) (55, c.set (.a 0) ((c.byte a).signExtend 32)) := by
  refine goes_take 2 (by decide) ?_
  show some (c.set (.a 0) ((c.byte (c.get (.t 3) + .ofInt 32 0)).signExtend 32)) = _
  simp [ha]

/-- Where the byte is not zero, it is counted. -/
theorem count_turn {a k : Word} (ha : c.get (.t 3) = a) (hk : c.get (.t 2) = k)
    (hbyte : c.byte a ≠ 0) :
    ∃ c₁, Goes sbrk intToString (53, c) (53, c₁) ∧
      Touches [.a 0, .t 2, .t 3] (fun _ => False) c c₁ ∧ c₁.get (.t 3) = a + 1 ∧
      c₁.get (.t 2) = k + 1 := by
  have hdone : placeOf? intToString "__its_count_done" = some 59 := by decide +kernel
  have hagain : placeOf? intToString "__its_count" = some 53 := by decide +kernel
  have hne : ¬ (c.byte a).signExtend 32 = 0 := fun h => hbyte (signExtend_byte_eq_zero.mp h)
  have htest := goes_branch2 sbrk (i := 55) (c := c.set (.a 0) ((c.byte a).signExtend 32)) rfl hdone
  rw [if_neg (by simpa [Cond2.holds] using hne)] at htest
  refine ⟨_, ((count_round sbrk ha).trans htest).trans
    ((goes_take 2 (by decide) rfl).trans (goes_j (i := 58) rfl hagain)), ?_, ?_, ?_⟩
  · exact (Touches.set _ (by simp)).trans (.trans (.set _ (by simp)) (.set _ (by simp)))
  · rw [← ha]
    rfl
  · rw [← hk]
    rfl

/-- The loop before it counts the bytes in front of the zero byte. -/
theorem count_goes {A : Word → Prop} (vs : List (BitVec 8)) (hvs : ∀ v ∈ vs, v ≠ 0)
    (hlen : vs.length + 1 < 2 ^ 32) {a k : Word} (ha : c.get (.t 3) = a) (hk : c.get (.t 2) = k)
    (hs : Spells c a (vs ++ [0])) :
    ∃ c', Goes sbrk intToString (53, c) (59, c') ∧ Touches [.a 0, .t 2, .t 3] A c c' ∧
      c'.get (.t 2) = k + .ofNat 32 vs.length := by
  have hdone : placeOf? intToString "__its_count_done" = some 59 := by decide +kernel
  induction vs generalizing c a k with
  | nil =>
    have hround := count_round sbrk ha
    rw [hs.1] at hround
    have htest := goes_branch2 sbrk (i := 55)
      (c := c.set (.a 0) ((0 : BitVec 8).signExtend 32)) rfl hdone
    rw [if_pos (by simp [Cond2.holds])] at htest
    exact ⟨_, hround.trans htest, .set _ (by simp), by simp [hk]⟩
  | cons v vs ih =>
    obtain ⟨rfl, hs⟩ := hs
    obtain ⟨c₁, hgoes, htouch, ha₁, hk₁⟩ := count_turn sbrk ha hk (hvs _ (.head _))
    rw [List.length_cons] at hlen ⊢
    obtain ⟨c', hrest, htouch', hk'⟩ := ih (fun w hw => hvs w (.tail _ hw)) (by omega) ha₁ hk₁
      (htouch.spells (fun _ _ h => h) (by simpa using by omega) hs)
    exact ⟨c', hgoes.trans hrest,
      (htouch.mono (List.Subset.refl _) fun _ h => h.elim).trans htouch', by bv_omega⟩

/-! ## Digits -/

/-- The byte of a character. -/
def ascii (ch : Char) : BitVec 8 := .ofNat 8 ch.toNat

/-- The decimal digits of a number. -/
def digits (n : Nat) : List (BitVec 8) := (Nat.toDigits 10 n).map ascii

theorem digits_of_lt {n : Nat} (h : n < 10) : digits n = [.ofNat 8 (n + 48)] := by
  rw [digits, Nat.toDigits_of_lt_base h]
  have hdigit : ∀ d < 10, ascii (Nat.digitChar d) = .ofNat 8 (d + 48) := by decide
  rw [List.map_singleton, hdigit n h]

theorem digits_of_le {n : Nat} (h : 10 ≤ n) :
    digits n = digits (n / 10) ++ [.ofNat 8 (n % 10 + 48)] := by
  rw [← digits_of_lt (Nat.mod_lt n (by decide)), digits, Nat.toDigits_of_base_le (by decide) h,
    List.map_append, digits,
    digits, Nat.toDigits_of_lt_base (Nat.mod_lt n (by decide))]

/-- A byte that is stored in front of a text. -/
theorem Spells.cons {base x : Word} {k : Nat} {vs : List (BitVec 8)}
    (hs : Spells c (base + .ofNat 32 k) vs) (hx : x + 1 = base + .ofNat 32 k) (hpos : 0 < k)
    (hlen : vs.length + k ≤ 24) (v : BitVec 8) :
    Spells (c.storeByte x v) (base + .ofNat 32 (k - 1)) (v :: vs) := by
  have hstart : base + .ofNat 32 (k - 1) = x := by bv_omega
  rw [hstart]
  refine ⟨Cpu.byte_storeByte_self, ?_⟩
  rw [hx]
  have htouch : Touches [] (· = x) c (c.storeByte x v) := .storeByte v rfl
  refine htouch.spells (fun y hy hyx => ?_) (by omega) hs
  unfold Span at hy
  bv_omega

/-- One round of the first loop, up to the test: the last digit is written, the others are left. -/
theorem digit_round {n : Nat} (hn : n < 2 ^ 32) {x : Word} (hx : c.get (.t 1) = x)
    (h0 : c.get (.t 0) = .ofNat 32 n) (h3 : c.get (.t 3) = 10) :
    ∃ c', Goes sbrk intToString (33, c) (40, c') ∧
      Touches [.a 0, .t 0, .t 1] (· = x) c c' ∧
        c'.mem = (c.storeByte x (.ofNat 8 (n % 10 + 48))).mem ∧
      c'.get (.t 0) = .ofNat 32 (n / 10) ∧ c'.get (.t 1) + 1 = x := by
  have hquotient : c.get (.t 0) / c.get (.t 3) = .ofNat 32 (n / 10) := by
    rw [h0, h3]
    apply BitVec.eq_of_toNat_eq
    simp
    omega
  have hbyte : (c.get (.t 0) % c.get (.t 3) + .ofInt 32 48).setWidth 8 =
    .ofNat 8 (n % 10 + 48) := by
    rw [h0, h3]
    apply BitVec.eq_of_toNat_eq
    simp
    omega
  have hat : c.get (.t 1) + .ofInt 32 0 = x := by simp [hx]
  -- The divisor is not zero, so there are a quotient and a remainder.
  let d : Cpu := { c with lo := c.get (.t 0) / c.get (.t 3), hi := c.get (.t 0) % c.get (.t 3) }
  have hdivides : c.execByte (.divu (.t 0) (.t 3)) = some d := if_neg (by rw [h3]; decide)
  have hdivided : Goes sbrk intToString (33, c) (35, d) := by
    refine goes_take 2 (by decide) ?_
    show (c.execByte (.divu (.t 0) (.t 3))).bind some = _
    rw [hdivides]
    rfl
  refine ⟨_, hdivided.trans (goes_take 5 (by decide) rfl), ?_, ?_, hquotient, ?_⟩
  · have hkept : Touches [.a 0, .t 0, .t 1] (· = x) c d := .of_mem rfl fun _ _ => rfl
    exact hkept.trans <| .trans (.set (r := .a 0) _ (by simp)) <|
      .trans (.set (r := .t 0) _ (by simp)) <|
      .trans (.set (r := .a 0) _ (by simp)) <|
        .trans (.storeByte _ hat) (.set (r := .t 1) _ (by simp))
  · rw [← hbyte, ← hat]
    rfl
  · show c.get (.t 1) + .ofInt 32 (-1) + 1 = x
    rw [hx]
    bv_omega

/-- The first loop writes a number in front of what is in the buffer. -/
theorem digits_go {n : Nat} (hn : n < 2 ^ 32) {base : Word} {k : Nat} {vs : List (BitVec 8)}
    (hroom : (digits n).length ≤ k) (hlen : vs.length + k ≤ 24) (h0 : c.get (.t 0) = .ofNat 32 n)
    (h3 : c.get (.t 3) = 10) (h1 : c.get (.t 1) + 1 = base + .ofNat 32 k)
    (hs : Spells c (base + .ofNat 32 k) vs) :
    ∃ c', Goes sbrk intToString (33, c) (41, c') ∧ Touches [.a 0, .t 0, .t 1] (Span base 24) c c' ∧
      c'.get (.t 1) + 1 = base + .ofNat 32 (k - (digits n).length) ∧
      Spells c' (base + .ofNat 32 (k - (digits n).length)) (digits n ++ vs) := by
  have hagain : placeOf? intToString "__its_loop" = some 33 := by decide +kernel
  induction n using Nat.strongRecOn generalizing c k vs with
  | ind n ih =>
    -- There is room for the digit that comes next.
    have hpos : 0 < k := by
      by_cases h : n < 10
      · rw [digits_of_lt h] at hroom
        exact hroom
      · rw [digits_of_le (by omega), List.length_append] at hroom
        simp at hroom
        omega
    obtain ⟨c₁, hround, htouch, hmem, h0', h1'⟩ := digit_round sbrk hn rfl h0 h3
    have hbuffer : Touches [.a 0, .t 0, .t 1] (Span base 24) c c₁ :=
      htouch.mono (List.Subset.refl _) fun x hx => by unfold Span; bv_omega
    have hs₁ : Spells c₁ (base + .ofNat 32 (k - 1)) (.ofNat 8 (n % 10 + 48) :: vs) :=
      (hs.cons h1 hpos hlen _).congr hmem
    have htest := goes_branch1 sbrk (c := c₁) (i := 40) rfl hagain
    -- The loop ends with the first digit of the number, which is written last.
    by_cases hsmall : n < 10
    · rw [if_neg (by simp [Cond1.holds, h0', Nat.div_eq_of_lt hsmall])] at htest
      rw [digits_of_lt hsmall]
      rw [Nat.mod_eq_of_lt hsmall] at hs₁
      exact ⟨c₁, hround.trans htest, hbuffer, by rw [h1']; simp; bv_omega, hs₁⟩
    · have hnonzero : ¬ BitVec.ofNat 32 (n / 10) = 0 := by bv_omega
      rw [if_pos (by simpa [Cond1.holds, h0'] using hnonzero)] at htest
      rw [digits_of_le (by omega), List.length_append, List.length_singleton] at hroom ⊢
      obtain ⟨c', hrest, htouch', h1'', hs'⟩ :=
        ih (n / 10) (by omega) (by omega) (k := k - 1) (by omega)
        (by rw [List.length_cons]; omega) h0' ((htouch.regs _ (by simp)).trans h3)
          (by rw [h1']; bv_omega) hs₁
      refine ⟨c', (hround.trans htest).trans hrest, hbuffer.trans htouch', ?_, ?_⟩
      · rw [h1'', Nat.sub_sub, Nat.add_comm 1]
      · rw [List.append_assoc, Nat.add_comm, ← Nat.sub_sub]
        exact hs'

/-- The text of a number, byte by byte. -/
def decimal (n : Int) : List (BitVec 8) := (toString n).toList.map ascii

theorem decimal_eq (n : Int) : decimal n = (if n < 0 then [45] else []) ++ digits n.natAbs := by
  cases n with
  | ofNat n => exact congrArg (List.map ascii) (Nat.toList_repr (n := n))
  | negSucc n =>
    have htext : (toString (Int.negSucc n)).toList = '-' :: Nat.toDigits 10 (n + 1) := by
      show ("-" ++ Nat.repr (n + 1)).toList = _
      rw [String.toList_append, Nat.toList_repr]
      rfl
    rw [decimal, htext, if_pos (Int.negSucc_lt_zero n)]
    rfl

theorem digits_ne_zero {n : Nat} : ∀ v ∈ digits n, v ≠ 0 := by
  induction n using Nat.strongRecOn with
  | ind n ih =>
    by_cases h : n < 10
    · rw [digits_of_lt h]
      simp
      bv_omega
    · rw [digits_of_le (by omega)]
      intro v hv
      rcases List.mem_append.mp hv with hv | hv
      · exact ih _ (by omega) v hv
      · rw [List.mem_singleton.mp hv]
        bv_omega

theorem length_digits_le {n : Nat} (hn : n < 2 ^ 32) : (digits n).length ≤ 10 := by
  rw [digits, List.length_map]
  exact (Nat.length_toDigits_le_iff (by decide) (by decide)).mpr (by omega)

/-! ## The routine -/

/-- The registers that are kept, in the order of their words below the stack pointer of the
caller. -/
def keptRegs : List Reg := [.ra, .t 0, .t 1, .t 2, .t 3, .t 4, .t 5, .t 6, .t 7, .t 8, .t 9]

theorem keptWord_eq_sub (sp : Word) (j : Nat) : keptWord sp j = sp - .ofNat 32 (4 * (j + 1)) := by
  rw [keptWord, show (-4 : Int) * (j + 1) = -((4 * (j + 1) : Nat) : Int) by
    push_cast; omega, BitVec.ofInt_neg,
    BitVec.ofInt_natCast, BitVec.sub_eq_add_neg]

/-- The bytes of a kept word. -/
theorem span_of_wordOf {sp x : Word} (haligned : sp.toNat % 4 = 0) {j : Nat} (hj : j < 11)
    (h : wordOf x = keptWord sp j) : Span (sp - 44) 44 x := by
  have hnat := congrArg BitVec.toNat h
  rw [toNat_wordOf, keptWord_eq_sub] at hnat
  unfold Span
  bv_omega

/-- The registers are kept in the words below the stack pointer. -/
theorem saves_go (haligned : (c.get .sp).toNat % 4 = 0) :
    ∃ c', Goes sbrk intToString (0, c) (14, c') ∧ Touches [.sp] (Span (c.get .sp - 44) 44) c c' ∧
      c'.get .sp = c.get .sp - 44 ∧
      ∀ j r, keptRegs[j]? = some r → c'.mem (keptWord (c.get .sp) j) = c.get r := by
  have hroom : Goes sbrk intToString (0, c) (3, c.set .sp (c.get .sp + .ofInt 32 (-44))) :=
    goes_take 3 (by decide) rfl
  obtain ⟨d, hrun, hregs, hothers, hkept⟩ :=
    Cpu.run_saves (c := c.set .sp (c.get .sp + .ofInt 32 (-44))) keptRegs 0
    (fun j => 44 - 4 * (j + 1)) (fun j => Select.keptWord_of_add (by omega)) (by decide)
  have hsaves : Goes sbrk intToString (3, _) (14, d) :=
    goes_run sbrk 11 (by decide) hrun rfl fun i hi r h => by
    obtain ⟨p, -, rfl⟩ := List.mem_map.mp hi
    cases h
  have hlt {j : Nat} (hj : j < keptRegs.length) : j < 11 := hj
  refine ⟨d, hroom.trans hsaves, ⟨fun r hr => ?_, fun x hx => ?_, fun a ha => ?_⟩,
    ?_, fun j r hr => ?_⟩
  · exact (hregs r).trans (Cpu.get_set_of_ne (by simpa using hr))
  · refine congrArg (byteOf · _) (hothers _ fun j hj h => hx ?_)
    rw [Nat.zero_add] at h
    exact span_of_wordOf haligned (hlt hj) h
  · refine hothers a fun j hj h => ?_
    rw [Nat.zero_add, keptWord_eq_sub] at h
    have hj := hlt hj
    refine ha a (by unfold Span; bv_omega) (BitVec.eq_of_toNat_eq ?_)
    rw [toNat_wordOf]
    bv_omega
  · rw [hregs, Cpu.get_set_self (by decide)]
    bv_omega
  · have hne : r ≠ .sp := by
      rintro rfl
      exact absurd (List.mem_of_getElem? hr) (by decide)
    rw [← Nat.zero_add j, hkept j r hr, Cpu.get_set_of_ne hne]

/-- Below them is the buffer, with a zero byte at its end. -/
theorem buffer_goes {base : Word} (hsp : c.get .sp = base + 24) :
    ∃ c', Goes sbrk intToString (14, c) (26, c') ∧
      Touches [.sp, .t 0, .t 1, .t 2] (Span base 24) c c' ∧
      c'.get .sp = base ∧ c'.get (.t 0) = c.get (.a 0) ∧ c'.get (.t 1) + 1 = base + 23 ∧
        c'.get (.t 2) = 0 ∧
      Spells c' (base + 23) [0] := by
  have hend : c.get .sp + .ofInt 32 (-24) + .ofInt 32 23 + .ofInt 32 0 = base + 23 := by
    rw [hsp]
    bv_omega
  refine ⟨_, goes_take 12 (by decide) rfl, ?_, ?_, rfl, ?_, rfl, ?_⟩
  · have hin : Span base 24 (c.get .sp + .ofInt 32 (-24) + .ofInt 32 23 + .ofInt 32 0) := by
      rw [hend]
      unfold Span
      bv_omega
    exact .trans (.set (r := .t 0) _ (by simp)) <| .trans (.set (r := .sp) _ (by simp)) <|
      .trans (.set (r := .t 1) _ (by simp)) <| .trans (.storeByte _ hin) <|
        .trans (.set (r := .t 1) _ (by simp))
      (.set (r := .t 2) _ (by simp))
  · show c.get .sp + .ofInt 32 (-24) = base
    rw [hsp]
    bv_omega
  · show c.get .sp + .ofInt 32 (-24) + .ofInt 32 23 + .ofInt 32 (-1) + 1 = _
    rw [hsp]
    bv_omega
  · rw [← hend]
    refine ⟨?_, trivial⟩
    rw [Cpu.byte_set, Cpu.byte_set]
    exact Cpu.byte_storeByte_self.trans (by rfl)

/-- A negative number is remembered, and its opposite taken. -/
theorem sign_goes {n : Int} (hn : (c.get (.t 0)).toInt = n) (h2 : c.get (.t 2) = 0) :
    ∃ c', Goes sbrk intToString (26, c) (33, c') ∧
      Touches [.t 0, .t 2, .t 3] (fun _ => False) c c' ∧
      c'.get (.t 0) = .ofNat 32 n.natAbs ∧ c'.get (.t 2) = (if n < 0 then 1 else 0) ∧
        c'.get (.t 3) = 10 := by
  have hw : c.get (.t 0) = .ofInt 32 n := by rw [← hn, BitVec.ofInt_toInt]
  have hplace : placeOf? intToString "__its_positive" = some 29 := by decide +kernel
  have htest := goes_branch1 sbrk (c := c) (i := 26) rfl hplace
  by_cases hneg : n < 0
  · rw [if_neg (by simp [Cond1.holds, hn, hneg])] at htest
    refine ⟨_, htest.trans (goes_take 6 (by decide) rfl), ?_, ?_, ?_, rfl⟩
    · exact .trans (.set (r := .t 2) _ (by simp)) <|
        .trans (.set (r := .t 0) _ (by simp)) (.set (r := .t 3) _ (by simp))
    · show -c.get (.t 0) = _
      rw [hw, ← BitVec.ofInt_neg, ← BitVec.ofInt_natCast, Int.ofNat_natAbs_of_nonpos (by omega)]
    · rw [if_pos hneg]
      rfl
  · rw [if_pos (by simp [Cond1.holds, hn]; omega)] at htest
    refine ⟨_, htest.trans (goes_take 4 (by decide) rfl), .set (r := .t 3) _ (by simp), ?_, ?_, rfl⟩
    · show c.get (.t 0) = _
      rw [hw, ← BitVec.ofInt_natCast, Int.natAbs_of_nonneg (by omega)]
    · rw [if_neg hneg]
      exact h2

/-- The sign is put in front of the digits. -/
theorem minus_goes {n : Int} {base : Word} {k : Nat} (hlen : (digits n.natAbs).length + 1 + k ≤ 24)
    (hpos : 0 < k) (h1 : c.get (.t 1) + 1 = base + .ofNat 32 k)
    (h2 : c.get (.t 2) = if n < 0 then 1 else 0)
    (hs : Spells c (base + .ofNat 32 k) (digits n.natAbs ++ [0])) :
    ∃ c' k', Goes sbrk intToString (41, c) (47, c') ∧ Touches [.a 0, .t 1] (Span base 24) c c' ∧
      (decimal n).length + 1 + k' ≤ 24 ∧ c'.get (.t 1) + 1 = base + .ofNat 32 k' ∧
      Spells c' (base + .ofNat 32 k') (decimal n ++ [0]) := by
  have hplace : placeOf? intToString "__its_done_sign" = some 47 := by decide +kernel
  have htest := (goes_take 2 (by decide) rfl).trans
    (goes_branch1 sbrk (c := c) (i := 43) rfl hplace)
  rw [decimal_eq]
  by_cases hneg : n < 0
  · rw [if_pos hneg] at h2 ⊢
    rw [if_neg (by simp [Cond1.holds, h2])] at htest
    obtain ⟨x, hx⟩ : ∃ x, c.get (.t 1) + .ofInt 32 0 = x := ⟨_, rfl⟩
    have hat : x = base + .ofNat 32 (k - 1) := by bv_omega
    have hsign : Goes sbrk intToString (44, c) (47, ((c.set (.a 0) 45).storeByte x 45).set (.t 1)
        (c.get (.t 1) + .ofInt 32 (-1))) := goes_take 3 (by decide) (by rw [← hx]; rfl)
    refine ⟨_, k - 1, htest.trans hsign, ?_, ?_, ?_, ?_⟩
    · have hin : Span base 24 x := by
        rw [hat]
        unfold Span
        bv_omega
      exact .trans (.set (r := .a 0) _ (by simp)) <|
        .trans (.storeByte _ hin) (.set (r := .t 1) _ (by simp))
    · rw [List.length_append, List.length_singleton]
      omega
    · show c.get (.t 1) + .ofInt 32 (-1) + 1 = _
      bv_omega
    · have hspelt := hs.cons (x := x) (by bv_omega) hpos
        (by rw [List.length_append, List.length_singleton]; omega) 45
      exact hspelt.congr rfl
  · rw [if_neg hneg] at h2 ⊢
    rw [if_pos (by simp [Cond1.holds, h2])] at htest
    exact ⟨c, k, htest, .of_mem rfl fun _ _ => rfl, hlen, h1, hs⟩

/-- The registers are loaded again from the words below the stack pointer of the caller. -/
theorem closing_goes {sp : Word} (hsp : c.get .sp = sp - 68) :
    ∃ c', Goes sbrk intToString (78, c) (intToString.length, c') ∧
      c'.target? = some (c.mem (keptWord sp 0)) ∧
      c'.get (.v 0) = c.get (.t 3) ∧ c'.get .sp = sp ∧ c'.mem = c.mem ∧
      (∀ j r, keptRegs[j]? = some r → c'.get r = c.mem (keptWord sp j)) ∧
      ∀ r, r ≠ .v 0 → r ≠ .sp → r ∉ keptRegs → c'.get r = c.get r := by
  -- The buffer is given up, and the saved registers are read back, the last one first.
  have hfreed : Goes sbrk intToString (78, c)
    (87, (c.set (.v 0) (c.get (.t 3))).set .sp (c.get .sp + .ofInt 32 24)) :=
    goes_take 9 (by decide) rfl
  obtain ⟨d, hrun, hmem, hothers, hloaded⟩ :=
    Cpu.run_loads (c := (c.set (.v 0) (c.get (.t 3))).set .sp (c.get .sp + .ofInt 32 24))
      keptRegs.reverse 0
      (by decide) (by decide)
  have hloads : Goes sbrk intToString (87, _) (98, d) :=
    goes_run sbrk 11 (by decide) hrun rfl fun i hi r h => by
    obtain ⟨p, -, rfl⟩ := List.mem_map.mp hi
    cases h
  have hback : Goes sbrk intToString (98, d) (99, d.set .sp (d.get .sp + .ofInt 32 44)) :=
    goes_take 1 (by decide) rfl
  have hfreedSp : c.get .sp + .ofInt 32 24 = sp + .ofInt 32 (-44) := by
    rw [hsp]
    bv_omega
  have hkept (j : Nat) (r : Reg) (hr : keptRegs[j]? = some r) :
    d.get r = c.mem (keptWord sp j) := by
    have hj : j < 11 := (List.getElem?_eq_some_iff.mp hr).1
    -- Read backwards, the register `j` is the one at `10 - j`.
    have hback : keptRegs.reverse[10 - j]? = some r := by
      rw [List.getElem?_reverse (show 10 - j < 11 by omega), ← hr]
      exact congrArg (keptRegs[·]?) (show 11 - 1 - (10 - j) = j by omega)
    rw [hloaded (10 - j) r hback, Cpu.mem_set, Cpu.mem_set, Cpu.get_set_self (by decide), hfreedSp,
      Select.keptWord_of_add (j := j) (by omega)]
  refine ⟨_, ((hfreed.trans hloads).trans hback).trans (goes_flow (i := 99) rfl rfl rfl), ?_,
    ?_, ?_, hmem, ?_, ?_⟩
  · exact congrArg some (hkept 0 .ra rfl)
  · exact hothers (.v 0) (by decide)
  · show d.get .sp + .ofInt 32 44 = sp
    rw [hothers .sp (by decide), Cpu.get_set_self (by decide), hfreedSp]
    bv_omega
  · intro j r hr
    refine (Cpu.get_set_of_ne ?_).trans (hkept j r hr)
    rintro rfl
    exact absurd (List.mem_of_getElem? hr) (by decide)
  · intro r hv hr hkept
    refine (Cpu.get_set_of_ne hr).trans ?_
    rw [hothers r (by rwa [List.mem_reverse]), Cpu.get_set_of_ne hr, Cpu.get_set_of_ne hv]

theorem decimal_ne_zero (n : Int) : ∀ v ∈ decimal n, v ≠ 0 := by
  rw [decimal_eq]
  intro v hv
  rcases List.mem_append.mp hv with hv | hv
  · split at hv
    · rw [List.mem_singleton.mp hv]
      decide
    · cases hv
  · exact digits_ne_zero v hv

/-- The length is counted, and a block of that size asked for. -/
theorem block_goes {n : Int} {start : Word} (hlen : (decimal n).length + 1 ≤ 24)
    (h1 : c.get (.t 1) + 1 = start) (hs : Spells c start (decimal n ++ [0])) :
    ∃ c', Goes sbrk intToString (47, c) (71, c') ∧
      Touches [.v 0, .a 0, .a 1, .t 1, .t 2, .t 3] (fun _ => False) c c' ∧ c'.get (.a 0) = start ∧
      c'.get (.a 1) = sbrk (.ofNat 32 ((decimal n).length + 1)) ∧
        c'.get (.t 3) = c'.get (.a 1) := by
  obtain ⟨c₁, hstart, htouch₁, ht1, ht2, ht3⟩ : ∃ c₁, Goes sbrk intToString (47, c) (53, c₁) ∧
      Touches [.v 0, .a 0, .a 1, .t 1, .t 2, .t 3] (fun _ => False) c c₁ ∧ c₁.get (.t 1) = start ∧
      c₁.get (.t 2) = 0 ∧ c₁.get (.t 3) = start :=
    ⟨_, goes_take 6 (by decide) rfl, .trans (.set (r := .t 1) _ (by simp)) <|
      .trans (.set (r := .t 2) _ (by simp)) (.set (r := .t 3) _ (by simp)), h1, rfl, h1⟩
  obtain ⟨c₂, hcount, htouch₂, ht2⟩ :=
    count_goes sbrk (A := fun _ => False) (decimal n) (decimal_ne_zero n)
    (by omega) ht3 ht2 (htouch₁.spells (fun _ _ h => h) (by simp; omega) hs)
  refine ⟨_, (hstart.trans hcount).trans <| (goes_take 6 (by decide) rfl).trans <|
    (goes_flow (i := 65) rfl rfl rfl).trans (goes_take 5 (by decide) rfl), ?_, ?_, ?_, rfl⟩
  · exact htouch₁.trans <| (htouch₂.mono (by decide) fun _ h => h).trans <|
      .trans (.set (r := .t 2) _ (by simp)) <|
      .trans (.set (r := .a 0) _ (by simp)) <| .trans (.set (r := .v 0) _ (by simp)) <|
      .trans (.set (r := .v 0) _ (by simp)) <| .trans (.set (r := .t 3) _ (by simp)) <|
      .trans (.set (r := .a 0) _ (by simp)) (.set (r := .a 1) _ (by simp))
  · exact (htouch₂.regs (.t 1) (by decide)).trans ht1
  · show sbrk (c₂.get (.t 2) + .ofInt 32 1) = _
    rw [ht2]
    congr 1
    bv_omega

/-- Between the two rows of kept registers: the text comes into the buffer and from there into the
block. -/
theorem text_goes {n : Int} (hn : (c.get (.a 0)).toInt = n) {base : Word}
    (hsp : c.get .sp = base + 24) {block : Word}
    (hblock : sbrk (.ofNat 32 ((decimal n).length + 1)) = block)
    (hfresh : ∀ x, Span base 24 x → ¬ Span block ((decimal n).length + 1) x) :
    ∃ c', Goes sbrk intToString (14, c) (78, c') ∧
      Touches [.sp, .v 0, .a 0, .a 1, .t 0, .t 1, .t 2, .t 3]
        (fun x => Span base 24 x ∨ Span block ((decimal n).length + 1) x) c c' ∧
      c'.get .sp = base ∧ c'.get (.t 3) = block ∧ Spells c' block (decimal n ++ [0]) := by
  have habs : n.natAbs < 2 ^ 32 := by
    have := BitVec.toInt_lt (x := c.get (.a 0))
    have := BitVec.le_toInt (x := c.get (.a 0))
    omega
  -- Ten digits and a sign fit into the 24 bytes of the buffer.
  have hdigits := length_digits_le habs
  obtain ⟨c₁, hgoes₁, htouch₁, hsp₁, ht0, ht1, ht2, hs₁⟩ := buffer_goes sbrk hsp
  obtain ⟨c₂, hgoes₂, htouch₂, ht0₂, ht2₂, ht3₂⟩ := sign_goes sbrk (n := n) (by rwa [ht0]) ht2
  obtain ⟨c₃, hgoes₃, htouch₃, ht1₃, hs₃⟩ := digits_go sbrk (k := 23)
    habs (by omega) (by simp) ht0₂ ht3₂
      ((congrArg (· + 1) (htouch₂.regs (.t 1) (by decide))).trans ht1)
    (htouch₂.spells (fun _ _ h => h) (by simp) hs₁)
  obtain ⟨c₄, k, hgoes₄, htouch₄, hlen, ht1₄, hs₄⟩ := minus_goes sbrk (n := n) (by omega) (by omega)
    ht1₃ ((htouch₃.regs (.t 2) (by decide)).trans ht2₂) hs₃
  obtain ⟨c₅, hgoes₅, htouch₅, ha0, ha1, ht3⟩ := block_goes sbrk (n := n) (by omega) ht1₄ hs₄
  -- The block is not where the buffer is, so copying leaves the text to be read.
  rw [hblock] at ha1
  obtain ⟨c₆, hgoes₆, htouch₆, hs₆⟩ :=
    copy_goes sbrk (decimal n) (decimal_ne_zero n) (by omega) ha0 ha1
    (htouch₅.spells (fun _ _ h => h) (by simp; omega) hs₄) fun x hx =>
      hfresh x (by unfold Span at hx ⊢; bv_omega)
  refine ⟨c₆, ?_, ?_, ?_, ?_, hs₆⟩
  · exact (((hgoes₁.trans hgoes₂).trans hgoes₃).trans hgoes₄).trans (hgoes₅.trans hgoes₆)
  · have htext : Touches [.sp, .v 0, .a 0, .a 1, .t 0, .t 1, .t 2, .t 3] (Span base 24) c c₄ :=
      (htouch₁.mono (by decide) fun _ h => h).trans <|
        (htouch₂.mono (by decide) fun _ h => h.elim).trans <|
        (htouch₃.mono (by decide) fun _ h => h).trans
        (htouch₄.mono (by decide) fun _ h => h)
    exact (htext.mono (List.Subset.refl _) fun _ => .inl).trans <|
      (htouch₅.mono (by decide) fun _ h => h.elim).trans
      (htouch₆.mono (by decide) fun _ => .inr)
  · rw [htouch₆.regs .sp (by decide), htouch₅.regs .sp (by decide), htouch₄.regs .sp (by decide),
      htouch₃.regs .sp (by decide), htouch₂.regs .sp (by decide), hsp₁]
  · rw [htouch₆.regs (.t 3) (by decide), ht3, ha1]

/-- For every number of 32 bits the routine ends and returns the address of its text, followed by a
zero byte. The text is in the block that was asked for. Besides it only bytes below the stack
pointer are written, and no register but those of the arguments and the result is changed. -/
theorem intToString_writes (sbrk : Word → Word) (c : Cpu) (block : Word)
    (hblock : sbrk (.ofNat 32 ((decimal (c.get (.a 0)).toInt).length + 1)) = block)
    (haligned : (c.get .sp).toNat % 4 = 0)
    (hfresh : ∀ x, Span (c.get .sp - 68) 68 x →
      ¬ Span block ((decimal (c.get (.a 0)).toInt).length + 1) x) :
    ∃ c', Goes sbrk intToString (0, c) (intToString.length, c') ∧ c'.target? = some (c.get .ra) ∧
      c'.get (.v 0) = block ∧ Spells c' block (decimal (c.get (.a 0)).toInt ++ [0]) ∧
      Touches [.v 0, .a 0, .a 1]
        (fun x => Span (c.get .sp - 68) 68 x ∨
          Span block ((decimal (c.get (.a 0)).toInt).length + 1) x) c c' := by
  generalize hn : (c.get (.a 0)).toInt = n at hblock hfresh ⊢
  generalize hsp : c.get .sp = sp at haligned hfresh ⊢
  obtain ⟨c₁, hgoes₁, htouch₁, hsp₁, hkept⟩ := saves_go sbrk (by rwa [hsp])
  rw [hsp] at hsp₁ hkept htouch₁
  obtain ⟨c₂, hgoes₂, htouch₂, hsp₂, hblock₂, hs₂⟩ := text_goes sbrk
    (by rw [htouch₁.regs (.a 0) (by decide), hn]) (show c₁.get .sp = sp - 68 + 24 by
      rw [hsp₁]; bv_omega) hblock
    fun x hx => hfresh x (by unfold Span at hx ⊢; bv_omega)
  obtain ⟨c₃, hgoes₃, htarget, hv, hsp₃, hmem, hloaded, hothers⟩ := closing_goes sbrk hsp₂
  -- Neither the buffer nor the block meets a kept word.
  have hwords (j : Nat) (r : Reg) (hr : keptRegs[j]? = some r) :
    c₂.mem (keptWord sp j) = c.get r := by
    have hj : j < 11 := (List.getElem?_eq_some_iff.mp hr).1
    rw [← hkept j r hr]
    refine htouch₂.words _ fun x hx hword => ?_
    have hframe := span_of_wordOf haligned hj hword
    rcases hx with hx | hx
    · unfold Span at hx hframe
      bv_omega
    · exact hfresh x (by unfold Span at hframe ⊢; bv_omega) hx
  have htouch : Touches [.sp, .v 0, .a 0, .a 1, .t 0, .t 1, .t 2, .t 3]
      (fun x => Span (sp - 68) 68 x ∨ Span block ((decimal n).length + 1) x) c c₂ := by
    refine (htouch₁.mono (by decide) fun x hx => .inl ?_).trans
      (htouch₂.mono (List.Subset.refl _) fun x => Or.imp_left fun hx => ?_)
    · unfold Span at hx ⊢
      bv_omega
    · unfold Span at hx ⊢
      bv_omega
  refine ⟨c₃, (hgoes₁.trans hgoes₂).trans hgoes₃, ?_, hv.trans hblock₂, hs₂.congr hmem,
    fun r hr => ?_, fun x hx => ?_,
    fun a ha => ?_⟩
  · rw [htarget, hwords 0 .ra rfl]
  · by_cases hr_sp : r = .sp
    · rw [hr_sp, hsp₃, hsp]
    by_cases hr_kept : r ∈ keptRegs
    · obtain ⟨j, hj⟩ := List.mem_iff_getElem?.mp hr_kept
      rw [hloaded j r hj, hwords j r hj]
    · have hr' : r ∉ [Reg.sp, .v 0, .a 0, .a 1, .t 0, .t 1, .t 2, .t 3] := by
        simp [keptRegs] at hr hr_kept ⊢
        tauto
      rw [hothers r (fun h => hr (h ▸ .head _)) hr_sp hr_kept, htouch.regs r hr']
  · rw [Cpu.byte, hmem, ← Cpu.byte, htouch.bytes x hx]
  · rw [hmem, htouch.words a ha]

/-- The least number of 32 bits, whose opposite needs one bit more. -/
theorem intToString_writes_least : ∃ c', Goes (fun _ => 0x10040000) intToString
      (0, {
        reg := fun r => if r = .sp then 0x7fffeffc else 0x80000000
        mem := fun _ => 0, labels := fun _ => 0 })
      (intToString.length, c') ∧
      c'.get (.v 0) = 0x10040000 ∧
        Spells c' 0x10040000 ("-2147483648".toList.map ascii ++ [0]) := by
  obtain ⟨c', hgoes, -, hv, hs, -⟩ := intToString_writes (fun _ => 0x10040000)
    { reg := fun r => if r = .sp then 0x7fffeffc else 0x80000000, mem := fun _ => 0,
      labels := fun _ => 0 } 0x10040000 rfl
    (by decide) fun x hx hblock => by
      have hx : Span (0x7fffeffc - 68) 68 x := hx
      have hblock : Span 0x10040000 12 x := hblock
      unfold Span at hx hblock
      bv_omega
  exact ⟨c', hgoes, hv, hs⟩

end

end Scriptc.Mips
