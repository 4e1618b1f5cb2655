import Scriptc.Proofs.Core
import Scriptc.Quad

/-!
# Scriptc: a machine for quadruples

Quadruples that compute, jump and print can be run. A configuration holds the place in the code, the
temporaries, the words in storage and what has been printed. `step?` carries out one quadruple and
gives nothing at the end of the code or where a quadruple makes no sense; `Steps` counts.

* A jump goes to the first place where its label is marked (`place?`).
* The machine is a function, so a run has one future: `Steps.det`, `Steps.le_of_halted`.
* What has been printed stays printed: `Steps.output_le`.

Functions, arrays, objects and strings are not run here.
-/

namespace Scriptc.Machine

structure Config where
  pc : Nat := 0
  temps : Nat → Int := fun _ => 0
  words : Nat → Int := fun _ => 0
  output : List Int := []

/-- The value of a constant. -/
def constant? (s : String) : Option Int :=
  if s = "true" then some (truth true)
  else if s = "false" then some (truth false)
  else (Decimal.read? s.toList).map Int.ofNat

/-- What an operation with two arguments computes. -/
def compute? (A : Arith) : Op → Option (Int → Int → Int)
  | .add => some A.add
  | .sub => some A.sub
  | .mul => some A.mul
  | .div => some A.div
  | .mod => some A.mod
  | .eq => some fun x y => truth (x = y)
  | .ne => some fun x y => truth (x ≠ y)
  | .lt => some fun x y => truth (x < y)
  | .le => some fun x y => truth (x ≤ y)
  | .gt => some fun x y => truth (x > y)
  | .ge => some fun x y => truth (x ≥ y)
  | _ => none

namespace Config

/-- The value of an operand. -/
def read? (c : Config) : Operand → Option Int
  | .temp k => some (c.temps k)
  | .address a => some (c.words a)
  | .text s => constant? s
  | _ => none

/-- Writes a value to a temporary or to storage and goes on. -/
def write? (c : Config) (target : Operand) (v : Int) : Option Config :=
  match target with
  | .temp k => some { c with pc := c.pc + 1, temps := fun j => if j = k then v else c.temps j }
  | .address a => some { c with pc := c.pc + 1, words := fun j => if j = a then v else c.words j }
  | _ => none

def goto (c : Config) (pc : Nat) : Config := { c with pc := pc }

def next (c : Config) : Config := c.goto (c.pc + 1)

/-- Prints a value and goes on. -/
def print (c : Config) (v : Int) : Config :=
  { c with pc := c.pc + 1, output := c.output ++ [v] }

end Config

/-- Where a label is marked. -/
def place? (Q : Array Quad) (l : Operand) : Option Nat :=
  Q.findIdx? fun q => q.op = .label ∧ q.result = l

def jump? (Q : Array Quad) (c : Config) (l : Operand) : Option Config := (place? Q l).map c.goto

/-- Carries out a quadruple. -/
def carryOut? (A : Arith) (Q : Array Quad) (c : Config) (q : Quad) : Option Config :=
  match compute? A q.op with
  | some f =>
    (c.read? q.arg1).bind fun x => (c.read? q.arg2).bind fun y => c.write? q.result (f x y)
  | none =>
    match q.op with
    | .label => some c.next
    | .goto => jump? Q c q.result
    | .ifTrue => (c.read? q.arg1).bind fun v => if v = 0 then some c.next else jump? Q c q.result
    | .ifFalse => (c.read? q.arg1).bind fun v => if v = 0 then jump? Q c q.result else some c.next
    | .copy => (c.read? q.arg1).bind fun v => c.write? q.result v
    | .not => (c.read? q.arg1).bind fun v => c.write? q.result (truth (v = 0))
    | .printInt => (c.read? q.arg1).map c.print
    | _ => none

/-- Carries out the quadruple at hand. -/
def step? (A : Arith) (Q : Array Quad) (c : Config) : Option Config :=
  Q[c.pc]?.bind (carryOut? A Q c)

/-- From `c` the machine comes to `c'` in `n` steps. -/
def Steps (A : Arith) (Q : Array Quad) : Nat → Config → Config → Prop
  | 0, c, c' => c = c'
  | n + 1, c, c' => ∃ d, step? A Q c = some d ∧ Steps A Q n d c'

/-- Where the machine is after a number of steps, if it comes that far. -/
def after? (A : Arith) (Q : Array Quad) : Nat → Config → Option Config
  | 0, c => some c
  | n + 1, c => (step? A Q c).bind (after? A Q n)

/-- The machine, started at the beginning of the code with all storage zero, comes to its end. -/
def Halts (A : Arith) (Q : Array Quad) (c : Config) : Prop :=
  (∃ n, Steps A Q n {} c) ∧ c.pc = Q.size

section
variable {A : Arith} {Q : Array Quad} {m n : Nat} {c d e : Config}

namespace Steps

theorem one (h : step? A Q c = some d) : Steps A Q 1 c d := ⟨d, h, rfl⟩

theorem trans (h₁ : Steps A Q m c d) (h₂ : Steps A Q n d e) : Steps A Q (m + n) c e := by
  induction m generalizing c with
  | zero =>
    obtain rfl : c = d := h₁
    rwa [Nat.zero_add]
  | succ m ih =>
    obtain ⟨c₁, hstep, hrest⟩ := h₁
    rw [Nat.add_right_comm]
    exact ⟨c₁, hstep, ih hrest⟩

/-- A run of `n` steps is the beginning of every longer run. -/
theorem split (h : Steps A Q (m + n) c e) : ∃ d, Steps A Q m c d ∧ Steps A Q n d e := by
  induction m generalizing c with
  | zero =>
    rw [Nat.zero_add] at h
    exact ⟨c, rfl, h⟩
  | succ m ih =>
    rw [Nat.add_right_comm] at h
    obtain ⟨c₁, hstep, hrest⟩ := h
    obtain ⟨d, hd, he⟩ := ih hrest
    exact ⟨d, ⟨c₁, hstep, hd⟩, he⟩

/-- Where the machine is after a number of steps is settled. -/
theorem det (h₁ : Steps A Q n c d) (h₂ : Steps A Q n c e) : d = e := by
  induction n generalizing c with
  | zero => exact (h₁ : c = d).symm.trans h₂
  | succ n ih =>
    obtain ⟨c₁, hstep₁, hrest₁⟩ := h₁
    obtain ⟨c₂, hstep₂, hrest₂⟩ := h₂
    grind

theorem iff_after? : Steps A Q n c d ↔ after? A Q n c = some d := by
  induction n generalizing c with
  | zero => exact Option.some_inj.symm
  | succ n ih =>
    rw [after?, Option.bind_eq_some_iff]
    exact exists_congr fun c₁ => and_congr_right fun _ => ih

end Steps

theorem step?_of_end (h : c.pc = Q.size) : step? A Q c = none := by
  unfold step?
  rw [Array.getElem?_eq_none (Nat.le_of_eq h.symm)]
  rfl

/-- No run is longer than one that has come to the end of the code. -/
theorem Steps.le_of_halted (h₁ : Steps A Q m c d) (hend : d.pc = Q.size) (h₂ : Steps A Q n c e) :
    n ≤ m := by
  refine Nat.le_of_not_lt fun hlt => ?_
  obtain ⟨k, rfl⟩ := Nat.exists_eq_add_of_le (Nat.succ_le_of_lt hlt)
  rw [Nat.succ_add_eq_add_succ] at h₂
  obtain ⟨d', hd', ⟨_, hstep, _⟩⟩ := h₂.split
  obtain rfl := h₁.det hd'
  rw [step?_of_end hend] at hstep
  cases hstep

/-! ## What has been printed -/

theorem write?_output {o : Operand} {v : Int} (h : c.write? o v = some d) :
    d.output = c.output := by
  unfold Config.write? at h
  grind

theorem jump?_output {l : Operand} (h : jump? Q c l = some d) : d.output = c.output := by
  obtain ⟨i, _, rfl⟩ := Option.map_eq_some_iff.mp h
  rfl

theorem step?_output_grows (h : step? A Q c = some d) : c.output <+: d.output := by
  obtain ⟨q, _, h⟩ := Option.bind_eq_some_iff.mp h
  unfold carryOut? at h
  split at h
  · obtain ⟨x, _, h⟩ := Option.bind_eq_some_iff.mp h
    obtain ⟨y, _, h⟩ := Option.bind_eq_some_iff.mp h
    exact write?_output h ▸ List.prefix_rfl
  split at h
  case h_1 => exact Option.some.inj h ▸ List.prefix_rfl
  case h_2 => exact jump?_output h ▸ List.prefix_rfl
  case h_3 =>
    obtain ⟨v, _, h⟩ := Option.bind_eq_some_iff.mp h
    split at h
    · exact Option.some.inj h ▸ List.prefix_rfl
    · exact jump?_output h ▸ List.prefix_rfl
  case h_4 =>
    obtain ⟨v, _, h⟩ := Option.bind_eq_some_iff.mp h
    split at h
    · exact jump?_output h ▸ List.prefix_rfl
    · exact Option.some.inj h ▸ List.prefix_rfl
  case h_5 | h_6 =>
    obtain ⟨v, _, h⟩ := Option.bind_eq_some_iff.mp h
    exact write?_output h ▸ List.prefix_rfl
  case h_7 =>
    obtain ⟨v, _, rfl⟩ := Option.map_eq_some_iff.mp h
    exact List.prefix_append _ _
  case h_8 => cases h

theorem Steps.output_grows (h : Steps A Q n c d) : c.output <+: d.output := by
  induction n generalizing c with
  | zero => exact (h : c = d) ▸ List.prefix_rfl
  | succ n ih =>
    obtain ⟨c₁, hstep, hrest⟩ := h
    exact (step?_output_grows hstep).trans (ih hrest)

/-- A longer run has printed at least as much. -/
theorem Steps.output_le (h₁ : Steps A Q m c d) (h₂ : Steps A Q n c e) (hle : m ≤ n) :
    d.output <+: e.output := by
  obtain ⟨k, rfl⟩ := Nat.exists_eq_add_of_le hle
  obtain ⟨d', hd', hrest⟩ := h₂.split
  obtain rfl := h₁.det hd'
  exact hrest.output_grows

end

end Scriptc.Machine
