import Scriptc.Proofs.PairedStmt

/-!
# Scriptc: steps that write code and look at no names

`Veil` is the part of the state that most steps which write code neither look at nor change: names,
reports, the place in the program, frames and storage. `Blind step` says so: whatever the veil is,
the step comes to the same and leaves the veil as it is. It passes through sequences, and the
operators, constants, stores and jumps of the code are all blind; places of variables and frames of
functions are not.
-/

namespace Scriptc

/-- What a step that only writes code does not look at. -/
structure Veil where
  table : SymbolTable
  errors : Array String
  warnings : Array String
  inFunction? : Option SymbolId
  inClass? : Option SymbolId
  loops : Loops
  unreachable : Bool
  frames : Array Frame
  storage : Storage

def Build.veil (b : Build) : Veil :=
  ⟨b.table, b.errors, b.warnings, b.inFunction?, b.inClass?, b.loops, b.unreachable,
    b.frames, b.storage⟩

/-- The state with another veil. -/
def Veil.on (v : Veil) (b : Build) : Build :=
  { b with
    table := v.table, errors := v.errors, warnings := v.warnings, inFunction? := v.inFunction?
    inClass? := v.inClass?, loops := v.loops, unreachable := v.unreachable, frames := v.frames
    storage := v.storage }

/-- The step comes to the same behind every veil, and leaves it. -/
def Blind {α : Type} (m : BuildM α) : Prop :=
  ∀ (b : Build) (v : Veil), (v.on b).run m = ((b.run m).1, v.on (b.run m).2)

namespace Blind

variable {α β : Type} {m : BuildM α}

/-- The veil of the state itself stays. -/
theorem veil (hm : Blind m) (b : Build) :
    (b.run m).2 = b.veil.on (b.run m).2 := congrArg Prod.snd (hm b b.veil)

@[grind ←] theorem pure (a : α) : Blind (pure a : BuildM α) := fun _ _ => rfl

@[grind ←] theorem bind {f : α → BuildM β} (hm : Blind m) (hf : ∀ a, Blind (f a)) :
    Blind (m >>= f) := by
  intro b v
  rw [Build.run_bind, Build.run_bind, hm b v]
  rcases b.run m with ⟨e | a, c⟩
  · rfl
  · exact hf a c v

@[grind ←] theorem map (g : α → β) (hm : Blind m) : Blind (g <$> m) := by
  rw [map_eq_pure_bind]
  exact hm.bind fun a => pure (g a)

theorem modify {f : Build → Build} (hf : ∀ b v, f (Veil.on v b) = v.on (f b)) :
    Blind (modify f : BuildM PUnit) :=
  fun b v => Prod.ext rfl (hf b v)

/-- A step that looks at the state, but not at its veil. -/
theorem look {f : Build → BuildM β} (hsame : ∀ b v, f (Veil.on v b) = f b) (hf : ∀ b, Blind (f b)) :
    Blind (get >>= f) := by
  intro b v
  show (v.on b).run (f (v.on b)) = _
  rw [hsame]
  exact hf b b v

@[grind ←] theorem ofExcept (r : Except Fault α) : Blind (Build.ofExcept r) := by
  cases r with
  | ok a => exact pure a
  | error e => exact fun _ _ => rfl

@[grind ←] theorem forM {xs : List α} {f : α → BuildM PUnit} (hf : ∀ x, Blind (f x)) :
    Blind (xs.forM f) := by
  induction xs with
  | nil => exact pure _
  | cons x xs ih => exact (hf x).bind fun _ => ih

/-! ## Temporaries and labels -/

@[grind ←] theorem quad (q : Quad) : Blind (Emit.quad q) := .modify fun _ _ => rfl

@[grind ←] theorem newLabel : Blind Emit.newLabel := fun _ _ => rfl

@[grind ←] theorem mark (l : Operand) : Blind (Emit.mark l) := quad _

@[grind ←] theorem jump (l : Operand) : Blind (Emit.jump l) := quad _

@[grind ←] theorem setValue (o : Operand) : Blind (Emit.setValue o) := .modify fun _ _ => rfl

@[grind ←] theorem setLastTemp (o : Operand) : Blind (Emit.setLastTemp o) := .modify fun _ _ => rfl

@[grind ←] theorem use (o : Operand) : Blind (Emit.use o) := by
  refine .modify fun b v => ?_
  by_cases ho : o.beginsLikeTemp = true
  · rw [if_pos ho, if_pos ho]
    rfl
  · rw [if_neg ho, if_neg ho]

@[grind ←] theorem release (o : Operand) : Blind (Emit.release o) := by
  refine .modify fun b v => ?_
  show (if (o.isTempName && !b.used.contains o) = true then _ else _) = _
  split
  · rfl
  · rfl

@[grind ←] theorem newTemp : Blind Emit.newTemp := by
  intro b v
  cases b
  rename_i reusable _ _ _ _ _ _ _ _
  cases reusable <;> rfl

@[grind ←] theorem lastOrNew : Blind Emit.lastOrNew := by
  refine look (fun _ _ => rfl) fun b => ?_
  split
  · exact pure _
  · exact newTemp

/-! ## Values -/

@[grind ←] theorem finish (t : Operand) : Blind (Emit.finish t) := by
  unfold Emit.finish
  grind

@[grind ←] theorem arithmetic (left right : Operand) (op : String) :
    Blind (Emit.arithmetic left right op) := by
  unfold Emit.arithmetic
  grind

@[grind ←] theorem comparison (left right : Operand) (op : String) :
    Blind (Emit.comparison left right op) := by
  unfold Emit.comparison
  grind

@[grind ←] theorem unary (operand : Operand) (op : String) : Blind (Emit.unary operand op) := by
  unfold Emit.unary
  grind

@[grind ←] theorem logicalNot (operand : Operand) : Blind (Emit.logicalNot operand) := by
  unfold Emit.logicalNot
  grind

@[grind ←] theorem shortCircuit (test : Op) (constant : String) (left right : Operand) :
    Blind (Emit.shortCircuit test constant left right) :=
  newTemp.bind fun _ => newLabel.bind fun _ => newLabel.bind fun _ => (quad _).bind fun _ =>
    (quad _).bind fun _ =>
    (jump _).bind fun _ => (mark _).bind fun _ => (quad _).bind fun _ =>
    (mark _).bind fun _ => finish _

@[grind ←] theorem logical (left right : Operand) (op : String) :
    Blind (Emit.logical left right op) := by
  unfold Emit.logical
  grind

@[grind ←] theorem assign (target value : Operand) : Blind (Emit.assign target value) := by
  unfold Emit.assign
  grind

@[grind ←] theorem stringLabel (literal : String) : Blind (Emit.stringLabel literal) := by
  have hrun : ∀ c : Build, c.run (Emit.stringLabel literal) = (c.strings.get? literal).elim
      (.ok (Operand.string c.stringCount).render, { c with
        strings := c.strings.put literal (Operand.string c.stringCount).render, stringCount :=
          c.stringCount + 1 })
      fun l => (.ok l, c) := by
    intro c
    have hget (f : Build → BuildM String) : c.run (get >>= f) = c.run (f c) := rfl
    unfold Emit.stringLabel
    rw [hget]
    cases c.strings.get? literal <;> rfl
  intro b v
  rw [hrun, hrun]
  show (b.strings.get? literal).elim _ _ = _
  cases b.strings.get? literal <;> rfl

theorem constant (text : String) : Blind (Emit.constant text) := by
  have hload (o : Operand) : Blind (do
      if (← get).direct then
        Emit.setValue o
        return o
      else
        let t ← Emit.newTemp
        Emit.quad { op := .copy, arg1 := o, result := t }
        Emit.setValue t
        return t) := by
    refine look (fun _ _ => rfl) fun b => ?_
    split
    · exact (setValue o).bind fun _ => pure o
    · exact newTemp.bind fun _ => (quad _).bind fun _ => (setValue _).bind fun _ => pure _
  unfold Emit.constant
  dsimp only
  split
  · exact (map _ (stringLabel text)).bind hload
  · exact (pure (Operand.ofText text)).bind hload

@[grind ←] theorem print (value : Operand) (type? : Option Ty) :
    Blind (Emit.print value type?) := by
  unfold Emit.print
  grind

/-! ## Arrays -/

@[grind ←] theorem compute (op : Op) (a b : Operand) : Blind (Emit.compute op a b) := by
  unfold Emit.compute
  grind

@[grind ←] theorem elementAddress (base index : Operand) (size : Int) :
    Blind (Emit.elementAddress base index size) := by
  unfold Emit.elementAddress
  grind

@[grind ←] theorem loadElement (base index : Operand) (size : Int) :
    Blind (Emit.loadElement base index size) := by
  unfold Emit.loadElement
  grind

@[grind ←] theorem storeElement (base index value : Operand) (size : Int) :
    Blind (Emit.storeElement base index value size) := by
  unfold Emit.storeElement
  grind

@[grind ←] theorem storeAll (address : Operand) (i : Nat) (vs : List Operand) :
    Blind (Emit.storeAll address i vs) := by
  induction vs generalizing i with
  | nil => exact pure _
  | cons v vs ih =>
    exact newTemp.bind fun _ => (quad _).bind fun _ => (compute _ _ _).bind fun _ =>
      (compute _ _ _).bind fun _ =>
      (quad _).bind fun _ => ih (i + 1)

/-! ## Calls and jumps -/

@[grind ←] theorem takeResult (argCount : Nat) : Blind (Emit.takeResult argCount) := by
  unfold Emit.takeResult
  grind

theorem returnValue (value : Operand) : Blind (Emit.returnValue value) := by
  refine look (fun _ _ => rfl) fun b => ?_
  grind

theorem leaveTo (target : Loop → Operand) : Blind (Emit.leaveTo target) := by
  refine look (fun _ _ => rfl) fun b => ?_
  grind

end Blind

end Scriptc
