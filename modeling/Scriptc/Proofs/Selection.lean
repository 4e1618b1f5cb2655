import Scriptc.Mips.Program

/-!
# Scriptc: steps of choosing instructions

`Select.Ends input step s a s'` says that `step`, begun in the state `s`, completes with the value
`a` and leaves the state `s'`. Sequences of steps are taken apart by `ends_bind`, and `Select.Keeps
R step` says that the relation `R` holds between the states before and after.

Most steps only give out registers, and `RegsOnly` says that nothing else changes. Of steps in a
row, `ends_mapM_cons` and `ends_mapM_append` take one or several off, and `mapM_preserves` carries
what each keeps.
-/

namespace Scriptc.Mips.Select

variable {α β : Type} {input : Input} {s s' : Select} {f : α → SelectM β} {m : SelectM α} {c : β}
  {cs : List β}
variable {a : α} {xs : List α}

/-- From `s` the step completes with the value `a` and leaves `s'`. -/
def Ends (input : Input) (step : SelectM α) (s : Select) (a : α) (s' : Select) : Prop :=
  s.run input step = (.ok a, s')

/-! ## What the elementary steps come to -/

/-- A sequence stops at the fault of its first part and goes on from its state otherwise. -/
theorem run_bind (m : SelectM α) (f : α → SelectM β) :
    s.run input (m >>= f) = match s.run input m with
      | (.ok a, s₁) => s₁.run input (f a)
      | (.error e, s₁) => (.error e, s₁) := by
  unfold run
  simp only [ReaderT.run_bind, ExceptT.run_bind, StateT.run_bind, Id.run_bind]
  rcases (ExceptT.run (ReaderT.run m input)).run s with ⟨r | r, s₁⟩ <;> rfl

/-- A step that does nothing ends where it began. -/
@[simp, grind =] theorem ends_pure {c : α} : Ends input (pure a) s c s' ↔ c = a ∧ s' = s := by
  show ((.ok a, s) : Except Fault α × Select) = (.ok c, s') ↔ _
  grind

/-- A sequence completes exactly when its parts do, one behind the other. -/
theorem ends_bind :
    Ends input (m >>= f) s c s' ↔ ∃ a s₁, Ends input m s a s₁ ∧ Ends input (f a) s₁ c s' := by
  unfold Ends
  rw [run_bind]
  rcases hm : s.run input m with ⟨r | r, s₁⟩
  · simp
  · grind

@[simp, grind =] theorem ends_map {g : α → β} :
    Ends input (g <$> m) s c s' ↔ ∃ a, Ends input m s a s' ∧ c = g a := by
  rw [map_eq_pure_bind, ends_bind]
  constructor
  · grind
  · grind

@[simp, grind =] theorem ends_modify {f : Select → Select} {u : PUnit} :
    Ends input (modify f : SelectM PUnit) s u s' ↔ s' = f s := by
  constructor
  · intro h
    exact (Prod.mk.inj h).2.symm
  · rintro rfl
    rfl

/-- A step that fails does not end. -/
@[simp, grind .] theorem ends_throw {e : Fault} : ¬ Ends input (throw e : SelectM α) s a s' := by
  intro h
  cases (Prod.mk.inj h).1

/-! Behind a step whose outcome is known, a sequence goes on from that outcome. -/

/-- What follows a step goes on from the state that it leaves. -/
theorem ends_bind_of_run {t : Select} (h : s.run input m = (.ok a, t))
    : Ends input (m >>= f) s c s' ↔ Ends input (f a) t c s' := by
  unfold Ends
  rw [run_bind, h]

@[simp, grind =] theorem ends_get_bind {f : Select → SelectM β} :
    Ends input (get >>= f) s c s' ↔ Ends input (f s) s c s' :=
  ends_bind_of_run rfl

@[simp, grind =] theorem ends_read_bind {f : Input → SelectM β} :
    Ends input (read >>= f) s c s' ↔ Ends input (f input) s c s' :=
  ends_bind_of_run rfl

@[simp, grind =] theorem ends_set_bind {t : Select} {f : PUnit → SelectM β} :
    Ends input (set t >>= f) s c s' ↔ Ends input (f ⟨⟩) t c s' :=
  ends_bind_of_run rfl

@[simp, grind =] theorem ends_modify_bind {g : Select → Select} {f : PUnit → SelectM β} :
    Ends input (modify g >>= f) s c s' ↔ Ends input (f ⟨⟩) (g s) c s' :=
  ends_bind_of_run rfl

/-- A calculation leaves the state alone. -/
@[simp, grind =] theorem ends_ofExcept {r : Except Fault α} :
    Ends input (ofExcept r) s a s' ↔ r = .ok a ∧ s' = s := by
  cases r with
  | ok c =>
    rw [show ofExcept (.ok c : Except Fault α) = pure c from rfl, ends_pure, Except.ok.injEq]
    exact ⟨fun h => ⟨h.1.symm, h.2⟩, fun h => ⟨h.1.symm, h.2⟩⟩
  | error e =>
    rw [show ofExcept (.error e : Except Fault α) = throw e from rfl]
    simp

/-! Steps that are taken for each element of a list. -/

/-- Steps over a list are carried out from the front. -/
theorem ends_mapM_cons {x : α} :
    Ends input ((x :: xs).mapM f) s cs s' ↔ ∃ c s₁ rest, Ends input (f x) s c s₁ ∧
      Ends input (xs.mapM f) s₁ rest s' ∧ cs = c :: rest := by
  rw [List.mapM_cons, ends_bind]
  simp only [ends_bind, ends_pure]
  constructor
  · grind
  · grind

/-- Steps over two lists are those over the first and then those over the second. -/
theorem ends_mapM_append {ys : List α} :
    Ends input ((xs ++ ys).mapM f) s cs s' ↔ ∃ cs₁ s₁ cs₂, Ends input (xs.mapM f) s cs₁ s₁ ∧
      Ends input (ys.mapM f) s₁ cs₂ s' ∧ cs = cs₁ ++ cs₂ := by
  rw [List.mapM_append, ends_bind]
  simp only [ends_bind, ends_pure]
  constructor
  · grind
  · grind

/-- What each step preserves, all of them do. -/
theorem mapM_preserves {P : Select → Prop}
    (hstep : ∀ x ∈ xs, ∀ {s c s'}, P s → Ends input (f x) s c s' → P s') (hs : P s)
    (h : Ends input (xs.mapM f) s cs s') : P s' := by
  induction xs generalizing s cs with
  | nil => exact (ends_pure.mp h).2 ▸ hs
  | cons x xs ih =>
    obtain ⟨c, s₁, rest, hc, hrest, rfl⟩ := ends_mapM_cons.mp h
    exact ih (fun y hy => hstep y (.tail _ hy)) (hstep x (.head _) hs hc) hrest

/-! ## Relations along a step -/

/-- `R` holds between the states before and after the step, if it completes. -/
def Keeps (R : Select → Select → Prop) (step : SelectM α) : Prop :=
  ∀ ⦃input s a s'⦄, Ends input step s a s' → R s s'

/-- Nothing has changed but the registers and the temporary of the last result. -/
def RegsOnly (s s' : Select) : Prop := s' = { s with alloc := s'.alloc, lastPop := s'.lastPop }

namespace RegsOnly

theorem refl (s : Select) : RegsOnly s s := rfl

theorem trans {t u : Select} (h₁ : RegsOnly s t) (h₂ : RegsOnly t u) : RegsOnly s u := by
  unfold RegsOnly at h₁ h₂ ⊢
  rw [h₂, h₁]

@[grind ←] theorem pure (a : α) : Keeps RegsOnly (pure a : SelectM α) := by
  intro input s c s' h
  rw [(ends_pure.mp h).2]
  exact refl s

/-- Each lemma about a function of the selection is put together from the lemmas about its parts. -/
@[grind ←] theorem bind (hm : Keeps RegsOnly m)
    (hf : ∀ a, Keeps RegsOnly (f a)) : Keeps RegsOnly (m >>= f) := by
  intro input s c s' h
  obtain ⟨a, s₁, h₁, h₂⟩ := ends_bind.mp h
  exact (hm h₁).trans (hf a h₂)

@[grind ←] theorem map {g : α → β} (hm : Keeps RegsOnly m) : Keeps RegsOnly (g <$> m) := by
  rw [map_eq_pure_bind]
  exact bind hm fun a => pure (g a)

@[grind ←] theorem throw (e : Fault) : Keeps RegsOnly (throw e : SelectM α) :=
  fun _ _ _ _ h => absurd h ends_throw

@[grind ←] theorem ofExcept (r : Except Fault α) : Keeps RegsOnly (ofExcept r) := by
  intro input s a s' h
  rw [(ends_ofExcept.mp h).2]
  exact refl s

@[grind ←] theorem get_bind {f : Select → SelectM β} (hf : ∀ t, Keeps RegsOnly (f t)) :
    Keeps RegsOnly (get >>= f) :=
  fun _ s _ _ h => hf s (ends_get_bind.mp h)

@[grind ←] theorem read_bind {f : Input → SelectM β} (hf : ∀ i, Keeps RegsOnly (f i)) :
    Keeps RegsOnly (read >>= f) :=
  fun input _ _ _ h => hf input (ends_read_bind.mp h)

/-! ### Registers and addresses -/

@[grind ←] theorem modifyAlloc (f : Allocator → Allocator) : Keeps RegsOnly (modifyAlloc f) := by
  intro input s u s' h
  rw [ends_modify.mp h]
  rfl

/-- The register of an operand may be a new one. -/
@[grind ←] theorem reg (o : Operand) : Keeps RegsOnly (reg o) := by
  intro input s r s' h
  unfold Select.reg at h
  rw [ends_get_bind] at h
  obtain ⟨⟨r', a⟩, s₁, hcalc, h⟩ := ends_bind.mp h
  obtain ⟨-, rfl⟩ := ends_ofExcept.mp hcalc
  rw [ends_set_bind, ends_pure] at h
  rw [h.2]
  rfl

/-- A register for the moment is given to no name. -/
@[grind ←] theorem scratch : Keeps RegsOnly scratch := by
  unfold Select.scratch
  grind

@[grind ←] theorem current? : Keeps RegsOnly current? := by
  unfold Select.current?
  grind

@[grind ←] theorem inConstructor : Keeps RegsOnly inConstructor := by
  unfold Select.inConstructor
  grind

@[grind ←] theorem memoryLabel (o : Operand) : Keeps RegsOnly (memoryLabel o) := by
  unfold Select.memoryLabel
  grind

@[grind ←] theorem heapReg (a : Int) : Keeps RegsOnly (heapReg a) := by
  unfold Select.heapReg
  grind

@[grind ←] theorem loadLabel (r : Reg) (o : Operand) : Keeps RegsOnly (loadLabel r o) := by
  unfold Select.loadLabel
  grind

@[grind ←] theorem loadOperand (o : Operand) (r : Reg) : Keeps RegsOnly (loadOperand o r) := by
  unfold Select.loadOperand
  grind

@[grind ←] theorem loadPlain (o : Operand) (r : Reg) : Keeps RegsOnly (loadPlain o r) := by
  unfold Select.loadPlain
  grind

@[grind ←] theorem loadCondition (o : Operand) (r : Reg) : Keeps RegsOnly (loadCondition o r) := by
  unfold Select.loadCondition
  grind

@[grind ←] theorem loadValue (o : Operand) (r : Reg) : Keeps RegsOnly (loadValue o r) := by
  unfold Select.loadValue
  grind

@[grind ←] theorem loadString (o : Operand) (r : Reg) : Keeps RegsOnly (loadString o r) := by
  unfold Select.loadString
  grind

/-! ### Strings and objects -/

@[grind ←] theorem isString (o : Operand) : Keeps RegsOnly (isString o) := by
  unfold Select.isString
  grind

@[grind ←] theorem anyString (a b : Operand) : Keeps RegsOnly (anyString a b) := by
  unfold Select.anyString
  grind

@[grind ←] theorem loadPiece (o : Operand) (r : Reg) : Keeps RegsOnly (loadPiece o r) := by
  unfold Select.loadPiece
  grind

@[grind ←] theorem compareStrings (q : Quad) : Keeps RegsOnly (compareStrings q) := by
  unfold Select.compareStrings
  grind

@[grind ←] theorem objectBase (o : Operand) : Keeps RegsOnly (objectBase o) := by
  unfold Select.objectBase
  grind

@[grind ←] theorem memberAddress (q : Quad) : Keeps RegsOnly (memberAddress q) := by
  unfold Select.memberAddress
  grind

/-- The method of a call is looked up among the classes, which do not change. -/
@[grind ←] theorem callTarget (label : String) : Keeps RegsOnly (callTarget label) := by
  unfold Select.callTarget
  grind

/-! ### Operators, copies and memory -/

@[grind ←] theorem operandRegs (d : Reg) (a b : Operand) : Keeps RegsOnly (operandRegs d a b) := by
  unfold Select.operandRegs
  grind

/-- The result of the last call takes the place of a temporary that is lost, once. -/
@[grind ←] theorem copiedValue (value target : Operand) :
    Keeps RegsOnly (copiedValue value target) := by
  unfold Select.copiedValue
  intro input s p s' h
  rw [ends_get_bind] at h
  split at h
  · rw [ends_set_bind, ends_pure] at h
    rw [h.2]
    rfl
  · exact pure _ h

@[grind ←] theorem targetReg (value target : Operand) :
    Keeps RegsOnly (targetReg value target) := by
  unfold Select.targetReg
  grind

@[grind ←] theorem dropStored (value : Operand) : Keeps RegsOnly (dropStored value) := by
  unfold Select.dropStored
  grind

@[grind ←] theorem storeLabel (r : Reg) (target : Operand) :
    Keeps RegsOnly (storeLabel r target) := by
  unfold Select.storeLabel
  grind

@[grind ←] theorem storeTo (value target : Operand) (r : Reg) :
    Keeps RegsOnly (storeTo value target r) := by
  unfold Select.storeTo
  grind

@[grind ←] theorem comparedRegs (q : Quad) : Keeps RegsOnly (comparedRegs q) := by
  unfold Select.comparedRegs
  grind

@[grind ←] theorem comparison (q : Quad) : Keeps RegsOnly (comparison q) := by
  unfold Select.comparison
  grind

@[grind ←] theorem plainPair (q : Quad) : Keeps RegsOnly (plainPair q) := by
  unfold Select.plainPair
  grind

@[grind ←] theorem logical (q : Quad) : Keeps RegsOnly (logical q) := by
  unfold Select.logical
  grind

@[grind ←] theorem negate (q : Quad) : Keeps RegsOnly (negate q) := by
  unfold Select.negate
  grind

@[grind ←] theorem remainder (q : Quad) : Keeps RegsOnly (remainder q) := by
  unfold Select.remainder
  grind

@[grind ←] theorem deref (q : Quad) : Keeps RegsOnly (deref q) := by
  unfold Select.deref
  grind

@[grind ←] theorem addressReg (o : Operand) : Keeps RegsOnly (addressReg o) := by
  unfold Select.addressReg
  grind

@[grind ←] theorem loadWord (q : Quad) : Keeps RegsOnly (loadWord q) := by
  unfold Select.loadWord
  grind

@[grind ←] theorem storedValue (o : Operand) (address : Reg) :
    Keeps RegsOnly (storedValue o address) := by
  unfold Select.storedValue
  grind

@[grind ←] theorem storeWord (q : Quad) : Keeps RegsOnly (storeWord q) := by
  unfold Select.storeWord
  grind

/-! ### Jumps, calls and printing -/

@[grind ←] theorem jump (q : Quad) : Keeps RegsOnly (jump q) := by
  unfold Select.jump
  grind

@[grind ←] theorem printInt (o : Operand) : Keeps RegsOnly (printInt o) := by
  unfold Select.printInt
  grind

@[grind ←] theorem printStr (o : Operand) : Keeps RegsOnly (printStr o) := by
  unfold Select.printStr
  grind

@[grind ←] theorem print (q : Quad) : Keeps RegsOnly (print q) := by
  unfold Select.print
  grind

@[grind ←] theorem keptRegs : Keeps RegsOnly keptRegs := by
  unfold Select.keptRegs
  grind

@[grind ←] theorem enter (q : Quad) : Keeps RegsOnly (enter q) := by
  unfold Select.enter
  grind

@[grind ←] theorem leave : Keeps RegsOnly leave := by
  unfold Select.leave
  grind

@[grind ←] theorem pushArg (o : Operand) : Keeps RegsOnly (pushArg o) := by
  unfold Select.pushArg
  grind

/-- The jump to a function; what it gives is taken later. -/
@[grind ←] theorem call (q : Quad) : Keeps RegsOnly (call q) := by
  unfold Select.call
  grind

@[grind ←] theorem ret (o : Operand) : Keeps RegsOnly (ret o) := by
  unfold Select.ret
  grind

end RegsOnly

end Scriptc.Mips.Select
