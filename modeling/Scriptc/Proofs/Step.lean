import Scriptc.Build

/-!
# Scriptc: steps that complete

`Build.Ends step b a b'` says that `step`, begun in the state `b`, completes with the value `a` and
leaves the state `b'`. A step that ends in a fault has no such `a`. Sequences of steps are taken
apart by `ends_bind`, so that what a step does is said once, about its parts.

`Build.Keeps R step` says that the relation `R` holds between the states before and after whenever
the step completes. For a reflexive and transitive `R` it passes through sequences (`Keeps.bind`).
`Build.Gives P step` says that the value of a step that completes satisfies `P`.
-/

namespace Scriptc.Build

variable {α β : Type} {b b' : Build} {m : BuildM α} {f : α → BuildM β} {c : β} {a : α}

/-- From `b` the step completes with the value `a` and leaves `b'`. -/
def Ends (step : BuildM α) (b : Build) (a : α) (b' : Build) : Prop := b.run step = (.ok a, b')

/-! ## What the elementary steps come to -/

theorem run_pure (a : α) : b.run (pure a) = (.ok a, b) := rfl

/-- A sequence stops at the fault of its first part and goes on from its state otherwise. -/
theorem run_bind (m : BuildM α) (f : α → BuildM β) :
    b.run (m >>= f) = match b.run m with
      | (.ok a, b₁) => b₁.run (f a)
      | (.error e, b₁) => (.error e, b₁) := by
  unfold run
  simp only [ExceptT.run_bind, StateT.run_bind, Id.run_bind]
  rcases (ExceptT.run m).run b with ⟨r | r, b₁⟩ <;> rfl

@[simp, grind =] theorem ends_pure {c : α} : Ends (pure a) b c b' ↔ c = a ∧ b' = b := by
  unfold Ends
  rw [run_pure, Prod.mk.injEq, Except.ok.injEq]
  exact ⟨fun h => ⟨h.1.symm, h.2.symm⟩, fun h => ⟨h.1.symm, h.2.symm⟩⟩

/-- A sequence completes exactly when its parts do, one behind the other. -/
theorem ends_bind :
    Ends (m >>= f) b c b' ↔ ∃ a b₁, Ends m b a b₁ ∧ Ends (f a) b₁ c b' := by
  unfold Ends
  rw [run_bind]
  rcases hm : b.run m with ⟨r | r, b₁⟩
  · simp
  · grind

@[simp, grind =] theorem ends_get {c : Build} :
    Ends (get : BuildM Build) b c b' ↔ c = b ∧ b' = b := by
  constructor
  · intro h
    obtain ⟨⟨rfl⟩, rfl⟩ := Prod.mk.inj h
    exact ⟨rfl, rfl⟩
  · rintro ⟨rfl, rfl⟩
    rfl

@[simp, grind =] theorem ends_modify {f : Build → Build} {u : PUnit} :
    Ends (modify f : BuildM PUnit) b u b' ↔ b' = f b := by
  constructor
  · intro h
    exact (Prod.mk.inj h).2.symm
  · rintro rfl
    rfl

@[simp, grind .] theorem ends_throw {e : Fault} : ¬ Ends (throw e : BuildM α) b a b' := by
  intro h
  cases (Prod.mk.inj h).1

@[simp, grind =] theorem ends_map {g : α → β} :
    Ends (g <$> m) b c b' ↔ ∃ a, Ends m b a b' ∧ c = g a := by
  rw [map_eq_pure_bind, ends_bind]
  constructor
  · grind
  · grind

/-! Behind a step whose outcome is known, a sequence goes on from that outcome. -/

theorem ends_bind_of_run {d : Build} (h : b.run m = (.ok a, d)) :
    Ends (m >>= f) b c b' ↔ Ends (f a) d c b' := by
  unfold Ends
  rw [run_bind, h]

@[simp, grind =] theorem ends_get_bind {f : Build → BuildM β} :
    Ends (get >>= f) b c b' ↔ Ends (f b) b c b' :=
  ends_bind_of_run rfl

@[simp, grind =] theorem ends_set_bind {d : Build} {f : PUnit → BuildM β} :
    Ends (set d >>= f) b c b' ↔ Ends (f ⟨⟩) d c b' :=
  ends_bind_of_run rfl

@[simp, grind =] theorem ends_modify_bind {g : Build → Build} {f : PUnit → BuildM β} :
    Ends (modify g >>= f) b c b' ↔ Ends (f ⟨⟩) (g b) c b' :=
  ends_bind_of_run rfl

theorem ends_discard {u : PUnit} :
    Ends (discard m) b u b' ↔ ∃ a, Ends m b a b' := by
  show Ends ((fun _ => PUnit.unit) <$> m) b u b' ↔ _
  rw [ends_map]
  exact ⟨fun ⟨a, h, _⟩ => ⟨a, h⟩, fun ⟨a, h⟩ => ⟨a, h, rfl⟩⟩

/-- A calculation leaves the state alone. -/
@[simp, grind =] theorem ends_ofExcept {r : Except Fault α} :
    Ends (ofExcept r) b a b' ↔ r = .ok a ∧ b' = b := by
  cases r with
  | ok c =>
    rw [show ofExcept (.ok c : Except Fault α) = pure c from rfl, ends_pure, Except.ok.injEq]
    exact ⟨fun h => ⟨h.1.symm, h.2⟩, fun h => ⟨h.1.symm, h.2⟩⟩
  | error e =>
    rw [show ofExcept (.error e : Except Fault α) = throw e from rfl]
    simp

@[grind =] theorem ends_ofExcept_bind {r : Except Fault α} :
    Ends (ofExcept r >>= f) b c b' ↔ ∃ a, r = .ok a ∧ Ends (f a) b c b' := by
  rw [ends_bind]
  constructor
  · grind
  · grind

theorem ends_read {f : Build → α} :
    Ends (do return f (← get)) b a b' ↔ a = f b ∧ b' = b := by
  rw [ends_get_bind, ends_pure]

theorem ends_read_bind {f : Build → α} {k : α → BuildM β} :
    Ends ((do return f (← get)) >>= k) b c b' ↔ Ends (k (f b)) b c b' :=
  ends_bind_of_run rfl

@[simp, grind =] theorem ends_lookup? {name : String} {s : Option Symbol} :
    Ends (lookup? name) b s b' ↔ s = b.table.lookupSymbol? name ∧ b' = b :=
  ends_read

@[simp, grind =] theorem ends_lookup?_bind {name : String} {f : Option Symbol → BuildM β} :
    Ends (lookup? name >>= f) b c b' ↔ Ends (f (b.table.lookupSymbol? name)) b c b' :=
  ends_read_bind

/-! ## Evaluation -/

instance {o : Option α} {P : α → Prop} [DecidablePred P] : Decidable (∃ a, o = some a ∧ P a) :=
  inferInstanceAs (Decidable (∃ a ∈ o, P a))

section
variable {P : Build → Prop} [DecidablePred P]

/-- Whether a step has completed in a state as told can be seen from its result. -/
instance {r : Except Fault α × Build} : Decidable (∃ a b', r = (.ok a, b') ∧ P b') :=
  match r with
  | (.ok a, b') => decidable_of_iff (P b') ⟨fun h => ⟨a, b', rfl, h⟩, by
      rintro ⟨_, _, ⟨⟩, h⟩; exact h⟩
  | (.error _, _) => isFalse (by simp)

instance {r : Except Fault Unit × Build} : Decidable (∃ b', r = (.ok (), b') ∧ P b') :=
  decidable_of_iff (∃ a b', r = (.ok a, b') ∧ P b') ⟨fun h => h.elim fun _ h => h, fun h => ⟨(), h⟩⟩

instance {step : BuildM α} : Decidable (∃ a b', Ends step b a b' ∧ P b') :=
  inferInstanceAs (Decidable (∃ a b', b.run step = (.ok a, b') ∧ P b'))

instance {step : BuildM Unit} : Decidable (∃ b', Ends step b () b' ∧ P b') :=
  inferInstanceAs (Decidable (∃ b', b.run step = (.ok (), b') ∧ P b'))

end

/-! ## Relations along a step -/

/-- `R` holds between the states before and after the step, if it completes. -/
def Keeps (R : Build → Build → Prop) (step : BuildM α) : Prop :=
  ∀ ⦃b a b'⦄, Ends step b a b' → R b b'

namespace Keeps

variable {R : Build → Build → Prop}

theorem pure (refl : ∀ b, R b b) (a : α) : Keeps R (pure a : BuildM α) := by
  intro b c b' h
  obtain ⟨rfl, rfl⟩ := ends_pure.mp h
  exact refl _

theorem bind (trans : ∀ b c d, R b c → R c d → R b d)
    (hm : Keeps R m) (hf : ∀ a, Keeps R (f a)) : Keeps R (m >>= f) := by
  intro b c b' h
  obtain ⟨a, b₁, h₁, h₂⟩ := ends_bind.mp h
  exact trans _ _ _ (hm h₁) (hf a h₂)

theorem mono {S : Build → Build → Prop} (hm : Keeps R m)
    (himp : ∀ b b', R b b' → S b b') : Keeps S m :=
  fun _ _ _ h => himp _ _ (hm h)

theorem imp {R' S : Build → Build → Prop} (hm : Keeps R m) (hm' : Keeps R' m)
    (himp : ∀ b b', R b b' → R' b b' → S b b') : Keeps S m :=
  fun _ _ _ h => himp _ _ (hm h) (hm' h)

theorem modify {f : Build → Build} (h : ∀ b, R b (f b)) : Keeps R (modify f : BuildM PUnit) := by
  intro b u b' he
  rw [ends_modify.mp he]
  exact h b

end Keeps

/-! ## What a step gives -/

/-- The value of the step satisfies `P`, if it completes. -/
def Gives (P : α → Prop) (step : BuildM α) : Prop := ∀ ⦃b a b'⦄, Ends step b a b' → P a

namespace Gives

variable {P : α → Prop} {Q : β → Prop}

@[grind ←] theorem pure (h : P a) : Gives P (pure a : BuildM α) := by
  intro b c b' he
  rw [(ends_pure.mp he).1]
  exact h

theorem ite {c : Prop} [Decidable c] {n : BuildM α} (hm : Gives P m) (hn : Gives P n) :
    Gives P (if c then m else n) := by
  split
  · exact hm
  · exact hn

/-- What the first step gives may be used for the second. -/
theorem bind (hm : Gives P m) (hf : ∀ a, P a → Gives Q (f a)) :
    Gives Q (m >>= f) := by
  intro b c b' h
  obtain ⟨a, b₁, h₁, h₂⟩ := ends_bind.mp h
  exact hf a (hm h₁) h₂

/-- The last step decides. -/
@[grind ←] theorem after (hf : ∀ a, Gives Q (f a)) : Gives Q (m >>= f) :=
  bind (P := fun _ => True) (fun _ _ _ _ => trivial) fun a _ => hf a

end Gives

end Scriptc.Build
