import Mathlib.Data.List.Forall2
import Scriptc.Check
import Scriptc.Proofs.Step

/-!
# Scriptc: two runs side by side

Some facts about compilation compare two runs: of one program from two states, or of two programs.
`Build.From R A` says that two steps, each begun in its own state, come to the same: both complete
with values that `A` relates, or both stop at the same fault, and either way `R` holds between the
states behind them. `Build.Twin R A` says so for all states that `R` relates, and passes through
sequences (`Twin.bind`).

A comparison is `lax` if it only speaks of runs that complete. Then a step of one run may stand
alone (`From.left`, `From.right`).
-/

namespace Scriptc.Build

variable {α β α' β' : Type} {lax : Prop} {R : Build → Build → Prop} {A : α → α' → Prop}
    {B : β → β' → Prop}
  {b b' : Build} {m' : BuildM α'} {m : BuildM α} {f : α → BuildM β} {f' : α' → BuildM β'}

/-- What two runs come to. -/
inductive Alike (lax : Prop) (R : Build → Build → Prop) (A : α → α' → Prop) :
    Except Fault α × Build → Except Fault α' × Build → Prop where
  | done {a : α} {a' : α'} {b b' : Build} (ha : A a a') (hb : R b b') :
      Alike lax R A (.ok a, b) (.ok a', b')
  | fault {e : Fault} {b b' : Build} (hb : R b b') : Alike lax R A (.error e, b) (.error e, b')
  | first {e : Fault} {b : Build} {r' : Except Fault α' × Build} (hlax : lax) :
      Alike lax R A (.error e, b) r'
  | second {e : Fault} {b' : Build} {r : Except Fault α × Build} (hlax : lax) :
      Alike lax R A r (.error e, b')

/-- The steps, each begun in its own state, come to the same. -/
def From (lax : Prop) (R : Build → Build → Prop) (A : α → α' → Prop) (b b' : Build) (m : BuildM α)
    (m' : BuildM α') : Prop :=
  Alike lax R A (b.run m) (b'.run m')

/-- The steps come to the same from all states that `R` relates. -/
def Twin (lax : Prop) (R : Build → Build → Prop) (A : α → α' → Prop) (m : BuildM α)
    (m' : BuildM α') : Prop :=
  ∀ ⦃b b'⦄, R b b' → From lax R A b b' m m'

/-! ## From given states -/

namespace From

theorem pure {a : α} {a' : α'} (ha : A a a') (hb : R b b') :
    From lax R A b b' (pure a : BuildM α) (pure a' : BuildM α') := .done ha hb

theorem throw (e : Fault) (hb : R b b') :
    From lax R A b b' (throw e : BuildM α) (throw e : BuildM α') := .fault hb

/-- What the first steps give, and how they came to it, is at hand for the second ones. -/
theorem bind
    (hm : From lax R A b b' m m')
    (hf : ∀ ⦃a a' c c'⦄, Ends m b a c → Ends m' b' a' c' → A a a' → R c c' →
      From lax R B c c' (f a) (f' a')) :
    From lax R B b b' (m >>= f) (m' >>= f') := by
  unfold From at hm ⊢
  rw [run_bind, run_bind]
  rcases hrun : b.run m with ⟨r, c⟩
  rcases hrun' : b'.run m' with ⟨r', c'⟩
  rw [hrun, hrun'] at hm
  cases hm with
  | done ha hb => exact hf hrun hrun' ha hb
  | fault hb => exact .fault hb
  | first hlax => exact .first hlax
  | second hlax => exact .second hlax

/-- A step of the first run alone. -/
theorem left (hlax : lax) {k' : BuildM β'}
    (hf : ∀ ⦃a c⦄, Ends m b a c → From lax R B c b' (f a) k') : From lax R B b b' (m >>= f) k' := by
  unfold From
  rw [run_bind]
  rcases hrun : b.run m with ⟨r | a, c⟩
  · exact .first hlax
  · exact hf hrun

/-- A step of the second run alone. -/
theorem right (hlax : lax) {k : BuildM β}
    (hf : ∀ ⦃a' c'⦄, Ends m' b' a' c' → From lax R B b c' k (f' a')) :
    From lax R B b b' k (m' >>= f') := by
  unfold From
  rw [run_bind]
  rcases hrun : b'.run m' with ⟨r | a', c'⟩
  · exact .second hlax
  · exact hf hrun

theorem get_bind {f : Build → BuildM β} {f' : Build → BuildM β'}
    (h : From lax R B b b' (f b) (f' b')) :
    From lax R B b b' (get >>= f) (get >>= f') := h

theorem read_bind {f : Build → α} {f' : Build → α'} {k : α → BuildM β} {k' : α' → BuildM β'}
    (h : From lax R B b b' (k (f b)) (k' (f' b'))) :
    From lax R B b b' ((do return f (← get)) >>= k) ((do return f' (← get)) >>= k') := h

theorem modify {f f' : Build → Build} (h : R (f b) (f' b')) :
    From lax R (fun _ _ => True) b b' (modify f : BuildM PUnit) (modify f' : BuildM PUnit) :=
      .done trivial h

theorem ofExcept {r : Except Fault α} {r' : Except Fault α'} (hb : R b b')
    (h : ∀ e, r = .error e ↔ r' = .error e) (ha : ∀ a a', r = .ok a → r' = .ok a' → A a a') :
    From lax R A b b' (ofExcept r) (ofExcept r') := by
  cases r with
  | error e =>
    obtain rfl := (h e).mp rfl
    exact .fault hb
  | ok a =>
    cases r' with
    | error e => cases (h e).mpr rfl
    | ok a' => exact .done (ha a a' rfl rfl) hb

theorem mono {A' : α → α' → Prop} (hm : From lax R A b b' m m')
    (h : ∀ a a', A a a' → A' a a') : From lax R A' b b' m m' := by
  unfold From at hm ⊢
  generalize b.run m = r at hm ⊢
  generalize b'.run m' = r' at hm ⊢
  cases hm with
  | done ha hb => exact .done (h _ _ ha) hb
  | fault hb => exact .fault hb
  | first hlax => exact .first hlax
  | second hlax => exact .second hlax

theorem discard (hm : From lax R A b b' m m') :
    From lax R (fun _ _ => True) b b' (discard m) (discard m') := by
  show From lax R _ b b' ((fun _ => PUnit.unit) <$> m) ((fun _ => PUnit.unit) <$> m')
  rw [map_eq_pure_bind, map_eq_pure_bind]
  exact hm.bind fun _ _ _ _ _ _ _ hc => pure trivial hc

/-- What two runs that complete come to. -/
theorem ends {a : α} {a' : α'} {c c' : Build} (hm : From lax R A b b' m m')
    (h : Ends m b a c) (h' : Ends m' b' a' c') : A a a' ∧ R c c' := by
  unfold From at hm
  rw [h, h'] at hm
  cases hm with
  | done ha hb => exact ⟨ha, hb⟩

end From

/-! ## From all related states -/

namespace Twin

theorem pure {a : α} {a' : α'} (ha : A a a') :
    Twin lax R A (pure a : BuildM α) (pure a' : BuildM α') :=
  fun _ _ hb => From.pure ha hb

theorem throw (e : Fault) :
    Twin lax R A (throw e : BuildM α) (throw e : BuildM α') := fun _ _ hb => From.throw e hb

theorem bind (hm : Twin lax R A m m')
    (hf : ∀ a a', A a a' → Twin lax R B (f a) (f' a')) : Twin lax R B (m >>= f) (m' >>= f') :=
  fun _ _ hb => (hm hb).bind fun a a' _ _ _ _ ha hc => hf a a' ha hc

theorem bind_eq {m' : BuildM α} {f' : α → BuildM β'} (hm : Twin lax R Eq m m')
    (hf : ∀ a, Twin lax R B (f a) (f' a)) : Twin lax R B (m >>= f) (m' >>= f') :=
  hm.bind fun a _ ha => ha ▸ hf a

/-- The second steps need not know what the first ones give. -/
theorem seq {k : BuildM β} {k' : BuildM β'} (hm : Twin lax R A m m')
    (hk : Twin lax R B k k') : Twin lax R B (m >>= fun _ => k) (m' >>= fun _ => k') :=
  hm.bind fun _ _ _ => hk

/-- One step or another, and what follows in both cases. -/
theorem either {γ γ' : Type} {C : γ → γ' → Prop} {p : Prop} [Decidable p] {n : BuildM γ}
    {n' : BuildM γ'} {k : BuildM β} {k' : BuildM β'} (hm : Twin lax R A m m')
    (hn : Twin lax R C n n') (hk : Twin lax R B k k') :
    Twin lax R B (if p then m >>= fun _ => k else n >>= fun _ => k)
      (if p then m' >>= fun _ => k' else n' >>= fun _ => k') := by
  split
  · exact hm.seq hk
  · exact hn.seq hk

/-- A step that may be left out, and what follows it. -/
theorem maybe {p : Prop} [Decidable p] {k : BuildM β} {k' : BuildM β'} (hm : Twin lax R A m m')
    (hk : Twin lax R B k k') :
    Twin lax R B (if p then m >>= fun _ => k else k) (if p then m' >>= fun _ => k' else k') := by
  split
  · exact hm.seq hk
  · exact hk

theorem mono {A' : α → α' → Prop} (hm : Twin lax R A m m')
    (h : ∀ a a', A a a' → A' a a') : Twin lax R A' m m' := fun _ _ hb => (hm hb).mono h

theorem modify {f f' : Build → Build} (h : ∀ b b', R b b' → R (f b) (f' b')) :
    Twin lax R (fun _ _ => True) (modify f : BuildM PUnit) (modify f' : BuildM PUnit) :=
  fun b b' hb => From.modify (h b b' hb)

theorem read {f : Build → α} {f' : Build → α'} (h : ∀ b b', R b b' → A (f b) (f' b')) :
    Twin lax R A (do return f (← get)) (do return f' (← get)) := fun b b' hb => .done (h b b' hb) hb

theorem ofExcept (r : Except Fault α) : Twin lax R Eq (ofExcept r) (ofExcept r) := fun _ _ hb =>
  From.ofExcept hb (fun _ => Iff.rfl) fun _ _ h h' => Except.ok.inj (h.symm.trans h')

theorem discard (hm : Twin lax R A m m') :
    Twin lax R (fun _ _ => True) (discard m) (discard m') := fun _ _ hb => (hm hb).discard

theorem forM {γ γ' : Type} {xs : List γ} {xs' : List γ'} {G : γ → γ' → Prop} {f : γ → BuildM PUnit}
    {f' : γ' → BuildM PUnit} (hxs : List.Forall₂ G xs xs')
    (hf : ∀ x x', G x x' → Twin lax R (fun _ _ => True) (f x) (f' x')) :
    Twin lax R (fun _ _ => True) (xs.forM f) (xs'.forM f') := by
  induction hxs with
  | nil => exact pure trivial
  | cons hx _ ih => exact (hf _ _ hx).seq ih

end Twin

/-! ## Guarded steps -/

/-- The steps come to the same where both are taken only as long as there are no reports, whatever
comes next. -/
def Guarded (lax : Prop) (R : Build → Build → Prop) (b b' : Build) (m : BuildM α) (m' : BuildM α') :
    Prop :=
  ∀ ⦃γ γ' : Type⦄ ⦃G : γ → γ' → Prop⦄ ⦃k : BuildM γ⦄ ⦃k' : BuildM γ'⦄, Twin lax R G k k' →
    From lax R G b b' (isClean >>= fun clean => if clean = true then m >>= fun _ => k else k)
      (isClean >>= fun clean => if clean = true then m' >>= fun _ => k' else k')

end Scriptc.Build
