import Scriptc.Proofs.Evaluation

/-!
# Scriptc: the code of simple statements

The code of a declaration, an assignment or a `print` does what the statement means.

* `Outcome`: where the machine is when a piece of a program has been left in some way. Behind
  `break` and `continue` it stands at the labels of the nearest loop; in a loop that goes on for
  ever it has taken at least as many steps as there were rounds.
* `Follows`: from one place in the code to another the machine does what a function on worlds says.
  One piece of code behind another follows the two functions in turn (`Follows.andThen`), and the
  code of a loop follows its rounds (`rounds_follow`).
* `Codes`: a step of the reading writes code that follows a function.

The rounds of a loop are counted against the steps of the machine: each begins at the label in front
of the condition, so a loop with `n` rounds takes at least `n` steps.
-/

namespace Scriptc.Compile

open Build (Ends Keeps ends_bind ends_discard ends_get_bind ends_modify ends_ofExcept_bind ends_pure
  ends_read_bind ends_throw)
open Scriptc.Core (Signal World andThen eval rounds)
open Emit (Idle)
open Machine (Config Steps place? step?)

/-! ## What the machine does -/

/-- The machine shows a world: the values of the variables and what has been printed. -/
structure Agrees (P : Whole) (c : Config) (w : World) : Prop where
  shows : Shows P c w.store
  output : c.output = w.output

/-- Where the machine is after `n` steps when a piece of a program has been left. -/
def Outcome (P : Whole) (fuel : Nat) (loop? : Option Loop) (stop n : Nat) (c : Config) :
    Signal × World → Prop
  | (.normal, w) => Agrees P c w ∧ c.pc = stop
  | (.breaks, w) => Agrees P c w ∧ ∃ l, loop? = some l ∧ place? P.code l.done = some c.pc
  | (.continues, w) => Agrees P c w ∧ ∃ l, loop? = some l ∧ place? P.code l.again = some c.pc
  | (.timeout, w) => c.output = w.output ∧ fuel ≤ n

/-- From `start` on the machine does what `f` says, and goes on at `stop`. -/
def Follows (A : Arith) (P : Whole) (fuel : Nat) (loop? : Option Loop) (start stop : Nat)
    (f : World → Signal × World) : Prop :=
  ∀ c w, c.pc = start → Agrees P c w → ∃ n c', Steps A P.code n c c' ∧
    Outcome P fuel loop? stop n c' (f w)

/-- From `start` the machine comes to `stop` without any effect. -/
def Moves (A : Arith) (P : Whole) (start stop : Nat) : Prop :=
  ∀ c w, c.pc = start → Agrees P c w → ∃ n c', Steps A P.code n c c' ∧ Agrees P c' w ∧ c'.pc = stop

/-- From `start` the machine comes to one of two places without any effect, in at least one step. -/
def Chooses (A : Arith) (P : Whole) (test : World → Bool) (start yes no : Nat) : Prop :=
  ∀ c w, c.pc = start → Agrees P c w →
    ∃ n c', Steps A P.code (n + 1) c c' ∧ Agrees P c' w ∧ c'.pc = if test w then yes else no

section
variable {A : Arith} {P : Whole} {fuel : Nat} {loop? : Option Loop}
    {start middle stop yes no m n : Nat}
  {c c' : Config} {f g : World → Signal × World} {r : Signal × World} {test : World → Bool}

/-- Steps are counted for loops that do not end; other outcomes do not depend on them. -/
theorem Outcome.count {fuel' n' : Nat} (h : Outcome P fuel loop? stop n c r)
    (hle : fuel ≤ n → fuel' ≤ n') : Outcome P fuel' loop? stop n' c r := by
  obtain ⟨s, w⟩ := r
  cases s with
  | normal => exact h
  | breaks => exact h
  | continues => exact h
  | timeout => exact ⟨h.1, hle h.2⟩

/-- What is left otherwise than at its end is left in the same way whatever comes behind it. -/
theorem Outcome.elsewhere (h : Outcome P fuel loop? middle n c r) (hr : r.1 ≠ .normal) :
    Outcome P fuel loop? stop n c r := by
  obtain ⟨s, w⟩ := r
  cases s with
  | normal => exact absurd rfl hr
  | breaks => exact h
  | continues => exact h
  | timeout => exact h

/-- One piece of code behind another. -/
theorem Follows.andThen (hf : Follows A P fuel loop? start middle f)
    (hg : Follows A P fuel loop? middle stop g) :
    Follows A P fuel loop? start stop (andThen f g) := by
  intro c w hpc hagrees
  obtain ⟨m, c₁, hsteps₁, hout⟩ := hf c w hpc hagrees
  unfold Core.andThen
  split
  · rename_i w' hw'
    rw [hw'] at hout
    obtain ⟨n, c₂, hsteps₂, hout₂⟩ := hg c₁ w' hout.2 hout.1
    exact ⟨m + n, c₂, hsteps₁.trans hsteps₂, hout₂.count Nat.le_add_left_of_le⟩
  · rename_i hne
    refine ⟨m, c₁, hsteps₁, hout.elsewhere fun hnormal => ?_⟩
    exact hne (f w).2 (Prod.ext hnormal rfl)

/-- Nothing happens. -/
def stay (_ : Nat) (w : World) : Signal × World := (.normal, w)

theorem andThen_stay (f : World → Signal × World) (fuel : Nat) : andThen f (stay fuel) = f := by
  funext w
  unfold Core.andThen stay
  split
  · rename_i hnormal
    exact hnormal.symm
  · rfl

/-- A move is code that does nothing. -/
theorem Moves.follows (h : Moves A P start stop) :
    Follows A P fuel loop? start stop (stay fuel) := h

theorem Moves.trans (h₁ : Moves A P start middle) (h₂ : Moves A P middle stop) :
    Moves A P start stop :=
  (h₁.follows : Follows A P 0 none start middle (stay 0)).andThen h₂.follows

/-- Code behind a move. -/
theorem Follows.behind (hmove : Moves A P start middle)
    (hf : Follows A P fuel loop? middle stop f) :
    Follows A P fuel loop? start stop f :=
  hmove.follows.andThen hf

/-- Code in front of a move, which is made only from the end of the code. -/
theorem Follows.before (hf : Follows A P fuel loop? start middle f)
    (hmove : Moves A P middle stop) :
    Follows A P fuel loop? start stop f :=
  andThen_stay f fuel ▸ hf.andThen hmove.follows

/-- A place in the code without a quadruple of its own. -/
theorem Follows.skip (start : Nat) : Follows A P fuel loop? start start (stay fuel) :=
  fun c _ hpc hagrees => ⟨0, c, rfl, hagrees, hpc⟩

theorem Chooses.behind (hmove : Moves A P start middle) (h : Chooses A P test middle yes no) :
    Chooses A P test start yes no := by
  intro c w hpc hagrees
  obtain ⟨m, c₁, hsteps₁, hagrees₁, hpc₁⟩ := hmove c w hpc hagrees
  obtain ⟨n, c₂, hsteps₂, hagrees₂, hpc₂⟩ := h c₁ w hpc₁ hagrees₁
  exact ⟨m + n, c₂, hsteps₁.trans hsteps₂, hagrees₂, hpc₂⟩

theorem Chooses.swap {t : World → Bool} (h : Chooses A P test start yes no)
    (htest : ∀ w, t w = !test w) : Chooses A P t start no yes := by
  intro c w hpc hagrees
  obtain ⟨n, c', hsteps, hagrees', hpc'⟩ := h c w hpc hagrees
  refine ⟨n, c', hsteps, hagrees', hpc'.trans ?_⟩
  rw [htest w]
  cases test w <;> rfl

/-- A choice between two pieces of code. -/
theorem Chooses.follows (h : Chooses A P test start yes no) (hf : Follows A P fuel loop? yes stop f)
    (hg : Follows A P fuel loop? no stop g) :
    Follows A P fuel loop? start stop fun w => if test w then f w else g w := by
  intro c w hpc hagrees
  obtain ⟨m, c₁, hsteps₁, hagrees₁, hpc₁⟩ := h c w hpc hagrees
  dsimp only
  by_cases htest : test w = true
  · rw [if_pos htest] at hpc₁ ⊢
    obtain ⟨n, c₂, hsteps₂, hout⟩ := hf c₁ w hpc₁ hagrees₁
    exact ⟨_, c₂, hsteps₁.trans hsteps₂, hout.count Nat.le_add_left_of_le⟩
  · rw [if_neg htest] at hpc₁ ⊢
    obtain ⟨n, c₂, hsteps₂, hout⟩ := hg c₁ w hpc₁ hagrees₁
    exact ⟨_, c₂, hsteps₁.trans hsteps₂, hout.count Nat.le_add_left_of_le⟩

theorem pass_label {l : Operand} (h : P.code[start]? = some { op := .label, result := l }) :
    Moves A P start (start + 1) := by
  rintro c w rfl hagrees
  exact ⟨1, c.next, .one (step_label h), ⟨hagrees.shows, hagrees.output⟩, rfl⟩

theorem take_goto {k i : Nat} (h : P.code[start]? = some { op := .goto, result := .label k })
    (hlabel : P.code[i]? = some { op := .label, result := .label k }) : Moves A P start i := by
  rintro c w rfl hagrees
  exact ⟨1, c.goto i, .one (step_goto h hlabel), ⟨hagrees.shows, hagrees.output⟩, rfl⟩

/-- The rounds of a loop. The machine passes the label in front of the condition once in each, so a
loop that does not end within `k` rounds has taken at least `k` steps. -/
theorem rounds_follow {body : World → Signal × World} {update : World → World} {l : Loop}
    {first last exit : Nat} {done : Operand} (htest : Chooses A P test start first exit)
    (hbody : Follows A P fuel (some l) first last body)
    (hnext : ∀ c w, c.pc = last ∨ place? P.code l.again = some c.pc → Agrees P c w →
      ∃ n c', Steps A P.code n c c' ∧ Agrees P c' (update w) ∧ c'.pc = start)
    (hdone : place? P.code l.done = some exit)
    (hexit : P.code[exit]? = some { op := .label, result := done }) (k : Nat) (hk : k ≤ fuel) :
    Follows A P k loop? start (exit + 1) (rounds test body update k) := by
  have hleave := pass_label (A := A) hexit
  induction k with
  | zero =>
    intro c w _ hagrees
    exact ⟨0, c, rfl, hagrees.output, Nat.le_refl _⟩
  | succ k ih =>
    intro c w hpc hagrees
    obtain ⟨n₁, c₁, hsteps₁, hagrees₁, hpc₁⟩ := htest c w hpc hagrees
    unfold rounds
    by_cases hholds : test w = true
    · rw [if_pos hholds] at hpc₁ ⊢
      obtain ⟨n₂, c₂, hsteps₂, hout⟩ := hbody c₁ w hpc₁ hagrees₁
      have hsteps := hsteps₁.trans hsteps₂
      -- The next round begins behind the body or where `continue` goes.
      have hagain : ∀ w', c₂.pc = last ∨ place? P.code l.again = some c₂.pc → Agrees P c₂ w' →
          ∃ n c', Steps A P.code n c c' ∧
            Outcome P (k + 1) loop? (exit + 1) n c' (rounds test body update k (update w')) := by
        intro w' hat hagrees₂
        obtain ⟨n₃, c₃, hsteps₃, hagrees₃, hpc₃⟩ := hnext c₂ w' hat hagrees₂
        obtain ⟨n₄, c₄, hsteps₄, hout₄⟩ := ih (Nat.le_of_succ_le hk) c₃ _ hpc₃ hagrees₃
        exact ⟨_, c₄, hsteps.trans (hsteps₃.trans hsteps₄), hout₄.count (by omega)⟩
      split
      · rename_i w' hw'
        rw [hw'] at hout
        exact hagain w' (.inl hout.2) hout.1
      · rename_i w' hw'
        rw [hw'] at hout
        obtain ⟨hagrees₂, l', hl', hat⟩ := hout
        cases hl'
        exact hagain w' (.inr hat) hagrees₂
      · rename_i w' hw'
        rw [hw'] at hout
        obtain ⟨hagrees₂, l', hl', hat⟩ := hout
        cases hl'
        obtain ⟨n₃, c₃, hsteps₃, hout₃⟩ :=
          hleave c₂ w' (Option.some.inj (hat.symm.trans hdone)) hagrees₂
        exact ⟨_, c₃, hsteps.trans hsteps₃, hout₃⟩
      · rename_i w' hw'
        rw [hw'] at hout
        exact ⟨_, c₂, hsteps, hout.1, Nat.le_add_left_of_le (Nat.le_trans hk hout.2)⟩
    · rw [if_neg hholds] at hpc₁ ⊢
      obtain ⟨n₂, c₂, hsteps₂, hout⟩ := hleave c₁ w hpc₁ hagrees₁
      exact ⟨_, c₂, hsteps₁.trans hsteps₂, hout⟩

end

/-! ## Steps that write code -/

/-- The labels that `break` and `continue` go to are marked. -/
def Targets (P : Whole) (loop? : Option Loop) : Prop :=
  ∀ l, loop? = some l → (∃ i, place? P.code l.done = some i) ∧ ∃ i, place? P.code l.again = some i

/-- The code between two states follows `f`, and the variables `xs` have their places. -/
structure Executes (A : Arith) (xs : List String) (f : Nat → World → Signal × World)
    (b b' : Build) :
    Prop where
  onward : Onward b b'
  declared : ∀ x ∈ xs, ∃ n : Nat, b'.storage.slot? x = some (.address n)
  run : ∀ P fuel, Within P b' → Targets P b.loop? →
    Follows A P fuel b.loop? b.quads.size b'.quads.size (f fuel)

/-- Reports stay: a state without any was reached without any. -/
def Clean (b b' : Build) : Prop := b'.errors = #[] → b.errors = #[]

/-- A step of the reading writes code that follows `f`, unless something is reported. -/
structure Codes {α : Type} (A : Arith) (xs : List String) (f : Nat → World → Signal × World)
    (m : BuildM α) : Prop where
  clean : Keeps Clean m
  executes : ∀ ⦃b a b'⦄, Ends m b a b' → b'.errors = #[] → Ready b → Executes A xs f b b'

section
variable {α β : Type} {A : Arith} {xs ys : List String} {f g : Nat → World → Signal × World}
  {b d b' : Build} {k : α → BuildM β}
variable {m : BuildM α}

theorem Clean.refl (b : Build) : Clean b b := id

theorem Clean.bind (hm : Keeps Clean m) (hk : ∀ a, Keeps Clean (k a)) : Keeps Clean (m >>= k) :=
  Keeps.bind (R := Clean) (fun _ _ _ h₁ h₂ h => h₁ (h₂ h)) hm hk

theorem Clean.discard (hm : Keeps Clean m) : Keeps Clean (discard m) := by
  intro b u b' h
  obtain ⟨a, hends⟩ := ends_discard.mp h
  exact hm hends

theorem Clean.whenClean {yes no : BuildM α} (hyes : Keeps Clean yes) (hno : Keeps Clean no) :
    Keeps Clean (do if ← Build.isClean then yes else no) := by
  intro b a b' h
  rw [Build.isClean, ends_read_bind] at h
  split at h
  · exact hyes h
  · exact hno h

theorem clean_of_quiet (hm : Keeps Quiet m) : Keeps Clean m :=
  hm.mono fun _ _ h => h.clean

theorem clean_of_kept {allow : Use → Prop} (hm : Keeps (Kept allow) m) : Keeps Clean m :=
  hm.mono fun _ _ h => clean_of_reports h.errors

/-- Variables keep their places. -/
theorem Onward.declared (h : Onward b b')
    (hxs : ∀ x ∈ xs, ∃ n : Nat, b.storage.slot? x = some (.address n)) :
    ∀ x ∈ xs, ∃ n : Nat, b'.storage.slot? x = some (.address n) :=
  fun x hx => (hxs x hx).imp fun _ hn => h.slots x _ hn

theorem Executes.andThen (hf : Executes A xs f b d) (hg : Executes A ys g d b') :
    Executes A (xs ++ ys) (fun fuel => Core.andThen (f fuel) (g fuel)) b b' where
  onward := hf.onward.trans hg.onward
  declared := List.forall_mem_append.mpr ⟨hg.onward.declared hf.declared, hg.declared⟩
  run P fuel hP hloop := by
    have hloop' : d.loop? = b.loop? := hf.onward.loop?
    refine (hf.run P fuel (hP.back hg.onward) hloop).andThen ?_
    exact hloop' ▸ hg.run P fuel hP (hloop' ▸ hloop)

/-- A step without code. -/
theorem Executes.skip (h : Onward b b') (hquads : b'.quads = b.quads) :
    Executes A [] stay b b' where
  onward := h
  declared := nofun
  run _ _ _ _ := hquads ▸ Follows.skip _

namespace Codes

variable {m : BuildM α}

/-- Steps one after the other. -/
theorem bind (hm : Codes A xs f m) (hk : ∀ a, Codes A ys g (k a)) :
    Codes A (xs ++ ys) (fun fuel => Core.andThen (f fuel) (g fuel)) (m >>= k) where
  clean := Clean.bind hm.clean fun a => (hk a).clean
  executes b c b' h hclean hr := by
    obtain ⟨a, d, hfirst, hsecond⟩ := ends_bind.mp h
    have hexec := hm.executes hfirst ((hk a).clean hsecond hclean) hr
    exact hexec.andThen ((hk a).executes hsecond hclean (hexec.onward.ready hr))

theorem skip (hclean : Keeps Clean m)
    (h : ∀ ⦃b a b'⦄, Ends m b a b' → Onward b b' ∧ b'.quads = b.quads) : Codes A [] stay m where
  clean := hclean
  executes _ _ _ hm _ _ := .skip (h hm).1 (h hm).2

theorem pure (a : α) : Codes A [] stay (pure a : BuildM α) :=
  skip (Keeps.pure Clean.refl a) fun b c b' h => by
    obtain ⟨_, rfl⟩ := ends_pure.mp h
    exact ⟨.refl _, rfl⟩

/-- A step without code in front. -/
theorem after (hm : Codes A [] stay m)
    (hk : ∀ a, Codes A xs f (k a)) : Codes A xs f (m >>= k) := hm.bind hk

theorem discard (hm : Codes A xs f m) : Codes A xs f (discard m) where
  clean := Clean.discard hm.clean
  executes _ _ _ h := by
    obtain ⟨a, hends⟩ := ends_discard.mp h
    exact hm.executes hends

theorem get {k : Build → BuildM β} (hk : ∀ b, Codes A xs f (k b)) : Codes A xs f (get >>= k) where
  clean b _ _ h := (hk b).clean (ends_get_bind.mp h)
  executes b _ _ h := (hk b).executes (ends_get_bind.mp h)

/-- A step without code behind. -/
theorem before (hm : Codes A xs f m)
    (hk : ∀ a, Codes A [] stay (k a)) : Codes A xs f (m >>= k) := by
  have hboth := hm.bind hk
  simpa only [andThen_stay, List.append_nil] using hboth

end Codes

end

/-! ## Assignments and printing -/

section
variable {A : Arith} {P : Whole} {f : (String → Int) → Int} {x : String}
    {b d e b' : Build} {t : Option Ty}
  {u : Unit} {line : Nat} {var : Variable}
variable {v : Expr} {ty : Ty}

/-- A word that is written is the value of its variable, and of no other. -/
theorem Agrees.write {c : Config} {w : World} {n : Nat} (h : Agrees P c w)
    (hx : P.places.slot? x = some (.address n)) (v : Int) {c' : Config}
    (hwrite : c.write? (.address n) v = some c') : Agrees P c' (w.set x v) := by
  cases hwrite
  refine ⟨fun y m hy => ?_, h.output⟩
  show (if m = n then v else c.words m) = if y = x then v else w.store y
  by_cases hyx : y = x
  · grind
  · have hmn : m ≠ n := by
      rintro rfl
      exact hyx (P.apart.apart y x _ hy hx)
    rw [if_neg hmn, if_neg hyx]
    exact h.shows y m hy

/-- A value that has been read is stored in a variable. -/
theorem Stored.executes (hf : Evaluates A f b d) (hmid : Onward d e)
    (hquads : e.quads = d.quads) (hvalue : e.value = d.value) (h : Stored x e.value e b') :
    Executes A [x] (fun _ w => (.normal, w.set x (f w.store))) b b' := by
  obtain ⟨n, hslot, hcode⟩ := h.copied
  have hde := hf.onward.trans hmid
  have honward : Onward b b' := by
    refine ⟨fun _ => h.ready, ?_, fun y p hy => h.slots y p (hde.slots y p hy),
      fun k hk => ?_, ?_, ?_⟩
    · rw [hcode]
      exact hde.quads.trans (prefix_push _ _)
    · rcases h.free k hk with hfree | hv
      · exact hde.free k hfree
      · exact hf.fresh k (hvalue ▸ hv)
    · exact h.loop?.trans hde.loop?
    · exact hde.loops.trans h.loops
  refine ⟨honward, fun y hy => ?_, fun P fuel hP _ c w hpc hagrees => ?_⟩
  · rw [List.mem_singleton.mp hy]
    exact ⟨n, hslot⟩
  · have hbehind : d.quads.toList <+: b'.quads.toList := by
      rw [hcode, hquads]
      exact prefix_push _ _
    have hPd : Within P d :=
      ⟨hbehind.trans hP.quads, fun y p hy => hP.slots y p (h.slots y p (hmid.slots y p hy))⟩
    obtain ⟨c₁, hreach, hread⟩ := hf.run P hPd c w.store hpc hagrees.shows
    obtain ⟨m, hsteps⟩ := hreach.steps
    have hcopy := step_copy (A := A) (hreach.pc ▸ hP.pushed (hquads ▸ hcode)) (hvalue ▸ hread)
    refine ⟨m + 1, _, hsteps.trans (.one hcopy), ?_, ?_⟩
    · refine Agrees.write ⟨hreach.shows hagrees.shows, ?_⟩ (hP.slots x _ hslot) _ rfl
      exact hreach.output.trans hagrees.output
    · show c₁.pc + 1 = _
      rw [hcode, Array.size_push, hquads, hreach.pc]

theorem Executes.idle {xs : List String} {f : Nat → World → Signal × World}
    (hf : Executes A xs f b d) (h : Idle d b') : Executes A xs f b b' where
  onward := hf.onward.trans (.of_idle h)
  declared := (Onward.of_idle h).declared hf.declared
  run P fuel hP hloop := h.quads ▸ hf.run P fuel (hP.back (.of_idle h)) hloop

theorem Executes.forget {xs : List String} {f : Nat → World → Signal × World}
    (hf : Executes A xs f b b') : Executes A [] f b b' where
  onward := hf.onward
  declared := nofun
  run := hf.run

/-- What happens in front without code leaves the value as it is. -/
theorem Evaluates.of_idle (h : Idle b d) (hf : Evaluates A f d b') : Evaluates A f b b' where
  onward := (Onward.of_idle h).trans hf.onward
  held := hf.held
  fresh k hk := h.free k (hf.fresh k hk)
  run P hP c σ hpc hshows := by
    obtain ⟨c', hreach, hread⟩ := hf.run P hP c σ (h.quads ▸ hpc) hshows
    exact ⟨c', .trans (.of_idle h) (.idle hpc h) hreach, hread⟩

theorem direct_evaluates (hv : v.isCore = true) (hr : Ready b) (h : Ends (direct v) b t b')
    (hclean : b'.errors = #[]) : Evaluates A (eval A · v) b b' ∧ PlainType t := by
  simp only [direct, ends_bind, ends_pure] at h
  obtain ⟨_, b₁, hon, ty, b₂, hread, _, b₃, hoff, rfl, rfl⟩ := h
  have hidle := Idle.setDirect hoff
  obtain ⟨hf, htype⟩ :=
    expr_evaluates (A := A) v hv ((Onward.of_idle (.setDirect hon)).ready hr) hread
    (hidle.errors ▸ hclean)
  have hvalue : b'.value = b₂.value := by rw [ends_modify.mp hoff]
  exact ⟨.of_idle (.setDirect hon) (hf.idle hidle hvalue), htype⟩

/-- The type that is written in a declaration. -/
theorem typeOf?_core {type? : Option String} (h : isCoreType type? = true) :
    ∃ t?, typeOf? type? = pure t? ∧ ∀ t ∈ t?, Plain t := by
  have hmem : type? ∈ [none, some "integer", some "boolean"] := List.contains_iff_mem.mp h
  simp only [List.mem_cons, List.not_mem_nil, or_false] at hmem
  rcases hmem with rfl | rfl | rfl
  · exact ⟨none, rfl, nofun⟩
  · exact ⟨some .integer, rfl, fun t ht => .inl (Option.some.inj ht).symm⟩
  · exact ⟨some .boolean, rfl, fun t ht => .inr (Option.some.inj ht).symm⟩

/-- Code is written where there are no reports, and none come without one. -/
theorem ends_whenClean {α : Type} {yes no : BuildM α} {a : α} (hno : Keeps Clean no)
    (h : Ends (do if ← Build.isClean then yes else no) b a b') (hclean : b'.errors = #[]) :
    b.errors = #[] ∧ Ends yes b a b' := by
  rw [Build.isClean, ends_read_bind] at h
  split at h
  · rename_i hempty
    exact ⟨Array.isEmpty_iff.mp hempty, h⟩
  · rename_i hempty
    exact absurd (Array.isEmpty_iff.mpr (hno h hclean)) hempty

section
variable (hr : Ready e) (hx : HasVariable e.table x) (hheld : Held e e.value)
include hr hx hheld

theorem storeValue_stored (h : Ends (storeValue x) e u b') (hclean : b'.errors = #[]) :
    Stored x e.value e b' := by
  unfold storeValue at h
  obtain ⟨_, hstore⟩ := ends_whenClean (Keeps.pure Clean.refl _) h hclean
  replace hstore := ends_read_bind.mp hstore
  simp only [ends_bind, ends_pure] at hstore
  obtain ⟨a, e₂, hplace, o, e₃, hassign, _, rfl⟩ := hstore
  exact store_spec hr hx hheld hplace hassign

theorem initialise_stored (h : Ends (initialise x) e u b') : Stored x e.value e b' := by
  unfold initialise at h
  replace h := ends_read_bind.mp h
  split at h
  · rename_i vs hcells
    rw [hcells] at hheld
    exact hheld.elim
  · simp only [ends_bind, ends_pure] at h
    obtain ⟨a, e₂, hplace, o, e₃, hassign, _, rfl⟩ := h
    exact store_spec hr hx hheld hplace hassign

end

/-- Statements keep what was there, whatever they assign. -/
theorem keptStable : Stable (fun _ => True) (fun _ => True) (Kept fun _ => True) := Kept.stable

theorem clean_of_carried {α : Type} {m : BuildM α} {out : α → List Operand}
    (hm : Build.Yields (Since (Kept fun _ => True)) [] out m) : Keeps Clean m :=
  clean_of_kept (keptStable.keeps hm)

/-- A value is read, its variable is declared, and the value is stored. -/
theorem declared_executes {scope : Nat} {p : SymbolId × Bool}
    (hdeclare : Ends (declare line ⟨x, scope, .variable var⟩) d p e) (htype : var.type? = some ty)
    (hplain : Plain ty) (hclean : e.errors = #[]) (hr : Ready b) (hf : Evaluates A f b d)
    (hstore : Ready e → HasVariable e.table x → Held e e.value → Stored x e.value e b') :
    Executes A [x] (fun _ w => (.normal, w.set x (f w.store))) b b' := by
  have hrd := hf.onward.ready hr
  obtain ⟨table, htable, hlookup, hmid⟩ := declare_spec hrd htype hplain hdeclare hclean
  have hquads : e.quads = d.quads := by rw [htable]
  have hvalue : e.value = d.value := by rw [htable]
  have hheld : Held e e.value := hvalue ▸ hf.held.onward hmid
  have hlookup' : HasVariable e.table x := by
    rw [htable]
    exact hlookup
  exact (hstore (hmid.ready hrd) hlookup' hheld).executes hf hmid hquads hvalue

theorem addVariable_executes {v : VarDecl} (hinit : v.init?.isSome)
    (htype : var.type? = some ty) (hplain : Plain ty) (hr : Ready b) (hf : Evaluates A f b d)
    (h : Ends (addVariable v var) d u b') (hclean : b'.errors = #[]) :
    Executes A [v.name] (fun _ w => (.normal, w.set v.name (f w.store))) b b' := by
  unfold addVariable currentScope at h
  rw [ends_read_bind] at h
  obtain ⟨p, d₁, hdeclare, h⟩ := ends_bind.mp h
  have h := ends_read_bind.mp h
  rw [hinit, Bool.true_and] at h
  have htail := clean_of_kept (keptStable.bind
    (keptStable.tellClass fun c => keptStable.addAttribute c v.name p.1) fun _ =>
    keptStable.endExpression)
  dsimp only at h
  split at h
  · rename_i hempty
    obtain ⟨_, d₂, hinitialise, h⟩ := ends_bind.mp h
    have hexec : Executes A [v.name] _ b d₂ :=
      declared_executes hdeclare htype hplain (Array.isEmpty_iff.mp hempty) hr hf
        fun hr₁ hx hheld => initialise_stored hr₁ hx hheld hinitialise
    -- Outside of a class there is nobody to tell.
    obtain ⟨_, d₃, htell, hend⟩ := ends_bind.mp h
    unfold tellClass at htell
    rw [ends_get_bind, (hexec.onward.ready hr).inClass?] at htell
    obtain ⟨_, rfl⟩ := ends_pure.mp htell
    exact hexec.idle (.endExpression hend)
  · rename_i hempty
    exact absurd (Array.isEmpty_iff.mpr (htail h hclean)) hempty

/-- A declaration of a variable stores its first value. -/
theorem variableDecl_codes {v : VarDecl} {first : Expr} (hv : v.isCore = true)
    (hinit : v.init? = some first) :
    Codes A [v.name] (fun _ w => (.normal, w.set v.name (eval A w.store first)))
      (variableDecl v) where
  clean := clean_of_carried (keptStable.stmtWalk.course.variableDecl v fun _ _ => trivial)
  executes b a b' h hclean hr := by
    obtain ⟨htype, hfirst⟩ := Bool.and_eq_true_iff.mp hv
    rw [hinit] at hfirst
    obtain ⟨declared?, hdeclared, hplain⟩ := typeOf?_core htype
    unfold variableDecl at h
    replace h := ends_read_bind.mp h
    split at h
    · exact absurd hclean (not_clean_of_error h)
    rw [hdeclared, pure_bind, hinit] at h
    simp only [ends_bind] at h
    obtain ⟨init?, b₁, hread, _, b₂, hcheck, hadd⟩ := h
    have hclean₂ := clean_of_kept (keptStable.addVariable v _) hadd hclean
    have hclean₁ := clean_of_kept (keptStable.remarks (.checkInitial ..)) hcheck hclean₂
    obtain ⟨hf, ty, rfl, hty⟩ := direct_evaluates (A := A) hfirst hr hread hclean₁
    have hsame : b₂ = b₁ := by
      unfold checkInitial at hcheck
      dsimp only at hcheck
      split at hcheck
      · exact absurd hclean₂ (not_clean_of_error hcheck)
      · exact (ends_pure.mp hcheck).2
    refine addVariable_executes (Option.isSome_of_eq_some hinit) rfl ?_ hr (hsame ▸ hf) hadd hclean
    cases declared? with
    | none => exact hty
    | some t => exact hplain t rfl

/-- A declaration of a constant stores its value. -/
theorem constantDecl_codes {v : ConstDecl} (hv : v.isCore = true) :
    Codes A [v.name] (fun _ w => (.normal, w.set v.name (eval A w.store v.value)))
      (constantDecl v) where
  clean := clean_of_carried (keptStable.stmtWalk.course.constantDecl v trivial)
  executes b a b' h hclean hr := by
    obtain ⟨htype, hcore⟩ := Bool.and_eq_true_iff.mp hv
    obtain ⟨declared?, hdeclared, hplain⟩ := typeOf?_core htype
    unfold constantDecl at h
    have h := ends_read_bind.mp h
    split at h
    · exact absurd hclean (not_clean_of_error h)
    rw [hdeclared, pure_bind] at h
    obtain ⟨value?, d, hread, h⟩ := ends_bind.mp h
    dsimp only at h
    split at h
    -- The type fits, and the value is stored in the variable that has just been declared.
    · unfold addConstant currentScope at h
      rw [ends_read_bind] at h
      simp only [ends_bind] at h
      obtain ⟨p, d₁, hdeclare, _, d₂, hstore, hend⟩ := h
      have hidle := Idle.endExpression hend
      have hclean₁ := clean_of_quiet (Quiet.exprStable.storeValue _) hstore (hidle.errors ▸ hclean)
      have hclean₀ := clean_of_kept (keptStable.declare _ _) hdeclare hclean₁
      obtain ⟨hf, ty, rfl, hty⟩ := direct_evaluates (A := A) hcore hr hread hclean₀
      have hfinal : PlainType (declared?.or (some ty)) := by
        cases declared? with
        | none => exact ⟨ty, rfl, hty⟩
        | some t => exact ⟨t, rfl, hplain t rfl⟩
      obtain ⟨final, hfinal, hplainFinal⟩ := hfinal
      have hexec := declared_executes hdeclare hfinal hplainFinal hclean₁ hr hf
        fun hr₁ hx hheld => storeValue_stored hr₁ hx hheld hstore (hidle.errors ▸ hclean)
      exact hexec.idle hidle
    · obtain ⟨_, _, h⟩ := ends_ofExcept_bind.mp h
      exact absurd hclean (not_clean_of_error h)

/-- What can be assigned to is a plain variable. -/
theorem assignable?_some (hr : Ready b)
    (h : Ends (assignable? line x) b (some var) b') :
    b' = b ∧ HasVariable b.table x ∧ ∃ ty, var.type? = some ty ∧ Plain ty := by
  obtain ⟨rfl, id, s, hid, hs, hbody⟩ := Kept.assignable?_some h
  obtain ⟨ty, htype, hplain⟩ := hr.symbols id s hs var hbody
  refine ⟨rfl, ⟨s, var, ?_, hbody⟩, ty, htype, hplain⟩
  rw [SymbolTable.lookupSymbol?, hid, Option.bind_some, hs]

/-- What cannot be assigned to is reported. -/
theorem assignable?_none (h : Ends (assignable? line x) b none b') :
    b'.errors ≠ #[] := by
  unfold assignable? at h
  rw [Build.ends_lookup?_bind] at h
  split at h
  · exact not_clean_of_report h
  · split at h
    · split at h
      · exact not_clean_of_report h
      · cases (ends_pure.mp h).1
    · exact absurd h ends_throw

theorem assignable_state {value? target? : Option Ty} {allowed : Bool}
    (h : Ends (Check.assignable value? target?) b allowed b') : b' = b := by
  unfold Check.assignable at h
  split at h
  · exact (ends_pure.mp h).2
  · exact absurd h ends_throw

/-- A plain variable has its type already, and a value that does not fit it is reported. -/
theorem fixType_spec {value? : Option Ty} (htype : var.type? = some ty) (hplain : Plain ty)
    (h : Ends (fixType line x var value?) b u b') : b' = b ∨ b'.errors ≠ #[] := by
  unfold fixType fixesType at h
  have hnull : (some ty == some Ty.null) = false := by
    rcases hplain with rfl | rfl <;> rfl
  rw [htype, hnull, Bool.false_and, Bool.false_and, Bool.false_and, Bool.false_and,
    if_neg Bool.false_ne_true] at h
  obtain ⟨allowed, b₁, hask, hcases⟩ := ends_bind.mp h
  obtain rfl := assignable_state hask
  split at hcases
  · obtain ⟨_, _, hcases⟩ := ends_ofExcept_bind.mp hcases
    obtain ⟨_, _, herror⟩ := ends_ofExcept_bind.mp hcases
    exact .inr (not_clean_of_error herror)
  · exact .inl (ends_pure.mp hcases).2

/-- An assignment stores its value. -/
theorem assignName_codes (hv : v.isCore = true) :
    Codes A [] (fun _ w => (.normal, w.set x (eval A w.store v))) (assignName line x v) where
  clean := clean_of_kept (keptStable.assignName line x v trivial)
  executes b a b' h hclean hr := by
    unfold assignName at h
    obtain ⟨var?, b₁, hassignable, hrest⟩ := ends_bind.mp h
    cases var? with
    | none =>
      obtain ⟨_, rfl⟩ := ends_pure.mp hrest
      exact absurd hclean (assignable?_none hassignable)
    | some var =>
      obtain ⟨rfl, hx, ty, htype, hplain⟩ := assignable?_some hr hassignable
      simp only [ends_bind, ends_pure] at hrest
      obtain ⟨value?, d, hread, _, d₁, hfix, _, d₂, hstore, _, d₃, hend, _, rfl⟩ := hrest
      have hidle := Idle.endExpression hend
      have hclean₁ := clean_of_quiet (Quiet.exprStable.storeValue _) hstore (hidle.errors ▸ hclean)
      rcases fixType_spec htype hplain hfix with rfl | hreported
      · obtain ⟨hf, _⟩ := direct_evaluates (A := A) hv hr hread hclean₁
        have hx₁ : HasVariable d₁.table x := by
          obtain ⟨_, _, hbefore, hends, hafter⟩ := Kept.direct v hread
          rwa [hafter.table, (Quiet.expr v hends).table, hbefore.table]
        have hstored := storeValue_stored (hf.onward.ready hr) hx₁ hf.held hstore
          (hidle.errors ▸ hclean)
        exact ((hstored.executes hf (.refl _) rfl rfl).idle hidle).forget
      · exact absurd hclean₁ hreported

/-- An assignment between the rounds of a loop. -/
theorem assignExpr_codes (hv : v.isCore = true) :
    Codes A [] (fun _ w => (.normal, w.set x (eval A w.store v)))
      (expr (.assign (.mk (.name line x) []) v)) where
  clean := clean_of_quiet (Quiet.expr _)
  executes b a b' h hclean hr := by
    unfold expr assignTo at h
    obtain ⟨var?, b₁, hassignable, hrest⟩ := ends_bind.mp h
    cases var? with
    | none =>
      obtain ⟨_, rfl⟩ := ends_pure.mp hrest
      exact absurd hclean (assignable?_none hassignable)
    | some var =>
      obtain ⟨rfl, hx, ty, htype, hplain⟩ := assignable?_some hr hassignable
      obtain ⟨value?, d, hread, hrest⟩ := ends_bind.mp hrest
      unfold storeName at hrest
      replace hrest := ends_read_bind.mp hrest
      obtain ⟨allowed, d₁, hask, hrest⟩ := ends_bind.mp hrest
      obtain rfl := assignable_state hask
      dsimp only at hrest
      split at hrest
      · obtain ⟨_, _, hrest⟩ := ends_ofExcept_bind.mp hrest
        obtain ⟨_, _, hrest⟩ := ends_ofExcept_bind.mp hrest
        exact absurd hclean (not_clean_of_report hrest)
      · obtain ⟨hclean₁, hcode⟩ := ends_whenClean (Keeps.pure Clean.refl _) hrest hclean
        simp only [ends_bind, ends_pure] at hcode
        obtain ⟨o, d₂, hplace, _, d₃, hassign, _, rfl⟩ := hcode
        obtain ⟨hf, _⟩ := expr_evaluates (A := A) v hv hr hread hclean₁
        have hx₁ : HasVariable d₁.table x := by
          rwa [(Quiet.expr v hread).table]
        have hstored := store_spec (hf.onward.ready hr) hx₁ hf.held hplace hassign
        exact (hstored.executes hf (.refl _) rfl rfl).forget

/-- A value that has been read is printed. -/
theorem Evaluates.prints {remark? : Option String} (hf : Evaluates A f b d)
    (h : Ends (Emit.quad { op := .printInt, arg1 := d.value, comment? := remark? }) d u b') :
    Executes A [] (fun _ w => (.normal, w.print (f w.store))) b b' := by
  have hcode := Onward.quad h
  have hquads := Emit.quads_quad h
  refine ⟨hf.onward.trans hcode, nofun, fun P fuel hP _ c w hpc hagrees => ?_⟩
  obtain ⟨c₁, hreach, hread⟩ := hf.run P (hP.back hcode) c w.store hpc hagrees.shows
  have hprint : step? A P.code c₁ = some (c₁.print (f w.store)) := by
    rw [step?_eq (hreach.pc ▸ hP.pushed hquads)]
    show (c₁.read? d.value).map c₁.print = _
    rw [hread]
    rfl
  obtain ⟨m, hsteps⟩ := hreach.steps
  refine ⟨m + 1, _, hsteps.trans (.one hprint), ⟨hreach.shows hagrees.shows, ?_⟩, ?_⟩
  · show c₁.output ++ _ = w.output ++ _
    rw [hreach.output, hagrees.output]
  · show c₁.pc + 1 = _
    rw [hquads, Array.size_push, hreach.pc]

/-- Printing prints the value. -/
theorem printStmt_codes {e : Expr} (he : e.isCore = true) :
    Codes A [] (fun _ w => (.normal, w.print (eval A w.store e))) (printStmt line e) where
  clean := clean_of_carried (keptStable.stmtWalk.course.printStmt line trivial)
  executes b a b' h hclean hr := by
    unfold printStmt at h
    obtain ⟨t, d, hread, hrest⟩ := ends_bind.mp h
    split at hrest
    · rename_i herror
      obtain ⟨_, rfl⟩ := ends_pure.mp hrest
      obtain ⟨_, ty, rfl, hty⟩ := expr_evaluates (A := A) e he hr hread hclean
      rcases hty with rfl | rfl <;> cases herror
    split at hrest
    · obtain ⟨_, _, hrest⟩ := ends_ofExcept_bind.mp hrest
      exact absurd hclean (not_clean_of_report hrest)
    obtain ⟨hclean₁, hcode⟩ := ends_whenClean (Keeps.pure Clean.refl _) hrest hclean
    obtain ⟨hf, ty, rfl, hty⟩ := expr_evaluates (A := A) e he hr hread hclean₁
    have hprint := ends_read_bind.mp hcode
    rcases hty with rfl | rfl
    · exact hf.prints hprint
    · exact hf.prints hprint

end

end Scriptc.Compile
