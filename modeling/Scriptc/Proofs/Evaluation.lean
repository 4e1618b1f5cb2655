import Scriptc.Proofs.Labels
import Scriptc.Proofs.Ready

/-!
# Scriptc: the code of expressions

The code of an expression of a structured program leaves its value in the operand that the reading
ends with (`expr_evaluates`). The code stands inside that of a whole program, `Whole`, whose labels
are marked once and whose variables have addresses of their own; a state of the reading is `Within`
it.

* `Reaches`: the machine has run the code that was written between two states, and only temporaries
  that were free before have changed.
* `Operates`: the code of one operator, on operands that hold values.
* `Evaluates`: the code of an expression. `Continues`: the rest of a chain, behind a value.

Temporaries carry the values of operands. What keeps them safe is that an operand in use is not free
(`Held`), that only free temporaries are written, and that a free one never becomes free again while
the expression is read.
-/

namespace Scriptc.Compile

open Build (Ends ends_bind ends_get_bind ends_ofExcept_bind ends_pure ends_read_bind)
open Scriptc.Core (binary eval evalRest)
open Emit (Free Idle)
open Machine (Config Steps carryOut? compute? place? step?)
variable {f : (String → Int) → Int} {v : Int}

/-- The code and the places of a whole program. -/
structure Whole where
  code : Array Quad
  places : Storage
  label_unique : ∀ {i j k : Nat} {q r : Quad}, code[i]? = some q → code[j]? = some r →
    q.marked? = some k → r.marked? = some k → i = j
  apart : places.Apart

/-- What has been read so far is a part of the whole. -/
structure Within (P : Whole) (b : Build) : Prop where
  quads : b.quads.toList <+: P.code.toList
  slots : ∀ x p, b.storage.slot? x = some p → P.places.slot? x = some p

/-- Storage holds the values of the variables. -/
def Shows (P : Whole) (c : Config) (σ : String → Int) : Prop :=
  ∀ x (n : Nat), P.places.slot? x = some (.address n) → c.words n = σ x

/-- The machine has run the code written between two states, and has changed nothing but temporaries
that were free. -/
structure Reaches (A : Arith) (P : Whole) (b b' : Build) (c c' : Config) : Prop where
  steps : ∃ n, Steps A P.code n c c'
  pc : c'.pc = b'.quads.size
  words : c'.words = c.words
  output : c'.output = c.output
  temps : ∀ k, ¬ Free b k → c'.temps k = c.temps k

section
variable {A : Arith} {P : Whole} {b b' d : Build} {c c₁ c' : Config} {o : Operand}
variable {i k : Nat} {q : Quad}

theorem Within.back (h : Within P b') (honward : Onward b b') : Within P b where
  quads := honward.quads.trans h.quads
  slots x p hp := h.slots x p (honward.slots x p hp)

/-- Code that has been written stands at the same place in the whole. -/
theorem Within.get (h : Within P b) (hq : b.quads[i]? = some q) : P.code[i]? = some q := by
  rw [← Array.getElem?_toList] at hq ⊢
  obtain ⟨hi, rfl⟩ := List.getElem?_eq_some_iff.mp hq
  exact List.prefix_iff_getElem?.mp h.quads i hi

theorem Within.pushed (h : Within P b') (hq : b'.quads = b.quads.push q) :
    P.code[b.quads.size]? = some q :=
  h.get (hq ▸ Array.getElem?_push_size)

/-- The code that was written last. -/
theorem Within.code (h : Within P b') {qs : Array Quad} (hqs : b'.quads = b.quads ++ qs)
    (hq : qs[i]? = some q) : P.code[b.quads.size + i]? = some q := by
  refine h.get ?_
  rw [hqs, Array.getElem?_append_right (Nat.le_add_right _ _), Nat.add_sub_cancel_left]
  exact hq

/-- A jump finds its label. -/
theorem Whole.place?_eq (P : Whole) (h : P.code[i]? = some { op := .label, result := .label k }) :
    place? P.code (.label k) = some i := by
  obtain ⟨hi, hq⟩ := Array.getElem?_eq_some_iff.mp h
  refine Array.findIdx?_eq_some_iff_getElem.mpr ⟨hi, by simp [hq], fun j hj => ?_⟩
  -- An earlier mark of the label would be a second one.
  have hjlt : j < P.code.size := Nat.lt_trans hj hi
  intro hlabel
  obtain ⟨hop, hresult⟩ := of_decide_eq_true hlabel
  have hmarked : (P.code[j]).marked? = some k := by
    unfold Quad.marked?
    rw [hop, hresult]
  have heq := P.label_unique (Array.getElem?_eq_getElem hjlt) h hmarked rfl
  omega

theorem step?_eq (hq : P.code[c.pc]? = some q) : step? A P.code c = carryOut? A P.code c q := by
  unfold step?
  rw [hq]
  rfl

/-! ### Single steps -/

theorem step_label {l : Operand} (h : P.code[c.pc]? = some { op := .label, result := l }) :
    step? A P.code c = some c.next :=
  step?_eq h

theorem step_goto (h : P.code[c.pc]? = some { op := .goto, result := .label k })
    (hlabel : P.code[i]? = some { op := .label, result := .label k }) :
    step? A P.code c = some (c.goto i) := by
  rw [step?_eq h]
  show (place? P.code (.label k)).map c.goto = _
  rw [P.place?_eq hlabel]
  rfl

theorem step_copy {t : Operand} (h : P.code[c.pc]? = some { op := .copy, arg1 := o, result := t })
    (hread : c.read? o = some v) : step? A P.code c = c.write? t v := by
  rw [step?_eq h]
  show (c.read? o).bind _ = _
  rw [hread]
  rfl

/-- Where a test goes on: `jumps` says when it leaves for its label. -/
def Tests (A : Arith) (op : Op) (jumps : Int → Bool) : Prop :=
  ∀ Q c o l v, c.read? o = some v → carryOut? A Q c { op := op, arg1 := o, result := l } =
    if jumps v then Machine.jump? Q c l else some c.next

theorem tests_ifTrue : Tests A .ifTrue (· ≠ 0) := by
  intro Q c o l v hread
  show (c.read? o).bind _ = _
  grind

theorem tests_ifFalse : Tests A .ifFalse (· = 0) := by
  intro Q c o l v hread
  show (c.read? o).bind _ = _
  grind

theorem step_test {op : Op} {jumps : Int → Bool} (htest : Tests A op jumps)
    (h : P.code[c.pc]? = some { op := op, arg1 := o, result := .label k })
    (hlabel : P.code[i]? = some { op := .label, result := .label k }) (hread : c.read? o = some v) :
    step? A P.code c = some (c.goto (if jumps v then i else c.pc + 1)) := by
  rw [step?_eq h, htest _ _ _ _ v hread]
  split
  · show (place? P.code (.label k)).map c.goto = _
    rw [P.place?_eq hlabel]
    rfl
  · rfl

namespace Reaches

theorem refl (hpc : c.pc = b.quads.size) : Reaches A P b b c c :=
  ⟨⟨0, rfl⟩, hpc, rfl, rfl, fun _ _ => rfl⟩

/-- A step without code changes nothing. -/
theorem idle (hpc : c.pc = b.quads.size) (h : Idle b b') : Reaches A P b b' c c :=
  ⟨⟨0, rfl⟩, h.quads ▸ hpc, rfl, rfl, fun _ _ => rfl⟩

theorem trans (honward : Onward b d) (h₁ : Reaches A P b d c c₁) (h₂ : Reaches A P d b' c₁ c') :
    Reaches A P b b' c c' where
  steps := by
    obtain ⟨m, hm⟩ := h₁.steps
    obtain ⟨n, hn⟩ := h₂.steps
    exact ⟨m + n, hm.trans hn⟩
  pc := h₂.pc
  words := h₂.words.trans h₁.words
  output := h₂.output.trans h₁.output
  temps k hk := (h₂.temps k fun hfree => hk (honward.free k hfree)).trans (h₁.temps k hk)

theorem shows {σ : String → Int} (h : Reaches A P b b' c c') (hshows : Shows P c σ) :
    Shows P c' σ :=
  fun x n hx => (congrFun h.words n).trans (hshows x n hx)

/-- An operand that is held keeps its value. -/
theorem read? (h : Reaches A P b b' c c') (hv : Held b o) : c'.read? o = c.read? o := by
  cases o with
  | temp k => exact congrArg some (h.temps k hv)
  | address n => exact congrArg some (congrFun h.words n)
  | text s => rfl
  | _ => exact hv.elim

end Reaches

end

/-! ## Operators -/

/-- The code between two states carries out an operator on two operands. -/
structure Operates (A : Arith) (f : Int → Int → Int) (left right : Operand) (b : Build)
    (o : Operand) (b' : Build) : Prop where
  onward : Onward b b'
  value : b'.value = o
  temp : ∃ k, o = .temp k ∧ Free b k ∧ ¬ Free b' k
  run : ∀ P, Within P b' → ∀ c x y, c.pc = b.quads.size → c.read? left = some x →
    c.read? right = some y → ∃ c', Reaches A P b b' c c' ∧ c'.read? o = some (f x y)

section
variable {A : Arith} {f : Int → Int → Int} {left right o t : Operand} {u : Unit}
    {b b₁ b₂ b' : Build}

theorem Operates.of_idle (hidle : Idle b b₁) (h : Operates A f left right b₁ o b') :
    Operates A f left right b o b' where
  onward := (Onward.of_idle hidle).trans h.onward
  value := h.value
  temp := by
    obtain ⟨k, ho, hfree, hused⟩ := h.temp
    exact ⟨k, ho, hidle.free k hfree, hused⟩
  run P hP c x y hpc hx hy := by
    obtain ⟨c', hreach, hread⟩ := h.run P hP c x y (hidle.quads ▸ hpc) hx hy
    exact ⟨c', .trans (.of_idle hidle) (.idle hpc hidle) hreach, hread⟩

/-- Writing a temporary that was free changes no other. -/
theorem reaches_write {P : Whole} {c : Config} {k : Nat} (hfree : Free b k)
    (hpc : c.pc = b.quads.size) (hsize : b'.quads.size = b.quads.size + 1)
    (hstep : step? A P.code c = c.write? (.temp k) v) :
    ∃ c', Reaches A P b b' c c' ∧ c'.read? (.temp k) = some v := by
  refine ⟨_, ⟨⟨1, .one hstep⟩, ?_, rfl, rfl, fun j hj => ?_⟩, congrArg some (if_pos rfl)⟩
  · rw [hsize, ← hpc]
  · exact if_neg fun heq : j = k => hj (heq ▸ hfree)

/-- An operation of one quadruple, whose result goes to a new temporary. -/
theorem quad_operates {op : Op} {a₂ : Operand} (hr : Ready b) (hnew : Ends Emit.newTemp b t b₁)
    (hquad : Ends (Emit.quad { op := op, arg1 := left, arg2 := a₂, result := t }) b₁ u b₂)
    (hfinish : Ends (Emit.finish t) b₂ o b')
    (hcarry : ∀ Q c x y, c.read? left = some x → c.read? right = some y →
      carryOut? A Q c { op := op, arg1 := left, arg2 := a₂, result := t } = c.write? t (f x y)) :
    Operates A f left right b o b' := by
  obtain ⟨k, rfl, hfree, hused, hidle, _⟩ := Emit.newTemp_spec hr.temps hnew
  have hcode := Onward.quad hquad
  have hdone := Idle.finish hfinish
  have hfull : Onward b b' := (Onward.of_idle hidle).trans (hcode.trans (.of_idle hdone))
  obtain rfl := Emit.ends_quad.mp hquad
  have hquads : b'.quads =
    b.quads.push { op := op, arg1 := left, arg2 := a₂, result := .temp k } := by
    rw [hdone.quads, ← hidle.quads]
  obtain ⟨rfl, rfl⟩ := Emit.ends_finish.mp hfinish
  refine ⟨hfull, rfl, ⟨k, rfl, hfree, fun hk => hused (hdone.free k hk)⟩,
    fun P hP c x y hpc hx hy => ?_⟩
  refine reaches_write hfree hpc (by rw [hquads, Array.size_push]) ?_
  rw [step?_eq (hpc ▸ hP.pushed hquads), hcarry _ _ x y hx hy]

theorem carryOut?_compute {Q : Array Quad} {c : Config} {op : Op} {x y : Int}
    (hop : compute? A op = some f) (hx : c.read? left = some x) (hy : c.read? right = some y) :
    carryOut? A Q c { op := op, arg1 := left, arg2 := right, result := t } =
      c.write? t (f x y) := by
  unfold carryOut?
  dsimp only
  rw [hop, hx, hy]
  rfl

theorem arithmetic_operates {op : String} (hr : Ready b) (hop : compute? A (.ofText op) = some f)
    (h : Ends (Emit.arithmetic left right op) b o b') : Operates A f left right b o b' := by
  simp only [Emit.arithmetic, ends_bind, Build.ends_ofExcept] at h
  obtain ⟨_, b₁, hleft, _, b₂, hright, _, _, ⟨_, rfl⟩, _, _, ⟨_, rfl⟩, t, b₃, hnew, _, b₄,
    hquad, hfinish⟩ := h
  have hidle := (Idle.use hleft).trans (Idle.use hright)
  refine .of_idle hidle (quad_operates ((Onward.of_idle hidle).ready hr) hnew hquad hfinish ?_)
  exact fun _ _ _ _ hx hy => carryOut?_compute hop hx hy

theorem comparison_operates {op : String} (hr : Ready b) (hop : compute? A (.ofText op) = some f)
    (h : Ends (Emit.comparison left right op) b o b') : Operates A f left right b o b' := by
  simp only [Emit.comparison, ends_bind, Build.ends_ofExcept] at h
  obtain ⟨_, b₁, hleft, _, b₂, hright, t, b₃, hnew, _, b₄, hquad, _, b₅, hfinish, _, _, ⟨_, rfl⟩, _,
    _, ⟨_, rfl⟩, h⟩ := h
  obtain rfl := (Emit.ends_finish.mp hfinish).1
  obtain ⟨rfl, rfl⟩ := ends_pure.mp h
  have hidle := (Idle.use hleft).trans (Idle.use hright)
  refine .of_idle hidle (quad_operates ((Onward.of_idle hidle).ready hr) hnew hquad hfinish ?_)
  exact fun _ _ _ _ hx hy => carryOut?_compute hop hx hy

theorem logicalNot_operates (hr : Ready b) (h : Ends (Emit.logicalNot left) b o b') :
    Operates A (fun x _ => truth (x = 0)) left left b o b' := by
  simp only [Emit.logicalNot, ends_bind] at h
  obtain ⟨_, b₁, hleft, t, b₃, hnew, _, b₄, hquad, hfinish⟩ := h
  have hidle := Idle.use hleft
  refine .of_idle hidle (quad_operates ((Onward.of_idle hidle).ready hr) hnew hquad hfinish ?_)
  intro Q c x y hx _
  unfold carryOut?
  dsimp only [compute?]
  rw [hx]
  rfl

/-- A choice between the right operand and a constant. -/
theorem shortCircuit_operates {test : Op} {constant : String} {jumps : Int → Bool} (hr : Ready b)
    (htest : Tests A test jumps) (hconstant : Machine.constant? constant = some v)
    (h : Ends (Emit.shortCircuit test constant left right) b o b') :
    Operates A (fun x y => if jumps x then v else y) left right b o b' := by
  simp only [Emit.shortCircuit, ends_bind] at h
  obtain ⟨t, b₁, hnew, short, b₂, hshort, done, b₃, hdone, _, b₄, h₄, _, b₅, h₅, _, b₆, h₆, _, b₇,
    h₇, _, b₈, h₈, _, b₉, h₉, hfinish⟩ := h
  obtain ⟨k, rfl, hfree, hused, hidle, _⟩ := Emit.newTemp_spec hr.temps hnew
  have hidle' := Idle.finish hfinish
  obtain ⟨w₁, n, rfl⟩ := (Writes.start b₁).label hshort
  obtain ⟨w₂, m, rfl⟩ := w₁.label hdone
  have hwrites := (((((w₂.push h₄).push h₅).push h₆).push h₇).push h₈).push h₉
  have hfull : Onward b b' := (Onward.of_idle hidle).trans (hwrites.onward.trans (.of_idle hidle'))
  obtain ⟨rfl, hb'⟩ := Emit.ends_finish.mp hfinish
  have hquads := hwrites.quads
  rw [← hidle'.quads, hidle.quads] at hquads
  refine ⟨hfull, by rw [hb'], ⟨k, rfl, hfree,
    fun hk => hused (hwrites.onward.free k (hidle'.free k hk))⟩, ?_⟩
  intro P hP c x y hpc hx hy
  have hsize : b'.quads.size = c.pc + 6 := by
    rw [hquads, Array.size_append, hpc]
    rfl
  have at₀ := hP.code hquads (i := 0) rfl
  have at₁ := hP.code hquads (i := 1) rfl
  have at₂ := hP.code hquads (i := 2) rfl
  have at₃ := hP.code hquads (i := 3) rfl
  have at₄ := hP.code hquads (i := 4) rfl
  have at₅ := hP.code hquads (i := 5) rfl
  rw [← hpc] at at₀ at₁ at₂ at₃ at₄ at₅
  have hleave := step_test htest at₀ at₃ hx
  have hother : ∀ w : Int, ∀ j, ¬ Free b j →
    (fun j => if j = k then w else c.temps j) j = c.temps j :=
    fun w j hj => if_neg fun heq : j = k => hj (heq ▸ hfree)
  by_cases hjumps : jumps x = true
  · -- The left operand decides, and the constant is the result.
    rw [if_pos hjumps] at hleave ⊢
    have hlabel : step? A P.code (c.goto (c.pc + 3)) = _ := step_label at₃
    have hcopy := step_copy (A := A) (c := c.goto (c.pc + 4)) (v := v) at₄ hconstant
    have hend := step_label (A := A)
      (c := { c with pc := c.pc + 5, temps := fun j => if j = k then v else c.temps j }) at₅
    refine ⟨_, ⟨⟨4, _, hleave, _, hlabel, _, hcopy, _, hend, rfl⟩, hsize.symm, rfl,
      rfl, hother v⟩, ?_⟩
    exact congrArg some (if_pos rfl)
  · rw [if_neg hjumps] at hleave ⊢
    have hcopy := step_copy (A := A) (c := c.goto (c.pc + 1)) (v := y) at₁ hy
    have hgoto := step_goto (A := A)
      (c := { c with pc := c.pc + 2, temps := fun j => if j = k then y else c.temps j }) at₂ at₅
    have hend := step_label (A := A)
      (c := { c with pc := c.pc + 5, temps := fun j => if j = k then y else c.temps j }) at₅
    refine ⟨_, ⟨⟨4, _, hleave, _, hcopy, _, hgoto, _, hend, rfl⟩, hsize.symm, rfl,
      rfl, hother y⟩, ?_⟩
    exact congrArg some (if_pos rfl)

end

/-! ## Checks -/

/-- A check of types that finds fault. -/
def Reports (check : BuildM Ty) : Prop :=
  ∃ line text, check = do
    Build.error line text
    return .error

section
variable {l r : Ty} {op : String} (hl : Plain l) (hr : Plain r) (line : Option Nat)
include hl hr

theorem additive_cases (hop : op ∈ Level.additive.operators) :
    (l = .integer ∧ r = .integer ∧ Check.additive (some l) (some r) op line = pure .integer) ∨
      Reports (Check.additive (some l) (some r) op line) := by
  rcases hl with rfl | rfl <;> rcases hr with rfl | rfl <;>
    rcases List.mem_pair.mp hop with rfl | rfl
  · exact .inl ⟨rfl, rfl, rfl⟩
  · exact .inl ⟨rfl, rfl, rfl⟩
  all_goals exact .inr ⟨line, _, rfl⟩

theorem arithmetic_cases :
    Check.arithmetic (some l) (some r) line = pure .integer ∨
      Reports (Check.arithmetic (some l) (some r) line) := by
  rcases hl with rfl | rfl <;> rcases hr with rfl | rfl
  · exact .inl rfl
  all_goals exact .inr ⟨line, _, rfl⟩

theorem logical_cases :
    Check.logical (some l) (some r) line = pure .boolean ∨
      Reports (Check.logical (some l) (some r) line) := by
  rcases hl with rfl | rfl <;> rcases hr with rfl | rfl
  case inr.inr => exact .inl rfl
  all_goals exact .inr ⟨line, _, rfl⟩

theorem comparison_cases :
    Check.comparison (some l) (some r) op line = pure .boolean ∨
      Reports (Check.comparison (some l) (some r) op line) := by
  rcases hl with rfl | rfl <;> rcases hr with rfl | rfl
  case inl.inl | inr.inr => exact .inl rfl
  all_goals exact .inr ⟨line, _, rfl⟩

theorem relational_cases :
    Check.relational (some l) (some r) op line = pure .boolean ∨
      Reports (Check.relational (some l) (some r) op line) := by
  rcases hl with rfl | rfl <;> rcases hr with rfl | rfl
  · exact .inl rfl
  all_goals exact .inr ⟨line, _, rfl⟩

end

/-! ## Constants and variables -/

/-- The code between two states leaves the value of an expression in the operand at hand. -/
structure Evaluates (A : Arith) (f : (String → Int) → Int) (b b' : Build) : Prop where
  onward : Onward b b'
  held : Held b' b'.value
  fresh : ∀ k, b'.value = .temp k → Free b k
  run : ∀ P, Within P b' → ∀ c σ, c.pc = b.quads.size → Shows P c σ →
    ∃ c', Reaches A P b b' c c' ∧ c'.read? b'.value = some (f σ)

section
variable {A : Arith} {b b' : Build} {o : Operand} {t : Option Ty} {s : String}

/-- A numeral is a text of its own kind. -/
theorem candidate_of_digits (h : s.toList.all Char.isDigit = true) :
    Operand.candidate s = .text s := by
  unfold Operand.candidate
  -- Every other kind begins with a letter, or has one behind a zero.
  split
  case h_6 => rfl
  case h_4 =>
    rename_i hs
    rw [hs] at h
    simp at h
  all_goals
    rename_i hs
    rw [hs] at h
    cases h

/-- A numeral is an operand as it is written. -/
theorem ofText_of_digits (h : s.toList.all Char.isDigit = true) : Operand.ofText s = .text s := by
  unfold Operand.ofText
  rw [candidate_of_digits h]
  exact ite_self _

theorem begins_of_digits {p : String} (hs : s.toList.all Char.isDigit = true)
    (hp : p.toList.all Char.isDigit = false) : Affix.begins s p = false := by
  refine Bool.eq_false_iff.mpr fun hbegins => ?_
  have hsub : p.toList ⊆ s.toList := (List.isPrefixOf_iff_prefix.mp hbegins).subset
  refine absurd hp (Bool.not_eq_false _ |>.mpr (List.all_eq_true.mpr fun c hc => ?_))
  exact List.all_eq_true.mp hs c (hsub hc)

/-- A constant is no quoted text, and is an operand as it is written. -/
theorem constant_text (h : (Machine.constant? s).isSome) :
    Affix.begins s "\"" = false ∧ Operand.ofText s = .text s := by
  unfold Machine.constant? at h
  split at h
  · rename_i hs
    subst hs
    decide +kernel
  split at h
  · rename_i hs
    subst hs
    decide +kernel
  · rw [Option.isSome_map] at h
    unfold Decimal.read? at h
    split at h
    · rename_i hdigits
      obtain ⟨-, hall⟩ := Bool.and_eq_true_iff.mp hdigits
      exact ⟨begins_of_digits hall (by decide), ofText_of_digits hall⟩
    · cases h

/-- A numeral stands for its number. -/
theorem constant?_of_digits (h : (Decimal.read? s.toList).isSome) :
    Machine.constant? s = some (Decimal.value s.toList : Int) := by
  have hread : Decimal.read? s.toList = some (Decimal.value s.toList) := by
    unfold Decimal.read? at h ⊢
    split at h
    · exact if_pos ‹_›
    · cases h
  unfold Machine.constant?
  split
  · rename_i hs
    subst hs
    cases h
  split
  · rename_i hs
    subst hs
    cases h
  · rw [hread]
    rfl

/-- A constant is its own value, or is loaded into a new temporary. -/
theorem constant_evaluates (hr : Ready b) (hs : Machine.constant? s = some v)
    (h : Ends (Emit.constant s) b o b') : Evaluates A (fun _ => v) b b' := by
  obtain ⟨hquote, htext⟩ := constant_text (Option.isSome_of_eq_some hs)
  have hplain : ¬ Emit.isQuoted s = true := by
    unfold Emit.isQuoted
    rw [hquote]
    exact Bool.false_ne_true
  unfold Emit.constant at h
  rw [if_neg hplain, htext, pure_bind, ends_get_bind] at h
  split at h
  -- Where a value is read as it stands, the constant itself is the operand.
  · obtain ⟨_, b₁, hset, hpure⟩ := ends_bind.mp h
    obtain ⟨_, rfl⟩ := ends_pure.mp hpure
    have hvalue : b'.value = .text s := by rw [Emit.ends_setValue.mp hset]
    refine ⟨.of_idle (.setValue hset), ?_, ?_,
      fun P _ c σ hpc _ => ⟨c, .idle hpc (.setValue hset), ?_⟩⟩
    · rw [hvalue]
      exact Option.isSome_of_eq_some hs
    · rw [hvalue]
      exact nofun
    · rw [hvalue]
      exact hs
  -- Elsewhere it is copied to a new temporary.
  · simp only [ends_bind, ends_pure] at h
    obtain ⟨t, b₁, hnew, _, b₂, hquad, _, b₃, hset, _, rfl⟩ := h
    obtain ⟨k, rfl, hfree, hused, hidle, _⟩ := Emit.newTemp_spec hr.temps hnew
    have hcode : Onward b₁ b' := (Onward.quad hquad).trans (.of_idle (.setValue hset))
    have hvalue : b'.value = .temp k := by rw [Emit.ends_setValue.mp hset]
    have hquads : b'.quads = b.quads.push { op := .copy, arg1 := .text s, result := .temp k } := by
      rw [(Idle.setValue hset).quads, Emit.quads_quad hquad, hidle.quads]
    refine ⟨(Onward.of_idle hidle).trans hcode, ?_, ?_, fun P hP c σ hpc _ => ?_⟩
    · rw [hvalue]
      exact fun hk => hused (hcode.free k hk)
    · rw [hvalue]
      intro j hj
      cases hj
      exact hfree
    · rw [hvalue]
      have hread : c.read? (.text s) = some v := hs
      exact reaches_write hfree hpc (by rw [hquads, Array.size_push])
        (step_copy (hpc ▸ hP.pushed hquads) hread)

/-- A literal is read as a plain value. -/
theorem literal_evaluates {l : Literal} (hl : l.isCore = true) (hr : Ready b)
    (h : Ends (Compile.literal l) b t b') :
    Evaluates A (fun _ => Core.literal l) b b' ∧ ∃ ty, t = some ty ∧ Plain ty := by
  unfold Compile.literal at h
  cases l with
  | null => cases hl
  | bool v =>
    obtain ⟨_, b₁, hconstant, hpure⟩ := ends_bind.mp h
    obtain ⟨rfl, rfl⟩ := ends_pure.mp hpure
    refine ⟨constant_evaluates hr ?_ hconstant, _, rfl, .inr rfl⟩
    cases v <;> decide +kernel
  | plain s =>
    obtain ⟨_, b₁, hconstant, hpure⟩ := ends_bind.mp h
    obtain ⟨rfl, rfl⟩ := ends_pure.mp hpure
    have hs := constant?_of_digits hl
    refine ⟨constant_evaluates hr hs hconstant, _, rfl, ?_⟩
    rw [(constant_text (Option.isSome_of_eq_some hs)).1]
    exact .inl rfl

/-- A variable is its own operand. -/
theorem variableValue_evaluates {x : String} (hr : Ready b) (hx : HasVariable b.table x)
    (h : Ends (Emit.variableValue x) b o b') : Evaluates A (· x) b b' ∧ b'.value = o := by
  unfold Emit.variableValue at h
  obtain ⟨n?, b₁, hoffset, hrest⟩ := ends_bind.mp h
  unfold Emit.routineOffset? at hoffset
  rw [ends_get_bind, hr.routine?] at hoffset
  obtain ⟨rfl, rfl⟩ := ends_pure.mp hoffset
  simp only [ends_bind, ends_pure] at hrest
  obtain ⟨a, b₂, hplace, _, b₃, hset, rfl, rfl⟩ := hrest
  obtain ⟨n, rfl, hslot, honward, hsilent, _⟩ := place_spec hr hx hplace
  have hidle := Idle.setValue hset
  have hvalue : b'.value = .address n := by rw [Emit.ends_setValue.mp hset]
  refine ⟨⟨honward.trans (.of_idle hidle), ?_, ?_, fun P hP c σ hpc hshows => ?_⟩, hvalue⟩
  · rw [hvalue]
    trivial
  · rw [hvalue]
    simp
  · refine ⟨c, ⟨⟨0, rfl⟩, ?_, rfl, rfl, fun _ _ => rfl⟩, ?_⟩
    · rw [hidle.quads, hsilent.quads]
      exact hpc
    · rw [hvalue]
      exact congrArg some (hshows x n (hP.slots x _ (hidle.storage ▸ hslot)))

theorem name_evaluates {line : Nat} {x : String} {target? : Option Target} (hr : Ready b)
    (h : Ends (Compile.name line x) b target? b') (hclean : b'.errors = #[]) :
    (∃ n f, target? = some { pending := .function n f }) ∨
      Evaluates A (· x) b b' ∧ ∃ ty, target? = some { type? := some ty } ∧ Plain ty := by
  unfold Compile.name at h
  rw [Build.ends_lookup?_bind] at h
  split at h
  · exact absurd hclean (not_clean_of_report h)
  · rename_i s hs
    split at h
    · rename_i v hbody
      obtain ⟨ty, htype, hplain⟩ := hr.lookup hs v hbody
      rw [htype] at h
      have hload : Ends (do
          Emit.setValue (← Emit.variableValue x)
          return some { type? := some ty }) b target? b' := by
        rcases hplain with rfl | rfl
        · exact h
        · exact h
      simp only [ends_bind] at hload
      obtain ⟨o, b₁, hvariable, _, b₂, hset, hpure⟩ := hload
      obtain ⟨hevaluates, hvalue⟩ := variableValue_evaluates hr ⟨s, v, hs, hbody⟩ hvariable
      have hsame : b₂ = b₁ := by
        rw [Emit.ends_setValue.mp hset, ← hvalue]
      obtain ⟨rfl, rfl⟩ := ends_pure.mp hpure
      exact .inr ⟨hsame ▸ hevaluates, ty, rfl, hplain⟩
    · exact .inl ⟨_, _, (ends_pure.mp h).1⟩
    · exact absurd hclean (not_clean_of_report h)
    · exact absurd hclean (not_clean_of_report h)

end

/-! ## Chains of operators -/

section
variable {A : Arith} {b b' : Build} {c c' : Chain} {level : Level} {op : String} {line at_ : Nat}

section
variable {check : BuildM Ty} {ok : Ty} {v : Operand} {code : BuildM Operand}
    {g : Ty → Operand → Chain}

/-- A fault of the operands is the end of it. -/
theorem Reports.not_clean (hreports : Reports check) (h : Ends (do
      let t ← check
      let w ← if t == .error then pure v else code
      return g t w) b c' b') : b'.errors ≠ #[] := by
  obtain ⟨line, text, rfl⟩ := hreports
  obtain ⟨t, b₁, hcheck, h⟩ := ends_bind.mp h
  obtain ⟨_, b₂, herror, hpure⟩ := ends_bind.mp hcheck
  obtain ⟨rfl, rfl⟩ := ends_pure.mp hpure
  obtain ⟨_, b₃, hskip, hdone⟩ := ends_bind.mp h
  obtain ⟨_, rfl⟩ := ends_pure.mp hskip
  obtain ⟨_, rfl⟩ := ends_pure.mp hdone
  exact not_clean_of_error herror

/-- Code is written for operands that pass their check. -/
theorem checked (hcases : check = pure ok ∨ Reports check) (hok : (ok == .error) = false)
    (h : Ends (do
      let t ← check
      let w ← if t == .error then pure v else code
      return g t w) b c' b') (hclean : b'.errors = #[]) : ∃ w, Ends code b w b' ∧ c' = g ok w := by
  rcases hcases with rfl | hreports
  · rw [pure_bind, hok] at h
    obtain ⟨w, b₁, hcode, hpure⟩ := ends_bind.mp h
    grind
  · exact absurd hclean (hreports.not_clean h)

end

/-- Operators other than the logical ones are operations of the machine. -/
theorem compute?_binary (hop : op ∈ level.operators) (hand : level ≠ .and) (hor : level ≠ .or) :
    compute? A (.ofText op) = some (binary A level op) := by
  cases level with
  | or => exact absurd rfl hor
  | and => exact absurd rfl hand
  | equality => rcases List.mem_pair.mp hop with rfl | rfl <;> rfl
  | additive => rcases List.mem_pair.mp hop with rfl | rfl <;> rfl
  | relational =>
    simp only [Level.operators, List.mem_cons, List.not_mem_nil, or_false] at hop
    rcases hop with rfl | rfl | rfl | rfl <;> rfl
  | multiplicative =>
    simp only [Level.operators, List.mem_cons, List.not_mem_nil, or_false] at hop
    rcases hop with rfl | rfl | rfl <;> rfl

/-- `&&` and `||` jump over their right operand. -/
theorem logical_operates {left right o : Operand} (hr : Ready b)
    (hlevel : level = .and ∨ level = .or)
    (h : Ends (Emit.logical left right (if level = .and then "&&" else "||")) b o b')
    (hop : op ∈ level.operators) : Operates A (binary A level op) left right b o b' := by
  simp only [Emit.logical, ends_bind] at h
  obtain ⟨_, b₁, hleft, _, b₂, hright, h⟩ := h
  have hidle := (Idle.use hleft).trans (Idle.use hright)
  have hr₂ := (Onward.of_idle hidle).ready hr
  refine .of_idle hidle ?_
  rcases hlevel with rfl | rfl
  · obtain rfl := List.mem_singleton.mp hop
    have hbinary : binary A .and "&&" = fun x y => if (decide (x = 0)) = true then 0 else y := by
      funext x y
      simp [binary]
    rw [hbinary]
    exact shortCircuit_operates hr₂ tests_ifFalse (by decide +kernel) h
  · obtain rfl := List.mem_singleton.mp hop
    have hbinary : binary A .or "||" = fun x y => if (decide (x ≠ 0)) = true then 1 else y := by
      funext x y
      by_cases hx : x = 0 <;> simp [binary, hx]
    rw [hbinary]
    exact shortCircuit_operates hr₂ tests_ifTrue (by decide +kernel) h

/-- Next to a number, a number stays one. -/
theorem sum_integer {v : Operand} (hleft : c.left? = some .integer) :
    c.sum op (some .integer) v = Emit.arithmetic c.value v op := by
  unfold Chain.sum
  rw [hleft, show (some Ty.integer == some Ty.string) = false from rfl,
    Bool.and_false, Bool.and_false,
    Bool.false_and]
  rfl

theorem step_operates {l r : Ty} (hr : Ready b) (hop : op ∈ level.operators)
    (hleft : c.left? = some l) (hl : Plain l) (hplain : Plain r)
    (h : Ends (c.step level line op at_ (some r)) b c' b') (hclean : b'.errors = #[]) :
    Operates A (binary A level op) c.value b.value b c'.value b' ∧
      (∃ t, c'.left? = some t ∧ Plain t) ∧ ∃ t, c'.result? = some t ∧ Plain t := by
  unfold Chain.step at h
  replace h := ends_read_bind.mp h
  rw [hleft] at h
  cases level with
  | additive =>
    obtain ⟨_, b₁, huse, h⟩ := ends_bind.mp h
    have hidle := Idle.use huse
    rcases additive_cases hl hplain at_ hop with ⟨rfl, rfl, hcheck⟩ | hreports
    · obtain ⟨w, hcode, rfl⟩ := checked (.inl hcheck) rfl h hclean
      rw [sum_integer hleft] at hcode
      have hoperates := arithmetic_operates ((Onward.of_idle hidle).ready hr)
        (compute?_binary (A := A) hop nofun nofun) hcode
      exact ⟨.of_idle hidle hoperates, ⟨_, rfl, .inl rfl⟩, _, rfl, .inl rfl⟩
    · exact absurd hclean (hreports.not_clean h)
  | multiplicative =>
    obtain ⟨w, hcode, rfl⟩ := checked (arithmetic_cases hl hplain at_) rfl h hclean
    exact ⟨arithmetic_operates hr (compute?_binary hop nofun nofun) hcode,
      ⟨_, rfl, .inl rfl⟩, _, rfl, .inl rfl⟩
  | equality =>
    obtain ⟨w, hcode, rfl⟩ := checked (comparison_cases hl hplain line) rfl h hclean
    exact ⟨comparison_operates hr (compute?_binary hop nofun nofun) hcode,
      ⟨_, rfl, hplain⟩, _, rfl, .inr rfl⟩
  | relational =>
    obtain ⟨w, hcode, rfl⟩ := checked (relational_cases hl hplain line) rfl h hclean
    exact ⟨comparison_operates hr (compute?_binary hop nofun nofun) hcode,
      ⟨_, rfl, hplain⟩, _, rfl, .inr rfl⟩
  | and =>
    obtain ⟨w, hcode, rfl⟩ := checked (logical_cases hl hplain at_) rfl h hclean
    exact ⟨logical_operates hr (.inl rfl) hcode hop, ⟨_, rfl, .inr rfl⟩, _, rfl, .inr rfl⟩
  | or =>
    obtain ⟨w, hcode, rfl⟩ := checked (logical_cases hl hplain at_) rfl h hclean
    exact ⟨logical_operates hr (.inr rfl) hcode hop, ⟨_, rfl, .inr rfl⟩, _, rfl, .inr rfl⟩

/-- The code between two states takes a value, in the operand `v`, to the value of a chain that goes
on behind it. -/
structure Continues (A : Arith) (g : (String → Int) → Int → Int) (v : Operand) (b b' : Build) :
    Prop where
  onward : Onward b b'
  held : Held b' b'.value
  fresh : ∀ k, b'.value = .temp k → v = .temp k ∨ Free b k
  run : ∀ P, Within P b' → ∀ c σ x, c.pc = b.quads.size → Shows P c σ → c.read? v = some x →
    ∃ c', Reaches A P b b' c c' ∧ c'.read? b'.value = some (g σ x)

/-- A value and then the rest of a chain. -/
theorem Evaluates.continue {d : Build} {g : (String → Int) → Int → Int}
    (hf : Evaluates A f b d) (hg : Continues A g d.value d b') :
    Evaluates A (fun σ => g σ (f σ)) b b' where
  onward := hf.onward.trans hg.onward
  held := hg.held
  fresh k hk := (hg.fresh k hk).elim (hf.fresh k) (hf.onward.free k)
  run P hP c σ hpc hshows := by
    obtain ⟨c₁, hreach₁, hread₁⟩ := hf.run P (hP.back hg.onward) c σ hpc hshows
    obtain ⟨c₂, hreach₂, hread₂⟩ := hg.run P hP c₁ σ _ hreach₁.pc (hreach₁.shows hshows) hread₁
    exact ⟨c₂, .trans hf.onward hreach₁ hreach₂, hread₂⟩

/-- What happens without code leaves the value where it is. -/
theorem Evaluates.idle {d : Build} (hf : Evaluates A f b d) (h : Idle d b')
    (hvalue : b'.value = d.value) : Evaluates A f b b' where
  onward := hf.onward.trans (.of_idle h)
  held := hvalue ▸ hf.held.onward (.of_idle h)
  fresh k hk := hf.fresh k (hvalue ▸ hk)
  run P hP c σ hpc hshows := by
    obtain ⟨c', hreach, hread⟩ := hf.run P (hP.back (.of_idle h)) c σ hpc hshows
    exact ⟨c', .trans hf.onward hreach (.idle hreach.pc h), hvalue ▸ hread⟩

/-- A chain goes on: its right operand, the operator and the rest. The left operand is held
meanwhile. -/
theorem Continues.cons {b₁ b₂ : Build} {v w : Operand} {h : Int → Int → Int}
    {g : (String → Int) → Int → Int} (hv : Held b v) (hf : Evaluates A f b b₁)
    (hh : Operates A h v b₁.value b₁ w b₂) (hg : Continues A g w b₂ b') :
    Continues A (fun σ x => g σ (h x (f σ))) v b b' where
  onward := hf.onward.trans (hh.onward.trans hg.onward)
  held := hg.held
  fresh k hk := by
    obtain ⟨j, hw, hfree, _⟩ := hh.temp
    rcases hg.fresh k hk with hvalue | hfree'
    · obtain rfl : j = k := Operand.temp.inj (hw.symm.trans hvalue)
      exact .inr (hf.onward.free j hfree)
    · exact .inr (hf.onward.free k (hh.onward.free k hfree'))
  run P hP c σ x hpc hshows hx := by
    have hP₂ := hP.back hg.onward
    obtain ⟨c₁, hreach₁, hread₁⟩ := hf.run P (hP₂.back hh.onward) c σ hpc hshows
    have hx₁ : c₁.read? v = some x := (hreach₁.read? hv).trans hx
    obtain ⟨c₂, hreach₂, hread₂⟩ := hh.run P hP₂ c₁ x _ hreach₁.pc hx₁ hread₁
    have hreach := Reaches.trans hf.onward hreach₁ hreach₂
    obtain ⟨c₃, hreach₃, hread₃⟩ := hg.run P hP c₂ σ _ hreach.pc (hreach.shows hshows) hread₂
    exact ⟨c₃, .trans (hf.onward.trans hh.onward) hreach hreach₃, hread₃⟩

end

/-- A chain begins with the value of its first operand. -/
theorem start_spec {t : Option Ty} {b b' : Build} {c : Chain} {level : Level}
    (h : Ends (Chain.start level t) b c b') :
    c = ⟨t, t, b.value⟩ ∧ Idle b b' ∧ b'.value = b.value := by
  unfold Chain.start at h
  replace h := ends_read_bind.mp h
  dsimp only at h
  split at h
  · obtain ⟨_, b₁, huse, hpure⟩ := ends_bind.mp h
    obtain ⟨rfl, rfl⟩ := ends_pure.mp hpure
    exact ⟨rfl, .use huse, Emit.value_use huse⟩
  · obtain ⟨rfl, rfl⟩ := ends_pure.mp h
    exact ⟨rfl, .refl _, rfl⟩

/-! ## Expressions -/

/-- Against a truth value only a truth value is right. -/
theorem wrong?_boolean {ty : Ty} (hty : Plain ty) :
    ty = .boolean ∧ Check.wrong? (some ty) .boolean = pure none ∨
      ∃ found, Check.wrong? (some ty) .boolean = pure (some found) := by
  rcases hty with rfl | rfl
  · exact .inr ⟨_, rfl⟩
  · exact .inl ⟨rfl, rfl⟩

theorem not_evaluates {A : Arith} {line : Nat} {t : Option Ty} {b d b' : Build} {ty : Ty}
    (hf : Evaluates A f b d) (hr : Ready d) (hty : Plain ty)
    (h : Ends (unary line "!" "booleano" .boolean (some ty) Emit.logicalNot) d t b')
    (hclean : b'.errors = #[]) :
    Evaluates A (fun σ => truth (f σ = 0)) b b' ∧ t = some .boolean := by
  unfold unary at h
  rcases wrong?_boolean hty with ⟨rfl, hright⟩ | ⟨found, hwrong⟩
  · rw [hright, pure_bind] at h
    replace h := ends_read_bind.mp h
    obtain ⟨o, b₂, hcode, hpure⟩ := ends_bind.mp h
    obtain ⟨rfl, rfl⟩ := ends_pure.mp hpure
    have hop := logicalNot_operates (A := A) hr hcode
    obtain ⟨k, hk, hfree, hused⟩ := hop.temp
    refine ⟨⟨hf.onward.trans hop.onward, ?_, ?_, fun P hP c σ hpc hshows => ?_⟩, rfl⟩
    · rw [hop.value, hk]
      exact hused
    · intro j hj
      obtain rfl : k = j := Operand.temp.inj (hk.symm.trans (hop.value.symm.trans hj))
      exact hf.onward.free k hfree
    · obtain ⟨c₁, hreach₁, hread₁⟩ := hf.run P (hP.back hop.onward) c σ hpc hshows
      obtain ⟨c₂, hreach₂, hread₂⟩ := hop.run P hP c₁ _ _ hreach₁.pc hread₁ hread₁
      exact ⟨c₂, .trans hf.onward hreach₁ hreach₂, hop.value ▸ hread₂⟩
  · rw [hwrong, pure_bind] at h
    exact absurd hclean (not_clean_of_report h)

/-- A plain type. -/
def PlainType (t : Option Ty) : Prop := ∃ ty, t = some ty ∧ Plain ty

mutual

/-- The code of an expression leaves its value in the operand at hand. -/
theorem expr_evaluates {A : Arith} : ∀ e : Expr, e.isCore = true → ∀ {b t b'}, Ready b →
    Ends (expr e) b t b' → b'.errors = #[] → Evaluates A (eval A · e) b b' ∧ PlainType t
  | .chain level first rest, hcore, b, t, b', hr, h, hclean => by
    rw [expr] at h
    obtain ⟨hfirst, hrest⟩ := Bool.and_eq_true_iff.mp hcore
    simp only [ends_bind] at h
    obtain ⟨t₁, b₁, hread, c, b₂, hstart, hchain⟩ := h
    have hclean₂ := (Quiet.chain level first.line c rest hchain).clean hclean
    have hclean₁ := (Quiet.exprStable.chainStart level t₁ hstart).clean hclean₂
    obtain ⟨hf, htype⟩ := expr_evaluates (A := A) first hfirst hr hread hclean₁
    obtain ⟨rfl, hidle, hvalue⟩ := start_spec hstart
    have hf₂ := hf.idle hidle hvalue
    have hheld : Held b₂ b₁.value := hvalue ▸ hf₂.held
    rw [← List.append_nil rest] at hchain
    obtain ⟨c', b₃, hdone, -, -, htype', hg⟩ :=
      chain_continues level rest hrest (hf₂.onward.ready hr) hheld hvalue
      htype htype hchain hclean
    rw [chain] at hdone
    obtain ⟨rfl, rfl⟩ := ends_pure.mp hdone
    exact ⟨hf₂.continue (hvalue ▸ hg), htype'⟩
  | .not line e, hcore, b, t, b', hr, h, hclean => by
    rw [expr] at h
    obtain ⟨t₁, b₁, hread, hnot⟩ := ends_bind.mp h
    have hclean₁ := (Quiet.exprStable.unary line "!" "booleano" .boolean t₁
      Quiet.exprStable.logicalNot hnot).clean hclean
    obtain ⟨hf, ty, rfl, hty⟩ := expr_evaluates (A := A) e hcore hr hread hclean₁
    obtain ⟨hcode, rfl⟩ := not_evaluates hf (hf.onward.ready hr) hty hnot hclean
    exact ⟨hcode, _, rfl, .inr rfl⟩
  | .group _ e, hcore, b, t, b', hr, h, hclean => by
    rw [expr] at h
    exact expr_evaluates e hcore hr h hclean
  | .literal _ l, hcore, b, t, b', hr, h, hclean => by
    rw [expr] at h
    exact literal_evaluates hcore hr h
  | .access (.mk (.name line x) []), hcore, b, t, b', hr, h, hclean => by
    unfold expr atom at h
    obtain ⟨target?, b₁, hname, hrest⟩ := ends_bind.mp h
    cases target? with
    | none =>
      obtain ⟨_, rfl⟩ := ends_pure.mp hrest
      rcases name_evaluates (A := A) hr hname hclean with
        ⟨_, _, htarget⟩ | ⟨_, _, htarget, _⟩ <;> cases htarget
    | some target =>
      dsimp only at hrest
      rw [suffixes] at hrest
      have hclean₁ := (Quiet.exprStable.conclude _ _ hrest).clean hclean
      rcases name_evaluates (A := A) hr hname hclean₁ with ⟨n, f, htarget⟩ | ⟨hf, ty, htarget, hty⟩
      · -- A function must be called.
        cases htarget
        obtain ⟨_, b₂, hsettle, hreport⟩ := ends_bind.mp hrest
        obtain ⟨rfl, rfl⟩ := ends_pure.mp hsettle
        exact absurd hclean (not_clean_of_report hreport)
      · cases htarget
        obtain ⟨rfl, rfl⟩ := ends_pure.mp hrest
        exact ⟨hf, ty, rfl, hty⟩

/-- The code of a part of a chain, behind the value `c.value`; the chain goes on with the value
`c₁.value`. -/
theorem chain_continues {A : Arith} (level : Level) : ∀ rest : List (String × Expr),
    Expr.restIsCore level rest = true → ∀ {post line b c t b'}, Ready b → Held b c.value →
      b.value = c.value →
      PlainType c.left? → PlainType c.result? → Ends (chain level line c (rest ++ post)) b t b' →
        b'.errors = #[] → ∃ c₁ b₁, Ends (chain level line c₁ post) b₁ t b' ∧ b₁.value = c₁.value ∧
          PlainType c₁.left? ∧ PlainType c₁.result? ∧
          Continues A (fun σ x => evalRest A σ level x rest) c.value b b₁
  | [], _, post, line, b, c, t, b', hr, hheld, hvalue, hleft, hresult, h, hclean => by
    refine ⟨c, b, h, hvalue, hleft, hresult,
      ⟨.refl _, hvalue ▸ hheld, fun k hk => .inl (hvalue ▸ hk), ?_⟩⟩
    intro P _ c₀ σ x hpc _ hread
    exact ⟨c₀, .refl hpc, hvalue ▸ hread⟩
  | (op, e) :: rest, hcore, post, line, b, c, t, b', hr, hheld, hvalue, hleft, hresult, h, hclean =>
    by
    rw [List.cons_append, chain] at h
    obtain ⟨hfirst, hrest⟩ := Bool.and_eq_true_iff.mp hcore
    obtain ⟨hop, he⟩ := Bool.and_eq_true_iff.mp hfirst
    simp only [ends_bind] at h
    obtain ⟨t₁, b₁, hread, c₂, b₂, hstep, hchain⟩ := h
    have hclean₂ := (Quiet.chain level line c₂ _ hchain).clean hclean
    have hclean₁ := (Quiet.chainStep level line c op e.line t₁ hstep).clean hclean₂
    obtain ⟨hf, ty, rfl, hty⟩ := expr_evaluates (A := A) e he hr hread hclean₁
    obtain ⟨l, hl, hplain⟩ := hleft
    obtain ⟨hh, hleft₂, hresult₂⟩ :=
      step_operates (A := A) (hf.onward.ready hr) (List.contains_iff_mem.mp hop) hl
      hplain hty hstep hclean₂
    have hheld₂ : Held b₂ c₂.value := by
      obtain ⟨k, hk, _, hused⟩ := hh.temp
      rw [hk]
      exact hused
    obtain ⟨c₃, b₃, hpost, hvalue₃, hleft₃, hresult₃, hg⟩ := chain_continues level rest hrest
      (hh.onward.ready (hf.onward.ready hr)) hheld₂ hh.value hleft₂ hresult₂ hchain hclean
    exact ⟨c₃, b₃, hpost, hvalue₃, hleft₃, hresult₃, .cons hheld hf hh hg⟩

end

end Scriptc.Compile
