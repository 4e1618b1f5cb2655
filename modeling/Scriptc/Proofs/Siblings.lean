import Scriptc.Proofs.Preservation

/-!
# Scriptc: operands and their siblings

Operands are collected one after the other and used when all of them have been read. Where no sign
is written they hold their values until then (`operands_survive`), for only free temporaries are
written meanwhile. The code of a sign writes to the temporary that was written last unless that one
is marked as used, and an argument is not: `operand_overwritten`.

A logical operator is no exception: its right operand is read, and run, before the left one is
looked at (`logical_runs_both`), so a call on the right is made in any case.
-/

namespace Scriptc.Compile

open Build (Ends ends_bind ends_ofExcept_bind ends_pure ends_read ends_read_bind ends_throw)
open Scriptc.Core (eval)
open Emit (Idle)

variable {A : Arith} {b b' d : Build} {e : Expr} {es : List Expr} {vs : List Operand}

/-- Operands that are collected between two states hold the values of their expressions in the
end. -/
structure Collects (A : Arith) (es : List Expr) (b : Build) (vs : List Operand) (b' : Build) :
    Prop where
  onward : Onward b b'
  held : ∀ v ∈ vs, Held b' v
  run : ∀ P, Within P b' → ∀ c σ, c.pc = b.quads.size → Shows P c σ →
    ∃ c', Reaches A P b b' c c' ∧ vs.map c'.read? = es.map fun e => some (eval A σ e)

theorem Collects.nil (h : Idle b b') : Collects A [] b [] b' :=
  ⟨.of_idle h, nofun, fun _ _ c _ hpc _ => ⟨c, .idle hpc h, rfl⟩⟩

/-- The value of the first expression is held while the others are read. -/
theorem Collects.cons (he : Evaluates A (eval A · e) b d) (hes : Collects A es d vs b') :
    Collects A (e :: es) b (d.value :: vs) b' where
  onward := he.onward.trans hes.onward
  held := List.forall_mem_cons.mpr ⟨he.held.onward hes.onward, hes.held⟩
  run P hP c σ hpc hshows := by
    obtain ⟨c₁, hreach₁, hread₁⟩ := he.run P (hP.back hes.onward) c σ hpc hshows
    obtain ⟨c₂, hreach₂, hread₂⟩ := hes.run P hP c₁ σ hreach₁.pc (hreach₁.shows hshows)
    refine ⟨c₂, .trans he.onward hreach₁ hreach₂, ?_⟩
    rw [List.map_cons, List.map_cons, hread₂, hreach₂.read? he.held, hread₁]

theorem arguments_collect {ts : List (Option Ty)} (hr : Ready b) (hcore : es.all Expr.isCore = true)
    (h : Ends (arguments es) b (ts, vs) b') (hclean : b'.errors = #[]) : Collects A es b vs b' := by
  induction es generalizing b ts vs with
  | nil =>
    rw [arguments] at h
    obtain ⟨⟨rfl, rfl⟩, rfl⟩ := ends_pure.mp h
    exact .nil (.refl _)
  | cons e es ih =>
    obtain ⟨he, hes⟩ := Bool.and_eq_true_iff.mp hcore
    rw [arguments] at h
    obtain ⟨t, d, hread, h⟩ := ends_bind.mp h
    replace h := ends_read_bind.mp h
    obtain ⟨⟨ts₁, vs₁⟩, d₂, hrest, h⟩ := ends_bind.mp h
    obtain ⟨⟨rfl, rfl⟩, rfl⟩ := ends_pure.mp h
    have hf := (expr_evaluates (A := A) e he hr hread ((Quiet.arguments es hrest).clean hclean)).1
    exact .cons hf (ih (hf.onward.ready hr) hes hrest)

theorem elements_collect {line : Nat} {first? t : Option Ty} {cells : List Operand} (hr : Ready b)
    (hcore : es.all Expr.isCore = true) (h : Ends (elements line first? cells es) b t b')
    (hclean : b'.errors = #[]) : ∃ vs, b'.value = .cells (cells ++ vs) ∧ Collects A es b vs b' := by
  induction es generalizing b cells with
  | nil =>
    unfold elements at h
    obtain ⟨_, d, hset, h⟩ := ends_bind.mp h
    split at h
    · obtain ⟨rfl, rfl⟩ := ends_pure.mp h
      refine ⟨[], ?_, .nil (.setValue hset)⟩
      rw [Emit.ends_setValue.mp hset, List.append_nil]
    · exact absurd h ends_throw
  | cons e es ih =>
    obtain ⟨he, hes⟩ := Bool.and_eq_true_iff.mp hcore
    rw [elements] at h
    simp only [ends_bind] at h
    obtain ⟨t, d, hread, v, d₁, hvalue, h⟩ := h
    obtain ⟨rfl, rfl⟩ := ends_read.mp hvalue
    split at h
    · obtain ⟨_, _, h⟩ := ends_ofExcept_bind.mp h
      obtain ⟨_, _, h⟩ := ends_ofExcept_bind.mp h
      obtain ⟨_, d₁, herror, h⟩ := ends_bind.mp h
      obtain ⟨_, rfl⟩ := ends_pure.mp h
      exact absurd hclean (not_clean_of_error herror)
    · have hf := (expr_evaluates (A := A) e he hr hread
        ((Quiet.elements _ _ _ es h).clean hclean)).1
      obtain ⟨vs, hvs, hcollects⟩ := ih (hf.onward.ready hr) hes h
      exact ⟨_, by rw [hvs, List.append_assoc]; rfl, .cons hf hcollects⟩

theorem restIsCore_append (level : Level) (xs ys : List (String × Expr)) :
    Expr.restIsCore level (xs ++ ys) = (Expr.restIsCore level xs && Expr.restIsCore level ys) := by
  induction xs with
  | nil => simp [Expr.restIsCore]
  | cons x xs ih => simp [Expr.restIsCore, ih, Bool.and_assoc]

/-- An operator in the middle of a chain: the code of what stands to its left, of its right operand,
and its own. -/
theorem chain_splits {level : Level} {first : Expr} {before after : List (String × Expr)}
    {op : String} {t : Option Ty} (hr : Ready b)
    (hcore : (Expr.chain level first (before ++ (op, e) :: after)).isCore = true)
    (h : Ends (expr (.chain level first (before ++ (op, e) :: after))) b t b')
    (hclean : b'.errors = #[]) :
    ∃ (c : Chain) (right? : Option Ty) (d₁ d : Build) (c' : Chain) (d' : Build),
      d₁.value = c.value ∧
      Evaluates A (eval A · (.chain level first before)) b d₁ ∧ Ends (expr e) d₁ right? d ∧
      Evaluates A (eval A · e) d₁ d ∧ Ends (c.step level first.line op e.line right?) d c' d' ∧
      Operates A (Core.binary A level op) c.value d.value d c'.value d' ∧
      Ends (chain level first.line c' after) d' t b' ∧ Onward d' b' := by
  obtain ⟨hfirst, hrest⟩ := Bool.and_eq_true_iff.mp hcore
  rw [restIsCore_append] at hrest
  obtain ⟨hbefore, hrest⟩ := Bool.and_eq_true_iff.mp hrest
  obtain ⟨hright, hafter⟩ := Bool.and_eq_true_iff.mp hrest
  obtain ⟨hop, he⟩ := Bool.and_eq_true_iff.mp hright
  rw [expr] at h
  simp only [ends_bind] at h
  -- The operands before `e` have been evaluated into the value of the chain.
  obtain ⟨t₁, b₁, hread, c, b₂, hstart, hchain⟩ := h
  have hclean₂ := (Quiet.chain _ _ c _ hchain).clean hclean
  have hclean₁ := (Quiet.exprStable.chainStart level t₁ hstart).clean hclean₂
  obtain ⟨hf, htype⟩ := expr_evaluates (A := A) first hfirst hr hread hclean₁
  obtain ⟨rfl, hidle, hvalue⟩ := start_spec hstart
  have hf₂ := hf.idle hidle hvalue
  obtain ⟨c₁, b₃, hchain, hvalue₁, ⟨l, hl, hplain⟩, -, hg⟩ :=
    chain_continues (A := A) level before hbefore
    (hf₂.onward.ready hr) (hvalue ▸ hf₂.held) hvalue htype htype hchain hclean
  have hleft := hf₂.continue (hvalue ▸ hg)
  -- Then `e` is read while that value is held.
  rw [chain] at hchain
  simp only [ends_bind] at hchain
  obtain ⟨right?, d, hread₁, c', d', hstep, hrest⟩ := hchain
  have hclean₄ := (Quiet.chain _ _ c' _ hrest).clean hclean
  have hclean₃ := (Quiet.chainStep _ _ c₁ op e.line right? hstep).clean hclean₄
  obtain ⟨hright, r, rfl, hr₁⟩ :=
    expr_evaluates (A := A) e he (hleft.onward.ready hr) hread₁ hclean₃
  have hready := hright.onward.ready (hleft.onward.ready hr)
  obtain ⟨hh, hleft', hresult'⟩ :=
    step_operates (A := A) hready (List.contains_iff_mem.mp hop) hl hplain hr₁ hstep
    hclean₄
  refine ⟨c₁, _, b₃, d, c', d', hvalue₁, hleft, hread₁, hright, hstep, hh, hrest, ?_⟩
  -- The operands behind it do not matter to the two.
  rw [← List.append_nil after] at hrest
  obtain ⟨k, hk, -, hused⟩ := hh.temp
  obtain ⟨_, b₄, hdone, -, -, -, hcontinues⟩ :=
    chain_continues (A := A) level after hafter (hh.onward.ready hready)
    (hk ▸ hused) hh.value hleft' hresult' hrest hclean
  rw [chain] at hdone
  obtain ⟨-, rfl⟩ := ends_pure.mp hdone
  exact hcontinues.onward

/-- **Operands survive their siblings.** Where numbers, truth values, variables and the operators on
them are read, the arguments of a call, the elements of an array and the two operands of every
operator hold their values when all of them have been read. -/
theorem operands_survive (hr : Ready b) (hclean : b'.errors = #[]) :
    (∀ es ts vs, es.all Expr.isCore = true → Ends (arguments es) b (ts, vs) b' →
      Collects A es b vs b') ∧
    (∀ line e es t, (e :: es).all Expr.isCore = true → Ends (expr (.array line (e :: es))) b t b' →
      ∃ vs, b'.value = .cells vs ∧ Collects A (e :: es) b vs b') ∧
    ∀ level first before op e after t,
      (Expr.chain level first (before ++ (op, e) :: after)).isCore = true →
      Ends (expr (.chain level first (before ++ (op, e) :: after))) b t b' →
      ∃ (c : Chain) (right? : Option Ty) (d : Build) (c' : Chain) (d' : Build),
        Collects A [.chain level first before, e] b [c.value, d.value] d ∧
        Ends (c.step level first.line op e.line right?) d c' d' ∧
        Ends (chain level first.line c' after) d' t b' := by
  refine ⟨fun es ts vs hcore h => arguments_collect hr hcore h hclean, ?_, ?_⟩
  · intro line e es t hcore h
    obtain ⟨he, hes⟩ := Bool.and_eq_true_iff.mp hcore
    rw [expr] at h
    simp only [ends_bind] at h
    obtain ⟨t₁, d, hread, v, d₁, hvalue, h⟩ := h
    obtain ⟨rfl, rfl⟩ := ends_read.mp hvalue
    have hf := (expr_evaluates (A := A) e he hr hread ((Quiet.elements _ _ _ es h).clean hclean)).1
    obtain ⟨vs, hvs, hcollects⟩ := elements_collect (hf.onward.ready hr) hes h hclean
    exact ⟨_, hvs, .cons hf hcollects⟩
  · intro level first before op e after t hcore h
    obtain ⟨c, right?, d₁, d, c', d', hvalue, hleft, -, hright, hstep, -, hafter, -⟩ :=
      chain_splits hr hcore h hclean
    exact ⟨c, right?, d, c', d',
      hvalue ▸ .cons hleft (.cons hright (.nil (.refl _))), hstep, hafter⟩

/-- Two arguments, of which the first takes three temporaries. -/
theorem operands_survive_two :
    let number (n : String) : Expr := .literal 1 (.plain n)
    let es := [.chain .additive (number "1") [("+", number "2")], number "3"]
    ∃ ts vs b, Ends (arguments es) {} (ts, vs) b ∧ b.quads.size = 4 ∧
      Collects wholeNumbers es {} vs b := by
  intro number es
  obtain ⟨⟨ts, vs⟩, b, hends, hclean, hsize⟩ : ∃ p b, Ends (arguments es) {} p b ∧ b.errors = #[] ∧
    b.quads.size = 4 := by
    decide +kernel
  exact ⟨ts, vs, b, hends, hsize,
    (operands_survive ready_start hclean).1 es ts vs (by decide +kernel) hends⟩

/-- The sign of the second argument is written to the temporary of the first. -/
theorem operand_overwritten : ∃ s b, Source.ofText
      "function f(a: integer, b: integer): integer \x7b return a; \x7d let x: integer = 5; f(1, -x);" = .ok s ∧
    Ends (program s.program) {} () b ∧ b.errors = #[] ∧
    [{ op := .copy, arg1 := .text "1", result := .temp 0 },
      { op := .neg, arg1 := .address 0x1000, result := .temp 0 }, { op := .push, arg1 := .temp 0 },
      { op := .push, arg1 := .temp 0 },
        { op := .call, result := .text "FUNC_f" }] <:+: b.quads.toList :=
  Source.ends_of_read? program _ (by decide +kernel)

/-! ## Logical operators -/

/-- Every run of the code between two states passes the code of `e`, whatever `left` comes to; where
`left` decides on the result of `&&` or `||`, it does so behind that code. -/
def RunsBoth (A : Arith) (level : Level) (left e : Expr) (b b' : Build) : Prop :=
  ∃ (right? : Option Ty) (d₁ d d' : Build), Ends (expr e) d₁ right? d ∧
    ∀ P, Within P b' → ∀ c σ, c.pc = b.quads.size → Shows P c σ → ∃ c₁ c₂ c₃ v,
      Reaches A P b d₁ c c₁ ∧ c₁.read? d₁.value = some (eval A σ left) ∧
      Reaches A P d₁ d c₁ c₂ ∧ c₂.read? d.value = some (eval A σ e) ∧
      Reaches A P d d' c₂ c₃ ∧ c₃.read? d'.value = some v ∧
      (level = .and → eval A σ left = 0 → v = 0) ∧ (level = .or → eval A σ left ≠ 0 → v = 1)

/-- **Both operands are run.** The code of `&&` and `||` stands behind that of both operands. -/
theorem logical_runs_both {level : Level} {first : Expr} {before after : List (String × Expr)}
    {op : String} {t : Option Ty} (hop : level = .and ∧ op = "&&" ∨ level = .or ∧ op = "||")
    (hr : Ready b) (hcore : (Expr.chain level first (before ++ (op, e) :: after)).isCore = true)
    (h : Ends (expr (.chain level first (before ++ (op, e) :: after))) b t b')
    (hclean : b'.errors = #[]) :
    RunsBoth A level (.chain level first before) e b b' := by
  obtain ⟨ch, right?, d₁, d, ch', d', hvalue, hleft, hread, hright, -, hoperates, -, honward⟩ :=
    chain_splits (A := A) hr hcore h hclean
  refine ⟨right?, d₁, d, d', hread, fun P hP c σ hpc hshows => ?_⟩
  have hP' := hP.back honward
  have hP₁ := hP'.back hoperates.onward
  obtain ⟨c₁, hreach₁, hread₁⟩ := hleft.run P (hP₁.back hright.onward) c σ hpc hshows
  obtain ⟨c₂, hreach₂, hread₂⟩ := hright.run P hP₁ c₁ σ hreach₁.pc (hreach₁.shows hshows)
  have hheld : c₂.read? ch.value = some (eval A σ (.chain level first before)) := by
    rw [← hvalue, hreach₂.read? hleft.held, hread₁]
  obtain ⟨c₃, hreach₃, hread₃⟩ := hoperates.run P hP' c₂ _ _ hreach₂.pc hheld hread₂
  refine ⟨c₁, c₂, c₃, _, hreach₁, hread₁, hreach₂, hread₂, hreach₃, hoperates.value ▸ hread₃, ?_⟩
  rcases hop with ⟨rfl, rfl⟩ | ⟨rfl, rfl⟩
  · exact ⟨fun _ hzero => if_pos hzero, fun h => absurd h (by decide)⟩
  · exact ⟨fun h => absurd h (by decide), fun _ hone => if_neg hone⟩

/-- `false && !true` has one quadruple for the left operand, two for the right one and six for the
operator. -/
theorem logical_runs_both_false :
    let constant (v : Bool) : Expr := .literal 1 (.bool v)
    ∃ t b, Ends (expr (.chain .and (constant false) [("&&", .not 1 (constant true))])) {}
      t b ∧ b.quads.size = 9 ∧
      RunsBoth wholeNumbers .and (.chain .and (constant false) [])
        (.not 1 (constant true)) {} b := by
  intro constant
  obtain ⟨t, b, hends, hclean, hsize⟩ : ∃ t b,
      Ends (expr (.chain .and (constant false) [("&&", .not 1 (constant true))])) {} t b ∧
        b.errors = #[] ∧ b.quads.size = 9 := by
    decide +kernel
  have hcore : (Expr.chain .and (constant false)
    ([] ++ ("&&", .not 1 (constant true)) :: [])).isCore = true := by
    decide +kernel
  exact ⟨t, b, hends, hsize, logical_runs_both (.inl ⟨rfl, rfl⟩) ready_start hcore hends hclean⟩

/-- The right operand is called before the left one is looked at. -/
theorem call_before_test : ∃ s b, Source.ofText
      "function f(): boolean \x7b return true; \x7d print(false && f());" = .ok s ∧
    Ends (program s.program) {} () b ∧ b.errors = #[] ∧
    [{ op := .copy, arg1 := .text "false", result := .temp 0 },
      { op := .call, result := .text "FUNC_f" },
      { op := .pop, result := .temp 1 },
        { op := .ifFalse, arg1 := .temp 0, result := .label 0 }] <:+: b.quads.toList :=
  Source.ends_of_read? program _ (by decide +kernel)

end Scriptc.Compile
