import Scriptc.Proofs.Formed
import Scriptc.Proofs.Tracking

/-!
# Scriptc: the shape of the code

A property of pieces of code that single quadruples have, and pieces put together, is one of the
code of every statement. `CodeShape P` is what is asked of the property `P`. `Lays P b b'` says that
the code from `b` to `b'` is a piece with the property, unless an error has been reported.

Quadruples of calls and of frames are not single ones in this sense. What a call writes is asked of
the reading of expressions (`Lays.flowStable`), and what a function writes of the functions that a
statement declares (`FlowStable.walk`).
-/

namespace Scriptc

open Build (Ends Keeps)

namespace Compile

/-- Pieces of code with the property can be put together, and what is in the flow is such a
piece. -/
structure CodeShape (P : List Quad → Prop) : Prop where
  nil : P []
  append : ∀ {c d}, P c → P d → P (c ++ d)
  quad : ∀ q : Quad, q.inFlow = true → P [q]

/-- From `b` to `b'` reports have only been added. If there is none, a piece of code with the
property has been written. -/
structure Lays (P : List Quad → Prop) (b b' : Build) : Prop where
  errors : b.errors.size ≤ b'.errors.size
  code : b'.errors = #[] → ∃ code, b'.quads.toList = b.quads.toList ++ code ∧ P code

namespace Lays

variable {P : List Quad → Prop} {b b' c d : Build}

theorem clean (h : Lays P b b') (hclean : b'.errors = #[]) : b.errors = #[] := by
  have hle := h.errors
  grind

theorem mono {Q : List Quad → Prop} (h : Lays P b b') (himp : ∀ code, P code → Q code) :
    Lays Q b b' := by
  refine ⟨h.errors, fun hclean => ?_⟩
  obtain ⟨code, hcode, hp⟩ := h.code hclean
  exact ⟨code, hcode, himp code hp⟩

/-- A report ends all that is said of code. -/
theorem report (h : b.errors.size < b'.errors.size) : Lays P b b' := by
  refine ⟨Nat.le_of_lt h, fun hclean => ?_⟩
  rw [hclean] at h
  exact absurd h (Nat.not_lt_zero _)

/-- A reading between states whose code and reports are those of the states around it. -/
theorem around (h : Lays P b b') (errors : c.errors = b.errors) (quads : c.quads = b.quads)
    (errors' : d.errors = b'.errors) (quads' : d.quads = b'.quads) : Lays P c d := by
  refine ⟨by rw [errors, errors']; exact h.errors, fun hclean => ?_⟩
  rw [quads, quads']
  exact h.code (errors' ▸ hclean)

/-- One piece of code behind the other. -/
theorem append {Q W : List Quad → Prop} (h₁ : Lays P b c) (h₂ : Lays Q c d)
    (happend : ∀ code code', P code → Q code' → W (code ++ code')) : Lays W b d := by
  refine ⟨Nat.le_trans h₁.errors h₂.errors, fun hclean => ?_⟩
  obtain ⟨code₁, hcode₁, hp₁⟩ := h₁.code (h₂.clean hclean)
  obtain ⟨code₂, hcode₂, hp₂⟩ := h₂.code hclean
  exact ⟨code₁ ++ code₂, by rw [hcode₂, hcode₁, List.append_assoc], happend _ _ hp₁ hp₂⟩

section
variable (hP : CodeShape P)
include hP

theorem same (errors : c.errors = b.errors) (quads : c.quads = b.quads) : Lays P b c :=
  ⟨errors ▸ Nat.le_refl _, fun _ => ⟨[], by rw [quads, List.append_nil], hP.nil⟩⟩

theorem refl (b : Build) : Lays P b b := same hP rfl rfl

theorem trans (h₁ : Lays P b c) (h₂ : Lays P c d) : Lays P b d := h₁.append h₂ fun _ _ => hP.append

omit hP in
theorem push {q : Quad} (hq : P [q]) : Lays P b { b with quads := b.quads.push q } :=
  ⟨Nat.le_refl _, fun _ => ⟨[q], Array.toList_push, hq⟩⟩

theorem of_silent (h : Emit.Silent b c) : Lays P b c := same hP h.errors h.quads

theorem flow : Flow (Since (Lays P)) :=
  .of_same (trans hP) (fun _ _ _ => same hP) fun q hq => push (hP.quad q hq)

theorem codeStable : CodeStable (Lays P) :=
  .of_silent (refl hP) (fun _ _ _ => trans hP) (fun _ _ => of_silent hP)
    (fun _ _ => Keeps.modify fun _ => report (by simp))
    (fun q hq => Keeps.modify fun _ => push (hP.quad q (Quad.inFlow_of_isPlain hq)))
    fun _ constant left right htest b _ _ hend =>
      (flow hP).shortCircuit (S := [left, right]) htest constant (by simp)
        (by simp) (refl hP b) hend

omit hP in
/-- What a function writes is its label, the opening of its frame, the code of its body and its
ending. -/
theorem routine_lays {name : String} {frame : FrameId} {label : Operand} {result? : Option Ty}
    {body : BuildM Unit} {r : Emit.RoutineCode}
    (h : Ends (Emit.routine name frame label result? body) b r b') :
    ∃ c d, Ends body c () d ∧ c.table = b.table ∧ c.errors = b.errors ∧
      c.routine? = some ⟨name, frame⟩ ∧
      b'.table = d.table ∧ b'.errors = d.errors ∧ ∀ {P Q : List Quad → Prop}, Lays P c d →
        (∀ {code ending} size, d.errors = #[] → d.quads.toList = c.quads.toList ++ code → P code →
          Emit.IsEnding ending →
            Q ({ op := .label, result := label } :: { op := .enter, arg1 := size } ::
            (code ++ ending.toList))) → Lays Q b b' := by
  obtain ⟨ending, d, hd, rfl, hending⟩ := Emit.routine_ends h
  refine ⟨_, d, hd, rfl, rfl, rfl, rfl, rfl,
    fun {P Q} hlays hcode => ⟨hlays.errors, fun hclean => ?_⟩⟩
  obtain ⟨code, hquads, hp⟩ := hlays.code hclean
  have hwhole : d.quads.toList = b.quads.toList ++ { op := .label, result := label } ::
      { op := .enter, arg1 := Emit.sizeOperand b frame } :: code := by
    rw [hquads]
    simp
  exact ⟨_, Emit.toList_modify_opening _ hwhole, hcode _ hclean hquads hp hending⟩

omit hP in
/-- A function writes code with the property if its body does and what stands around it does not
spoil it. -/
theorem routine {name : String} {frame : FrameId} {label : Operand} {result? : Option Ty}
    {body : BuildM Unit}
    (hbody : Keeps (Lays P) body) (hcode : ∀ {b d code ending} size, Ends body b () d →
      b.routine? = some ⟨name, frame⟩ → d.errors = #[] →
        d.quads.toList = b.quads.toList ++ code → P code →
      Emit.IsEnding ending →
        P ({ op := .label, result := label } :: { op := .enter, arg1 := size } ::
        (code ++ ending.toList))) :
    Keeps (Lays P) (Emit.routine name frame label result? body) := by
  intro b r b' hend
  obtain ⟨c, d, hd, -, -, hroutine, -, -, hlays⟩ := routine_lays hend
  exact hlays (hbody hd) fun size hclean hquads hp hending =>
    hcode size hd hroutine hclean hquads hp hending

/-- Expressions write code with the property if the quadruples of calls have it. -/
theorem exprStable (hstack : ∀ q : Quad, q.op.isStack = true → P [q]) :
    ExprStable Expr.Formed (Lays P) where
  toCodeStable := codeStable hP
  stack q hq := Keeps.modify fun _ => push (hstack q hq)
  newObject := (codeStable hP).newObject_of_silent fun _ _ => of_silent hP
  operator hok p hp _ _ _ :=
    Keeps.modify fun _ => push (hP.quad _ (Quad.inFlow_of_isPlain (Level.isPlain _ _ (hok p hp))))

/-- Statements write code with the property if the expressions in them do. -/
theorem flowStable {allow : Use → Prop}
    (hvalue : ∀ u, allow u → Keeps (Lays P) (Compile.expr u.expr)) :
    FlowStable allow (Lays P) where
  toCodeStable := codeStable hP
  toControlStable := (flow hP).controlStable (codeStable hP)
  valueOf he := hvalue _ he
  warn _ _ := Keeps.modify fun _ => same hP rfl rfl
  aside _ _ := same hP rfl rfl
  layout := (codeStable hP).layout fun _ _ => Keeps.modify fun _ => same hP rfl rfl
  declare := (codeStable hP).declare fun _ _ => same hP rfl rfl
  modifyFunction _ _ _ := Keeps.modify fun _ => same hP rfl rfl
  modifyClass _ _ _ := Keeps.modify fun _ => same hP rfl rfl
  assignName line x _ he := (codeStable hP).assignName (fun _ _ => same hP rfl rfl)
    (fun _ _ => same hP rfl rfl) line x (hvalue _ he)
  scope _ _ _ h := h.around rfl rfl rfl rfl
  loops _ _ h := h.around rfl rfl rfl rfl
  inClass _ _ _ h := h.around rfl rfl rfl rfl

end

end Lays

end Compile

end Scriptc
