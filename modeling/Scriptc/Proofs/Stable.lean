import Scriptc.Proofs.ExprStable
import Scriptc.Proofs.Course

/-!
# Scriptc: what reading a statement keeps

The continuation of `ExprStable` to statements and to parts of a program: `Compile.FlowStable allow
R` says that the elementary steps of statements and declarations keep the relation `R`, functions
apart, and `Compile.Stable ok allow R` that all do. Then `Stable.statement` and `Stable.part` say
that reading any statement or part keeps `R`; they are instances of the walk over statements
(`Stable.walk`).
-/

namespace Scriptc

open Build (Keeps)

/-- The place of the reading and the temporaries at hand are those of another state. -/
def Build.aside (b c : Build) : Build :=
  { b with
    inFunction? := c.inFunction?
    unreachable := c.unreachable
    tempCounts := c.tempCounts
    function := c.function
    frame? := c.frame?
    lastTemp := c.lastTemp
    reusable := c.reusable
    used := c.used
    direct := c.direct }

theorem Build.keeps_aside {R : Build → Build → Prop} (haside : ∀ b c, R b (b.aside c))
    {f : Build → Build} (hf : ∀ b, b.aside (f b) = f b) : Keeps R (modify f : BuildM PUnit) :=
  Keeps.modify fun b => hf b ▸ haside b (f b)

namespace Compile

namespace CodeStable

variable {R : Build → Build → Prop} (h : CodeStable R)
include h

theorem storeValue (name : String) : Keeps R (Compile.storeValue name) :=
  h.keeps (S := []) (h.codeWalk.storeValue name)

theorem remarks {α : Type} {m : BuildM α} (hm : Check.Remarks m) : Keeps R m :=
  h.keeps (S := []) (h.codeWalk.remarks hm)

/-- An assignment keeps what has nothing to do with names and their types. -/
theorem assignName (haside : ∀ b c, R b (b.aside c)) (htable : ∀ b t, R b { b with table := t })
    (line : Nat) (x : String) {e : Expr} (he : Keeps R (Compile.expr e)) :
    Keeps R (Compile.assignName line x e) :=
  h.keeps (S := []) (h.codeWalk.assignName
    (fun _ _ => h.yields (Build.keeps_aside haside fun _ => rfl))
    (fun _ => h.yields (Build.keeps_aside haside fun _ => rfl))
    (fun _ _ _ _ hb => h.trans _ _ _ hb (htable _ _)) line x e fun _ => h.yields he)

/-- So does a declaration. -/
theorem declare (htable : ∀ b t, R b { b with table := t }) (line : Nat) (s : Symbol) :
    Keeps R (Compile.declare line s) :=
  h.keeps (S := []) (h.codeWalk.declare (fun _ _ _ _ hb => h.trans _ _ _ hb (htable _ _)) line s)

theorem layout
    (hlayout : ∀ cls l, Keeps R (modify fun b => { b with layouts := b.layouts.put cls l }))
    (id : SymbolId) : Keeps R (Emit.layout id) :=
  h.keeps (S := []) (h.codeWalk.layout (fun _ cls l => h.yields (hlayout cls l)) id)

end CodeStable

/-- The forms of control flow keep `R` if their parts do. -/
structure ControlStable (R : Build → Build → Prop) : Prop where
  ifElse : ∀ c yes no, Keeps R yes → Keeps R no → Keeps R (Emit.ifElse c yes no)
  whileLoop : ∀ c body, Keeps R c → Keeps R body → Keeps R (Emit.whileLoop c body)
  forLoop : ∀ init c update body, Keeps R init → Keeps R c → Keeps R update → Keeps R body →
    Keeps R (Emit.forLoop init c update body)
  breakLoop : Keeps R Emit.breakLoop
  continueLoop : Keeps R Emit.continueLoop
  switch : ∀ subject (cases : List (Operand × BuildM Unit)) (default? : Option (BuildM Unit)),
    (∀ c ∈ cases, Keeps R c.2) → (∀ d, default? = some d → Keeps R d) →
      Keeps R (Emit.switchCode subject cases default?)

/-- The elementary steps of reading a statement, functions apart, keep `R`. -/
structure FlowStable (allow : Use → Prop) (R : Build → Build → Prop) : Prop
    extends CodeStable R, ControlStable R where
  valueOf : ∀ {e}, allow (.value e) → Keeps R (Compile.expr e)
  warn : ∀ line text, Keeps R (Build.warn line text)
  aside : ∀ b c, R b (b.aside c)
  layout : ∀ id, Keeps R (Emit.layout id)
  declare : ∀ line s, Keeps R (Compile.declare line s)
  modifyFunction : ∀ id f, (∀ g, (f g).result? = g.result?) → Keeps R (Compile.modifyFunction id f)
  modifyClass : ∀ id f, (∀ k : Class, k.Extends (f k)) → Keeps R (Compile.modifyClass id f)
  assignName : ∀ line x e, allow (.assign x e) → Keeps R (Compile.assignName line x e)
  scope : ∀ kind b b', R { b with table := b.table.enter kind } b' →
    R b { b' with table := b'.table.exit.2 }
  loops : ∀ b b', R { b with loops := b.loops.enter } b' →
    R b { b' with loops := b'.loops.leave b.loops }
  inClass : ∀ id b b', R { b with inClass? := some id } b' → R b { b' with inClass? := b.inClass? }

/-- The elementary steps of reading a statement keep `R`. -/
structure Stable (ok : Expr → Prop) (allow : Use → Prop) (R : Build → Build → Prop) : Prop
    extends ExprStable ok R, FlowStable allow R where
  sound : ∀ u, allow u → u.expr.All ok
  valueOf := fun he => toExprStable.expr _ (sound _ he)
  routine : ∀ name frame label result? body, Keeps R body →
    Keeps R (Emit.routine name frame (.text ("FUNC_" ++ label)) result? body)

namespace FlowStable

variable {allow : Use → Prop} {R : Build → Build → Prop} (h : FlowStable allow R)
include h

theorem endExpression : Keeps R Emit.endExpression := Build.keeps_aside h.aside fun _ => rfl

theorem setDirect (on : Bool) :
    Keeps R (Emit.setDirect on) := Build.keeps_aside h.aside fun _ => rfl

theorem setFunction (name : String) :
    Keeps R (Emit.setFunction name) := Build.keeps_aside h.aside fun _ => rfl

theorem setUnreachable (on : Bool) :
    Keeps R (modify fun b => { b with unreachable := on } : BuildM PUnit) :=
  Build.keeps_aside h.aside fun _ => rfl

theorem function {name : String} {ps : List (String × Option Ty)} {result? : Option Ty}
    {body : BuildM Unit}
    (hroutine : ∀ frame, Keeps R (Emit.routine name frame (Emit.functionLabel name) result? body)) :
    Keeps R (Emit.function name ps result? body) := by
  unfold Emit.function
  refine h.bind (h.newFrame name) fun frame => h.bind (h.modifyFrame _ _) fun _ => ?_
  exact hroutine frame

theorem method {cls name : String} {ps : List (String × Option Ty)} {result? : Option Ty}
    {body : BuildM Unit} (hroutine : ∀ frame,
      Keeps R (Emit.routine (Emit.methodKey cls name) frame
        (Emit.methodLabel cls name) result? body)) :
    Keeps R (Emit.method cls name ps result? body) := by
  unfold Emit.method
  refine h.bind (h.setFunction _) fun _ => h.bind (h.newFrame _) fun frame => ?_
  refine h.bind (h.modifyFrame _ _) fun _ => ?_
  refine h.bind (h.keeps (S := []) (h.codeWalk.frameAt frame)) fun f => ?_
  exact h.bind (h.keeps (S := []) (h.codeWalk.sayFrame cls name f)) fun _ => hroutine frame

/-- A relation that statements keep is a walk, if the functions that they declare keep it. -/
theorem walk {key : RoutineDecl → Prop}
    (hroutine : ∀ r, key r → Keeps R (Compile.block (Compile.statements r.body)) → ∀ frame result?,
      Keeps R (Emit.routine r.key frame r.label result?
        (Compile.block (Compile.statements r.body)))) :
    StmtWalk allow key (Since R) where
  toCodeWalk := h.codeWalk
  valueOf he := h.yields (h.valueOf he)
  warn _ _ _ := h.yields (h.warn _ _)
  endExpression _ := h.yields h.endExpression
  setDirect _ _ := h.yields (h.setDirect _)
  setFunction _ _ _ _ := h.yields (h.setFunction _)
  setUnreachable _ _ := h.yields (h.setUnreachable _)
  setInFunction _ _ := h.yields (Build.keeps_aside h.aside fun _ => rfl)
  leaveFunction _ := h.yields (Build.keeps_aside h.aside fun _ => rfl)
  layout _ _ := h.yields (h.layout _)
  declare _ _ _ _ _ := h.yields (h.declare _ _)
  declareClass _ := h.codeWalk.declareClass fun _ _ _ => h.yields (h.declare _ _)
  modifyFunction _ _ _ hf := h.yields (h.modifyFunction _ _ hf)
  modifyClass _ _ _ hf := h.yields (h.modifyClass _ _ hf)
  assignName _ _ _ _ he := h.yields (h.assignName _ _ _ he)
  scope kind _ _ b hb := ⟨_, h.refl _, fun b' hb' => h.trans _ _ _ hb (h.scope kind b b' hb')⟩
  loops _ _ b hb := ⟨_, h.refl _, fun b' hb' => h.trans _ _ _ hb (h.loops b b' hb')⟩
  inClass id _ _ b hb := ⟨_, h.refl _, fun b' hb' => h.trans _ _ _ hb (h.inClass id b b' hb')⟩
  ifElse _ _ _ _ _ hyes hno := h.yields (h.ifElse _ _ _ (h.keeps hyes) (h.keeps hno))
  whileLoop _ _ _ hc hbody := h.yields (h.whileLoop _ _ (h.keeps hc) (h.keeps hbody))
  forLoop _ _ _ _ _ hinit hc hupdate hbody :=
    h.yields (h.forLoop _ _ _ _ (h.keeps hinit) (h.keeps hc) (h.keeps hupdate) (h.keeps hbody))
  breakLoop _ := h.yields h.breakLoop
  continueLoop _ := h.yields h.continueLoop
  switch _ _ _ _ _ hcases hdefault :=
    h.yields (h.switch _ _ _ (fun c hc => h.keeps (hcases c hc).2) fun d hd =>
      h.keeps (hdefault d hd))
  function _ name _ _ ss hkey hbody :=
    h.yields (h.function fun frame => hroutine ⟨none, name, ss⟩ hkey (h.keeps hbody) frame _)
  method _ cls name _ _ ss hkey hbody :=
    h.yields (h.method fun frame => hroutine ⟨some cls, name, ss⟩ hkey (h.keeps hbody) frame _)

end FlowStable

namespace Stable

variable {ok : Expr → Prop} {allow : Use → Prop} {R : Build → Build → Prop} {α β : Type}

section
variable (h : Stable ok allow R)
include h

theorem pure (a : α) : Keeps R (pure a : BuildM α) := h.toExprStable.pure a

theorem bind {m : BuildM α} {f : α → BuildM β} (hm : Keeps R m) (hf : ∀ a, Keeps R (f a)) :
    Keeps R (m >>= f) :=
  Keeps.bind h.trans hm hf

/-! ### As a walk -/

theorem routineOf (r : RoutineDecl) {body : BuildM Unit} (hbody : Keeps R body) (frame : FrameId)
    (result? : Option Ty) : Keeps R (Emit.routine r.key frame r.label result? body) := by
  obtain ⟨_ | cls, name, ss⟩ := r
  · exact h.routine _ _ _ _ _ hbody
  · show Keeps R (Emit.routine _ _ (.text ("FUNC_" ++ name ++ " (" ++ cls ++ ")")) _ _)
    rw [String.append_assoc, String.append_assoc, String.append_assoc]
    exact h.routine _ _ _ _ _ hbody

theorem stmtWalk : StmtWalk allow (fun _ => True) (Since R) :=
  h.toFlowStable.walk fun r _ hbody frame result? => h.routineOf r hbody frame result?

theorem walk : Walk ok allow (fun _ => True) (Since R) :=
  { h.toExprStable.walk, h.stmtWalk with sound := h.sound }

/-! ### The parts of the reading -/

theorem addAttribute (cls : SymbolId) (name : String) (id : SymbolId) :
    Keeps R (Compile.addAttribute cls name id) :=
  h.keeps (S := []) (h.walk.addAttribute cls name id)

theorem tellClass {tell : SymbolId → BuildM Unit} (htell : ∀ c, Keeps R (tell c)) :
    Keeps R (Compile.tellClass tell) :=
  h.keeps (S := []) (h.walk.tellClass fun c => h.yields (htell c))

theorem addVariable (d : VarDecl) (v : Variable) : Keeps R (Compile.addVariable d v) := by
  have hrest (id) :=
    h.bind (h.tellClass fun c => h.addAttribute c d.name id) fun _ => h.endExpression
  unfold Compile.addVariable
  refine h.bind (h.keeps (S := []) h.walk.currentScope) fun scope =>
    h.bind (h.declare _ _) fun p => ?_
  refine h.bind (h.keeps (S := []) h.codeWalk.isClean) fun clean => ?_
  dsimp only
  split
  · exact h.bind (h.keeps (S := []) (h.codeWalk.initialise d.name)) fun _ => hrest p.1
  · exact hrest p.1

theorem unreachable (line : Option Nat) (what : String) : Keeps R (Check.unreachable line what) :=
  h.keeps (S := []) (h.walk.unreachable line what)

theorem block {body : BuildM Unit} (hbody : Keeps R body) : Keeps R (Compile.block body) :=
  h.keeps (S := []) (h.walk.block (h.yields hbody))

/-- Reading a statement keeps what its steps keep. -/
theorem statement (s : Stmt) (hs : ∀ u ∈ s.uses, allow u) : Keeps R (Compile.statement s) :=
  h.keeps (h.walk.statement s [] hs fun _ _ => trivial)

theorem statements (ss : List Stmt) (hss : ∀ u ∈ Stmt.usesAll ss, allow u) :
    Keeps R (Compile.statements ss) :=
  h.keeps (h.walk.statements ss [] hss fun _ _ => trivial)

/-- Reading any part of a program keeps what the elementary steps keep. -/
theorem part (p : Part) (hp : ∀ u ∈ p.uses, allow u) : Keeps R (Compile.part p) :=
  h.keeps (S := []) (h.walk.part p hp fun _ _ => trivial)

end

end Stable

end Compile

end Scriptc
