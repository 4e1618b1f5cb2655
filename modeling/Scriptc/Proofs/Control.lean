import Scriptc.Proofs.Execution

/-!
# Scriptc: the code of structured control flow

The code of every statement of a structured program does what the statement means
(`statement_codes`, `statements_codes`).

Each form of control flow is taken apart once into the quadruples that it writes and the code of its
parts (`Emit.ifElse_ends`, `Emit.whileLoop_ends`, `Emit.forLoop_ends`, `Emit.switchCase_ends`), and
its code then follows the parts in the order in which labels and jumps put them (`branch_executes`,
`while_executes`, `for_executes`, `cases_execute`).
-/

namespace Scriptc.Compile

open Build (Ends Keeps ends_bind ends_discard ends_get_bind ends_modify
    ends_modify_bind ends_ofExcept_bind
  ends_pure ends_read ends_read_bind)
open Scriptc.Core (Signal World eval exec execAll execCases holds rounds)
open Emit (Silent)
open Machine (Config Steps place? step?)
variable {t? : Option Ty} {e : Expr}

/-! ## Steps without code -/

section
variable {A : Arith} {xs : List String} {f : Nat → World → Signal × World} {body : BuildM Unit}
  {b b' : Build}

/-- Warnings and dead code are noted aside. -/
theorem Onward.aside (b : Build) (ws : Array String) (dead : Bool) :
    Onward b { b with warnings := ws, unreachable := dead } :=
  { Onward.refl b with ready := fun hr => { hr with temps := { hr.temps with } } }

/-- Scopes may be opened and closed as long as the open ones are there. -/
theorem Onward.rescope {table : SymbolTable} (hsymbols : table.symbols = b.table.symbols)
    (hscopes : b.table.Numbered → table.Numbered) : Onward b { b with table := table } := by
  refine { Onward.refl b with ready := fun hr => { hr with
    symbols := fun id s hs => hr.symbols id s ?_
    scopes := hscopes hr.scopes
    temps := { hr.temps with } } }
  rw [SymbolTable.symbol?, ← hsymbols]
  exact hs

theorem setUnreachable_codes (dead : Bool) :
    Codes A [] stay (modify fun b => { b with unreachable := dead }) :=
  .skip (clean_of_kept (keptStable.setUnreachable dead)) fun b u b' h => by
    rw [ends_modify.mp h]
    exact ⟨.aside b b.warnings dead, rfl⟩

theorem reachable_codes (hbody : Codes A xs f body) : Codes A xs f (reachable body) :=
  .get fun _ => .after (setUnreachable_codes false) fun _ => hbody.before fun _ =>
    setUnreachable_codes _

theorem enterScope_codes (kind : String) : Codes A [] stay (enterScope kind) :=
  .skip (.modify fun _ => id) fun b u b' h => by
    rw [ends_modify.mp h]
    exact ⟨.rescope rfl fun hscopes => hscopes.enter kind, rfl⟩

theorem exitScope_codes : Codes A [] stay exitScope :=
  .skip (.modify fun _ => id) fun b u b' h => by
    rw [ends_modify.mp h]
    have hsymbols : b.table.exit.2.symbols = b.table.symbols := by
      unfold SymbolTable.exit
      split <;> rfl
    exact ⟨.rescope hsymbols fun hscopes => hscopes.exit, rfl⟩

theorem inScope_codes (kind : String) (hbody : Codes A xs f body) :
    Codes A xs f (inScope kind body) :=
  .after (enterScope_codes kind) fun _ => hbody.before fun _ => exitScope_codes

theorem block_codes (hbody : Codes A xs f body) : Codes A xs f (block body) :=
  .get fun b => by
    split
    · exact reachable_codes hbody
    · exact inScope_codes "block" (reachable_codes hbody)

end

/-! ## Conditions -/

/-- A step that reads a value, whose operand it gives. -/
structure Tells (A : Arith) (f : (String → Int) → Int) (m : BuildM Operand) : Prop where
  clean : Keeps Clean m
  evaluates : ∀ ⦃b o b'⦄, Ends m b o b' → b'.errors = #[] → Ready b →
    Evaluates A f b b' ∧ o = b'.value

/-- A condition that is accepted is a truth value. -/
theorem condition_tells {A : Arith} (what : String) (he : e.isCore = true) :
    Tells A (eval A · e) (condition what e) where
  clean := clean_of_carried (keptStable.stmtWalk.course.condition what trivial)
  evaluates b o b' h hclean hr := by
    simp only [condition, ends_bind] at h
    obtain ⟨t, d, hread, _, d₁, hcheck, hvalue⟩ := h
    obtain ⟨rfl, rfl⟩ := ends_read.mp hvalue
    have hclean₀ := clean_of_kept (keptStable.remarks (.checkCondition ..)) hcheck hclean
    obtain ⟨hf, ty, rfl, hty⟩ := expr_evaluates (A := A) e he hr hread hclean₀
    unfold checkCondition at hcheck
    rcases wrong?_boolean hty with ⟨_, hright⟩ | ⟨found, hwrong⟩
    · grind
    · rw [hwrong, pure_bind] at hcheck
      exact absurd hclean (not_clean_of_error hcheck)

/-! ## Leaving a loop -/

/-- A jump to one of the labels of the loop at hand. -/
theorem loopJump_codes {A : Arith} {target : Loop → Operand} (signal : Signal)
    (line : Nat) (word : String)
    (hkept : Keeps (Kept fun _ => True) (Emit.leaveTo target))
    (htarget : ∀ P l, Targets P (some l) → ∃ i, place? P.code (target l) = some i)
    (hout : ∀ P fuel l stop n c w, Agrees P c w → place? P.code (target l) = some c.pc →
      Outcome P fuel (some l) stop n c (signal, w)) :
    Codes A [] (fun _ w => (signal, w)) (loopJump line word (Emit.leaveTo target)) where
  clean := clean_of_carried (keptStable.walk.loopJump line word fun _ => keptStable.yields hkept)
  executes b a b' h hclean hr := by
    rcases loopJump_ends h hclean with ⟨hdepth, ⟨hnone, -⟩ | ⟨l, hl, hb'⟩⟩
    · exact absurd (hr.loop (.inl hdepth)) (by simp [hnone])
    have honward : Onward b b' := by
      rw [hb']
      exact (Onward.quad (u := ()) (Emit.ends_quad.mpr rfl)).trans (.aside _ _ true)
    refine ⟨honward, nofun, fun P fuel hP htargets c w hpc hagrees => ?_⟩
    rw [hl] at htargets ⊢
    obtain ⟨i, hi⟩ := htarget P l htargets
    have hstep : step? A P.code c = some (c.goto i) := by
      rw [step?_eq (hpc ▸ hP.pushed (by rw [hb']))]
      show (place? P.code (target l)).map c.goto = _
      rw [hi]
      rfl
    exact ⟨1, _, .one hstep, hout P fuel l _ _ _ w ⟨hagrees.shows, hagrees.output⟩ hi⟩

/-! ## Branches -/

section
variable {A : Arith} {P : Whole} {xs ys : List String} {f g : Nat → World → Signal × World}
  {c : (String → Int) → Int} {yes no : BuildM Unit} {o : Operand} {b d b' : Build}

/-- A choice writes its jumps around the code of its two sides. -/
theorem ifElse_ends {r : Emit.IfLabels} (h : Ends (Emit.ifElse o yes no) b r b') :
    ∃ i j k b₁ d₁ b₂ d₂,
      Writes #[{ op := .ifTrue, arg1 := o, result := .label i },
        { op := .goto, result := .label j },
        { op := .label, result := .label i }] b b₁ ∧ Ends yes b₁ () d₁ ∧
      Writes #[{ op := .goto, result := .label k }, { op := .label, result := .label j }] d₁ b₂ ∧
      Ends no b₂ () d₂ ∧ Writes #[{ op := .label, result := .label k }] d₂ b' := by
  simp only [Emit.ifElse, ends_bind, ends_pure] at h
  obtain ⟨yesLabel, e₁, hyes, noLabel, e₂, hno, done, e₃, hdone, _, e₄, htest, _, e₅, hjump, _, e₆,
    hmark, _, d₁, hfirst, _, e₇, hskip, _, e₈, hother, _, d₂, hsecond, _, e₉, hend, _, rfl⟩ := h
  obtain ⟨w₁, i, rfl⟩ := (Writes.start b).label hyes
  obtain ⟨w₂, j, rfl⟩ := w₁.label hno
  obtain ⟨w₃, k, rfl⟩ := w₂.label hdone
  exact ⟨i, j, k, e₆, d₁, e₈, d₂, ((w₃.push htest).push hjump).push hmark, hfirst,
    ((Writes.start d₁).push hskip).push hother, hsecond, (Writes.start d₂).push hend⟩

/-- A value is read and tested. -/
theorem Evaluates.chooses {op : Op} {jumps : Int → Bool} {i k : Nat} (hc : Evaluates A c b d)
    (htest : Tests A op jumps) (hP : Within P d)
    (hat : P.code[d.quads.size]? = some { op := op, arg1 := d.value, result := .label k })
    (hlabel : P.code[i]? = some { op := .label, result := .label k }) :
    Chooses A P (fun w => jumps (c w.store)) b.quads.size i (d.quads.size + 1) := by
  intro cfg w hpc hagrees
  obtain ⟨c₁, hreach, hread⟩ := hc.run P hP cfg w.store hpc hagrees.shows
  rw [← hreach.pc] at hat ⊢
  obtain ⟨n, hsteps⟩ := hreach.steps
  refine ⟨n, _, hsteps.trans (.one (step_test htest hat hlabel hread)), ⟨?_, ?_⟩, rfl⟩
  · exact hreach.shows hagrees.shows
  · exact hreach.output.trans hagrees.output

/-- The code of a choice runs the side that its condition picks. -/
theorem branch_executes {r : Emit.IfLabels} (hc : Evaluates A c b d) (hyes : Codes A xs f yes)
    (hno : Codes A ys g no) (hr : Ready b) (h : Ends (Emit.ifElse d.value yes no) d r b')
    (hclean : b'.errors = #[]) :
    Executes A (xs ++ ys) (fun fuel w => if decide (c w.store ≠ 0) then f fuel w else
      g fuel w) b b' := by
  obtain ⟨i, j, k, b₁, d₁, b₂, d₂, hfront, hfirst, hmiddle, hsecond, hback⟩ := ifElse_ends h
  have hclean₂ : b₂.errors = #[] := hno.clean hsecond (hback.errors ▸ hclean)
  have hr₁ := hfront.onward.ready (hc.onward.ready hr)
  have hexec₁ := hyes.executes hfirst (hmiddle.errors ▸ hclean₂) hr₁
  have hr₂ := hmiddle.onward.ready (hexec₁.onward.ready hr₁)
  have hexec₂ := hno.executes hsecond (hback.errors ▸ hclean) hr₂
  have honward₁ := hexec₁.onward.trans (hmiddle.onward.trans (hexec₂.onward.trans hback.onward))
  have hdeclared₁ :=
    (hmiddle.onward.trans (hexec₂.onward.trans hback.onward)).declared hexec₁.declared
  refine ⟨hc.onward.trans (hfront.onward.trans honward₁),
    List.forall_mem_append.mpr ⟨hdeclared₁, hback.onward.declared hexec₂.declared⟩,
      fun P fuel hP htargets => ?_⟩
  -- Where the quadruples between the parts stand.
  have hPd₂ := hP.back hback.onward
  have hPb₂ := hPd₂.back hexec₂.onward
  have hPd₁ := hPb₂.back hmiddle.onward
  have hPb₁ := hPd₁.back hexec₁.onward
  have atTest := hPb₁.code hfront.quads (i := 0) rfl
  have atElse := hPb₁.code hfront.quads (i := 1) rfl
  have atYes := hPb₁.code hfront.quads (i := 2) rfl
  have atSkip := hPb₂.code hmiddle.quads (i := 0) rfl
  have atNo := hPb₂.code hmiddle.quads (i := 1) rfl
  have atDone := hP.code hback.quads (i := 0) rfl
  have hloop₁ : b₁.loop? = b.loop? := hfront.onward.loop?.trans hc.onward.loop?
  have hloop₂ : b₂.loop? = b.loop? := hmiddle.onward.loop?.trans (hexec₁.onward.loop?.trans hloop₁)
  have hfollow₁ := hexec₁.run P fuel hPd₁ (hloop₁ ▸ htargets)
  have hfollow₂ := hexec₂.run P fuel hPd₂ (hloop₂ ▸ htargets)
  rw [hloop₁, hfront.size] at hfollow₁
  rw [hloop₂, hmiddle.size] at hfollow₂
  have hchoose := hc.chooses tests_ifTrue (hPb₁.back hfront.onward) atTest atYes
  rw [hback.size]
  refine hchoose.follows ?_ ?_
  · exact .behind (pass_label atYes)
      (hfollow₁.before ((take_goto atSkip atDone).trans (pass_label atDone)))
  · exact .behind ((take_goto atElse atNo).trans (pass_label atNo))
      (hfollow₂.before (pass_label atDone))

end

/-! ## Loops -/

section
variable {A : Arith} {P : Whole} {xs ys : List String} {f : Nat → World → Signal × World}
  {c : (String → Int) → Int} {cond : BuildM Operand} {init update body : BuildM Unit}
  {l : Loop} {k : Nat}
  {u : Unit} {r : Emit.LoopLabels} {b d b' : Build}

/-- The targets of `break` and `continue` are set. -/
def aim (loop? : Option Loop) (b : Build) : Build := { b with loop? := loop? }

/-- Inside one loop more. -/
def deepen (b : Build) : Build := { b with loops := b.loops.enter }

/-- Behind a loop that was entered from `outer`. -/
def surface (outer : Loops) (b : Build) : Build := { b with loops := b.loops.leave outer }

theorem Writes.aim {qs : Array Quad} (h : Writes qs b b') (loop? : Option Loop) :
    Writes qs (aim loop? b) (aim loop? b') := by
  obtain ⟨n, rfl⟩ := h
  exact ⟨n, rfl⟩

theorem Ready.enterLoop (hr : Ready b) (l : Loop) : Ready (aim (some l) (deepen b)) :=
  { hr with temps := { hr.temps with }, loop := fun _ => rfl }

/-- Behind a loop the targets are those of the loop around it. -/
theorem Onward.leaveLoop (h : Onward (aim (some l) (deepen b)) d) :
    Onward b (surface b.loops (aim b.loop? d)) where
  ready hr := by
    have hd := h.ready (hr.enterLoop l)
    exact { hd with
      temps := { hd.temps with }
      loop := fun hany => hr.loop (h.loops.leave.any hany) }
  quads := h.quads
  slots := h.slots
  free := h.free
  loop? := rfl
  loops := h.loops.leave

/-- An operand with a value is one. -/
theorem Held.isPresent {o : Operand} (h : Held b o) : o.isPresent = true := by
  cases o with
  | temp _ | address _ => rfl
  | text s =>
    refine decide_eq_true ?_
    rintro rfl
    cases (show (Machine.constant? "").isSome = false by decide +kernel).symm.trans h
  | _ => exact h.elim

/-- The way out of a loop is a test behind the code of the condition. -/
theorem exitUnless_ends (hc : Tells A c cond)
    (h : Ends (Emit.exitUnless cond (.label k)) b u b') (hclean : b'.errors = #[]) :
    b.errors = #[] ∧ (Ready b → ∃ d, Evaluates A c b d ∧
      Writes #[{ op := .ifFalse, arg1 := d.value, result := .label k }] d b') := by
  unfold Emit.exitUnless at h
  obtain ⟨o, d, hcond, htest⟩ := ends_bind.mp h
  have hclean₁ : d.errors = #[] := by
    grind
  refine ⟨hc.clean hcond hclean₁, fun hr => ?_⟩
  obtain ⟨hf, rfl⟩ := hc.evaluates hcond hclean₁ hr
  rw [if_pos hf.held.isPresent] at htest
  exact ⟨d, hf, (Writes.start d).push htest⟩

/-- A loop writes its jumps around the code of its condition and its body. -/
theorem whileLoop_ends (h : Ends (Emit.whileLoop cond body) b r b') :
    ∃ i j b₁ b₂ d₁ d,
      Writes #[{ op := .label, result := .label i }] (aim (some ⟨.label i, .label j⟩) b) b₁ ∧
      Ends (Emit.exitUnless cond (.label j)) b₁ () b₂ ∧ Ends body b₂ () d₁ ∧
      Writes #[{ op := .goto, result := .label i }, { op := .label, result := .label j }] d₁ d ∧
      b' = aim b.loop? d := by
  simp only [Emit.whileLoop, ends_bind, ends_pure] at h
  obtain ⟨start, e₁, hstart, done, e₂, hdone, _, e₃, hloop, _, rfl⟩ := h
  obtain ⟨w₁, i, rfl⟩ := (Writes.start b).label hstart
  obtain ⟨w₂, j, rfl⟩ := w₁.label hdone
  obtain ⟨d, hin, rfl⟩ := Emit.withLoop_ends hloop
  simp only [ends_bind] at hin
  obtain ⟨_, b₁, hmark, _, b₂, htest, _, d₁, hbody, _, d₂, hjump, hend⟩ := hin
  refine ⟨i, j, b₁, b₂, d₁, d, ?_, htest, hbody, ((Writes.start d₁).push hjump).push hend, ?_⟩
  · exact (w₂.aim _).push hmark
  · rw [w₂.onward.loop?]
    rfl

/-- The code of a loop goes through its rounds. -/
theorem while_executes (hc : Tells A c cond) (hbody : Codes A xs f body) (hr : Ready b)
    (h : Ends (Emit.whileLoop cond body) (deepen b) r b') (hclean : b'.errors = #[]) :
    Executes A xs (fun fuel => rounds (fun w => decide (c w.store ≠ 0)) (f fuel) id fuel) b
      (surface b.loops b') := by
  obtain ⟨i, j, b₁, b₂, d₁, d, hfront, htest, hin, hback, rfl⟩ := whileLoop_ends h
  have hr₁ := hfront.onward.ready (hr.enterLoop _)
  have hcleanBody : d₁.errors = #[] := hback.errors ▸ hclean
  have hclean₂ := hbody.clean hin hcleanBody
  obtain ⟨e, heval, hexit⟩ := (exitUnless_ends hc htest hclean₂).2 hr₁
  have hexec := hbody.executes hin hcleanBody (hexit.onward.ready (heval.onward.ready hr₁))
  have honward := hfront.onward.trans (heval.onward.trans
    (hexit.onward.trans (hexec.onward.trans hback.onward)))
  refine ⟨honward.leaveLoop, hback.onward.declared hexec.declared, fun P fuel hP _ => ?_⟩
  -- Where the quadruples between the parts stand.
  have hPd : Within P d := ⟨hP.quads, hP.slots⟩
  have hPd₁ := hPd.back hback.onward
  have hPb₂ := hPd₁.back hexec.onward
  have hPe := hPb₂.back hexit.onward
  have atStart : P.code[b.quads.size]? = _ := (hPe.back heval.onward).code hfront.quads (i := 0) rfl
  have atTest := hPb₂.code hexit.quads (i := 0) rfl
  have atAgain := hPd.code hback.quads (i := 0) rfl
  have atDone := hPd.code hback.quads (i := 1) rfl
  have hagain := P.place?_eq atStart
  have hdone := P.place?_eq atDone
  have hloop : b₂.loop? = some ⟨.label i, .label j⟩ :=
    hexit.onward.loop?.trans (heval.onward.loop?.trans hfront.onward.loop?)
  have hfollow := hexec.run P fuel hPd₁ fun l hl => by
    grind
  rw [hloop, hexit.size] at hfollow
  have hchoose := (heval.chooses tests_ifFalse hPe atTest atDone).swap
    (t := fun w => decide (c w.store ≠ 0)) fun _ => decide_not
  rw [hfront.size] at hchoose
  show Follows A P fuel b.loop? b.quads.size d.quads.size _
  rw [hback.size]
  refine rounds_follow (.behind (pass_label atStart) hchoose)
    hfollow ?_ hdone atDone fuel (Nat.le_refl _)
  rintro c w (hlast | hat) hagrees
  · exact take_goto atAgain atStart c w hlast hagrees
  · exact ⟨0, c, rfl, hagrees, Option.some.inj (hat.symm.trans hagain)⟩

/-- A counting loop writes its jumps around the code of its four parts. -/
theorem forLoop_ends (h : Ends (Emit.forLoop init cond update body) b r b') :
    ∃ i a j b₀ b₁ b₂ b₃ d₁ d₂ d₃ d,
      Writes #[] (aim (some ⟨.label a, .label j⟩) b) b₀ ∧ Ends init b₀ () b₁ ∧
      Writes #[{ op := .label, result := .label i }] b₁ b₂ ∧
      Ends (Emit.exitUnless cond (.label j)) b₂ () b₃ ∧ Ends body b₃ () d₁ ∧
      Writes #[{ op := .label, result := .label a }] d₁ d₂ ∧ Ends update d₂ () d₃ ∧
      Writes #[{ op := .goto, result := .label i }, { op := .label, result := .label j }] d₃ d ∧
      b' = aim b.loop? d := by
  simp only [Emit.forLoop, ends_bind, ends_pure] at h
  obtain ⟨start, e₁, hstart, again, e₂, hagain, done, e₃, hdone, _, e₄, hloop, _, rfl⟩ := h
  obtain ⟨w₁, i, rfl⟩ := (Writes.start b).label hstart
  obtain ⟨w₂, a, rfl⟩ := w₁.label hagain
  obtain ⟨w₃, j, rfl⟩ := w₂.label hdone
  obtain ⟨d, hin, rfl⟩ := Emit.withLoop_ends hloop
  simp only [ends_bind] at hin
  obtain ⟨_, b₁, hinit, _, b₂, hmark, _, b₃, htest, _, d₁, hbody, _, d₂, hnext, _, d₃, hupdate, _,
    d₄, hjump, hend⟩ := hin
  refine ⟨i, a, j, _, b₁, b₂, b₃, d₁, d₂, d₃, d, w₃.aim _, hinit,
    (Writes.start b₁).push hmark, htest, hbody,
    (Writes.start d₁).push hnext, hupdate, ((Writes.start d₃).push hjump).push hend, ?_⟩
  rw [w₃.onward.loop?]
  rfl

/-- The code of a counting loop starts it and goes through its rounds, with the update between
them. -/
theorem for_executes {first next : World → World}
    (hinit : Codes A xs (fun _ w => (.normal, first w)) init) (hc : Tells A c cond)
    (hupdate : Codes A [] (fun _ w => (.normal, next w)) update) (hbody : Codes A ys f body)
    (hr : Ready b) (h : Ends (Emit.forLoop init cond update body) (deepen b) r b')
    (hclean : b'.errors = #[]) :
    Executes A (xs ++ ys)
      (fun fuel w => rounds (fun w => decide (c w.store ≠ 0)) (f fuel) next fuel (first w)) b
      (surface b.loops b') := by
  obtain ⟨i, a, j, b₀, b₁, b₂, b₃, d₁, d₂, d₃, d, hopen, hstart, hfront, htest, hin, hmiddle,
    hnext, hback, rfl⟩ :=
    forLoop_ends h
  have hclean₃ : d₃.errors = #[] := hback.errors ▸ hclean
  have hclean₁ : d₁.errors = #[] := hmiddle.errors ▸ hupdate.clean hnext hclean₃
  obtain ⟨hclean₀, hreads⟩ := exitUnless_ends hc htest (hbody.clean hin hclean₁)
  have hr₀ := hopen.onward.ready (hr.enterLoop _)
  have hexec₀ := hinit.executes hstart (hfront.errors ▸ hclean₀) hr₀
  have hr₂ := hfront.onward.ready (hexec₀.onward.ready hr₀)
  obtain ⟨e, heval, hexit⟩ := hreads hr₂
  have hr₃ := hexit.onward.ready (heval.onward.ready hr₂)
  have hexec := hbody.executes hin hclean₁ hr₃
  have hexec' := hupdate.executes hnext hclean₃ (hmiddle.onward.ready (hexec.onward.ready hr₃))
  have honward₁ := hmiddle.onward.trans (hexec'.onward.trans hback.onward)
  have honward₂ := hfront.onward.trans (heval.onward.trans
    (hexit.onward.trans (hexec.onward.trans honward₁)))
  have honward := hopen.onward.trans (hexec₀.onward.trans honward₂)
  refine ⟨honward.leaveLoop, List.forall_mem_append.mpr
    ⟨honward₂.declared hexec₀.declared, honward₁.declared hexec.declared⟩, fun P fuel hP _ => ?_⟩
  -- Where the quadruples between the parts stand.
  have hPd : Within P d := ⟨hP.quads, hP.slots⟩
  have hPd₃ := hPd.back hback.onward
  have hPd₂ := hPd₃.back hexec'.onward
  have hPd₁ := hPd₂.back hmiddle.onward
  have hPb₃ := hPd₁.back hexec.onward
  have hPe := hPb₃.back hexit.onward
  have hPb₂ := hPe.back heval.onward
  have atStart := hPb₂.code hfront.quads (i := 0) rfl
  have atTest := hPb₃.code hexit.quads (i := 0) rfl
  have atNext := hPd₂.code hmiddle.quads (i := 0) rfl
  have atAgain := hPd.code hback.quads (i := 0) rfl
  have atDone := hPd.code hback.quads (i := 1) rfl
  have hagain := P.place?_eq atNext
  have hdone := P.place?_eq atDone
  have htargets : Targets P (some ⟨.label a, .label j⟩) := by
    intro l hl
    cases hl
    exact ⟨⟨_, hdone⟩, _, hagain⟩
  have hloop₀ : b₀.loop? = some ⟨.label a, .label j⟩ := hopen.onward.loop?
  have hloop₃ : b₃.loop? = some ⟨.label a, .label j⟩ := hexit.onward.loop?.trans
    (heval.onward.loop?.trans (hfront.onward.loop?.trans (hexec₀.onward.loop?.trans hloop₀)))
  have hloop₂ : d₂.loop? = some ⟨.label a, .label j⟩ :=
    hmiddle.onward.loop?.trans (hexec.onward.loop?.trans hloop₃)
  have hfollow₀ := hexec₀.run P fuel (hPb₂.back hfront.onward) (hloop₀ ▸ htargets)
  have hfollow := hexec.run P fuel hPd₁ (hloop₃ ▸ htargets)
  have hfollow' := hexec'.run P fuel hPd₃ (hloop₂ ▸ htargets)
  rw [hopen.size] at hfollow₀
  rw [hloop₃, hexit.size] at hfollow
  rw [hmiddle.size] at hfollow'
  have hchoose := (heval.chooses tests_ifFalse hPe atTest atDone).swap
    (t := fun w => decide (c w.store ≠ 0)) fun _ => decide_not
  rw [hfront.size] at hchoose
  have hrounds : Follows A P fuel b.loop? b₁.quads.size d.quads.size
      (rounds (fun w => decide (c w.store ≠ 0)) (f fuel) next fuel) := by
    rw [hback.size]
    refine rounds_follow (.behind (pass_label atStart) hchoose)
      hfollow ?_ hdone atDone fuel (Nat.le_refl _)
    -- From both ends of the body the next round begins with the update.
    intro c₀ w hat hagrees
    have hpc : c₀.pc = d₁.quads.size :=
      hat.elim id fun hat => Option.some.inj (hat.symm.trans hagain)
    exact (hfollow'.behind (pass_label atNext)).before (take_goto atAgain atStart) c₀ w hpc hagrees
  -- The start of the loop is left at its end, so it does not matter which loop is around it.
  have hfollow₀ : Follows A P fuel b.loop? b.quads.size b₁.quads.size fun w =>
    (.normal, first w) := hfollow₀
  exact hfollow₀.andThen hrounds

end

/-! ## Choosing among cases -/

section
variable {A : Arith} {P : Whole} {xs ys : List String} {f : Nat → World → Signal × World} {e : Expr}
  {cs : List Case} {subject v : Operand} {vs : List Operand} {body : BuildM Unit} {ty : Ty}
  {k : Nat} {u : Unit}
  {b d b' : Build}

/-- A case value that is accepted has been read. -/
theorem caseValue_tells (t? : Option Ty) (he : e.isCore = true) :
    Tells A (eval A · e) (caseValue t? e) where
  clean := clean_of_carried (keptStable.stmtWalk.course.caseValue t? trivial)
  evaluates b o b' h hclean hr := by
    unfold caseValue at h
    obtain ⟨t, d, hread, hrest⟩ := ends_bind.mp h
    dsimp only at hrest
    split at hrest
    · obtain ⟨_, _, hrest⟩ := ends_ofExcept_bind.mp hrest
      obtain ⟨_, _, hrest⟩ := ends_ofExcept_bind.mp hrest
      obtain ⟨_, d₁, herror, hvalue⟩ := ends_bind.mp hrest
      obtain ⟨_, rfl⟩ := ends_read.mp hvalue
      exact absurd hclean (not_clean_of_error herror)
    · obtain ⟨rfl, rfl⟩ := ends_read.mp hrest
      exact ⟨(expr_evaluates (A := A) e he hr hread hclean).1, rfl⟩

/-- What a switch chooses by has been read. -/
theorem subjectType_spec (he : e.isCore = true) (hr : Ready b)
    (h : Ends (subjectType e) b t? b') (hclean : b'.errors = #[]) :
    Evaluates A (eval A · e) b b' ∧ t?.isSome := by
  unfold subjectType at h
  obtain ⟨t, d, hread, hrest⟩ := ends_bind.mp h
  split at hrest
  · rename_i herror
    obtain ⟨_, rfl⟩ := ends_pure.mp hrest
    obtain ⟨_, ty, rfl, hty⟩ := expr_evaluates (A := A) e he hr hread hclean
    rcases hty with rfl | rfl <;> cases herror
  split at hrest
  · obtain ⟨_, _, hrest⟩ := ends_ofExcept_bind.mp hrest
    exact absurd hclean (not_clean_of_report hrest)
  · obtain ⟨rfl, rfl⟩ := ends_pure.mp hrest
    obtain ⟨hf, ty, rfl, _⟩ := expr_evaluates (A := A) e he hr hread hclean
    exact ⟨hf, rfl⟩

/-- The operands of the values of the cases are at hand. -/
def Reads (A : Arith) (c : Config) (w : World) : List Case → List Operand → Prop :=
  List.Forall₂ fun | .mk e _, v => c.read? v = some (eval A w.store e)

/-- The code between two states reads the values of all cases. -/
structure ReadsAll (A : Arith) (cs : List Case) (vs : List Operand) (b b' : Build) : Prop where
  onward : Onward b b'
  length : vs.length = cs.length
  held : ∀ v ∈ vs, Held b' v
  run : ∀ P, Within P b' → ∀ c w, c.pc = b.quads.size → Shows P c w.store →
    ∃ c', Reaches A P b b' c c' ∧ Reads A c' w cs vs

/-- Held operands are still at hand when more code has been run. -/
theorem Reaches.reads {c c' : Config} {w : World} (h : Reaches A P b b' c c')
    (hheld : ∀ v ∈ vs, Held b v) (hreads : Reads A c w cs vs) : Reads A c' w cs vs := by
  induction hreads with
  | nil => exact .nil
  | @cons case v cs vs hread _ ih =>
    obtain ⟨e, body⟩ := case
    refine .cons ?_ (ih fun v hv => hheld v (.tail _ hv))
    show c'.read? v = _
    rw [h.read? (hheld v (.head _))]
    exact hread

theorem caseValues_spec (hcs : Case.allCore cs = true) (hr : Ready b)
    (h : Ends (caseValues t? cs) b vs b') (hclean : b'.errors = #[]) : ReadsAll A cs vs b b' := by
  induction cs generalizing b vs with
  | nil =>
    obtain ⟨rfl, rfl⟩ := ends_pure.mp h
    exact ⟨.refl _, rfl, nofun, fun P _ c w hpc _ => ⟨c, .refl hpc, .nil⟩⟩
  | cons case cs ih =>
    obtain ⟨e, body⟩ := case
    obtain ⟨hfirst, hrest⟩ := Bool.and_eq_true_iff.mp hcs
    obtain ⟨he, _⟩ := Bool.and_eq_true_iff.mp hfirst
    unfold caseValues at h
    rw [List.mapM_cons] at h
    simp only [ends_bind, ends_pure] at h
    obtain ⟨v, d, hvalue, vs', d', hvalues, rfl, rfl⟩ := h
    have hclean₁ : d.errors = #[] :=
      clean_of_carried (keptStable.stmtWalk.course.caseValues t? fun _ _ => trivial) hvalues hclean
    obtain ⟨hf, rfl⟩ := (caseValue_tells (A := A) t? he).evaluates hvalue hclean₁ hr
    have hall := ih hrest (hf.onward.ready hr) hvalues
    refine ⟨hf.onward.trans hall.onward, congrArg (· + 1) hall.length, fun v hv => ?_,
      fun P hP c w hpc hshows => ?_⟩
    · rcases List.mem_cons.mp hv with rfl | hv
      · exact hf.held.onward hall.onward
      · exact hall.held v hv
    · obtain ⟨c₁, hreach₁, hread₁⟩ := hf.run P (hP.back hall.onward) c w.store hpc hshows
      obtain ⟨c₂, hreach₂, hreads⟩ := hall.run P hP c₁ w hreach₁.pc (hreach₁.shows hshows)
      exact ⟨c₂, .trans hf.onward hreach₁ hreach₂,
        .cons ((hreach₂.read? hf.held).trans hread₁) hreads⟩

/-- A case writes its jumps around the code of its body. -/
theorem switchCase_ends {done : Operand} (h : Ends (Emit.switchCase subject v done body) b u b') :
    ∃ i j t b₀ b₁ b₂ d, Writes #[] b b₀ ∧ Ends Emit.newTemp b₀ t b₁ ∧
      Writes #[{ op := .eq, arg1 := subject, arg2 := v, result := t },
        { op := .ifFalse, arg1 := t, result := .label j },
          { op := .label, result := .label i }] b₁ b₂ ∧
      Ends body b₂ () d ∧
      Writes #[{ op := .goto, result := done }, { op := .label, result := .label j }] d b' := by
  simp only [Emit.switchCase, ends_bind] at h
  obtain ⟨here, e₁, hhere, next, e₂, hnext, t, e₃, hnew, _, e₄, hcompare, _, e₅, htest, _, e₆,
    hmark, _, d, hbody, _, e₇, hjump, hend⟩ := h
  obtain ⟨w₁, i, rfl⟩ := (Writes.start b).label hhere
  obtain ⟨w₂, j, rfl⟩ := w₁.label hnext
  exact ⟨i, j, t, e₂, e₃, e₆, d, w₂, hnew,
    (((Writes.start e₃).push hcompare).push htest).push hmark, hbody,
    ((Writes.start d).push hjump).push hend⟩

theorem switchCase_clean (subject v done : Operand) (hbody : Keeps Clean body) :
    Keeps Clean (Emit.switchCase subject v done body) := by
  intro b u b' h hclean
  obtain ⟨i, j, t, b₀, b₁, b₂, d, hopen, hnew, hfront, hin, hback⟩ := switchCase_ends h
  have hclean₁ : b₁.errors = #[] := hfront.errors ▸ hbody hin (hback.errors ▸ hclean)
  exact hopen.errors ▸ (Silent.newTemp hnew).errors ▸ hclean₁

theorem cases_clean (subject done : Operand) (vs : List Operand) (cs : List Case) :
    Keeps Clean (cases subject done vs cs) := by
  induction cs generalizing vs with
  | nil =>
    rw [cases]
    exact Keeps.pure Clean.refl _
  | cons case cs ih =>
    obtain ⟨e, body⟩ := case
    rw [cases]
    refine Clean.bind (switchCase_clean _ _ _ ?_) fun _ => ih vs.tail
    exact clean_of_kept (keptStable.statements body fun _ _ => trivial)

/-- The code between two states runs the case that `F` picks, and goes on at the label `k` behind
it; where no case is picked the machine comes to the end of the code. -/
structure Picks (A : Arith) (xs : List String) (F : Nat → Int → World → Option (Signal × World))
    (cs : List Case) (subject : Operand) (vs : List Operand) (k : Nat) (b b' : Build) : Prop where
  onward : Onward b b'
  declared : ∀ x ∈ xs, ∃ n : Nat, b'.storage.slot? x = some (.address n)
  run : ∀ P fuel stop g, Within P b' → Targets P b.loop? →
    P.code[stop]? = some { op := .label, result := .label k } →
    Follows A P fuel b.loop? b'.quads.size stop g → ∀ c w x, c.pc = b.quads.size → Agrees P c w →
      c.read? subject = some x → Reads A c w cs vs → ∃ n c', Steps A P.code n c c' ∧
        Outcome P fuel b.loop? stop n c' ((F fuel x w).getD (g w))

theorem Picks.nil (b : Build) : Picks A [] (fun _ _ _ => none) [] subject vs k b b where
  onward := .refl b
  declared := nofun
  run _ _ _ _ _ _ _ hg c w _ hpc hagrees _ _ := hg c w hpc hagrees

/-- One case in front of others: its value is compared with the subject, and its body is run if they
are equal. The operands of the other values are held meanwhile. -/
theorem Picks.cons {F : Nat → Int → World → Option (Signal × World)} {stmts : List Stmt}
    (hr : Ready b) (hheld : ∀ o ∈ subject :: vs, Held b o) (hbody : Codes A xs f body)
    (h : Ends (Emit.switchCase subject v (.label k) body) b u d) (hclean : d.errors = #[])
    (hrest : Onward b d → Picks A ys F cs subject vs k d b') :
    Picks A (xs ++ ys) (fun fuel x w => if eval A w.store e = x then
      some (f fuel w) else F fuel x w)
      (.mk e stmts :: cs) subject (v :: vs) k b b' := by
  obtain ⟨i, j, t, b₀, b₁, b₂, d₁, hopen, hnew, hfront, hin, hback⟩ := switchCase_ends h
  obtain ⟨m, rfl, hfree, _, hidle, _⟩ := Emit.newTemp_spec (hopen.onward.ready hr).temps hnew
  have honward₀ := hopen.onward.trans (.of_idle hidle)
  have hexec := hbody.executes hin (hback.errors ▸ hclean) (hfront.onward.ready (honward₀.ready hr))
  have honward : Onward b d :=
    honward₀.trans (hfront.onward.trans (hexec.onward.trans hback.onward))
  have hrest := hrest honward
  refine ⟨honward.trans hrest.onward, List.forall_mem_append.mpr
    ⟨(hback.onward.trans hrest.onward).declared hexec.declared, hrest.declared⟩, ?_⟩
  intro P fuel stop g hP htargets hstop hg c w x hpc hagrees hx hreads
  have hsize₁ : b₁.quads.size = b.quads.size := by
    rw [hidle.quads, hopen.size]
    rfl
  -- Where the quadruples around the body stand.
  have hPd := hP.back hrest.onward
  have hPd₁ := hPd.back hback.onward
  have hPb₂ := hPd₁.back hexec.onward
  have atCompare := hPb₂.code hfront.quads (i := 0) rfl
  have atTest := hPb₂.code hfront.quads (i := 1) rfl
  have atHere := hPb₂.code hfront.quads (i := 2) rfl
  have atLeave := hPd.code hback.quads (i := 0) rfl
  have atNext := hPd.code hback.quads (i := 1) rfl
  rw [hsize₁] at atCompare atTest atHere
  have hloop₂ : b₂.loop? = b.loop? := hfront.onward.loop?.trans honward₀.loop?
  have hfollow := hexec.run P fuel hPd₁ (hloop₂ ▸ htargets)
  rw [hloop₂, hfront.size, hsize₁] at hfollow
  cases hreads with
  | cons hread hreads =>
    have hread : c.read? v = some (eval A w.store e) := hread
    have hcompare : step? A P.code c = c.write? (.temp m) (truth (x = eval A w.store e)) :=
      (step?_eq (hpc ▸ atCompare)).trans
        (carryOut?_compute (f := fun x y => truth (x = y)) rfl hx hread)
    have hwrite : ∃ c₁, Reaches A P b { b with quads := b.quads.push default } c c₁ ∧
        c₁.read? (.temp m) = some (truth (x = eval A w.store e)) :=
      reaches_write (hopen.onward.free m hfree) hpc (Array.size_push ..) hcompare
    obtain ⟨c₁, hreach, hread₁⟩ := hwrite
    have hpc₁ : c₁.pc = b.quads.size + 1 := hreach.pc.trans (Array.size_push ..)
    have hagrees₁ : Agrees P c₁ w :=
      ⟨hreach.shows hagrees.shows, hreach.output.trans hagrees.output⟩
    have htest := step_test (A := A) tests_ifFalse (hpc₁ ▸ atTest) atNext hread₁
    obtain ⟨n₁, hsteps₁⟩ := hreach.steps
    have hsteps := hsteps₁.trans (.one htest)
    by_cases heq : eval A w.store e = x
    · rw [if_pos heq]
      rw [if_neg (by simp [heq, truth]), hpc₁] at hsteps
      have hrun := (hfollow.before (take_goto atLeave hstop)).behind (pass_label atHere)
      obtain ⟨n, c', hsteps', hout⟩ := hrun (c₁.goto (b.quads.size + 1 + 1)) w rfl
        ⟨hagrees₁.shows, hagrees₁.output⟩
      exact ⟨_, c', hsteps.trans hsteps', hout.count Nat.le_add_left_of_le⟩
    · rw [if_neg heq]
      rw [if_pos (by simp [Ne.symm heq, truth])] at hsteps
      have hlabel := step_label (A := A) (c := c₁.goto (d₁.quads.size + 1)) atNext
      have hx₁ := (hreach.read? (hheld subject (.head _))).trans hx
      have hreads₁ := hreach.reads (fun o ho => hheld o (.tail _ ho)) hreads
      have hloop : d.loop? = b.loop? := honward.loop?
      obtain ⟨n, c', hsteps', hout⟩ :=
        hrest.run P fuel stop g hP (hloop ▸ htargets) hstop (hloop ▸ hg)
        (c₁.goto (d₁.quads.size + 1)).next w x hback.size.symm ⟨hagrees₁.shows,
          hagrees₁.output⟩ hx₁ hreads₁
      rw [hloop] at hout
      exact ⟨_, c', hsteps.trans (.trans (.one hlabel) hsteps'), hout.count fun hle => by omega⟩

/-- A switch reads its subject and the values of its cases and then picks a case. A subject that is
in no case comes to the code behind the cases. -/
theorem switch_executes {F : Nat → Int → World → Option (Signal × World)} {b₁ b₂ b₃ b₄ b₅ : Build}
    (hf : Evaluates A (eval A · e) b b₁) (hvalues : ReadsAll A cs vs b₁ b₂)
    (hlabel : Writes #[] b₂ b₃) (hpicks : Picks A xs F cs b₁.value vs k b₃ b₄)
    (hrest : Executes A ys f b₄ b₅) (hend : Writes #[{ op := .label, result := .label k }] b₅ b') :
    Executes A (xs ++ ys) (fun fuel w => (F fuel (eval A w.store e) w).getD (f fuel w)) b b' := by
  have honward₃ := hf.onward.trans (hvalues.onward.trans hlabel.onward)
  have honward₅ := hrest.onward.trans hend.onward
  refine ⟨honward₃.trans (hpicks.onward.trans honward₅), List.forall_mem_append.mpr
    ⟨honward₅.declared hpicks.declared, hend.onward.declared hrest.declared⟩,
      fun P fuel hP htargets => ?_⟩
  have hP₄ := hP.back honward₅
  have hP₂ := hP₄.back (hlabel.onward.trans hpicks.onward)
  have atEnd : P.code[b₅.quads.size]? = _ := hP.code hend.quads (i := 0) rfl
  have hloop₃ : b₃.loop? = b.loop? := honward₃.loop?
  have hloop₄ : b₄.loop? = b.loop? := hpicks.onward.loop?.trans hloop₃
  have hbehind := hrest.run P fuel (hP.back hend.onward) (hloop₄ ▸ htargets)
  have hfollow : Follows A P fuel b.loop? b.quads.size b₅.quads.size
      fun w => (F fuel (eval A w.store e) w).getD (f fuel w) := by
    intro c w hpc hagrees
    obtain ⟨c₁, hreach₁, hread₁⟩ := hf.run P (hP₂.back hvalues.onward) c w.store hpc hagrees.shows
    obtain ⟨c₂, hreach₂, hreads⟩ := hvalues.run P hP₂ c₁ w hreach₁.pc (hreach₁.shows hagrees.shows)
    have hreach := Reaches.trans hf.onward hreach₁ hreach₂
    have hagrees₂ : Agrees P c₂ w :=
      ⟨hreach.shows hagrees.shows, hreach.output.trans hagrees.output⟩
    have hpc₂ : c₂.pc = b₃.quads.size := hreach.pc.trans hlabel.size.symm
    obtain ⟨m, hsteps⟩ := hreach.steps
    obtain ⟨n, c', hsteps', hout⟩ :=
      hpicks.run P fuel b₅.quads.size (f fuel) hP₄ (hloop₃ ▸ htargets) atEnd
      (hloop₃ ▸ hloop₄ ▸ hbehind) c₂ w _ hpc₂ hagrees₂ ((hreach₂.read? hf.held).trans hread₁) hreads
    rw [hloop₃] at hout
    exact ⟨_, c', hsteps.trans hsteps', hout.count Nat.le_add_left_of_le⟩
  rw [hend.size]
  exact hfollow.before (pass_label atEnd)

theorem mark_clean (o : Operand) : Keeps Clean (Emit.mark o) := .modify fun _ => id

theorem newLabel_clean : Keeps Clean Emit.newLabel := by
  intro b o b' h hclean
  exact ((Writes.start b).label h).1.errors ▸ hclean

/-- A switch that is accepted has read its subject and the values of its cases. -/
theorem switch_parts {other : BuildM (Option Ty)} {tail : Operand → BuildM (Option Ty)}
    (he : e.isCore = true) (hcs : Case.allCore cs = true) (htail : ∀ o, Keeps Clean (tail o))
    (hother : Keeps (Kept fun _ => True) other) (hr : Ready b) (h : Ends (do
      match ← subjectType e with
      | some t =>
        if ← Build.isClean then do
          let v ← value
          let values ← caseValues (some t) cs
          let done ← Emit.newLabel
          cases v done values cs
          tail done
        else do
          caseBodies cs
          other
      | none => return none) b t? b') (hclean : b'.errors = #[]) :
    ∃ vs k b₁ b₂ b₃ b₄, Evaluates A (eval A · e) b b₁ ∧ ReadsAll A cs vs b₁ b₂ ∧
      Writes #[] b₂ b₃ ∧ Ready b₃ ∧
      (∀ o ∈ b₁.value :: vs, Held b₃ o) ∧
        Ends (cases b₁.value (.label k) vs cs) b₃ () b₄ ∧ b₄.errors = #[] ∧
      Ends (tail (.label k)) b₄ t? b' := by
  obtain ⟨s?, b₁, hsubject, h⟩ := ends_bind.mp h
  cases s? with
  -- A subject that could not be typed is reported, in this part of the language.
  | none =>
    obtain ⟨_, rfl⟩ := ends_pure.mp h
    obtain ⟨_, hsome⟩ := subjectType_spec (A := A) he hr hsubject hclean
    cases hsome
  | some t =>
    have hbodies := keptStable.keeps
      (keptStable.stmtWalk.caseBodies cs [] (fun _ _ => trivial) fun _ _ => trivial)
    obtain ⟨hclean₁, hcode⟩ :=
      ends_whenClean (clean_of_kept (keptStable.bind hbodies fun _ => hother)) h hclean
    obtain ⟨hf, _⟩ := subjectType_spec (A := A) he hr hsubject hclean₁
    have hcode := ends_read_bind.mp hcode
    simp only [ends_bind] at hcode
    obtain ⟨vs, b₂, hvalues, done, b₃, hlabel, _, b₄, hcases, hcode⟩ := hcode
    obtain ⟨hopen, k, rfl⟩ := (Writes.start b₂).label hlabel
    have hclean₄ := htail _ hcode hclean
    have hclean₂ : b₂.errors = #[] := hopen.errors ▸ cases_clean _ _ _ _ hcases hclean₄
    have hall := caseValues_spec (A := A) hcs (hf.onward.ready hr) hvalues hclean₂
    have honward := hall.onward.trans hopen.onward
    refine ⟨vs, k, b₁, b₂, b₃, b₄, hf, hall, hopen, honward.ready (hf.onward.ready hr),
      fun o ho => ?_, hcases,
      hclean₄, hcode⟩
    -- The subject and the values of the cases are held until they are compared.
    rcases List.mem_cons.mp ho with rfl | ho
    · exact hf.held.onward honward
    · exact (hall.held o ho).onward hopen.onward

/-- A label by itself does nothing. -/
theorem Writes.executes {l : Operand} (h : Writes #[{ op := .label, result := l }] b b') :
    Executes A [] stay b b' where
  onward := h.onward
  declared := nofun
  run P fuel hP _ := by
    rw [h.size]
    exact .behind (pass_label (hP.code h.quads (i := 0) rfl)) (.skip _)

end

/-! ## Statements -/

section
variable {A : Arith} {f : Nat → World → Signal × World} {body : BuildM Unit}

theorem loopInit_codes {init : LoopInit} (h : init.isCore = true) :
    Codes A init.declared (fun _ w => (.normal, Core.initial A init w)) (loopInit init) := by
  rcases init with _ | ⟨line, x, type?, first?⟩ | ⟨line, x, e⟩ | _
  · exact .pure ()
  · cases first? with
    | none => cases (Bool.and_eq_true_iff.mp h).2
    | some e => exact variableDecl_codes h rfl
  · exact (assignName_codes h).discard
  · cases h

/-- A choice that is accepted has its code. -/
theorem ifElse_executes {xs ys : List String} {g : Nat → World → Signal × World}
    {yes no : BuildM Unit}
    {other : BuildM (Option Ty)} {b b' : Build} (he : e.isCore = true)
    (hyes : Codes A xs f yes) (hno : Codes A ys g no) (hother : Keeps Clean other) (hr : Ready b)
    (h : Ends (do
      let v ← condition "if" e
      if ← Build.isClean then do
        discard (Emit.ifElse v yes no)
        return none
      else other) b t? b') (hclean : b'.errors = #[]) :
    Executes A (xs ++ ys) (fun fuel w => if holds A e w then f fuel w else g fuel w) b b' := by
  obtain ⟨v, d, hcond, hrest⟩ := ends_bind.mp h
  obtain ⟨hclean₁, hcode⟩ := ends_whenClean hother hrest hclean
  obtain ⟨_, d₁, hcode, hpure⟩ := ends_bind.mp hcode
  obtain ⟨_, rfl⟩ := ends_pure.mp hpure
  obtain ⟨r, hcode⟩ := ends_discard.mp hcode
  obtain ⟨hf, rfl⟩ := (condition_tells "if" he).evaluates hcond hclean₁ hr
  exact branch_executes hf hyes hno hr hcode hclean

theorem loopUpdate_codes {u? : Option Expr} (h : Expr.isUpdate u? = true) :
    Codes A [] (fun _ w => (.normal, Core.update A u? w)) (loopUpdate u?) := by
  unfold Expr.isUpdate at h
  split at h
  · exact .pure ()
  · exact (assignExpr_codes h).discard
  · cases h

end

/-- The forms of control flow take back no report. -/
theorem controlStable_clean : ControlStable Clean := by
  have htrans : ∀ b c d, Clean b c → Clean c d → Clean b d := fun _ _ _ h₁ h₂ h => h₁ (h₂ h)
  have hflow : Flow (Since Clean) :=
    Flow.of_same (htrans _ _ _) (fun _ _ _ herrors _ => herrors.symm.trans) fun _ _ => id
  exact hflow.controlStable (Quiet.exprStable.mono Clean.refl htrans fun _ _ h =>
    h.clean).toCodeStable

/-- A loop is read one level deeper. -/
theorem loop_ends {b b' : Build} {u : Unit} (h : Ends (loop body) b u b') :
    ∃ d, Ends body (deepen b) () d ∧ b' = surface b.loops d := by
  unfold loop at h
  rw [ends_get_bind, ends_modify_bind] at h
  obtain ⟨_, d, hin, hclose⟩ := ends_bind.mp h
  exact ⟨d, hin, ends_modify.mp hclose⟩

/-- Reading a loop keeps reports if reading its parts does. -/
theorem loop_clean (hbody : Keeps Clean body) : Keeps Clean (loop body) := by
  intro b u b' h hclean
  obtain ⟨d, hin, rfl⟩ := loop_ends h
  show (deepen b).errors = #[]
  exact hbody hin hclean

theorem while_codes {xs : List String} (he : e.isCore = true) (hbody : Codes A xs f body) :
    Codes A xs (fun fuel => rounds (holds A e) (f fuel) id fuel) (loop do
      if ← Build.isClean then discard (Emit.whileLoop (condition "while" e) body)
      else do
        discard (condition "while" e)
        body) := by
  have hc := condition_tells (A := A) "while" he
  have hother := Clean.bind (Clean.discard hc.clean) fun _ => hbody.clean
  have hcode := controlStable_clean.whileLoop _ _ hc.clean hbody.clean
  refine ⟨loop_clean (Clean.whenClean (Clean.discard hcode) hother), ?_⟩
  intro b a b' h hclean hr
  obtain ⟨d, hin, rfl⟩ := loop_ends h
  obtain ⟨_, hcode⟩ := ends_whenClean hother hin hclean
  obtain ⟨r, hcode⟩ := ends_discard.mp hcode
  exact while_executes hc hbody hr hcode hclean

theorem for_codes {xs : List String} {init : LoopInit} {u? : Option Expr}
    (hinit : init.isCore = true) (he : e.isCore = true) (hu : Expr.isUpdate u? = true)
    (hbody : Codes A xs f body) :
    Codes A (init.declared ++ xs)
      (fun fuel w => rounds (holds A e) (f fuel) (Core.update A u?) fuel
        (Core.initial A init w)) (loop do
        if ← Build.isClean then
          discard (Emit.forLoop (loopInit init) (loopCondition (some e)) (loopUpdate u?) body)
        else do
          loopInit init
          discard (loopCondition (some e))
          loopUpdate u?
          body) := by
  have hc := condition_tells (A := A) "for" he
  have hfirst := loopInit_codes (A := A) hinit
  have hnext := loopUpdate_codes (A := A) hu
  have hother := Clean.bind hfirst.clean fun _ => Clean.bind (Clean.discard hc.clean) fun _ =>
    Clean.bind hnext.clean fun _ => hbody.clean
  have hcode := controlStable_clean.forLoop _ _ _ _ hfirst.clean hc.clean hnext.clean hbody.clean
  refine ⟨loop_clean (Clean.whenClean (Clean.discard hcode) hother), ?_⟩
  intro b a b' h hclean hr
  obtain ⟨d, hin, rfl⟩ := loop_ends h
  obtain ⟨_, hcode⟩ := ends_whenClean hother hin hclean
  obtain ⟨r, hcode⟩ := ends_discard.mp hcode
  exact for_executes hfirst hc hnext hbody hr hcode hclean

mutual

/-- The code of a statement does what the statement means. -/
theorem statement_codes {A : Arith} : ∀ s : Stmt, s.isCore = true →
    Codes A s.declared (fun fuel => exec A fuel s) (statement s)
  | .declare ⟨line, x, type?, some e⟩, hs => by
    rw [statement]
    exact (variableDecl_codes hs rfl).before fun _ => .pure _
  | .declare ⟨_, _, _, none⟩, hs => by
    cases (Bool.and_eq_true_iff.mp hs).2
  | .constant d, hs => by
    rw [statement]
    exact (constantDecl_codes hs).before fun _ => .pure _
  | .assign (.toName line x e), hs => by
    rw [statement]
    exact assignName_codes hs
  | .print line e, hs => by
    rw [statement]
    exact (printStmt_codes hs).before fun _ => .pure _
  | .block _ body, hs => by
    rw [statement]
    exact (block_codes (statements_codes body hs)).before fun _ => .pure _
  | .breakLoop line, _ => by
    rw [statement]
    exact (loopJump_codes .breaks line "break" keptStable.breakLoop (fun _ _ h => (h _ rfl).1)
      fun _ _ l _ _ _ _ h hat => ⟨h, l, rfl, hat⟩).before fun _ => .pure _
  | .continueLoop line, _ => by
    rw [statement]
    exact (loopJump_codes .continues line "continue" keptStable.continueLoop
      (fun _ _ h => (h _ rfl).2)
      fun _ _ l _ _ _ _ h hat => ⟨h, l, rfl, hat⟩).before fun _ => .pure _
  | .ifElse _ c yes none, hs => by
    obtain ⟨hc, hyes⟩ := Bool.and_eq_true_iff.mp hs
    refine ⟨clean_of_kept (keptStable.statement _ fun _ _ => trivial), fun b a b' h hclean hr => ?_⟩
    rw [statement] at h
    have hother := keptStable.block (keptStable.statements yes fun _ _ => trivial)
    have hcode := ifElse_executes (A := A) hc (block_codes (statements_codes yes hyes)) (.pure ())
      (clean_of_kept (keptStable.bind hother fun _ => keptStable.pure _)) hr h hclean
    rwa [List.append_nil] at hcode
  | .ifElse _ c yes (some no), hs => by
    obtain ⟨hfirst, hno⟩ := Bool.and_eq_true_iff.mp hs
    obtain ⟨hc, hyes⟩ := Bool.and_eq_true_iff.mp hfirst
    refine ⟨clean_of_kept (keptStable.statement _ fun _ _ => trivial), fun b a b' h hclean hr => ?_⟩
    rw [statement] at h
    have hother := keptStable.bind (keptStable.block (keptStable.statements yes fun _ _ => trivial))
      fun _ => keptStable.bind (keptStable.block (keptStable.statements no fun _ _ => trivial))
        fun _ => keptStable.pure (none : Option Ty)
    exact ifElse_executes hc (block_codes (statements_codes yes hyes))
      (block_codes (statements_codes no hno))
      (clean_of_kept hother) hr h hclean
  | .whileLoop _ c body, hs => by
    obtain ⟨hc, hbody⟩ := Bool.and_eq_true_iff.mp hs
    rw [statement]
    exact (while_codes hc (block_codes (statements_codes body hbody))).before fun _ => .pure _
  | .forLoop _ init (some c) u? body, hs => by
    obtain ⟨hfirst, hbody⟩ := Bool.and_eq_true_iff.mp hs
    obtain ⟨hfirst, hu⟩ := Bool.and_eq_true_iff.mp hfirst
    obtain ⟨hinit, hc⟩ := Bool.and_eq_true_iff.mp hfirst
    rw [statement]
    exact (inScope_codes _
      (for_codes hinit hc hu (block_codes (statements_codes body hbody)))).before
      fun _ => .pure _
  | .switch _ subject cs none, hs => by
    obtain ⟨he, hcs⟩ := Bool.and_eq_true_iff.mp hs
    refine ⟨clean_of_kept (keptStable.statement _ fun _ _ => trivial), fun b a b' h hclean hr => ?_⟩
    rw [statement] at h
    obtain ⟨vs, k, b₁, b₂, b₃, b₄, hf, hvalues, hopen, hr₃, hheld, hcases, hclean₄, htail⟩ :=
      switch_parts (A := A) he hcs (fun o => Clean.bind (mark_clean o) fun _ =>
        Keeps.pure Clean.refl _)
        (keptStable.pure _) hr h hclean
    obtain ⟨_, b₅, hmark, hpure⟩ := ends_bind.mp htail
    obtain ⟨_, rfl⟩ := ends_pure.mp hpure
    have hpicks := cases_pick (A := A) cs hcs hvalues.length hr₃ hheld hcases hclean₄
    have hcode := switch_executes hf hvalues hopen hpicks (.skip (.refl _) rfl)
      ((Writes.start b₄).push hmark)
    rwa [List.append_nil] at hcode
  | .switch _ subject cs (some default_), hs => by
    obtain ⟨hfirst, hdefault⟩ := Bool.and_eq_true_iff.mp hs
    obtain ⟨he, hcs⟩ := Bool.and_eq_true_iff.mp hfirst
    have hrest := statements_codes (A := A) default_ hdefault
    refine ⟨clean_of_kept (keptStable.statement _ fun _ _ => trivial), fun b a b' h hclean hr => ?_⟩
    rw [statement] at h
    have hother := keptStable.bind (keptStable.statements default_ fun _ _ => trivial) fun _ =>
      keptStable.pure (none : Option Ty)
    obtain ⟨vs, k, b₁, b₂, b₃, b₄, hf, hvalues, hopen, hr₃, hheld, hcases, hclean₄, htail⟩ :=
      switch_parts (A := A) he hcs (fun o => Clean.bind newLabel_clean fun l =>
        Clean.bind (mark_clean l) fun _ =>
        Clean.bind hrest.clean fun _ => Clean.bind (mark_clean o) fun _ => Keeps.pure Clean.refl _)
        hother hr h hclean
    have hpicks := cases_pick (A := A) cs hcs hvalues.length hr₃ hheld hcases hclean₄
    simp only [ends_bind, ends_pure] at htail
    obtain ⟨l, d₁, hlabel, _, d₂, hmark, _, d₃, hbody, _, d₄, hend, _, rfl⟩ := htail
    have hfront := (((Writes.start b₄).label hlabel).1.push hmark).executes (A := A)
    have hr₂ := hfront.onward.ready (hpicks.onward.ready hr₃)
    have hexec := hfront.andThen
      (hrest.executes hbody (((Writes.start d₃).push hend).errors ▸ hclean) hr₂)
    exact switch_executes hf hvalues hopen hpicks hexec ((Writes.start d₃).push hend)

theorem statements_codes {A : Arith} : ∀ ss : List Stmt, Stmt.allCore ss = true →
    Codes A (Stmt.declaredAll ss) (fun fuel => execAll A fuel ss) (statements ss)
  | [], _ => by
    rw [statements]
    exact .pure ()
  | s :: ss, hss => by
    obtain ⟨hs, hrest⟩ := Bool.and_eq_true_iff.mp hss
    rw [statements]
    refine .after (.skip (clean_of_kept (keptStable.unreachable _ _)) fun b _ b' h => ?_)
      fun _ => ?_
    · rw [unreachable_ends h]
      exact ⟨.aside b _ b.unreachable, rfl⟩
    exact (statement_codes s hs).bind fun _ => statements_codes ss hrest

theorem cases_pick {A : Arith} : ∀ cs : List Case, Case.allCore cs = true →
    ∀ {vs subject k b u b'}, vs.length = cs.length → Ready b → (∀ o ∈ subject :: vs, Held b o) →
      Ends (cases subject (.label k) vs cs) b u b' → b'.errors = #[] →
        Picks A (Case.declaredAll cs) (fun fuel x w => execCases A fuel x cs w) cs subject vs k b b'
  | [], _, vs, subject, k, b, u, b', _, _, _, h, _ => by
    rw [cases] at h
    obtain ⟨_, rfl⟩ := ends_pure.mp h
    exact .nil _
  | .mk e body :: rest, hcs, [], subject, k, b, u, b', hlength, _, _, _, _ => by
    cases hlength
  | .mk e body :: rest, hcs, v :: vs, subject, k, b, u, b', hlength, hr, hheld, h, hclean => by
    obtain ⟨hfirst, hrest⟩ := Bool.and_eq_true_iff.mp hcs
    obtain ⟨_, hbody⟩ := Bool.and_eq_true_iff.mp hfirst
    rw [cases] at h
    obtain ⟨_, d, hcase, hcases⟩ := ends_bind.mp h
    have hheld' : ∀ o ∈ subject :: vs, Held b o := fun o ho => by
      grind
    refine .cons hr hheld' (statements_codes body hbody) hcase
      (cases_clean _ _ _ _ hcases hclean) fun honward => ?_
    exact cases_pick rest hrest (Nat.succ.inj hlength) (honward.ready hr)
      (fun o ho => (hheld' o ho).onward honward)
      hcases hclean

end

end Scriptc.Compile
