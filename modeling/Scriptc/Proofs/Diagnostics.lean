import Scriptc.Proofs.Present

/-!
# Scriptc: reports with and without code

Conditions, loops, functions and switches are read in two ways: as long as there are no reports code
is written for them, and afterwards their parts are only read. `Compile.reports_independent`
compares both ways of reading one statement: what is declared and what is warned of is the same, and
so are the reports, but for those on expressions that the two ways come to at different times. These
are the last part of a counting loop and the values of cases; the type of a case is not even looked
at where there are reports (`case_report_missing`).

The comparison is an instance of `Pairing` in which code is written by the first reading alone
(`Reading.left`), and the expressions at issue are read by one of the two at a time
(`Reading.unheard_left`, `Reading.unheard_right`).
-/

namespace Scriptc

open Build (Ends Keeps isClean ends_bind ends_pure)
open Pairing (Any)
variable {e : Expr}

namespace Compile

/-! ## Expressions leave all but reports -/

/-- Nothing but code and reports has been added. -/
structure Calm (b c : Build) : Prop where
  view : b.SameView { c with errors := b.errors }
  errors : b.errors.toList <+: c.errors.toList

namespace Calm

variable {b c d : Build}

theorem of_view (h : b.SameView c) : Calm b c :=
  ⟨⟨h.table, rfl, h.warnings, h.inFunction?, h.inClass?, h.loops, h.unreachable⟩,
    h.errors ▸ List.prefix_rfl⟩

theorem refl (b : Build) : Calm b b := of_view (.refl b)

theorem trans (h : Calm b c) (h' : Calm c d) : Calm b d :=
  ⟨⟨h'.view.table.trans h.view.table, rfl, h'.view.warnings.trans h.view.warnings,
      h'.view.inFunction?.trans h.view.inFunction?, h'.view.inClass?.trans h.view.inClass?,
      h'.view.loops.trans h.view.loops, h'.view.unreachable.trans h.view.unreachable⟩,
    h.errors.trans h'.errors⟩

theorem of_silent (h : Emit.Silent b c) : Calm b c := of_view (.of_silent h)

theorem quad (q : Quad) : Keeps Calm (Emit.quad q) :=
  Keeps.modify fun _ => of_view { Build.SameView.refl _ with }

theorem newLabel : Keeps Calm Emit.newLabel := by
  intro b l c h
  rw [(Emit.ends_newLabel.mp h).2]
  exact of_view { Build.SameView.refl _ with }

theorem exprStable : ExprStable (fun _ => True) Calm :=
  .of_quads refl (fun _ _ _ => trans) (fun _ _ => of_silent)
    (fun _ _ => Keeps.modify fun _ =>
      ⟨{ Build.SameView.refl _ with }, prefix_push _ _⟩) newLabel quad

theorem expr (e : Expr) : Keeps Calm (Compile.expr e) :=
  exprStable.expr e (Expr.all_of_forall (fun _ => trivial) e)

end Calm

end Compile

/-! ## Two readings of one program -/

/-- Readings of one program from states with a value at hand; `told` compares what they report. -/
def reading (told : Array String → Array String → Prop) (aside : Expr → Prop) : Pairing where
  names := .identity
  lax := True
  classes := True
  fit _ := True
  lit text := text ≠ "" ∧ text ≠ "None"
  aside := aside
  operand o o' := o.Given ∧ o'.Given
  text := Eq
  reports := told
  code b b' := b.Valued ∧ b'.Valued

namespace Reading

open Writes (Anything)

variable {told : Array String → Array String → Prop} {aside : Expr → Prop} {b b' c : Build}
  {α α' β β' : Type} {ok : α → Prop} {ok' : α' → Prop} {A : α → α' → Prop} {B : β → β' → Prop}
  {body body' : BuildM Unit} {m m' : BuildM Operand}
variable {f : α → BuildM β} {k' : BuildM β'} {k : BuildM β}

/-- The comparison does not mind a report that both readings make. -/
def Closed (told : Array String → Array String → Prop) : Prop :=
  ∀ es es' m, told es es' → told (es.push m) (es'.push m)

theorem base (htold : Closed told) : (reading told aside).Base where
  inj _ _ h := h
  ident _ := rfl
  text_var _ _ := rfl
  text_member _ _ := rfl
  report line t t' ht h := by
    obtain rfl : t = t' := ht
    exact htold _ _ _ h
  apart h :=
    ⟨⟨h.1.value, h.1.lastTemp, h.1.reusable, h.1.strings⟩,
      ⟨h.2.value, h.2.lastTemp, h.2.reusable, h.2.strings⟩⟩

/-- States that agree but for reports and code. -/
theorem agree_of_view {c' : Build} (h : (reading told aside).Agree b b')
    (hview : b.SameView { c with errors := b.errors })
    (hview' : b'.SameView { c' with errors := b'.errors }) (hreports : told c.errors c'.errors)
    (hc : c.Valued) (hc' : c'.Valued) : (reading told aside).Agree c c' where
  sound := show c.table.Sound from (show c.table = b.table from hview.table) ▸ h.sound
  proper _ s _ := ⟨fun _ => rfl, fun _ => trivial⟩
  inside _ := trivial
  table := by rw [show c'.table = b'.table from hview'.table, show c.table = b.table from
    hview.table, h.table]
  warnings := hview'.warnings.trans (h.warnings.trans hview.warnings.symm)
  inFunction? := hview'.inFunction?.trans (h.inFunction?.trans hview.inFunction?.symm)
  inClass? := hview'.inClass?.trans (h.inClass?.trans hview.inClass?.symm)
  loops := hview'.loops.trans (h.loops.trans hview.loops.symm)
  unreachable := hview'.unreachable.trans (h.unreachable.trans hview.unreachable.symm)
  reports := hreports
  code := ⟨hc, hc'⟩

/-! ## Code in one reading -/

/-- Code that only the first reading writes. -/
theorem left {m : BuildM α} (hm : Writes ok m)
    (hf : ∀ a c, ok a → (reading told aside).Agree c b' → (reading told aside).From B c b' (f a) k')
    (h : (reading told aside).Agree b b') : (reading told aside).From B b b' (m >>= f) k' := by
  refine Build.From.left trivial fun a c hend => ?_
  obtain ⟨hc, hview, ha⟩ := hm h.code.1 hend
  refine hf a c ha (agree_of_view h (Compile.Calm.of_view hview).view
    (Compile.Calm.refl b').view ?_ hc h.code.2)
  rw [hview.errors]
  exact h.reports

theorem right {m' : BuildM α'} {f' : α' → BuildM β'} (hm' : Writes ok' m')
    (hf' : ∀ a' c', ok' a' → (reading told aside).Agree b c' →
      (reading told aside).From B b c' k (f' a'))
    (h : (reading told aside).Agree b b') : (reading told aside).From B b b' k (m' >>= f') := by
  refine Build.From.right trivial fun a' c' hend => ?_
  obtain ⟨hc', hview, ha'⟩ := hm' h.code.2 hend
  refine hf' a' c' ha'
    (agree_of_view h (Compile.Calm.refl b).view (Compile.Calm.of_view hview).view ?_ h.code.1 hc')
  rw [hview.errors]
  exact h.reports

/-- Code that both readings write. -/
theorem twin {m : BuildM α} {m' : BuildM α'} (hm : Writes ok m) (hm' : Writes ok' m')
    (hA : ∀ a a', ok a → ok' a' → A a a') : (reading told aside).Twin A m m' := by
  intro b b' h
  rw [← bind_pure m, ← bind_pure m']
  refine left hm (fun a c ha hc => right hm' (fun a' c' ha' hc' => ?_) hc) h
  exact .pure (hA a a' ha ha') hc'

/-- Code that gives values in both readings. -/
theorem given (hm : Writes Operand.Given m) (hm' : Writes Operand.Given m') :
    (reading told aside).Twin (reading told aside).operand m m' :=
    twin hm hm' fun _ _ ho ho' => ⟨ho, ho'⟩

theorem any {m : BuildM α} {m' : BuildM α'} (hm : Writes Anything m) (hm' : Writes Anything m') :
    (reading told aside).Twin Any m m' := twin hm hm' fun _ _ _ _ => trivial

/-- Each reading writes code as long as it has no reports. -/
theorem guarded {m : BuildM α} {m' : BuildM α'} (hm : Writes ok m) (hm' : Writes ok' m')
    (h : (reading told aside).Agree b b') : (reading told aside).Guarded b b' m m' := by
  intro γ γ' G k k' hk
  refine Build.From.read_bind ?_
  split <;> split
  · exact left hm (fun _ _ _ hc => right hm' (fun _ _ _ hc' => hk hc') hc) h
  · exact left hm (fun _ _ _ hc => hk hc) h
  · exact right hm' (fun _ _ _ hc' => hk hc') h
  · exact hk h

/-- The code of expressions. -/
theorem exprSteps (htold : Closed told) : (reading told aside).ExprSteps where
  toBase := base htold
  fits _ _ := trivial
  keyword text htext := by
    simp only [List.mem_cons, List.not_mem_nil, or_false] at htext
    rcases htext with rfl | rfl | rfl <;> exact ⟨by decide, by decide⟩
  value h := ⟨h.1.value, h.2.value⟩
  cells _ := ⟨Operand.given_cells _, Operand.given_cells _⟩
  missing h := by
    obtain ⟨⟨hpresent, hnone⟩, ⟨hpresent', hnone'⟩⟩ := h
    rw [hpresent, hpresent', decide_eq_false hnone, decide_eq_false hnone']
  setValue h := any (.setValue h.1) (.setValue h.2)
  use _ := any (.use _) (.use _)
  arithmetic _ _ op := given (.arithmetic _ _ op) (.arithmetic _ _ op)
  comparison _ _ op := given (.comparison _ _ op) (.comparison _ _ op)
  logical _ _ op := given (.logical _ _ op) (.logical _ _ op)
  logicalNot _ := given (.logicalNot _) (.logicalNot _)
  unary _ op := given (.unary _ op) (.unary _ op)
  callToString _ := given (.call _ _) (.call _ _)
  constant h := given (.constant h) (.constant h)
  loadElement _ _ size := given (.loadElement _ _ size) (.loadElement _ _ size)
  variableValue _ _ h := given (.variableValue _) (.variableValue _) h
  placeValue _ _ h := given (.placeValue _) (.placeValue _) h
  loadThis _ := given .loadThis .loadThis
  newObject _ cls := given (.newObject cls) (.newObject cls)
  loadMember _ _ _ _ cls member := given (.loadMember _ cls member) (.loadMember _ cls member)
  store _ _ h hv := guarded ((Writes.place _).bind fun _ _ => .assign _ hv.1)
    ((Writes.place _).bind fun _ _ => .assign _ hv.2) h
  storeToArray _ _ h _ _ := guarded (.storeToArray _ _ _) (.storeToArray _ _ _) h
  call h f _ := guarded ((Writes.call f _).bind fun _ ho => .setValue ho)
    ((Writes.call f _).bind fun _ ho => .setValue ho) h
  callMethod _ _ _ _ _ _ _ h _ cls f _ :=
    ⟨guarded (.callMethod _ cls f _) (.callMethod _ cls f _) h,
      guarded ((Writes.callMethod _ cls f _).bind fun _ ho => .setValue ho)
        ((Writes.callMethod _ cls f _).bind fun _ ho => .setValue ho) h⟩

/-! ## Expressions read in one reading -/

/-- A state agrees with itself up to its reports. -/
theorem agree_errors {es : Array String} (hsound : b.table.Sound) (hb : b.Valued)
    (hes : told b.errors es) :
    (reading told aside).Agree b { b with errors := es } :=
  ⟨hsound, fun _ _ _ => ⟨fun _ => rfl, fun _ => trivial⟩, fun _ => trivial,
    (SymbolTable.rename_identity _).symm, rfl, rfl, rfl, rfl, rfl, hes, hb, { hb with }⟩

theorem twin_expr (htold : Closed told) (he : e.All (reading told aside).ok) :
    (reading told aside).Alike (Compile.expr e) := by
  have htwin := (exprSteps htold).expr e he
  rwa [show (reading _ _).names = Renaming.identity from rfl, Expr.rename_identity] at htwin

/-- Reading an expression leaves a value at hand. -/
theorem valued_expr (he : e.All (reading (fun _ _ => True) (fun _ => True)).ok) {t? : Option Ty}
    (hsound : b.table.Sound) (hb : b.Valued) (hend : Ends (Compile.expr e) b t? c) : c.Valued := by
  have hsame : (reading (fun _ _ => True) (fun _ => True)).Agree b b :=
    agree_errors hsound hb trivial
  exact ((twin_expr (fun _ _ _ _ => trivial) he hsame).ends hend hend).2.code.1

/-- The step only makes reports that `p` leaves out, and leaves a value at hand. -/
def Unheard (p : String → Bool) (m : BuildM α) : Prop :=
  ∀ ⦃b a c⦄, b.table.Sound → b.Valued → Ends m b a c →
  c.Valued ∧ Compile.Calm b c ∧ c.errors.toList.filter p = b.errors.toList.filter p

namespace Unheard

variable {p : String → Bool}

theorem pure (a : α) : Unheard p (pure a : BuildM α) := by
  intro b a' c _ hb hend
  obtain ⟨-, rfl⟩ := ends_pure.mp hend
  exact ⟨hb, .refl _, rfl⟩

theorem bind {m : BuildM α} (hm : Unheard p m) (hf : ∀ a, Unheard p (f a)) :
    Unheard p (m >>= f) := by
  intro b d c hsound hb hend
  obtain ⟨a, b₁, hend₁, hend₂⟩ := ends_bind.mp hend
  obtain ⟨hb₁, hcalm₁, hfilter₁⟩ := hm hsound hb hend₁
  have hsound₁ : b₁.table.Sound := (show b₁.table = b.table from hcalm₁.view.table) ▸ hsound
  obtain ⟨hc, hcalm₂, hfilter₂⟩ := hf a hsound₁ hb₁ hend₂
  exact ⟨hc, hcalm₁.trans hcalm₂, hfilter₂.trans hfilter₁⟩

end Unheard

/-- The first reading began without reports, the second with some. What both have reported since is
the same but for what `p` leaves out. -/
def Told (p : String → Bool) (start : Array String) (es es' : Array String) : Prop :=
  es' ≠ #[] ∧ es'.toList.filter p = start.toList.filter p ++ es.toList.filter p

variable {p : String → Bool} {start : Array String}

theorem closed_told : Closed (Told p start) := by
  rintro es es' m ⟨-, h⟩
  refine ⟨Array.push_ne_empty, ?_⟩
  rw [Array.toList_push, Array.toList_push, List.filter_append, List.filter_append,
    h, List.append_assoc]

/-- What is asked of an expression that the readings come to at different times. -/
structure Hidden (p : String → Bool) (e : Expr) : Prop where
  expr : Unheard p (Compile.expr e)
  caseValue : ∀ t?, Unheard p (Compile.caseValue t? e)

theorem unheard_left {m : BuildM α} (hm : Unheard p m)
    (hf : ∀ a c, (reading (Told p start) aside).Agree c b' →
      (reading (Told p start) aside).From B c b' (f a) k')
    (h : (reading (Told p start) aside).Agree b b') :
    (reading (Told p start) aside).From B b b' (m >>= f) k' := by
  refine Build.From.left trivial fun a c hend => hf a c ?_
  obtain ⟨hc, hcalm, hfilter⟩ := hm h.sound h.code.1 hend
  refine agree_of_view h hcalm.view (Compile.Calm.refl b').view ?_ hc h.code.2
  exact ⟨h.reports.1, by rw [hfilter]; exact h.reports.2⟩

theorem unheard_right {m' : BuildM α'} {f' : α' → BuildM β'} (hm' : Unheard p m')
    (hf' : ∀ a' c', (reading (Told p start) aside).Agree b c' →
      (reading (Told p start) aside).From B b c' k (f' a'))
    (h : (reading (Told p start) aside).Agree b b') :
    (reading (Told p start) aside).From B b b' k (m' >>= f') := by
  refine Build.From.right trivial fun a' c' hend => hf' a' c' ?_
  have hsound : b'.table.Sound := by
    rw [h.table_eq (base closed_told) trivial]
    exact h.sound
  obtain ⟨hc', hcalm, hfilter⟩ := hm' hsound h.code.2 hend
  refine agree_of_view h (Compile.Calm.refl b).view hcalm.view ⟨?_, by
    rw [hfilter]; exact h.reports.2⟩ h.code.1 hc'
  intro hempty
  have hprefix := hcalm.errors
  rw [hempty] at hprefix
  exact h.reports.1 (Array.toList_eq_nil_iff.mp (List.prefix_nil.mp hprefix))

/-! ## Constructs -/

/-- Code that only the first reading writes at the end. -/
theorem trail {m : BuildM α} {m' : BuildM α'} (hm : (reading told aside).From A b b' m m')
    (hf : ∀ a, Writes Anything (f a)) : (reading told aside).From Any b b' (m >>= f) m' := by
  rw [← bind_pure m']
  refine hm.bind fun a a' c c' _ _ _ hc => ?_
  rw [← bind_pure (f a)]
  exact left (hf a) (fun _ _ _ hd => .pure trivial hd) hc

/-- The second reading has reports from the start. -/
theorem bothWays {m n : BuildM α} {m' n' : BuildM α'}
    (hm : (reading (Told p start) aside).From A b b' m n')
    (hn : (reading (Told p start) aside).From A b b' n n')
    (h : (reading (Told p start) aside).Agree b b') :
    (reading (Told p start) aside).From A b b' (do if ← isClean then m else n)
    (do if ← isClean then m' else n') := by
  have hdirty : b'.errors.isEmpty = false := by
    rw [Array.isEmpty_eq_false_iff]
    exact h.reports.1
  refine Build.From.read_bind ?_
  rw [hdirty]
  show (reading (Told p start) aside).From A b b' _ n'
  split
  · exact hm
  · exact hn

theorem discard_left {m : BuildM α} {m' : BuildM α'} (hm : (reading told aside).From A b b' m m') :
    (reading told aside).From Any b b' (discard m) m' := by
  show (reading told aside).From Any b b' ((fun _ => PUnit.unit) <$> m) m'
  rw [map_eq_pure_bind]
  exact trail hm fun _ => .pure trivial

theorem withLoop (l : Loop) {k' : BuildM Unit}
    (hbody : ∀ c, (reading told aside).Agree c b' → (reading told aside).From Any c b' body k')
    (h : (reading told aside).Agree b b') :
    (reading told aside).From Any b b' (Emit.withLoop l body) k' := by
  have hset (l? : Option Loop) :
    Writes Anything (modify fun b => { b with loop? := l? } : BuildM PUnit) :=
    .modify fun _ => rfl
  refine left (Writes.read fun _ _ => trivial : Writes Anything get) (fun d c _ hc => ?_) h
  refine left (hset (some l)) (fun _ c _ hc => ?_) hc
  exact trail (hbody c hc) fun _ => hset _

theorem ifElse (o : Operand) {yes yes' no no' : BuildM Unit}
    (hyes : (reading told aside).Twin Any yes yes') (hno : (reading told aside).Twin Any no no')
    (h : (reading told aside).Agree b b') :
    (reading told aside).From Any b b' (Emit.ifElse o yes no) (do yes'; no') := by
  refine left .newLabel
    (fun l c _ hc => left .newLabel (fun m c _ hc => left .newLabel (fun n c _ hc => ?_) hc) hc) h
  refine left (.quad _)
    (fun _ c _ hc => left (.jump _) (fun _ c _ hc => left (.mark _) (fun _ c _ hc => ?_) hc) hc) hc
  refine (hyes hc).bind fun _ _ d d' _ _ _ hd => ?_
  refine left (.jump _) (fun _ c _ hc => left (.mark _) (fun _ c _ hc => ?_) hc) hd
  exact trail (hno hc) fun _ => (Writes.mark _).seq (.pure trivial)

theorem discard_bind {m : BuildM α} : (discard m >>= fun _ => k) = m >>= fun _ => k := by
  show (((fun _ => PUnit.unit) <$> m : BuildM PUnit) >>= fun _ => k) = _
  rw [map_eq_pure_bind, bind_assoc]
  rfl

/-- The condition of a loop, in the first reading with a jump. -/
theorem exitUnless {A : Operand → Operand → Prop} (hm : (reading told aside).Twin A m m')
    (done : Operand) (hk : (reading told aside).Twin B k k') :
    (reading told aside).Twin B (do Emit.exitUnless m done; k) (do discard m'; k') := by
  rw [discard_bind]
  unfold Emit.exitUnless
  rw [bind_assoc]
  refine hm.bind fun o o' _ b b' h => ?_
  split
  · exact left (.quad _) (fun _ _ _ hc => hk hc) h
  · exact hk h

theorem whileLoop {A : Operand → Operand → Prop}
    (hm : (reading told aside).Twin A m m') (hbody : (reading told aside).Twin Any body body')
    (h : (reading told aside).Agree b b') :
    (reading told aside).From Any b b' (Emit.whileLoop m body) (do discard m'; body') := by
  refine left .newLabel (fun start c _ hc => left .newLabel (fun done c _ hc => ?_) hc) h
  refine trail (withLoop _ (fun c hc => ?_) hc) fun _ => .pure trivial
  refine left (.mark _) (fun _ c _ hc => exitUnless hm _ (fun b b' h => ?_) hc) hc
  exact trail (hbody h) fun _ => (Writes.jump _).seq (.mark _)

variable {u? : Option Expr} {cs : List Case}

theorem forLoop {init init' : BuildM Unit} {A : Operand → Operand → Prop}
    (hinit : (reading (Told p start) aside).Twin Any init init')
    (hm : (reading (Told p start) aside).Twin A m m') (hu : Unheard p (Compile.loopUpdate u?))
    (hbody : (reading (Told p start) aside).Twin Any body body')
    (h : (reading (Told p start) aside).Agree b b') :
    (reading (Told p start) aside).From Any b b' (Emit.forLoop init m (Compile.loopUpdate u?) body)
      (do init'; discard m'; Compile.loopUpdate u?; body') := by
  refine left .newLabel (fun first c _ hc => left .newLabel (fun again c _ hc => ?_) hc) h
  refine left .newLabel (fun done c _ hc => ?_) hc
  refine trail (withLoop _ (fun c hc => ?_) hc) fun _ => .pure trivial
  refine (hinit hc).bind fun _ _ d d' _ _ _ hd => ?_
  refine left (.mark _) (fun _ c _ hc => exitUnless hm _ (fun b b' h => ?_) hc) hd
  -- The second reading comes to the last part before the body, the first one behind it.
  refine unheard_right hu (fun _ c' hc => ?_) h
  rw [← bind_pure body']
  refine (hbody hc).bind fun _ _ d d' _ _ _ hd => left (.mark _) (fun _ c _ hc => ?_) hd
  refine unheard_left hu (fun _ c hc => ?_) hc
  exact left (.jump _) (fun _ c _ hc => any (.mark _) (.pure trivial) hc) hc

theorem caseValues (t : Ty) (hcs : ∀ e body, Case.mk e body ∈ cs → Hidden p e) :
    Unheard p (Compile.caseValues (some t) cs) := by
  unfold Compile.caseValues
  induction cs with
  | nil => exact .pure []
  | cons c cs ih =>
    obtain ⟨e, body⟩ := c
    rw [List.mapM_cons]
    refine ((hcs e body (.head _)).caseValue (some t)).bind fun v => ?_
    exact (ih fun e body hmem => hcs e body (.tail _ hmem)).bind fun vs => .pure _

theorem switchCase (subject v done : Operand) (hbody : (reading told aside).Twin Any body body')
    (h : (reading told aside).Agree b b') :
    (reading told aside).From Any b b' (Emit.switchCase subject v done body) body' := by
  refine left .newLabel (fun here c _ hc => left .newLabel (fun next c _ hc => ?_) hc) h
  refine left .newTemp (fun t c _ hc => ?_) hc
  refine left (.quad _)
    (fun _ c _ hc => left (.quad _) (fun _ c _ hc => left (.mark _) (fun _ c _ hc => ?_) hc) hc) hc
  exact trail (hbody hc) fun _ => (Writes.jump _).seq (.mark _)

/-- The bodies of the cases. The second reading comes to a value right before the body. -/
theorem cases (subject done : Operand) (values : List Operand) (hcs : ∀ e body,
    Case.mk e body ∈ cs → Hidden p e ∧
      (reading (Told p start) aside).Same (Compile.statements body)) :
    (reading (Told p start) aside).Twin Any
      ((Compile.caseCodes values cs).forM fun c => Emit.switchCase subject c.1 done c.2)
        (Compile.caseBodies cs) := by
  induction cs generalizing values with
  | nil => exact .pure trivial
  | cons c cs ih =>
    obtain ⟨e, body⟩ := c
    obtain ⟨hhidden, hbody⟩ := hcs e body (.head _)
    intro b b' h
    rw [Compile.caseBodies, discard_bind]
    refine unheard_right hhidden.expr (fun _ c' hc => ?_) h
    refine (switchCase subject (values.headD .none) done hbody hc).bind fun _ _ d d' _ _ _ hd => ?_
    exact ih values.tail (fun e body hmem => hcs e body (.tail _ hmem)) hd

theorem switchBody {default? default?' : Option (BuildM Unit)} (t : Ty)
    (hcs : ∀ e body, Case.mk e body ∈ cs → Hidden p e ∧
      (reading (Told p start) aside).Same (Compile.statements body))
    (hdefault : Option.Rel ((reading (Told p start) aside).Twin Any) default? default?')
    (h : (reading (Told p start) aside).Agree b b') :
    (reading (Told p start) aside).From Any b b' (do
        let v ← Compile.value
        let values ← Compile.caseValues (some t) cs
        Emit.switchCode v (Compile.caseCodes values cs) default?)
      (do Compile.caseBodies cs; default?'.getD (pure ())) := by
  refine left (Writes.read fun _ _ => trivial : Writes Anything Compile.value)
    (fun v c _ hc => ?_) h
  refine unheard_left (caseValues t fun e body hmem => (hcs e body hmem).1)
    (fun values c hc => ?_) hc
  refine left .newLabel (fun done c _ hc => ?_) hc
  refine (cases v done values hcs hc).bind fun _ _ d d' _ _ _ hd => ?_
  cases hdefault with
  | none => exact any (.mark done) (.pure trivial) hd
  | some hbody =>
    refine left .newLabel (fun other c _ hc => left (.mark _) (fun _ c _ hc => ?_) hc) hd
    exact trail (hbody hc) fun _ => .mark done

/-- Only the first reading writes the code of a function; both read its body. -/
theorem routine (name : String) (frame : FrameId) (label : Operand) (result? : Option Ty)
    (hbody : (reading told aside).Twin Any body body') (h : (reading told aside).Agree b b') :
    (reading told aside).From Any b b' (Emit.routine name frame label result? body) body' := by
  have hlook : Writes Anything (get : BuildM Build) := Writes.read fun _ _ => trivial
  refine left (.mark label) (fun _ c _ hc => left hlook (fun opening c _ hc => ?_) hc) h
  refine left (.frameAt frame) (fun f c _ hc => left (.quad _) (fun _ c _ hc => ?_) hc) hc
  refine left hlook (fun outer c _ hc => ?_) hc
  refine left (.modify fun _ => rfl) (fun _ c _ hc => ?_) hc
  refine trail (hbody hc) fun _ => (Writes.frameAt frame).bind fun f _ => ?_
  refine Writes.seq (.modify fun _ => rfl) (.maybe (.quad _) ((Writes.quad _).seq ?_))
  exact Writes.seq (.modify fun _ => rfl) (.pure trivial)

theorem function (name : String) (qs : List (String × Option Ty)) (result? : Option Ty)
    (hbody : (reading told aside).Twin Any body body') (h : (reading told aside).Agree b b') :
    (reading told aside).From Any b b' (Emit.function name qs result? body) body' :=
  left (.newFrame name)
    (fun _ _ _ hc => left (.modifyFrame _ _) (fun _ _ _ hc => routine _ _ _ _ hbody hc) hc) h

theorem method (cls name : String) (qs : List (String × Option Ty)) (result? : Option Ty)
    (hbody : (reading told aside).Twin Any body body') (h : (reading told aside).Agree b b') :
    (reading told aside).From Any b b' (Emit.method cls name qs result? body) body' := by
  have hsay (f : Frame) : Writes Anything (Emit.sayFrame cls name f) :=
    (Writes.say _).seq ((Writes.say _).seq (Writes.seq (.forM fun _ _ => .say _) (.say _)))
  refine left (.setFunction _) (fun _ c _ hc => left (.newFrame _) (fun frame c _ hc => ?_) hc) h
  refine left (.modifyFrame _ _) (fun _ c _ hc => left (.frameAt _) (fun f c _ hc => ?_) hc) hc
  exact left (hsay f) (fun _ c _ hc => routine _ _ _ _ hbody hc) hc

theorem unheard_loopUpdate (hu : ∀ u ∈ u?, Hidden p u) : Unheard p (Compile.loopUpdate u?) := by
  cases u? with
  | none => exact .pure ()
  | some u =>
    show Unheard p ((fun _ => PUnit.unit) <$> Compile.expr u)
    rw [map_eq_pure_bind]
    exact (hu u rfl).expr.bind fun _ => .pure _

/-- The code of statements, where the second reading has reports from the start. -/
theorem steps : (reading (Told p start) (Hidden p)).Steps where
  toExprSteps := exprSteps closed_told
  setDirect on := any (.setDirect on) (.setDirect on)
  endExpression := any .endExpression .endExpression
  setFunction name := any (.setFunction name) (.setFunction name)
  leaveFunction := .modify fun b b' h =>
    { h with inFunction? := rfl, code := ⟨{ h.code.1 with }, { h.code.2 with }⟩ }
  layout _ id := any (.layout id) (.layout id)
  initialise _ _ h := guarded (.initialise _) (.initialise _) h
  storeMember _ _ _ _ _ _ _ h _ _ cls member :=
    guarded (.storeMember _ cls member _) (.storeMember _ cls member _) h
  returnValue h _ := guarded (.returnValue _) (.returnValue _) h
  print h _ type? := guarded (.print _ type?) (.print _ type?) h
  leaveTo h target := guarded (.leaveTo target) (.leaveTo target) h
  -- One reading may write code while the other reads the parts alone.
  ifElse _ hyes hno b b' h := bothWays (discard_left (ifElse _ hyes hno h)) ((hyes.seq hno) h) h
  whileLoop hc hbody b b' h :=
    bothWays (discard_left (whileLoop hc hbody h)) ((hc.discard.seq hbody) h) h
  -- The update is read last in one of the ways, and before the body in the other.
  forLoop hinit hc hu hbody b b' h := by
    have hupdate := Pairing.Aside.loopUpdate hu
    rw [show (reading (Told p start) (Hidden p)).names = .identity from rfl,
      Expr.rename_identity_eq,
      Option.map_id'] at hupdate ⊢
    refine bothWays (discard_left
      (forLoop hinit hc (unheard_loopUpdate fun u hmem => (hu u hmem).aside) hbody h)) ?_ h
    exact (hinit.seq (hc.discard.seq (hupdate.seq hbody))) h
  switch {cs default? default?'} t hcs hdefault b b' h := by
    have hbodies := Pairing.Aside.caseBodies hcs
    have hdefaults : (reading (Told p start) (Hidden p)).Twin Any (default?.getD (pure ()))
        (default?'.getD (pure ())) := by
      cases hdefault with
      | none => exact .pure trivial
      | some hbody => exact hbody
    rw [show (reading (Told p start) (Hidden p)).names = .identity from rfl,
      Case.renameAll_identity] at hbodies ⊢
    -- So are the values of the cases.
    refine bothWays (switchBody t (fun e body hmem => ?_) hdefault h) ((hbodies.seq hdefaults) h) h
    obtain ⟨haside, hbody⟩ := hcs e body hmem
    rw [show (reading (Told p start) (Hidden p)).names = .identity from rfl,
      Stmt.renameAll_identity] at hbody
    exact ⟨haside.aside, hbody⟩
  function name result? _ hbody b b' h :=
    bothWays (left (.frameParams _)
      (fun qs _ _ hc => discard_left (function name qs result? hbody hc)) h) (hbody h) h
  method _ _ _ _ cls name result? hbody b b' h :=
    bothWays (left (.frameParams _)
      (fun qs _ _ hc => discard_left (method cls name qs result? hbody hc)) h) (hbody h) h

end Reading

/-! ## Statements -/

/-- The constants in an expression are those of the language. -/
def Item.Formed : Item → Prop
  | value e | aside e => e.All Expr.Formed
  | var _ | function _ | type _ | classDecl _ => True

namespace Reading

theorem ok_of_formed {told : Array String → Array String → Prop} {aside : Expr → Prop}
    (he : e.All Expr.Formed) : e.All (reading told aside).ok := by
  refine Expr.All.mono (fun e he => ?_) e he
  cases e with
  | literal line l =>
    cases l with
    | plain text =>
      have hconstant : IsConstant text.toList := he
      refine ⟨?_, ?_⟩
      · rintro rfl
        rcases hconstant with hread | ⟨ds, hds⟩
        · exact absurd hread (by decide)
        · cases hds
      · rintro rfl
        exact hconstant.ne_cons (by decide) (by decide) rfl
    | null | bool => exact trivial
  | access a | assign a =>
    obtain ⟨a, ss⟩ := a
    cases a <;> exact trivial
  | _ => exact trivial

end Reading

namespace Compile

/-- The predicate holds of no report that is made when the expression is read as the value of a
case. -/
def LeftOut (p : String → Bool) (e : Expr) : Prop :=
  ∀ ⦃subject? b v c⦄, Ends (caseValue subject? e) b v c →
  c.errors.toList.filter p = b.errors.toList.filter p

theorem caseValue_ends {subject? : Option Ty} {b c : Build} {v : Operand}
    (hend : Ends (caseValue subject? e) b v c) : ∃ t? d, Ends (expr e) b t? d ∧
      (c = d ∨ ∃ m, c = { d with errors := d.errors.push m }) := by
  obtain ⟨t?, d, hexpr, htest⟩ := ends_bind.mp hend
  refine ⟨t?, d, hexpr, ?_⟩
  dsimp only at htest
  split at htest
  · simp only [ends_bind] at htest
    obtain ⟨found, d₁, hfound, wanted, d₂, hwanted, _, d₃, herror, h₃⟩ := htest
    obtain ⟨-, rfl⟩ := Build.ends_ofExcept.mp hfound
    obtain ⟨-, rfl⟩ := Build.ends_ofExcept.mp hwanted
    obtain rfl := Build.ends_modify.mp herror
    exact .inr ⟨_, (Build.ends_read.mp h₃).2⟩
  · exact .inl (Build.ends_read.mp htest).2

theorem hidden {p : String → Bool} (he : e.All Expr.Formed) (hp : LeftOut p e) :
    Reading.Hidden p e where
  expr b t? c hsound hb hend := by
    refine ⟨Reading.valued_expr (Reading.ok_of_formed he) hsound hb hend, Calm.expr e hend, ?_⟩
    -- As the value of a case whose subject has its type, the expression makes no other report.
    have hsame : (t? != t?) = false := by
      cases t? with
      | none => rfl
      | some t =>
        show (!(t.name == t.name)) = false
        rw [beq_self_eq_true]
        rfl
    refine @hp t? b c.value c (ends_bind.mpr ⟨t?, c, hend, ?_⟩)
    rw [hsame, Bool.and_false, if_neg Bool.false_ne_true]
    exact Build.ends_read.mpr ⟨rfl, rfl⟩
  caseValue subject? b v c hsound hb hend := by
    obtain ⟨t?, d, hexpr, hd⟩ := caseValue_ends hend
    have hvalued := Reading.valued_expr (Reading.ok_of_formed he) hsound hb hexpr
    have hcalm := Calm.expr e hexpr
    rcases hd with rfl | ⟨m, rfl⟩
    · exact ⟨hvalued, hcalm, hp hend⟩
    · refine ⟨{ hvalued with }, hcalm.trans ?_, hp hend⟩
      exact ⟨{ Build.SameView.refl _ with }, prefix_push _ _⟩

/-- A statement declares the same and warns of the same whether or not there are reports already.
Its own reports are the same but for those made on the last parts of counting loops and on the
values of cases. -/
theorem reports_independent {s : Stmt} {b c c' : Build} {es : Array String} {t? t?' : Option Ty}
    (hs : ∀ i ∈ s.items, i.Formed) (hsound : b.table.Sound) (hb : b.Valued)
    (hclean : b.errors = #[]) (hes : es ≠ #[]) (hend : Ends (statement s) b t? c)
    (hend' : Ends (statement s) { b with errors := es } t?' c') :
    t?' = t? ∧ c'.table = c.table ∧ c'.warnings = c.warnings ∧ c.Valued ∧ c'.Valued ∧
      ∀ p, (∀ e, .aside e ∈ s.items → LeftOut p e) →
        c'.errors.toList.filter p = es.toList.filter p ++ c.errors.toList.filter p := by
  have hread (p : String → Bool) (hp : ∀ e, .aside e ∈ s.items → LeftOut p e) :
      t? = t?' ∧ (reading (Reading.Told p es) (Reading.Hidden p)).Agree c c' := by
    have hadmits : ∀ i ∈ s.items, (reading (Reading.Told p es) (Reading.Hidden p)).Admits i := by
      intro i hi
      cases i with
      | value e => exact Reading.ok_of_formed (hs _ hi)
      | aside e => exact ⟨Reading.ok_of_formed (hs _ hi), hidden (hs _ hi) (hp e hi)⟩
      | function name => rfl
      | var _ | type _ | classDecl _ => exact trivial
    have hstart : (reading (Reading.Told p es) (Reading.Hidden p)).Agree b
      { b with errors := es } := by
      refine Reading.agree_errors hsound hb ⟨hes, ?_⟩
      rw [hclean]
      exact (List.append_nil _).symm
    have htwin := Reading.steps.statement s hadmits hstart
    rw [show (reading _ _).names = Renaming.identity from rfl, Stmt.rename_identity] at htwin
    exact htwin.ends hend hend'
  obtain ⟨htype, hagree⟩ := hread (fun _ => false) fun _ _ _ _ _ _ _ => by
    rw [List.filter_false, List.filter_false]
  refine ⟨htype.symm, ?_, hagree.warnings, hagree.code.1, hagree.code.2,
    fun p hp => (hread p hp).2.reports.2⟩
  exact hagree.table_eq (Reading.base Reading.closed_told) trivial

theorem valued_start :
    Build.Valued { value := .temp 0 } := ⟨Operand.given_temp 0, by decide, nofun, nofun⟩

/-- A declaration with a report of its own, in the branch of a condition. -/
def wrongBranch : Stmt :=
  .ifElse 1 (.literal 1 (.bool true))
    [.declare ⟨1, "x", some "integer", some (.literal 1 (.plain "\"s\""))⟩] none

/-- The report is made, and the variable is declared, behind a report as without one. -/
theorem reports_independent_branch : ∃ t? c c',
    Ends (statement wrongBranch) { value := .temp 0 } t? c ∧
    Ends (statement wrongBranch) { value := .temp 0, errors := #["-"] } t? c' ∧
    c.errors = #["Error semántico. Línea 1: No se puede asignar string a integer"] ∧
    c'.errors.toList = "-" :: c.errors.toList ∧ c'.table = c.table ∧ c.table.symbols.size = 1 := by
  have hformed : ∀ i ∈ wrongBranch.items, i.Formed := by
    have hconstant : IsConstant ['"', 's', '"'] := .inr ⟨['s'], rfl⟩
    simp [wrongBranch, Stmt.items, Stmt.itemsAll, VarDecl.items, Item.Formed, Expr.All,
      Expr.Formed, hconstant]
  obtain ⟨t?, c, hc, herrors, hsize⟩ :
    ∃ t? c, Ends (statement wrongBranch) { value := .temp 0 } t? c ∧
      c.errors = #["Error semántico. Línea 1: No se puede asignar string a integer"] ∧
        c.table.symbols.size = 1 := by
    decide +kernel
  obtain ⟨t?', c', hc', -⟩ :
    ∃ t? c, Ends (statement wrongBranch) { value := .temp 0, errors := #["-"] } t? c ∧
      True := by
    decide +kernel
  obtain ⟨rfl, htable, -, -, -, hfilter⟩ :=
    reports_independent hformed SymbolTable.Sound.start valued_start rfl (by decide) hc hc'
  have happend := hfilter (fun _ => true) fun e he => by
    simp [wrongBranch, Stmt.items, Stmt.itemsAll, VarDecl.items] at he
  rw [List.filter_true, List.filter_true, List.filter_true] at happend
  exact ⟨_, c, c', hc, hc', herrors, happend, htable, hsize⟩

/-- The value of a case is of another type than the subject. -/
def wrongCase : Stmt := .switch 1 (.literal 1 (.plain "1")) [.mk (.literal 1 (.bool true)) []] none

/-- The type of the value of a case is not looked at behind a report. -/
theorem case_report_missing : ∃ t? t?' c c',
    Ends (statement wrongCase) { value := .temp 0 } t? c ∧
    Ends (statement wrongCase) { value := .temp 0, errors := #["-"] } t?' c' ∧
    c.errors = #["Error semántico. Línea 1: Case expression type boolean doesn't match switch type integer"] ∧
    c'.errors = #["-"] := by
  obtain ⟨t?, c, hc, herrors⟩ :
    ∃ t? c, Ends (statement wrongCase) { value := .temp 0 } t? c ∧ c.errors =
      #["Error semántico. Línea 1: Case expression type boolean doesn't match switch type integer"]
        := by
    decide +kernel
  obtain ⟨t?', c', hc', herrors'⟩ :
    ∃ t? c, Ends (statement wrongCase) { value := .temp 0, errors := #["-"] } t? c ∧
      c.errors = #["-"] := by
    decide +kernel
  exact ⟨t?, t?', c, c', hc, hc', herrors, herrors'⟩

end Compile

end Scriptc
