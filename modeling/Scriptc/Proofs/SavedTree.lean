import Mathlib.Data.List.Induction
import Scriptc.Proofs.Sessions

/-!
# Scriptc: the saved tree and the results of a session

A compilation saves the parse tree before the program is checked, and the session takes its results
when it has come to its end. So the tree and the results are those of one text as long as the last
compilation has come to its end (`Page.results_of_saved_tree`). A compilation that fails behind the
tree leaves a tree beside the results of another text: `Page.tree_beside_other_results`.
-/

namespace Scriptc

namespace Run

variable {α β : Type} {saved? : Option Doc}

/-- From where `saved?` is the saved tree, the run leaves it, and its result is as `P` says. -/
def Leaves (saved? : Option Doc) (m : RunM α) (P : α → Prop) : Prop :=
  ∀ o : Output, o.tree? = saved? → (Id.run (StateT.run (ExceptT.run m) o)).2.tree? = saved? ∧
    ∀ a, (Id.run (StateT.run (ExceptT.run m) o)).1 = .ok a → P a

namespace Leaves

theorem pure {P : α → Prop} {a : α} (h : P a) : Leaves saved? (pure a) P := by
  intro o ho
  refine ⟨ho, fun c hc => ?_⟩
  cases hc
  exact h

theorem throw {P : α → Prop} (f : Fault) : Leaves saved? (throw f) P := by
  intro o ho
  refine ⟨ho, fun c hc => ?_⟩
  cases hc

theorem print (text : String) :
    Leaves saved? (print text) fun _ => True := fun _ ho => ⟨ho, fun _ _ => trivial⟩

theorem say (line : String) :
    Leaves saved? (say line) fun _ => True := fun _ ho => ⟨ho, fun _ _ => trivial⟩

theorem bind {Q : β → Prop} {m : RunM α} {f : α → RunM β} (hm : Leaves saved? m fun _ => True)
    (hf : ∀ a, Leaves saved? (f a) Q) : Leaves saved? (m >>= f) Q := by
  intro o ho
  have htree := (hm o ho).1
  simp only [ExceptT.run_bind, StateT.run_bind, Id.run_bind]
  rcases hrun : Id.run (StateT.run (ExceptT.run m) o) with ⟨r, o₁⟩
  rw [hrun] at htree
  cases r with
  | error e => exact ⟨htree, nofun⟩
  | ok a => exact hf a o₁ htree

theorem ofExcept (r : Except Fault α) : Leaves saved? (ofExcept r) fun _ => True := by
  cases r with
  | ok a => exact pure trivial
  | error f => exact throw f

end Leaves

/-- The tree of the results is the one that was saved. -/
def Saves (m : RunM Results) : Prop :=
  ∀ o r, (Id.run (StateT.run (ExceptT.run m) o)).1 = .ok r →
    (Id.run (StateT.run (ExceptT.run m) o)).2.tree? = some r.tree

theorem Saves.bind {m : RunM α} {f : α → RunM Results} (hf : ∀ a, Saves (f a)) :
    Saves (m >>= f) := by
  intro o r
  simp only [ExceptT.run_bind, StateT.run_bind, Id.run_bind]
  rcases Id.run (StateT.run (ExceptT.run m) o) with ⟨x | a, o₁⟩
  · exact nofun
  · exact hf a o₁ r

/-- Behind the place where the tree is saved it stays. -/
theorem Saves.of_leaves {tree : Doc} {m : RunM Results} (h : Leaves (some tree) m (·.tree = tree)) :
    Saves (modify (fun o => { o with tree? := some tree }) >>= fun _ => m) := by
  intro o r hr
  obtain ⟨htree, hresult⟩ := h { o with tree? := some tree } rfl
  exact htree.trans (congrArg some (hresult r hr).symm)

theorem saves_ofText (mend : Mending) (text path : String) : Saves (ofText mend text path) := by
  refine Saves.bind fun _ => Saves.bind fun _ => Saves.bind fun tree => ?_
  refine .of_leaves (.bind (.say _) fun _ => .bind ?_ fun b => .bind ?_ fun _ => ?_)
  · exact .bind (.print _) fun _ => .bind (.ofExcept _) fun _ => .pure trivial
  · exact .bind (.say _) fun _ => .bind (.print _) fun _ => .bind (.say _) fun _ => .print _
  · dsimp only
    cases b.assembly? with
    | none =>
      split
      · exact .bind (.say _) fun _ => .bind (.pure trivial) fun _ => .pure rfl
      · exact .bind (.pure trivial) fun _ => .pure rfl
    | some r =>
      have hlast {text : String} : Leaves (some tree) (do
          say assemblyTitle
          say text
          return (⟨tree, b.errors.toList, b.table.toDoc,
            .list (b.quads.toList.map Quad.toRecord), text⟩ :
            Results)) (·.tree = tree) :=
        .bind (.say _) fun _ => .bind (.say _) fun _ => .pure rfl
      split
      · exact .bind (.say _) fun _ => .bind (.ofExcept r) fun _ => hlast
      · exact .bind (.ofExcept r) fun _ => hlast

end Run

/-- The results of a session and the saved tree are those of a text. -/
def Session.Agrees (mend : Mending) (s : Session) (f : Folder) (text : String) : Prop :=
  ∃ path r, (Run.start (Run.ofText mend text path)).1 = .ok r ∧ s.outcome = r.outcome ∧
    f.tree? = some r.tree.render

/-- The tree that a compilation of a text saves, however it ends. -/
def Visit.saved? (mend : Mending) (v : Visit) (text : String) : Option Doc :=
  if v.hasCompiler = true ∧ ¬ text = "" then (Attempt.start mend v text).output.tree? else none

namespace Page

variable {mend : Mending} {v : Visit}

theorem tree_of_attempt {text : String} {r : Results}
    (h : (Attempt.start mend v text).result = .ok r) :
    (Attempt.start mend v text).output.tree? = some r.tree := by
  have hrun := (result_start.mp h).2
  have hsaved := Run.saves_ofText mend text v.treePath {} r hrun
  unfold Attempt.start at h ⊢
  cases hprepare : v.prepare with
  | error o =>
    rw [hprepare] at h
    cases h
  | ok log =>
    dsimp only
    rcases hstart : Run.start (Run.ofText mend text v.treePath) with ⟨x | x, out⟩
    · rw [hstart] at hrun
      cases hrun
    · exact (congrArg (·.2.tree?) hstart.symm).trans hsaved

/-- A compilation that comes to its end has saved the tree of its results. -/
theorem compile_agrees {p : Page} (h : (compile mend v p).session.compiled = true) :
    (compile mend v p).session.Agrees mend (compile mend v p).folder
    (Blank.strip p.session.code) := by
  unfold compile at h ⊢
  by_cases hcompiler : v.hasCompiler = true
  · by_cases hempty : Blank.strip p.session.code = ""
    · simp only [hcompiler, hempty] at h
      cases h
    · simp only [hcompiler, hempty, Bool.not_true, Bool.false_eq_true, ↓reduceIte] at h ⊢
      cases hresult : (Attempt.start mend v (Blank.strip p.session.code)).result with
      | error o =>
        rw [hresult] at h
        cases h
      | ok r =>
        refine ⟨_, r, (result_start.mp hresult).2, rfl, ?_⟩
        dsimp only [Attempt.save]
        rw [tree_of_attempt hresult]
        rfl
  · simp only [hcompiler] at h
    cases h

/-- A compilation that fails leaves the results, and the tree unless it has saved one. -/
theorem compile_failed {p : Page} (h : (compile mend v p).session.compiled = false) :
    (compile mend v p).session.outcome = p.session.outcome ∧ (compile mend v p).folder.tree? =
      ((v.saved? mend (Blank.strip p.session.code)).map Doc.render).or p.folder.tree? := by
  constructor
  · by_cases hfails : v.FailsOn mend (Blank.strip p.session.code)
    · exact (compile_fails hfails).1
    · obtain ⟨r, -, hsession⟩ := compile_succeeds hfails
      rw [hsession] at h
      cases h
  · unfold compile Visit.saved?
    cases hcompiler : v.hasCompiler with
    | false => rfl
    | true =>
      by_cases hempty : Blank.strip p.session.code = ""
      · simp [hempty]
      · simp only [hempty, Bool.not_true, Bool.false_eq_true, ↓reduceIte,
          not_false_eq_true, and_self]
        rfl

/-- The session and the files after visits in a row, from an empty session and an empty folder. -/
def afterVisits (mend : Mending) (vs : List Visit) : Session × Folder :=
  vs.foldl (fun before v =>
    ((visit mend v before.1 before.2).2.session,
    (visit mend v before.1 before.2).2.folder)) ({}, {})

theorem afterVisits_concat (mend : Mending) (vs : List Visit) (v : Visit) :
    afterVisits mend (vs ++ [v]) =
    ((visit mend v (afterVisits mend vs).1 (afterVisits mend vs).2).2.session,
      (visit mend v (afterVisits mend vs).1 (afterVisits mend vs).2).2.folder) := by
  unfold afterVisits
  rw [List.foldl_append]
  rfl

theorem agrees_of_compiled (mend : Mending) (vs : List Visit)
    (hpressed : v.pressed.contains "Compilar" = true)
    (hcompiled : (afterVisits mend (vs ++ [v])).1.compiled = true) :
    (afterVisits mend (vs ++ [v])).1.Agrees mend (afterVisits mend (vs ++ [v])).2
      (Blank.strip ((afterVisits mend vs).1.loaded v).code) := by
  rw [afterVisits_concat] at hcompiled ⊢
  obtain ⟨q, htends, hsession, hfolder⟩ :=
    visit_tends mend v (afterVisits mend vs).1 (afterVisits mend vs).2
  rw [if_pos hpressed] at hsession hfolder
  dsimp only at hcompiled
  rw [htends.compiled, hsession] at hcompiled
  obtain ⟨path, r, hrun, houtcome, htree⟩ := compile_agrees hcompiled
  rw [← hsession, ← htends.outcome] at houtcome
  rw [← hfolder, ← htends.folder] at htree
  exact ⟨path, r, code_loaded v (afterVisits mend vs).1 ▸ hrun, houtcome, htree⟩

theorem kept_of_failed (mend : Mending) (vs : List Visit)
    (hpressed : v.pressed.contains "Compilar" = true)
    (h : (afterVisits mend (vs ++ [v])).1.compiled = false) :
    (afterVisits mend (vs ++ [v])).1.outcome = (afterVisits mend vs).1.outcome ∧
    (afterVisits mend (vs ++ [v])).2.tree? =
      ((v.saved? mend (Blank.strip ((afterVisits mend vs).1.loaded v).code)).map Doc.render).or
        (afterVisits mend vs).2.tree? := by
  rw [afterVisits_concat] at h ⊢
  obtain ⟨q, htends, hsession, hfolder⟩ :=
    visit_tends mend v (afterVisits mend vs).1 (afterVisits mend vs).2
  rw [if_pos hpressed] at hsession hfolder
  dsimp only at h ⊢
  rw [htends.compiled, hsession] at h
  obtain ⟨houtcome, htree⟩ := compile_failed h
  rw [htends.outcome, htends.folder, hsession, hfolder, houtcome, htree,
    outcome_loaded, code_loaded]
  exact ⟨rfl, rfl⟩

theorem agrees_afterVisits (mend : Mending) (vs : List Visit)
    (h : (afterVisits mend vs).1.compiled = true) :
    ∃ text, (afterVisits mend vs).1.Agrees mend (afterVisits mend vs).2 text := by
  induction vs using List.reverseRecOn with
  | nil => cases h
  | append_singleton vs v ih =>
    by_cases hpressed : v.pressed.contains "Compilar" = true
    · exact ⟨_, agrees_of_compiled mend vs hpressed h⟩
    · rw [afterVisits_concat] at h ⊢
      obtain ⟨q, htends, hsession, hfolder⟩ :=
        visit_tends mend v (afterVisits mend vs).1 (afterVisits mend vs).2
      rw [if_neg hpressed] at hsession hfolder
      dsimp only at h ⊢
      rw [htends.compiled, hsession] at h
      unfold Session.Agrees at ih ⊢
      rw [htends.outcome, htends.folder, hsession, hfolder, outcome_loaded]
      refine ih ?_
      unfold Session.loaded at h
      split at h <;> exact h

/-- **Tree and results of one program.** After any visits, the saved tree and the results of the
session are those of one text if the last compilation has come to its end. One that fails leaves the
results as they are and the tree of its own text, if it has come so far. -/
theorem results_of_saved_tree (mend : Mending) (vs : List Visit) :
    ((afterVisits mend vs).1.compiled = true →
      ∃ text, (afterVisits mend vs).1.Agrees mend (afterVisits mend vs).2 text) ∧
    ∀ v : Visit, v.pressed.contains "Compilar" = true →
      (afterVisits mend (vs ++ [v])).1.compiled = false →
      (afterVisits mend (vs ++ [v])).1.outcome = (afterVisits mend vs).1.outcome ∧
      (afterVisits mend (vs ++ [v])).2.tree? =
        ((v.saved? mend (Blank.strip ((afterVisits mend vs).1.loaded v).code)).map Doc.render).or
          (afterVisits mend vs).2.tree? :=
  ⟨agrees_afterVisits mend vs, fun _ => kept_of_failed mend vs⟩

/-- A text is typed in and compiled, and compiled again when the compiler cannot be loaded. -/
theorem results_of_saved_tree_typed : ∃ vs,
    (∃ text, (afterVisits passedOver vs).1.Agrees passedOver (afterVisits passedOver vs).2 text) ∧
    ∃ v, (afterVisits passedOver (vs ++ [v])).1.outcome =
      (afterVisits passedOver vs).1.outcome := by
  have hlaw := results_of_saved_tree passedOver
    [{ directory := "", edit? := some "print(1);;" }, { directory := "", pressed := ["Compilar"] }]
  exact ⟨_, hlaw.1 (by decide +kernel),
    { directory := "", pressed := ["Compilar"], hasCompiler := false },
    (hlaw.2 _ (by decide) (by decide +kernel)).1⟩

/-- A compilation that fails behind the tree: the tree is that of its text, the results are those of
the text compiled before. -/
theorem tree_beside_other_results : ∃ (v w : Visit) (tree : Doc),
    let first := afterVisits passedOver [v]
    let second := afterVisits passedOver [v, w]
    first.1.Agrees passedOver first.2 "print(1);" ∧ w.saved? passedOver "let a = [];" = some tree ∧
      second.1.outcome = first.1.outcome ∧ second.2.tree? = some tree.render := by
  let upload (name text : String) : Visit :=
    { directory := "", pressed := ["Compilar"], upload? := some ⟨name, text.toUTF8⟩ }
  let v := upload "a.cps" "print(1);"
  let w := upload "b.cps" "let a = [];"
  have hfirst : Blank.strip ((afterVisits passedOver []).1.loaded v).code =
    "print(1);" := by decide +kernel
  have hsecond : Blank.strip ((afterVisits passedOver [v]).1.loaded w).code = "let a = [];" := by
    decide +kernel
  have hagrees := agrees_of_compiled passedOver [] (v := v) (by decide) (by decide +kernel)
  obtain ⟨houtcome, htree⟩ := kept_of_failed passedOver [v] (v := w) (by decide) (by decide +kernel)
  have hsaved : (w.saved? passedOver "let a = [];").isSome = true := by decide +kernel
  obtain ⟨tree, htree'⟩ := Option.isSome_iff_exists.mp hsaved
  rw [hsecond, htree'] at htree
  rw [hfirst] at hagrees
  exact ⟨v, w, tree, hagrees, htree', houtcome, htree⟩

end Page

end Scriptc
