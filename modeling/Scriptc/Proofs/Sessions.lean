import Scriptc.Page

/-!
# Scriptc: what a locked session holds

After a compilation the editor is locked. As long as it is, the session shows the results of the
program that it holds: `Page.session_locked` says so of every session that visits lead to, from an
empty one, if nothing is typed into an editor that is shown as locked. A compilation that fails
unlocks the editor and leaves the results of the last one.

`Page.after m v p` is how a part of a visit ends and the page that it leaves, also if it fails. All
views but the editor only add elements to the page (`Shows`); what the editor does to a session is
`Tends`.
-/

namespace Scriptc

namespace Run

/-! ## Results of a run

What a run has printed does not matter to its results. -/

variable {α β : Type}

/-- The two runs have the same result, whatever has been printed before them. -/
def SameResult (m m' : RunM α) : Prop :=
  ∀ o o' : Output, (Id.run (StateT.run (ExceptT.run m) o)).1 =
    (Id.run (StateT.run (ExceptT.run m') o')).1

namespace SameResult

@[grind ←] theorem pure (a : α) : SameResult (pure a) (pure a) := fun _ _ => rfl

@[grind ←] theorem throw (f : Fault) : SameResult (α := α) (throw f) (throw f) := fun _ _ => rfl

/-- What is printed may differ. -/
@[grind ←] theorem modify (f f' : Output → Output) :
    SameResult (modify f) (modify f') := fun _ _ => rfl

@[grind ←] theorem say (line line' : String) : SameResult (say line) (say line') := modify _ _

@[grind ←] theorem print (text text' : String) : SameResult (print text) (print text') := modify _ _

/-- The next part of a run sees the result, and not what was printed. -/
@[grind ←] theorem bind {m m' : RunM α} {f f' : α → RunM β} (hm : SameResult m m')
    (hf : ∀ a, SameResult (f a) (f' a)) : SameResult (m >>= f) (m' >>= f') := by
  intro o o'
  have hresult := hm o o'
  simp only [ExceptT.run_bind, StateT.run_bind, Id.run_bind]
  rcases hrun : Id.run (StateT.run (ExceptT.run m) o) with ⟨r, o₁⟩
  rcases hrun' : Id.run (StateT.run (ExceptT.run m') o') with ⟨r', o₁'⟩
  rw [hrun, hrun'] at hresult
  obtain rfl : r = r' := hresult
  cases r with
  | error e => rfl
  | ok a => exact hf a o₁ o₁'

@[grind ←] theorem ofExcept (r : Except Fault α) : SameResult (ofExcept r) (ofExcept r) := by
  cases r with
  | ok a => exact pure a
  | error f => exact throw f

/-- A check that has failed gives the same fault. -/
@[grind ←] theorem build (a : Analysis) : SameResult (build a) (build a) := by
  unfold Run.build
  grind

@[grind ←] theorem sayCode (b : Build) : SameResult (sayCode b) (sayCode b) := by
  unfold Run.sayCode
  grind

end SameResult

/-- The results of a run do not depend on where the tree is saved. -/
theorem result_ofText (mend : Mending) (text path path' : String) :
    (start (ofText mend text path)).1 = (start (ofText mend text path')).1 := by
  suffices h : SameResult (ofText mend text path) (ofText mend text path') from h {} {}
  unfold ofText compile
  refine .bind (.say _ _) fun _ => .bind (.print _ _) fun _ => .bind (.ofExcept _) fun tree => ?_
  refine .bind (.modify _ _) fun _ => .bind (.say _ _) fun _ => .bind (.build _) fun b =>
    .bind (.sayCode b) fun _ => ?_
  -- The assembly text is printed if there is one.
  grind

end Run

namespace Page

variable {α β : Type} {v : Visit} {p p' q : Page}

/-! ## Parts of a visit -/

/-- How a part of a visit ends and the page that it leaves. -/
def after (m : PageM α) (v : Visit) (p : Page) : Except Failure α × Page :=
  Id.run (StateT.run (ExceptT.run (ReaderT.run m v)) p)

@[simp] theorem after_pure (a : α) : after (pure a) v p = (.ok a, p) := rfl

@[simp] theorem after_throw (f : Failure) : after (throw f : PageM α) v p = (.error f, p) := rfl

@[simp] theorem after_read : after read v p = (.ok v, p) := rfl

@[simp] theorem after_get : after get v p = (.ok p, p) := rfl

@[simp] theorem after_modify (f : Page → Page) : after (modify f) v p = (.ok ⟨⟩, f p) := rfl

@[simp] theorem after_current : after current v p = (.ok p.session, p) := rfl

@[simp] theorem after_put (e : Element) :
    after (put e) v p = (.ok ⟨⟩, { p with shown := p.shown.push e }) := rfl

@[simp] theorem after_setSession (f : Session → Session) :
    after (setSession f) v p = (.ok ⟨⟩, { p with session := f p.session }) := rfl

@[simp] theorem after_button (label : String) (wide : Bool) :
    after (button label wide) v p
      = (.ok (v.pressed.contains label),
        { p with shown := p.shown.push (.button label wide) }) := rfl

/-- A part of a visit that fails ends the visit, with what it has shown. -/
theorem after_bind (m : PageM α) (f : α → PageM β) :
    after (m >>= f) v p = match after m v p with
      | (.ok a, p₁) => after (f a) v p₁
      | (.error e, p₁) => (.error e, p₁) := by
  unfold after
  simp only [ReaderT.run_bind, ExceptT.run_bind, StateT.run_bind, Id.run_bind]
  rcases Id.run (StateT.run (ExceptT.run (ReaderT.run m v)) p) with ⟨r | r, p₁⟩ <;> rfl

theorem after_bind_ok {m : PageM α} {f : α → PageM β} {a : α} (h : after m v p = (.ok a, p')) :
    after (m >>= f) v p = after (f a) v p' := by
  rw [after_bind, h]

/-- A failure that is caught has shown what it has shown. -/
theorem after_tryCatch (m : PageM α) (h : Failure → PageM α) :
    after (tryCatch m h) v p = match after m v p with
      | (.ok a, p₁) => (.ok a, p₁)
      | (.error e, p₁) => after (h e) v p₁ := by
  unfold after
  simp only [tryCatch, tryCatchThe, MonadExceptOf.tryCatch, ExceptT.tryCatch,
    ReaderT.run, ExceptT.run,
    ExceptT.mk, StateT.run_bind, Id.run_bind]
  rcases Id.run (StateT.run (m v) p) with ⟨r | r, p₁⟩ <;> rfl

/-- Only elements are added to the page. -/
structure Shows (p p' : Page) : Prop where
  session : p'.session = p.session
  folder : p'.folder = p.folder
  shown : p.shown.toList <+: p'.shown.toList

theorem Shows.refl (p : Page) : Shows p p := ⟨rfl, rfl, List.prefix_rfl⟩

/-- Two parts show what the first shows and then what the second shows. -/
theorem Shows.trans (h : Shows p p') (h' : Shows p' q) : Shows p q :=
  ⟨h'.session.trans h.session, h'.folder.trans h.folder, h.shown.trans h'.shown⟩

/-- The part of a visit only adds elements to the page, also if it fails. -/
def Watches (m : PageM α) : Prop := ∀ v p, Shows p (after m v p).2

namespace Watches

@[grind ←] theorem pure (a : α) : Watches (pure a) := fun _ p => .refl p

@[grind ←] theorem throw (f : Failure) : Watches (throw f : PageM α) := fun _ p => .refl p

@[grind ←] theorem put (e : Element) : Watches (put e) := fun _ _ => ⟨rfl, rfl, by simp⟩

@[grind ←] theorem putText (style : TextStyle) (s : String) : Watches (putText style s) := put _

/-- All that a view does is put together from these. -/
@[grind ←] theorem bind {m : PageM α} {f : α → PageM β} (hm : Watches m) (hf : ∀ a, Watches (f a)) :
    Watches (m >>= f) := by
  intro v p
  have hfirst := hm v p
  rw [after_bind]
  rcases hrun : after m v p with ⟨r | a, p₁⟩
  · rw [hrun] at hfirst
    exact hfirst
  · rw [hrun] at hfirst
    exact hfirst.trans (hf a v p₁)

/-- A view that fails in the middle is no exception. -/
@[grind ←] theorem tryCatch {m : PageM α} {h : Failure → PageM α} (hm : Watches m)
    (hh : ∀ f, Watches (h f)) :
    Watches (tryCatch m h) := by
  intro v p
  have hfirst := hm v p
  rw [after_tryCatch]
  rcases hrun : after m v p with ⟨r | a, p₁⟩
  · rw [hrun] at hfirst
    exact hfirst.trans (hh r v p₁)
  · rw [hrun] at hfirst
    exact hfirst

@[grind ←] theorem get : Watches (get : PageM Page) := fun _ p => .refl p

@[grind ←] theorem read : Watches (read : PageM Visit) := fun _ p => .refl p

@[grind ←] theorem current : Watches current := fun _ p => .refl p

/-- Columns and tabs are elements around others. -/
@[grind ←] theorem within {e : Element} {inner : PageM Unit} (h : Watches inner) :
    Watches (within e inner) :=
  bind (put e) fun _ => bind (tryCatch h fun f => bind (put _) fun _ => throw f) fun _ => put _

@[grind ←] theorem forM {f : α → PageM Unit} (h : ∀ a, Watches (f a)) (as : List α) :
    Watches (as.forM f) := by
  induction as with
  | nil => exact pure PUnit.unit
  | cons a as ih => exact bind (h a) fun _ => ih

/-- One part for each element of a list. -/
@[grind ←] theorem mapM {f : α → PageM β} (h : ∀ a, Watches (f a)) (as : List α) :
    Watches (as.mapM f) := by
  induction as with
  | nil => exact pure []
  | cons a as ih =>
    grind

/-! ### Documents -/

@[grind ←] theorem elements (d : Doc) : Watches (elements d) := by
  unfold Page.elements
  grind

@[grind ←] theorem field (name : String) (d : Doc) : Watches (field name d) := by
  unfold Page.field
  grind

@[grind ←] theorem fieldOr (name : String) (default : Doc) (d : Doc) :
    Watches (fieldOr name default d) := by
  unfold Page.fieldOr
  grind

/-! ### Views -/

mutual

/-- By induction on the document, with lists and records of documents. -/
theorem treeNode : ∀ d : Doc, Watches (treeNode d)
  | .record fs => by
    unfold Page.treeNode
    dsimp only
    split
    · exact putText _ _
    · exact within (treeChildren fs)
  | .null | .bool _ | .int _ | .decimal _ | .text _ | .list _ | .pair _ _ => by
    unfold Page.treeNode
    exact throw _

/-- Only the children of a node are looked at. -/
theorem treeChildren : ∀ fs : List (String × Doc), Watches (treeChildren fs)
  | [] => by
    unfold Page.treeChildren
    exact pure ()
  | (k, d) :: fs => by
    unfold Page.treeChildren
    split
    · exact treeItems d
    · exact treeChildren fs

/-- Nodes stand in lists. -/
theorem treeItems : ∀ d : Doc, Watches (treeItems d)
  | .list ds => by
    unfold Page.treeItems
    exact treeNodes ds
  | .pair a b => by
    unfold Page.treeItems
    exact bind (treeNode a) fun _ => treeNode b
  | .text _ | .record _ => by
    unfold Page.treeItems
    grind
  | .null | .bool _ | .int _ | .decimal _ => by
    unfold Page.treeItems
    exact throw _

theorem treeNodes : ∀ ds : List Doc, Watches (treeNodes ds)
  | [] => by
    unfold Page.treeNodes
    exact pure ()
  | d :: ds => by
    unfold Page.treeNodes
    exact bind (treeNode d) fun _ => treeNodes ds

end

@[grind ←] theorem treeOf (text : String) : Watches (treeOf text) := by
  unfold Page.treeOf
  grind [treeNode]

@[grind ←] theorem treeView : Watches treeView := by
  unfold Page.treeView
  grind

@[grind ←] theorem paramList (d : Doc) : Watches (paramList d) := by
  unfold Page.paramList
  grind

@[grind ←] theorem flag (name text : String) (d : Doc) : Watches (flag name text d) := by
  unfold Page.flag
  grind

@[grind ←] theorem variableLine (d : Doc) : Watches (variableLine d) := by
  unfold Page.variableLine
  grind

@[grind ←] theorem functionLine (mark : String) (d : Doc) : Watches (functionLine mark d) := by
  unfold Page.functionLine
  grind

@[grind ←] theorem attributeLine (d : Doc) : Watches (attributeLine d) := by
  unfold Page.attributeLine
  grind

/-- Attributes and methods of a class are listed alike. -/
@[grind ←] theorem memberGroup {line : Doc → PageM String} (h : ∀ d, Watches (line d))
    (name title : String) (d : Doc) :
    Watches (memberGroup name title line d) := by
  unfold Page.memberGroup
  grind

@[grind ←] theorem classLines (d : Doc) : Watches (classLines d) := by
  unfold Page.classLines
  grind

@[grind ←] theorem symbolLines (d : Doc) : Watches (symbolLines d) := by
  unfold Page.symbolLines
  grind

@[grind ←] theorem scopeTitle (d : Doc) : Watches (scopeTitle d) := by
  unfold Page.scopeTitle
  grind

@[grind ←] theorem scopeGroup (d : Doc) : Watches (scopeGroup d) := by
  unfold Page.scopeGroup
  grind

@[grind ←] theorem symbolsView : Watches symbolsView := by
  unfold Page.symbolsView
  grind

@[grind ←] theorem logView : Watches logView := by
  unfold Page.logView
  grind

@[grind ←] theorem errorsView : Watches errorsView := by
  unfold Page.errorsView
  grind

@[grind ←] theorem quadLine (q : Doc) (i : Nat) : Watches (quadLine q i) := by
  unfold Page.quadLine
  grind

@[grind ←] theorem quadsView : Watches quadsView := by
  unfold Page.quadsView
  grind

@[grind ←] theorem assemblyView : Watches assemblyView := by
  unfold Page.assemblyView
  grind

/-- Every view but the editor only shows. -/
theorem view {title : String} {m : PageM Unit} (h : views.lookup title = some m) :
    m = codeView ∨ Watches m := by
  obtain ⟨before, behind, hviews, _⟩ := List.lookup_eq_some_iff.mp h
  have hmem : (title, m) ∈ views := hviews ▸ List.mem_append_right _ ((.head _) ..)
  simp only [views, List.mem_cons, Prod.mk.injEq, List.not_mem_nil, or_false] at hmem
  rcases hmem with ⟨_, rfl⟩ | ⟨_, rfl⟩ | ⟨_, rfl⟩ | ⟨_, rfl⟩ | ⟨_, rfl⟩ | ⟨_, rfl⟩ | ⟨_, rfl⟩
  · exact .inl rfl
  · exact .inr treeView
  · exact .inr errorsView
  · exact .inr symbolsView
  · exact .inr logView
  · exact .inr quadsView
  · exact .inr assemblyView

/-- Without a choice the view stays. -/
@[grind ←] theorem chooseBySegments : Watches chooseBySegments := by
  unfold Page.chooseBySegments
  grind

@[grind ←] theorem chooseFromList : Watches chooseFromList := by
  refine bind current fun s => ?_
  grind

end Watches

/-! ## The editor -/

/-- An editor that is shown as locked. -/
def isLockedEditor : Element → Bool
  | .area a => a.key? == some "editor_widget" && a.disabled
  | _ => false

/-- Nothing is typed into an editor that the page shows as locked. -/
def Heeds (v : Visit) (p : Page) : Prop :=
  v.edit?.isSome = true → ∀ e ∈ p.shown.toList, isLockedEditor e = false

instance (v : Visit) (p : Page) : Decidable (Heeds v p) :=
  inferInstanceAs (Decidable (_ → _))

/-- What choosing a view and showing it may do to a session. The files stay. -/
structure Tends (v : Visit) (p p' : Page) : Prop where
  folder : p'.folder = p.folder
  outcome : p'.session.outcome = p.session.outcome
  compiled : p'.session.compiled = p.session.compiled
  locked : p'.session.locked = true → p.session.locked = true
  code : p'.session.locked = true → Heeds v p' → p'.session.code = p.session.code

/-- What only shows changes nothing in a session. -/
theorem Tends.of_shows (h : Shows p p') : Tends v p p' :=
  ⟨h.folder, by rw [h.session], by rw [h.session], fun hlocked => h.session ▸ hlocked,
    fun _ _ => by rw [h.session]⟩

/-- Of an unlocked session nothing is asked but its results. -/
theorem Tends.of_unlocked (folder : p'.folder = p.folder)
    (outcome : p'.session.outcome = p.session.outcome)
    (compiled : p'.session.compiled = p.session.compiled) (h : p'.session.locked = false) :
    Tends v p p' :=
  ⟨folder, outcome, compiled, fun hlocked => absurd hlocked (h ▸ Bool.false_ne_true),
    fun hlocked => absurd hlocked (h ▸ Bool.false_ne_true)⟩

/-- A locked editor that something is typed into is shown as locked. -/
theorem codeView_tends (v : Visit) (p : Page) : Tends v p (after codeView v p).2 := by
  unfold codeView
  cases hlocked : p.session.locked with
  | false =>
    cases hedit : v.edit? with
    | none =>
      simp only [after_bind, after_current, after_put, after_read, putText, hlocked, hedit,
        Bool.false_eq_true, ↓reduceIte]
      exact .of_shows ⟨rfl, rfl, by simp⟩
    | some e =>
      simp only [after_bind, after_current, after_put, after_read, putText, type,
        after_setSession, hlocked,
        hedit, Bool.false_eq_true, ↓reduceIte]
      exact .of_unlocked rfl rfl rfl rfl
  | true =>
    cases hpressed : v.pressed.contains "Editar de nuevo" with
    | true =>
      cases hedit : v.edit? <;>
      · simp only [after_bind, after_current, after_put, after_read, putText, after_button, type,
          after_setSession, hlocked, hedit, hpressed, ↓reduceIte]
        exact .of_unlocked rfl rfl rfl rfl
    | false =>
      cases hedit : v.edit? with
      | none =>
        simp only [after_bind, after_current, after_put, after_read, putText,
          after_button, hlocked, hedit,
          hpressed, Bool.false_eq_true, ↓reduceIte]
        exact .of_shows ⟨rfl, rfl, by simp⟩
      | some e =>
        simp only [after_bind, after_current, after_put, after_read, putText, after_button, type,
          after_setSession, hlocked, hedit, hpressed, Bool.false_eq_true, ↓reduceIte]
        refine ⟨rfl, rfl, rfl, fun _ => hlocked, fun _ hheeds => ?_⟩
        have htyped : v.edit?.isSome = true := by
          rw [hedit]
          rfl
        have hunlocked := hheeds htyped _ (by
          simp only [Array.toList_push, List.mem_append, List.mem_singleton]
          exact .inl (.inl (.inr rfl)))
        exact absurd hunlocked (by simp [isLockedEditor])

/-- The chosen view becomes that of the session and is shown. -/
theorem shown_tends {choice : PageM (Option String)} (hchoice : Watches choice) (v : Visit)
    (p : Page) :
    Tends v p (after (do
      let view? ← choice
      setSession fun s => { s with view? }
      if let some view := view?.bind fun t => views.lookup t then view) v p).2 := by
  have hshows := hchoice v p
  rw [after_bind]
  rcases hrun : after choice v p with ⟨r | view?, p₁⟩
  · rw [hrun] at hshows
    exact .of_shows hshows
  · rw [hrun] at hshows
    dsimp only
    rw [after_bind, after_setSession]
    -- Which view a session has is no part of what is said about it.
    have hfrom {q : Page} (h : Tends v { p₁ with session := { p₁.session with view? } } q) :
      Tends v p q :=
      ⟨h.folder.trans hshows.folder, h.outcome.trans (by rw [hshows.session]),
        h.compiled.trans (by rw [hshows.session]),
        fun hlocked => hshows.session ▸ h.locked hlocked,
        fun hlocked hheeds => (h.code hlocked hheeds).trans (by rw [hshows.session])⟩
    refine hfrom ?_
    dsimp only
    cases hview : view?.bind fun t => views.lookup t with
    | none => exact .of_shows (.refl _)
    | some m =>
      obtain ⟨title, _, hlookup⟩ := Option.bind_eq_some_iff.mp hview
      rcases Watches.view hlookup with rfl | hwatches
      · exact codeView_tends v _
      · exact .of_shows (hwatches v _)

/-- Choosing a view locks nothing, and shows a locked editor as locked. -/
theorem chooseView_tends (v : Visit) (p : Page) : Tends v p (after chooseView v p).2 := by
  unfold chooseView
  rw [after_bind, after_read]
  dsimp only
  split
  · exact shown_tends .chooseBySegments v p
  · exact shown_tends .chooseFromList v p

end Page

/-! ## Compilations -/

/-- A text cannot be compiled: there is no compiler, no text, or no reader and none can be made, or
the compiler ends in a fault. -/
inductive Visit.FailsOn (mend : Mending) (v : Visit) (text : String) : Prop where
  | noCompiler (h : v.hasCompiler = false)
  | empty (h : text = "")
  | unprepared (o : Obstacle) (h : v.prepare = .error o)
  | fault (f : Fault) (h : (Run.start (Run.ofText mend text v.treePath)).1 = .error f)

/-- The session after the upload of a visit. -/
def Session.loaded (s : Session) (v : Visit) : Session :=
  match v.upload? with
  | some u => Page.upload u s
  | none => s

namespace Page

variable {mend : Mending} {v : Visit} {p : Page}

/-- An attempt gives the results of the compiler if the reader is there and no fault occurs. -/
theorem result_start {text : String} {r : Results} : (Attempt.start mend v text).result = .ok r ↔
      (∃ log, v.prepare = .ok log) ∧ (Run.start (Run.ofText mend text v.treePath)).1 = .ok r := by
  unfold Attempt.start
  cases hprepare : v.prepare with
  | error o => simp
  | ok log =>
    grind

/-- A compilation that fails unlocks the editor and leaves the results of the last one. -/
theorem compile_fails (h : v.FailsOn mend (Blank.strip p.session.code)) :
    (compile mend v p).session.outcome = p.session.outcome ∧
    (compile mend v p).session.locked = false ∧
      (compile mend v p).session.compiled = false := by
  -- Without a compiler or a text there is no attempt.
  have hresult (r : Results)
    (hr : (Attempt.start mend v (Blank.strip p.session.code)).result = .ok r) :
      v.hasCompiler = false ∨ Blank.strip p.session.code = "" := by
    obtain ⟨⟨log, hprepare⟩, hrun⟩ := result_start.mp hr
    cases h <;> simp_all
  unfold compile
  grind [Session.failed]

/-- A compilation that does not fail locks the editor and has the results of the compiler. -/
theorem compile_succeeds (h : ¬ v.FailsOn mend (Blank.strip p.session.code)) :
    ∃ r, (Run.start (Run.ofText mend (Blank.strip p.session.code) v.treePath)).1 = .ok r ∧
      (compile mend v p).session = p.session.succeeded r.outcome := by
  have hcompiler : v.hasCompiler = true := by
    cases hno : v.hasCompiler with
    | false => exact absurd (.noCompiler hno) h
    | true => rfl
  have hempty : Blank.strip p.session.code ≠ "" := fun hno => h (.empty hno)
  have hprepare : ∃ log, v.prepare = .ok log := by
    cases hprepare : v.prepare with
    | error o => exact absurd (.unprepared o hprepare) h
    | ok log => exact ⟨log, rfl⟩
  obtain ⟨r, hrun⟩ :
    ∃ r, (Run.start (Run.ofText mend (Blank.strip p.session.code) v.treePath)).1 = .ok r := by
    cases hrun : (Run.start (Run.ofText mend (Blank.strip p.session.code) v.treePath)).1 with
    | error f => exact absurd (.fault f hrun) h
    | ok r => exact ⟨r, rfl⟩
  refine ⟨r, hrun, ?_⟩
  unfold compile
  simp only [hcompiler, hempty, Bool.not_true, Bool.false_eq_true, ↓reduceIte,
    result_start.mpr ⟨hprepare, hrun⟩]

/-- The parts of an element are shown between its beginning and its end. -/
theorem after_within {e : Element} {inner : PageM Unit} {q : Page}
    (h : after inner v { p with shown := p.shown.push e } = (.ok (), q)) :
    after (within e inner) v p = (.ok (), { q with shown := q.shown.push .close }) := by
  unfold within
  rw [after_bind, after_put]
  dsimp only
  rw [after_bind, after_tryCatch, h]
  rfl

/-- What is compiled does not depend on what the page shows. -/
theorem compile_shown (mend : Mending) (v : Visit) (p : Page) (shown : Array Element) :
    compile mend v { p with shown } = { compile mend v p with shown } := by
  unfold compile
  dsimp only
  split
  · rfl
  · split
    · rfl
    · rfl

/-- Upload and button: the program that the session then holds is compiled if the button is
pressed. -/
theorem after_toolbar (mend : Mending) (v : Visit) (p : Page) :
    ∃ q, after (toolbar mend) v p = (.ok (), q) ∧
    (q.session = if v.pressed.contains "Compilar"
      then (compile mend v { p with session := p.session.loaded v }).session else
        p.session.loaded v) ∧
    q.folder = if v.pressed.contains "Compilar"
      then (compile mend v { p with session := p.session.loaded v }).folder else p.folder := by
  let loaded : Page := ⟨p.session.loaded v, p.folder,
    ((p.shown.push (.columns [4, 4, 4])).push (.column 0)).push
      (.uploader "Cargar archivo .cps" ["cps"] "uploader")⟩
  have hupload : after (toolbar mend) v p = _ :=
    (after_bind_ok (after_put _)).trans (after_bind_ok (after_within (q := loaded) (by
      simp only [after_bind, after_put, after_read, loaded, Session.loaded]
      cases v.upload? with
      | none => rfl
      | some u => rfl)))
  let column : Array Element :=
    ((loaded.shown.push .close).push (.column 2)).push (.button "Compilar" true)
  cases hpressed : v.pressed.contains "Compilar" with
  | false =>
    refine ⟨_, hupload.trans (after_within (q := { loaded with shown := column }) ?_), rfl, rfl⟩
    simp only [after_bind, after_button, hpressed]
    rfl
  | true =>
    have hshown := compile_shown mend v { p with session := p.session.loaded v } column
    refine ⟨_, hupload.trans
      (after_within (q := compile mend v { loaded with shown := column }) ?_),
      (congrArg Page.session hshown :), (congrArg Page.folder hshown :)⟩
    simp only [after_bind, after_button, hpressed]
    rfl

/-! ## Visits -/

/-- The session and the files that a visit compiles or leaves, before a view is shown. -/
theorem visit_tends (mend : Mending) (v : Visit) (s : Session) (f : Folder) :
    ∃ q, Tends v q (visit mend v s f).2 ∧
    (q.session = if v.pressed.contains "Compilar"
      then (compile mend v ⟨(openEditor s).loaded v, f, #[]⟩).session else
        (openEditor s).loaded v) ∧
    q.folder = if v.pressed.contains "Compilar"
      then (compile mend v ⟨(openEditor s).loaded v, f, #[]⟩).folder else f := by
  obtain ⟨q, hq, hsession, hfolder⟩ :=
    after_toolbar mend v ⟨openEditor s, f, #[.page "IDE CompiScript" "wide"]⟩
  have hvisit : visit mend v s f = after chooseView v q :=
    (after_bind_ok (after_put _)).trans
    ((after_bind_ok (after_setSession _)).trans (after_bind_ok hq))
  have hcompile := compile_shown mend v ⟨(openEditor s).loaded v, f, #[]⟩
    #[.page "IDE CompiScript" "wide"]
  refine ⟨q, hvisit ▸ chooseView_tends v q, hsession.trans ?_, hfolder.trans ?_⟩
  · rw [hcompile]
  · rw [hcompile]

/-- The sessions and folders that visits lead to from an empty session, if nothing is typed into a
locked editor. A visit that fails leaves its session, too. -/
inductive Reached (mend : Mending) (f₀ : Folder) : Session → Folder → Prop where
  | start : Reached mend f₀ {} f₀
  | visit {s : Session} {f : Folder} (v : Visit) (before : Reached mend f₀ s f)
      (heeds : Heeds v (visit mend v s f).2) :
    Reached mend f₀ (visit mend v s f).2.session (visit mend v s f).2.folder

end Page

/-- The session shows the results of the program that it holds. -/
def Session.Current (mend : Mending) (s : Session) : Prop :=
  s.compiled = true ∧
    ∀ path, ∃ r, (Run.start (Run.ofText mend (Blank.strip s.code) path)).1 = .ok r ∧
      s.outcome = r.outcome

namespace Page

variable {mend : Mending} {v : Visit} {s : Session} {f f₀ : Folder}

/-- A session is locked only by a compilation that succeeds, which sets the results. -/
theorem compile_current {p : Page} (h : (compile mend v p).session.locked = true) :
    (compile mend v p).session.Current mend := by
  by_cases hfails : v.FailsOn mend (Blank.strip p.session.code)
  · rw [(compile_fails hfails).2.1] at h
    cases h
  · obtain ⟨r, hrun, hsession⟩ := compile_succeeds hfails
    rw [hsession]
    exact ⟨rfl, fun path => ⟨r, (Run.result_ofText _ _ _ _).trans hrun, rfl⟩⟩

/-- An upload unlocks the editor; nothing else that is loaded changes the text. -/
theorem loaded_openEditor (h : s.locked = true → s.Current mend)
    (hlocked : ((openEditor s).loaded v).locked = true) :
    ((openEditor s).loaded v).Current mend := by
  unfold Session.loaded at hlocked ⊢
  cases hupload : v.upload? with
  | none =>
    rw [hupload] at hlocked
    exact h hlocked
  | some u =>
    rw [hupload] at hlocked
    cases hlocked

/-- One visit. -/
theorem visit_current (h : s.locked = true → s.Current mend) (hheeds : Heeds v (visit mend v s f).2)
    (hlocked : (visit mend v s f).2.session.locked = true) :
    (visit mend v s f).2.session.Current mend := by
  obtain ⟨q, htends, hq, -⟩ := visit_tends mend v s f
  have hqlocked := htends.locked hlocked
  have hcurrent : q.session.Current mend := by
    rw [hq] at hqlocked ⊢
    cases hpressed : v.pressed.contains "Compilar" with
    | true =>
      rw [hpressed] at hqlocked
      exact compile_current hqlocked
    | false =>
      rw [hpressed] at hqlocked
      exact loaded_openEditor h hqlocked
  unfold Session.Current
  rw [htends.outcome, htends.compiled, htends.code hlocked hheeds]
  exact hcurrent

/-- By induction on the visits. -/
theorem Reached.current (h : Reached mend f₀ s f) : s.locked = true → s.Current mend := by
  induction h with
  | start => exact fun hlocked => absurd hlocked Bool.false_ne_true
  | visit v _ heeds ih => exact visit_current ih heeds

/-- Results of a compilation stay when another text is loaded. -/
theorem outcome_loaded (v : Visit) (s : Session) :
    ((openEditor s).loaded v).outcome = s.outcome := by
  unfold Session.loaded
  cases v.upload? with
  | none => rfl
  | some u => rfl

/-- An editor that is opened holds the text that was there. -/
theorem code_loaded (v : Visit) (s : Session) :
    ((openEditor s).loaded v).code = (s.loaded v).code := by
  unfold Session.loaded
  cases v.upload? with
  | none => rfl
  | some u => rfl

/-- Sessions that visits lead to. A locked session has been compiled, and its errors, symbols,
intermediate code and assembly text are those that the compiler gives for the text it holds,
whatever the path of the tree. A visit whose compilation fails leaves these results as they were and
unlocks the session; one whose compilation comes to its end has the results of the text it
compiled. -/
theorem session_locked (h : Reached mend f₀ s f) :
    (s.locked = true → s.compiled = true ∧ ∀ path,
      ∃ r, (Run.start (Run.ofText mend (Blank.strip s.code) path)).1 = .ok r ∧
        s.outcome = r.outcome) ∧
    ∀ v : Visit, v.pressed.contains "Compilar" = true →
      let text := Blank.strip (s.loaded v).code
      let after := (visit mend v s f).2.session
      (v.FailsOn mend text → after.outcome = s.outcome ∧ after.locked = false ∧
        after.compiled = false) ∧
      (¬ v.FailsOn mend text → after.compiled = true ∧
        ∃ r, (Run.start (Run.ofText mend text v.treePath)).1 = .ok r ∧
          after.outcome = r.outcome) := by
  refine ⟨h.current, fun v hpressed => ?_⟩
  obtain ⟨q, htends, hq, -⟩ := visit_tends mend v s f
  rw [if_pos hpressed] at hq
  rw [← code_loaded v s]
  refine ⟨fun hfails => ?_, fun hfails => ?_⟩
  · obtain ⟨houtcome, hlocked, hcompiled⟩ :=
      compile_fails (p := ⟨(openEditor s).loaded v, f, #[]⟩) hfails
    rw [← hq] at houtcome hlocked hcompiled
    refine ⟨htends.outcome.trans (houtcome.trans (outcome_loaded v s)), ?_,
      htends.compiled.trans hcompiled⟩
    rw [Bool.eq_false_iff]
    exact fun hno => absurd (htends.locked hno) (hlocked ▸ Bool.false_ne_true)
  · obtain ⟨r, hrun, hsession⟩ := compile_succeeds (p := ⟨(openEditor s).loaded v, f, #[]⟩) hfails
    rw [← hq] at hsession
    rw [htends.compiled, htends.outcome, hsession]
    exact ⟨rfl, r, hrun, rfl⟩

/-- A semicolon too many is passed over. -/
def passedOver : Mending := fun _ =>
  (Analysis.ofText (fun _ => ⟨.error .emptyProgram, (.ok (), {})⟩) "print(1);").2

/-- A text that is no program is typed in, and compiled at the next visit as it is mended. -/
theorem session_locked_typed : ∃ s f, Reached passedOver {} s f ∧ s.code = "print(1);;" ∧
    s.locked = true ∧ s.compiled = true ∧ ∀ path,
      ∃ r, (Run.start (Run.ofText passedOver (Blank.strip s.code) path)).1 = .ok r ∧
        s.outcome = r.outcome := by
  have hstart : Reached passedOver {} {} {} := .start
  have hreached := Reached.visit { directory := "", pressed := ["Compilar"] }
    (Reached.visit { directory := "", edit? := some "print(1);;" } hstart (by decide +kernel))
    (by decide +kernel)
  refine ⟨_, _, hreached, ?_, ?_, (session_locked hreached).1 ?_⟩
  · decide +kernel
  · decide +kernel
  · decide +kernel

end Page

end Scriptc
