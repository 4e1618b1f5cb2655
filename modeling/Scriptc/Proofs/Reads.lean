import Scriptc.Proofs.Room

/-!
# Scriptc: what holds of the order of reading

`ReadWalk L` asks of a relation `L reads` between states that it holds of the steps of a reading: of
each expression that is read, and of no expressions where none is read. Then it holds of the reading
of every statement, with one of its sequences, if no error is reported (`ReadWalk.statements`).
-/

namespace Scriptc

open Build (Ends Keeps ends_bind)
variable {b b' : Build}

namespace Compile

variable {S : List Operand} {allow : Use → Prop}

/-! ## Steps that read nothing -/

/-- A relation that is kept by more is kept by less. -/
theorem FlowStable.restrict {allow' : Use → Prop} {R : Build → Build → Prop}
    (h : FlowStable allow R) (himp : ∀ u, allow' u → allow u) : FlowStable allow' R :=
  { h with
    valueOf := fun he => h.valueOf (himp _ he)
    assignName := fun line x e he => h.assignName line x e (himp _ he) }

/-- The step consists of steps that read no expressions. -/
def Unread {α : Type} (m : BuildM α) : Prop := ∀ ⦃R⦄, FlowStable (fun _ => False) R → Keeps R m

/-- Reports are only added. -/
def Grows {α : Type} (m : BuildM α) : Prop := Keeps (fun b b' => b.errors.size ≤ b'.errors.size) m

namespace Unread

variable {α β : Type} {m : BuildM α} {f : α → BuildM β}

/-- What every walk over statements carries, and no expression is needed for, reads nothing. -/
theorem of_walk {O : α → List Operand}
    (hm : ∀ {R}, StmtWalk (fun _ => False) (fun _ => False) (Since R) →
      Build.Yields (Since R) S O m) : Unread m :=
  fun _ hR => hR.keeps (hm (hR.walk fun _ hk => hk.elim))

theorem pure (a : α) : Unread (Pure.pure a : BuildM α) := fun _ hR => hR.toCodeStable.pure a

theorem bind (hm : Unread m) (hf : ∀ a, Unread (f a)) : Unread (m >>= f) :=
  fun _ hR => hR.toCodeStable.bind (hm hR) fun a => hf a hR

theorem kept (hm : Unread m) : Keeps (Kept fun _ => False) m := hm Kept.stable.toFlowStable

theorem grows (hm : Unread m) :
    Grows m := fun _ _ _ hend => by simpa using (hm.kept hend).errors.length_le

end Unread

/-! ## The walk -/

/-- One of the sequences has been read, and `L` holds of it, if there are no errors in the end. -/
def ReadsAs (L : List Read → Build → Build → Prop) (W : Language Read) (b b' : Build) : Prop :=
  b.errors.size ≤ b'.errors.size ∧ (b'.errors = #[] → ∃ rs ∈ W, L rs b b')

/-- `L` holds of the steps of a reading. -/
structure ReadWalk (L : List Read → Build → Build → Prop) : Prop where
  append : ∀ {rs rs' b c d}, L rs b c → L rs' c d → L (rs ++ rs') b d
  unread : ∀ {α : Type} {m : BuildM α}, Unread m → Keeps (L []) m
  same : ∀ {b b'}, b'.table = b.table → b'.storage = b.storage → b'.layouts = b.layouts →
    b'.quads = b.quads →
    b'.errors = b.errors → b'.warnings = b.warnings → L [] b b'
  quad : ∀ {b} q, q.inFlow = true → L [] b { b with quads := b.quads.push q }
  enter : ∀ {b} kind, L [] b { b with table := b.table.enter kind }
  exit : ∀ {b}, L [] b { b with table := b.table.exit.2 }
  retype : ∀ {b id s v value?}, b.table.symbol? id = some s → s.body = .variable v →
    fixesType v value? = true → L [] b { b with table := b.table.modifySymbol id fun s =>
      { s with body := .variable { v with type? := value? } } }
  expr : ∀ {e b t? b'}, e.All Expr.Formed → Ends (expr e) b t? b' →
    b'.errors = #[] → L [⟨e, t?⟩] b b'
  routine : ∀ {name frame label result? body b r b'},
    Ends (Emit.routine name frame label result? body) b r b' →
    ∃ c d, Ends body c () d ∧ c.errors = b.errors ∧ b'.errors = d.errors ∧ ∀ rs,
      L rs c d → L rs b b'

/-- A declaration that is refused is reported. -/
theorem declare_reports {line : Nat} {s : Symbol} {id : SymbolId}
    (h : Ends (declare line s) b (id, false) b') : b.errors.size < b'.errors.size := by
  rcases declare_cases h with ⟨t, -, hr, -⟩ | ⟨_, _, -, -, rfl⟩
  · cases hr
  · simp

namespace ReadsAs

variable {α : Type} {L : List Read → Build → Build → Prop} {W V : Language Read} {m n : BuildM α}

/-- Of a reading that has reported nothing is claimed. -/
theorem of_reported (hlt : b.errors.size < b'.errors.size) : ReadsAs L W b b' :=
  ⟨Nat.le_of_lt hlt, fun hclean => absurd hclean (errors_ne_of_lt hlt)⟩

theorem of_step (hl : L [] b b') (herrors : b'.errors = b.errors) : ReadsAs L 1 b b' :=
  ⟨Nat.le_of_eq (by rw [herrors]), fun _ => ⟨[], Language.nil_mem_one, hl⟩⟩

/-- Reports are never taken back. -/
theorem grows (hm : Keeps (ReadsAs L W) m) : Grows m := fun _ _ _ hend => (hm hend).1

/-- Code is written only while there are no errors. -/
theorem whenClean (hm : Keeps (ReadsAs L W) m) (hn : Grows n) :
    Keeps (ReadsAs L W) (do if ← Build.isClean then m else n : BuildM α) := by
  intro b a b' hend
  rw [Build.isClean, Build.ends_read_bind] at hend
  split at hend
  · exact hm hend
  · rename_i hclean
    refine ⟨hn hend, fun hnone => absurd ?_ hclean⟩
    rw [clean_of_le (hn hend) hnone]
    rfl

end ReadsAs

namespace ReadWalk

variable {α β : Type} {L : List Read → Build → Build → Prop} {W V : Language Read} {m : BuildM α}
  {f : α → BuildM β} (h : ReadWalk L) {body : BuildM Unit} {condition : BuildM Operand}
  {result? : Option Ty}
  {e : Expr}
variable {c d : Build} {name : String}
include h

/-! ### Sequences -/

theorem still (hm : Unread m) : Keeps (ReadsAs L 1) m := fun _ _ _ hend =>
  ⟨hm.grows hend, fun _ => ⟨[], Language.nil_mem_one, h.unread hm hend⟩⟩

theorem pure (a : α) : Keeps (ReadsAs L 1) (Pure.pure a : BuildM α) := h.still (.pure a)

/-- One reading behind the other. -/
theorem trans (hb : ReadsAs L W b c) (hc : ReadsAs L V c d) : ReadsAs L (W * V) b d := by
  refine ⟨Nat.le_trans hb.1 hc.1, fun hclean => ?_⟩
  obtain ⟨rs, hrs, hl⟩ := hb.2 (clean_of_le hc.1 hclean)
  obtain ⟨rs', hrs', hl'⟩ := hc.2 hclean
  exact ⟨rs ++ rs', Language.append_mem_mul hrs hrs', h.append hl hl'⟩

/-- A step that reads nothing leaves the sequence as it is. -/
theorem trans_still (hb : ReadsAs L W b c) (hc : ReadsAs L 1 c d) : ReadsAs L W b d := by
  have hwhole := h.trans hb hc
  rwa [mul_one] at hwhole

theorem after_step (hc : ReadsAs L W c d) (hl : L [] b c) (herrors : c.errors = b.errors) :
    ReadsAs L W b d := by
  have hwhole := h.trans (.of_step hl herrors) hc
  rwa [one_mul] at hwhole

/-- What two steps read stands one behind the other. -/
theorem bind (hm : Keeps (ReadsAs L W) m) (hf : ∀ a, Keeps (ReadsAs L V) (f a)) :
    Keeps (ReadsAs L (W * V)) (m >>= f) := by
  intro b c b' hend
  obtain ⟨a, b₁, ha, hend⟩ := ends_bind.mp hend
  exact h.trans (hm ha) (hf a hend)

theorem still_bind (hm : Keeps (ReadsAs L 1) m) (hf : ∀ a, Keeps (ReadsAs L W) (f a)) :
    Keeps (ReadsAs L W) (m >>= f) := by
  have hwhole := h.bind hm hf
  rwa [one_mul] at hwhole

theorem bind_still (hm : Keeps (ReadsAs L W) m) (hf : ∀ a, Keeps (ReadsAs L 1) (f a)) :
    Keeps (ReadsAs L W) (m >>= f) := by
  have hwhole := h.bind hm hf
  rwa [mul_one] at hwhole

theorem unread_bind (hm : Unread m) (hf : ∀ a, Keeps (ReadsAs L W) (f a)) :
    Keeps (ReadsAs L W) (m >>= f) :=
  h.still_bind (h.still hm) hf

theorem bind_unread (hm : Keeps (ReadsAs L W) m) (hf : ∀ a, Unread (f a)) :
    Keeps (ReadsAs L W) (m >>= f) :=
  h.bind_still hm fun a => h.still (hf a)

/-- A step that changes nothing that `L` looks at. -/
theorem modify {g : Build → Build} (hg : ∀ b, (g b).table = b.table ∧ (g b).storage = b.storage ∧
    (g b).layouts = b.layouts ∧ (g b).quads = b.quads ∧ (g b).errors = b.errors ∧
    (g b).warnings = b.warnings) :
    Keeps (ReadsAs L 1) (modify g) :=
  Keeps.modify fun b =>
    have ⟨htable, hstorage, hlayouts, hquads, herrors, hwarnings⟩ := hg b
    .of_step (h.same htable hstorage hlayouts hquads herrors hwarnings) herrors

/-! ### Expressions -/

/-- An expression is read as it stands, with the type that is found for it. -/
theorem value (he : e.All Expr.Formed) :
    Keeps (ReadsAs L e.read) (Compile.expr e) := fun _ t? _ hend =>
  ⟨(Quiet.expr e hend).errors_size, fun hclean => ⟨[⟨e, t?⟩], ⟨t?, rfl⟩, h.expr he hend hclean⟩⟩

/-- What is read depends on the type that was found. -/
theorem read_bind {V : Option Ty → Language Read} {f : Option Ty → BuildM β}
    (he : e.All Expr.Formed) (hf : ∀ t?, Keeps (ReadsAs L (V t?)) (f t?))
    (hW : ∀ t?, ∀ rs ∈ V t?, ⟨e, t?⟩ :: rs ∈ W) :
    Keeps (ReadsAs L W) (Compile.expr e >>= f) := by
  intro b c b' hend
  obtain ⟨t?, b₁, hexpr, hend⟩ := ends_bind.mp hend
  obtain ⟨herrors, hrest⟩ := hf t? hend
  refine ⟨Nat.le_trans (Quiet.expr e hexpr).errors_size herrors, fun hclean => ?_⟩
  obtain ⟨rs, hrs, hl⟩ := hrest hclean
  exact ⟨⟨e, t?⟩ :: rs, hW t? rs hrs, h.append (h.expr he hexpr (clean_of_le herrors hclean)) hl⟩

theorem direct (he : e.All Expr.Formed) : Keeps (ReadsAs L e.read) (Compile.direct e) := by
  unfold Compile.direct
  refine h.unread_bind (fun _ hR => hR.setDirect true) fun _ =>
    h.bind_unread (h.value he) fun t => ?_
  exact .bind (fun _ hR => hR.setDirect false) fun _ => .pure t

/-- The value of an assignment may fix the type of the variable. -/
theorem assignName (line : Nat) (x : String) (he : e.All Expr.Formed) :
    Keeps (ReadsAs L e.read) (Compile.assignName line x e) := by
  intro b t b' hend
  rcases Kept.assignName_cases hend with hv | ⟨id, s, v, value?, b₁, b₂, -, hs, hbody, hread,
    htable, hfix, hrun⟩
  · exact .of_reported (assignable?_reports line x hv)
  · have hfixed : ReadsAs L 1 b₁ b₂ := by
      rcases hfix with ⟨hfixes, rfl⟩ | ⟨m, hm, hfix⟩
      · exact .of_step (h.retype (htable ▸ hs) hbody hfixes) rfl
      · exact h.still (.of_walk (S := []) fun hw => hw.remarks hm) hfix
    have hrest : Unread (do
        Compile.storeValue x
        Emit.endExpression
        return some (value?.getD .error) : BuildM (Option Ty)) := fun _ hR =>
      hR.bind (hR.storeValue x) fun _ => hR.bind hR.endExpression fun _ => hR.toCodeStable.pure _
    exact h.trans_still (h.trans_still (h.direct he hread) hfixed) (h.still hrest hrun)

/-! ### Scopes and loops -/

theorem enterScope (kind : String) : Keeps (ReadsAs L 1) (Compile.enterScope kind) :=
  Keeps.modify fun _ => .of_step (h.enter kind) rfl

theorem exitScope :
    Keeps (ReadsAs L 1) Compile.exitScope := Keeps.modify fun _ => .of_step h.exit rfl

/-! ### Control flow -/

theorem newLabel : Keeps (ReadsAs L 1) Emit.newLabel := by
  intro b l b' hend
  obtain ⟨-, rfl⟩ := Emit.ends_newLabel.mp hend
  exact .of_step (h.same rfl rfl rfl rfl rfl rfl) rfl

theorem newLabel_bind {f : Operand → BuildM β} (hf : ∀ k, Keeps (ReadsAs L W) (f (.label k))) :
    Keeps (ReadsAs L W) (Emit.newLabel >>= f) := by
  intro b c b' hend
  obtain ⟨l, b₁, hlabel, hend⟩ := ends_bind.mp hend
  obtain ⟨rfl, rfl⟩ := Emit.ends_newLabel.mp hlabel
  have hrest := h.trans (h.newLabel (Emit.ends_newLabel.mpr ⟨rfl, rfl⟩)) (hf _ hend)
  rwa [one_mul] at hrest

theorem inFlow {q : Quad} (hq : q.inFlow = true) : Keeps (ReadsAs L 1) (Emit.quad q) :=
  Keeps.modify fun _ => .of_step (h.quad q hq) rfl

theorem jump (k : Nat) : Keeps (ReadsAs L 1) (Emit.jump (.label k)) := h.inFlow rfl

theorem mark (k : Nat) : Keeps (ReadsAs L 1) (Emit.mark (.label k)) := h.inFlow rfl

/-- Both branches are read, the second one behind the first. -/
theorem ifElse (c : Operand) {yes no : BuildM Unit} (hyes : Keeps (ReadsAs L W) yes)
    (hno : Keeps (ReadsAs L V) no) :
    Keeps (ReadsAs L (W * V)) (Emit.ifElse c yes no) := by
  unfold Emit.ifElse
  refine h.newLabel_bind fun yesLabel => h.newLabel_bind fun noLabel =>
    h.newLabel_bind fun done => ?_
  refine h.still_bind (h.inFlow rfl) fun _ => h.still_bind (h.jump noLabel) fun _ => ?_
  refine h.still_bind (h.mark yesLabel) fun _ => h.bind hyes fun _ =>
    h.still_bind (h.jump done) fun _ => ?_
  refine h.still_bind (h.mark noLabel) fun _ => h.bind_still hno fun _ => ?_
  exact h.still_bind (h.mark done) fun _ => h.pure _

/-- The condition of a loop is read before the test of it is written. -/
theorem exitUnless (hc : Keeps (ReadsAs L W) condition) (done : Nat) :
    Keeps (ReadsAs L W) (Emit.exitUnless condition (.label done)) := by
  unfold Emit.exitUnless
  refine h.bind_still hc fun c => ?_
  split
  · exact h.inFlow rfl
  · exact h.pure _

/-- The body is read with the labels of its loop. -/
theorem withLoop (l : Loop) (hbody : Keeps (ReadsAs L W) body) :
    Keeps (ReadsAs L W) (Emit.withLoop l body) := by
  unfold Emit.withLoop
  refine h.unread_bind (.of_walk (S := []) fun _ => Build.Carries.get) fun b => ?_
  refine h.still_bind (h.modify fun _ => ⟨rfl, rfl, rfl, rfl, rfl, rfl⟩) fun _ => ?_
  exact h.bind_still hbody fun _ => h.modify fun _ => ⟨rfl, rfl, rfl, rfl, rfl, rfl⟩

/-- A loop is read once, like the code that stands in it. -/
theorem whileLoop (hc : Keeps (ReadsAs L W) condition) (hbody : Keeps (ReadsAs L V) body) :
    Keeps (ReadsAs L (W * V)) (Emit.whileLoop condition body) := by
  unfold Emit.whileLoop
  refine h.newLabel_bind fun start => h.newLabel_bind fun done => ?_
  refine h.bind_unread (h.withLoop _ ?_) fun _ => .pure _
  refine h.still_bind (h.mark start) fun _ => h.bind (h.exitUnless hc done) fun _ =>
    h.bind_still hbody fun _ => ?_
  exact h.still_bind (h.jump start) fun _ => h.mark done

/-- The update of a loop is read behind its body. -/
theorem forLoop {W₁ W₂ W₃ W₄ : Language Read} {init update : BuildM Unit}
    (hinit : Keeps (ReadsAs L W₁) init) (hc : Keeps (ReadsAs L W₂) condition)
    (hbody : Keeps (ReadsAs L W₃) body) (hupdate : Keeps (ReadsAs L W₄) update) :
    Keeps (ReadsAs L (W₁ * (W₂ * (W₃ * W₄)))) (Emit.forLoop init condition update body) := by
  unfold Emit.forLoop
  refine h.newLabel_bind fun start => h.newLabel_bind fun again => h.newLabel_bind fun done => ?_
  refine h.bind_unread (h.withLoop _ ?_) fun _ => .pure _
  refine h.bind hinit fun _ => h.still_bind (h.mark start) fun _ =>
    h.bind (h.exitUnless hc done) fun _ => ?_
  refine h.bind hbody fun _ => h.still_bind (h.mark again) fun _ => h.bind_still hupdate fun _ => ?_
  exact h.still_bind (h.jump start) fun _ => h.mark done

theorem switchCase (subject value : Operand) (done : Nat) (hbody : Keeps (ReadsAs L W) body) :
    Keeps (ReadsAs L W) (Emit.switchCase subject value (.label done) body) := by
  unfold Emit.switchCase
  refine h.newLabel_bind fun here => h.newLabel_bind fun next => ?_
  refine h.unread_bind (fun _ hR => hR.newTemp) fun t => h.still_bind (h.inFlow rfl) fun _ => ?_
  refine h.still_bind (h.inFlow rfl) fun _ => h.still_bind (h.mark here) fun _ =>
    h.bind_still hbody fun _ => ?_
  exact h.still_bind (h.jump done) fun _ => h.mark next

/-- By induction on the bodies of the cases. -/
theorem cases {subject : Operand} {done : Nat} {cs : List (Operand × BuildM Unit)}
    (hcs : Bodies (fun W _ _ m => Keeps (ReadsAs L W) m) S W cs) :
    Keeps (ReadsAs L W) (cs.forM fun c => Emit.switchCase subject c.1 (.label done) c.2) := by
  induction hcs with
  | nil => exact h.pure ()
  | cons hc _ ih => exact h.bind (h.switchCase subject _ done hc) fun _ => ih

theorem switchCode {subject : Operand} {cs : List (Operand × BuildM Unit)}
    {default? : Option (BuildM Unit)} (hcs : Bodies (fun W _ _ m => Keeps (ReadsAs L W) m) S W cs)
    (hdefault : Keeps (ReadsAs L V) (default?.getD (Pure.pure ()))) :
    Keeps (ReadsAs L (W * V)) (Emit.switchCode subject cs default?) := by
  unfold Emit.switchCode
  refine h.newLabel_bind fun done => h.bind (h.cases hcs) fun _ => ?_
  cases default? with
  | none => exact h.bind_still hdefault fun _ => h.mark done
  | some body =>
    exact h.newLabel_bind fun other => h.still_bind (h.mark other) fun _ =>
      h.bind_still hdefault fun _ => h.mark done

/-! ### Functions -/

/-- What follows a declaration is asked of both its outcomes. -/
theorem declare_bind {line : Nat} {s : Symbol} {f : SymbolId × Bool → BuildM β}
    (htrue : ∀ id, Keeps (ReadsAs L W) (f (id, true))) (hfalse : ∀ id, Grows (f (id, false))) :
    Keeps (ReadsAs L W) (Compile.declare line s >>= f) := by
  intro b c b' hend
  obtain ⟨⟨id, fresh⟩, b₁, hdeclare, hend⟩ := ends_bind.mp hend
  cases fresh with
  | false => exact .of_reported (Nat.lt_of_lt_of_le (declare_reports hdeclare) (hfalse id hend))
  | true =>
    have hwhole := h.trans (h.still (fun _ hR => hR.declare _ _) hdeclare) (htrue id hend)
    rwa [one_mul] at hwhole

/-- The code around the body of a function is not read. -/
theorem routineCode {frame : FrameId} {label : Operand} (hbody : Keeps (ReadsAs L W) body) :
    Keeps (ReadsAs L W) (Emit.routine name frame label result? body) := by
  intro b r b' hend
  obtain ⟨c, d, hin, hbefore, hafter, haround⟩ := h.routine hend
  obtain ⟨herrors, hread⟩ := hbody hin
  rw [hbefore, ← hafter] at herrors
  refine ⟨herrors, fun hclean => ?_⟩
  obtain ⟨rs, hrs, hl⟩ := hread (hafter ▸ hclean)
  exact ⟨rs, hrs, haround rs hl⟩

/-! ### Classes -/

theorem classBody (id : SymbolId) {fields methods : SymbolId → BuildM Unit}
    (hfields : Keeps (ReadsAs L W) (fields id)) (hmethods : Keeps (ReadsAs L V) (methods id)) :
    Keeps (ReadsAs L (W * V)) (Compile.classBody id fields methods) := by
  unfold Compile.classBody
  refine h.still_bind (h.enterScope _) fun _ => ?_
  refine h.unread_bind (.of_walk (S := []) fun _ => Build.Carries.get) fun b => ?_
  refine h.still_bind (h.modify fun _ => ⟨rfl, rfl, rfl, rfl, rfl, rfl⟩) fun _ =>
    h.bind hfields fun _ => ?_
  refine h.unread_bind (fun _ hR => hR.layout id) fun _ => h.bind_still hmethods fun _ => ?_
  exact h.still_bind h.exitScope fun _ => h.modify fun _ => ⟨rfl, rfl, rfl, rfl, rfl, rfl⟩

/-! ### Statements -/

/-- All that the walk over statements asks for. -/
theorem course :
    Course Use.Formed (fun _ => True) (fun _ => True) fun W _ _ m => Keeps (ReadsAs L W) m where
  null := trivial
  void := trivial
  element _ := trivial
  still hm := h.still (.of_walk fun hw => hm hw)
  bind := h.bind
  whenClean hm hn := ReadsAs.whenClean hm (ReadsAs.grows hn)
  error_bind hm _ _ _ hend := by
    obtain ⟨_, b₁, herror, hend⟩ := ends_bind.mp hend
    exact .of_reported (Nat.lt_of_lt_of_le (errors_lt herror) (hm hend).1)
  read_bind he hf := h.read_bind he fun t? => hf t? fun _ _ => trivial
  typeOf_bind hf := h.unread_bind (.of_walk (S := []) fun hw => hw.toCodeWalk.typeOf _) fun t? =>
    hf t? fun _ _ => trivial
  declare_bind _ _ htrue hfalse := h.declare_bind htrue fun id => ReadsAs.grows (hfalse id)
  declareClass_bind htrue hfalse := by
    simp only [Compile.declareClass, bind_assoc]
    refine h.unread_bind (.of_walk (S := []) fun hw => hw.toCodeWalk.parentOf _ _) fun _ => ?_
    refine h.unread_bind (.of_walk (S := []) fun hw => hw.currentScope) fun _ => ?_
    exact h.declare_bind htrue fun id => ReadsAs.grows (hfalse id)
  assignName := h.assignName _ _
  setFunction _ := h.still fun _ hR => hR.setFunction _
  scope hbody := h.still_bind (h.enterScope _) fun _ => h.bind_still hbody fun _ => h.exitScope
  loop hbody := h.unread_bind (.of_walk (S := []) fun _ => Build.Carries.get) fun _ =>
    h.still_bind (h.modify fun _ => ⟨rfl, rfl, rfl, rfl, rfl, rfl⟩) fun _ =>
      h.bind_still hbody fun _ => h.modify fun _ => ⟨rfl, rfl, rfl, rfl, rfl, rfl⟩
  classBody := h.classBody _
  ifElse _ := h.ifElse _
  whileLoop := h.whileLoop
  forLoop := h.forLoop
  switch _ _ := h.switchCode
  function _ hbody _ _ _ hend := by
    obtain ⟨frameOf, hroutine⟩ := Emit.function_ends hend
    exact h.after_step (h.routineCode hbody hroutine) (h.same rfl rfl rfl rfl rfl rfl) rfl
  method _ hbody _ _ _ hend := by
    obtain ⟨counts, frameOf, log, hroutine⟩ := Emit.method_ends hend
    exact h.after_step (h.routineCode hbody hroutine) (h.same rfl rfl rfl rfl rfl rfl) rfl

/-- Reading statements reads their expressions in one of their sequences. -/
theorem statements (ss : List Stmt) (hss : ∀ u ∈ Stmt.usesAll ss, u.Formed) :
    Keeps (ReadsAs L (Stmt.readsAll ss)) (Compile.statements ss) :=
  h.course.statements ss [] hss fun _ _ => trivial

end ReadWalk

end Compile

end Scriptc
