import Scriptc.Proofs.Sizes
import Scriptc.Proofs.Tracking

/-!
# Scriptc: reading is balanced and monotone

Whatever part of a program is read, in whatever state, the reading gives back what it opens and
keeps what was there before.

* `Quiet`: what reading an expression keeps. The table of names does not change at all.
* `Grown`: reports are only added, scopes and symbols stay where they are, and a scope only gets new
  entries behind those it has.
* `Kept`: what reading any part keeps. Open scopes, loops, the class and the function at hand are as
  before, code is only added behind the code there is, and a symbol keeps its type unless it still
  waits for one (`Symbol.awaitsType`) and an assignment gives it one (`Retyped`).

`part_balanced` puts this together. The induction over the syntax is `Stable.part`; here only the
elementary steps are looked at.
-/

namespace Scriptc

open Build (Ends Keeps Gives ends_bind ends_get_bind ends_modify ends_modify_bind
    ends_lookup? ends_ofExcept
  ends_pure ends_throw)

namespace Compile

/-! ## Expressions leave the names alone -/

theorem prefix_push {α : Type} (xs : Array α) (x : α) : xs.toList <+: (xs.push x).toList := by
  rw [Array.toList_push]
  exact List.prefix_append _ _

/-- Reports stay: a state without any was reached without any. -/
theorem clean_of_le {b c : Build} (h : b.errors.size ≤ c.errors.size) (hclean : c.errors = #[]) :
    b.errors = #[] := by
  grind

theorem clean_of_reports {b c : Build} (h : b.errors.toList <+: c.errors.toList)
    (hclean : c.errors = #[]) :
    b.errors = #[] :=
  clean_of_le (by simpa using h.length_le) hclean

/-- Nothing but code, reports and places has been added, and the table of names is as before. -/
structure Quiet (b b' : Build) : Prop where
  table : b'.table = b.table
  errors : b.errors.toList <+: b'.errors.toList
  warnings : b.warnings.toList <+: b'.warnings.toList
  quads : b.quads.toList <+: b'.quads.toList
  loops : b'.loops = b.loops
  inClass? : b'.inClass? = b.inClass?
  loop? : b'.loop? = b.loop?
  routine? : b'.routine? = b.routine?

namespace Quiet

variable {α : Type} {b c d : Build}

theorem refl (b : Build) : Quiet b b :=
  ⟨rfl, List.prefix_rfl, List.prefix_rfl, List.prefix_rfl, rfl, rfl, rfl, rfl⟩

/-- A step that touches none of what is spoken of here. -/
theorem same (table : c.table = b.table) (errors : c.errors = b.errors)
    (warnings : c.warnings = b.warnings) (quads : c.quads = b.quads)
    (loops : c.loops = b.loops) (inClass? : c.inClass? = b.inClass?)
    (loop? : c.loop? = b.loop?) (routine? : c.routine? = b.routine?) : Quiet b c where
  table := table
  errors := errors ▸ List.prefix_rfl
  warnings := warnings ▸ List.prefix_rfl
  quads := quads ▸ List.prefix_rfl
  loops := loops
  inClass? := inClass?
  loop? := loop?
  routine? := routine?

theorem of_silent (h : Emit.Silent b c) : Quiet b c :=
  same h.table h.errors h.warnings h.quads h.loops h.inClass? h.loop? h.routine?

theorem trans (h₁ : Quiet b c) (h₂ : Quiet c d) : Quiet b d where
  table := h₂.table.trans h₁.table
  errors := h₁.errors.trans h₂.errors
  warnings := h₁.warnings.trans h₂.warnings
  quads := h₁.quads.trans h₂.quads
  loops := h₂.loops.trans h₁.loops
  inClass? := h₂.inClass?.trans h₁.inClass?
  loop? := h₂.loop?.trans h₁.loop?
  routine? := h₂.routine?.trans h₁.routine?

theorem errors_size (h : Quiet b c) : b.errors.size ≤ c.errors.size := by
  have hle := h.errors.length_le
  rwa [Array.length_toList, Array.length_toList] at hle

theorem clean (h : Quiet b c) (hclean : c.errors = #[]) :
    b.errors = #[] := clean_of_reports h.errors hclean

theorem quad (q : Quad) : Keeps Quiet (Emit.quad q) :=
  Keeps.modify fun _ => ⟨rfl, List.prefix_rfl, List.prefix_rfl, prefix_push _ _, rfl, rfl, rfl, rfl⟩

theorem error (line : Option Nat) (text : String) : Keeps Quiet (Build.error line text) :=
  Keeps.modify fun _ => ⟨rfl, prefix_push _ _, List.prefix_rfl, List.prefix_rfl, rfl, rfl, rfl, rfl⟩

theorem pure (a : α) : Keeps Quiet (pure a : BuildM α) := Keeps.pure refl a

theorem silent {m : BuildM α} (hm : Keeps Emit.Silent m) : Keeps Quiet m :=
  hm.mono fun _ _ => of_silent

theorem newLabel : Keeps Quiet Emit.newLabel := by
  intro b l b' h
  rw [(Emit.ends_newLabel.mp h).2]
  exact same rfl rfl rfl rfl rfl rfl rfl rfl

theorem exprStable : ExprStable (fun _ => True) Quiet :=
  .of_quads refl (fun _ _ _ => trans) (fun _ _ => of_silent) error newLabel quad

theorem expr (e : Expr) : Keeps Quiet (Compile.expr e) :=
  exprStable.expr e (Expr.all_of_forall (fun _ => trivial) e)

theorem chain (level : Level) (line : Nat) (c : Chain) (rest : List (String × Expr)) :
    Keeps Quiet (Compile.chain level line c rest) :=
  exprStable.chain level line c (fun _ _ _ _ _ => quad _)
    (Expr.allRest_of_forall (fun _ => trivial) rest)

theorem chainStep (level : Level) (line : Nat) (c : Chain) (op : String) (at_ : Nat)
    (right? : Option Ty) : Keeps Quiet (c.step level line op at_ right?) :=
  exprStable.chainStep level line c (fun _ _ _ => quad _) at_ right?

theorem arguments (es : List Expr) : Keeps Quiet (Compile.arguments es) :=
  exprStable.keeps (exprStable.walk.arguments es [] (Expr.allIn_of_forall (fun _ => trivial) es))

theorem elements (line : Nat) (first? : Option Ty) (cells : List Operand) (es : List Expr) :
    Keeps Quiet (Compile.elements line first? cells es) :=
  exprStable.keeps (exprStable.walk.elements line first? cells es cells (fun _ hv => hv)
    (Expr.allIn_of_forall (fun _ => trivial) es))

end Quiet

end Compile

/-! ## What stays of scopes and symbols -/

variable {κ ν : Type}

theorem Assoc.mem_of_get? [DecidableEq κ] {t : Assoc κ ν} {x : κ} {v : ν}
    (h : t.get? x = some v) : (x, v) ∈ t := by
  induction t with
  | nil => cases h
  | cons e t ih =>
    obtain ⟨k, w⟩ := e
    rw [Assoc.get?] at h
    grind

/-- A new key goes behind those of a table. -/
theorem Assoc.put_of_not_contains [DecidableEq κ] {t : Assoc κ ν} {x : κ} (w : ν)
    (h : t.contains x = false) : t.put x w = t ++ [(x, w)] := by
  induction t with
  | nil => rfl
  | cons e t ih =>
    obtain ⟨k, v⟩ := e
    unfold Assoc.contains Assoc.get? at h
    split at h
    · cases h
    · rename_i hk
      rw [Assoc.put, if_neg hk, ih h]
      rfl

/-- A scope is the same scope, with more entries behind those it has. -/
structure Scope.Extends (s s' : Scope) : Prop where
  id : s'.id = s.id
  kind : s'.kind = s.kind
  parent? : s'.parent? = s.parent?
  entries : s.entries <+: s'.entries

theorem Scope.Extends.refl (s : Scope) : s.Extends s := ⟨rfl, rfl, rfl, List.prefix_rfl⟩

theorem Scope.Extends.trans {s s' s'' : Scope} (h₁ : s.Extends s') (h₂ : s'.Extends s'') :
    s.Extends s'' :=
  ⟨h₂.id.trans h₁.id, h₂.kind.trans h₁.kind, h₂.parent?.trans h₁.parent?,
    h₁.entries.trans h₂.entries⟩

namespace SymbolTable

variable {t t' : SymbolTable} {id : SymbolId}

/-- A kept symbol goes behind those there are. -/
theorem symbol?_keep {s s' : Symbol} (h : t.symbol? id = some s') :
    (t.keep s).2.symbol? id = some s' := by
  have hlt : id < t.symbols.size := (Array.getElem?_eq_some_iff.mp h).1
  unfold keep symbol?
  rw [Array.getElem?_push, if_neg (Nat.ne_of_lt hlt)]
  exact h

theorem symbol?_modifySymbol (t : SymbolTable) (id i : SymbolId) (f : Symbol → Symbol) :
    (t.modifySymbol id f).symbol? i = if id = i then (t.symbol? i).map f else t.symbol? i :=
  Array.getElem?_modify

/-- What a declaration that is accepted does to the table. -/
theorem declare_ok (h : t.declare id = .ok t') :
    t' = t ∨ ∃ s : Symbol, t.current.entries.contains s.name = false ∧ t' = { t with
      symbols := t.symbols.modify id ({ · with scope := t.currentId })
      scopes := t.scopes.modify t.currentId fun c =>
        { c with entries := c.entries.put s.name id } } := by
  unfold declare at h
  split at h
  · exact .inl (Except.ok.inj h).symm
  · rename_i s hs
    split at h
    · cases h
    · rename_i hnew
      exact .inr ⟨s, Bool.not_eq_true _ ▸ hnew, (Except.ok.inj h).symm⟩

theorem stack_declare (h : t.declare id = .ok t') : t'.stack = t.stack := by
  rcases declare_ok h with rfl | ⟨s, _, rfl⟩
  · rfl
  · rfl

/-- Leaving the scope that was entered brings the stack back. -/
theorem exit_of_entered {kind : String} (t' : SymbolTable) (h : t'.stack = (t.enter kind).stack) :
    t'.exit.2 = { t' with stack := t.stack } := by
  unfold SymbolTable.exit
  rw [h]
  rfl

/-- Scopes are numbered in the order in which they were made, and the open ones are among them. -/
structure Numbered (t : SymbolTable) : Prop where
  next : t.nextId = t.scopes.size
  opened : ∀ i ∈ t.openIds, i < t.scopes.size

namespace Numbered

theorem start : Numbered {} := ⟨rfl, by decide⟩

theorem enter (h : t.Numbered) (kind : String) : (t.enter kind).Numbered where
  next := (congrArg (· + 1) h.next).trans (Array.size_push _).symm
  opened i hi := by
    show i < (t.scopes.push _).size
    rw [Array.size_push]
    rcases List.mem_cons.mp hi with hnew | hi
    · exact Nat.lt_succ_of_le (Nat.le_of_eq (hnew.trans h.next))
    · exact Nat.lt_succ_of_lt (h.opened i hi)

theorem exit (h : t.Numbered) : t.exit.2.Numbered := by
  unfold SymbolTable.exit
  split
  · exact h
  · rename_i id rest haround
    refine ⟨h.next, fun i hi => h.opened i (List.mem_cons_of_mem _ ?_)⟩
    rw [haround]
    exact hi

theorem keep (h : t.Numbered) (s : Symbol) : (t.keep s).2.Numbered := { h with }

theorem declare (h : t.Numbered) (hdeclare : t.declare id = .ok t') : t'.Numbered := by
  rcases declare_ok hdeclare with rfl | ⟨s, _, rfl⟩
  · exact h
  · refine ⟨h.next.trans Array.size_modify.symm, fun i hi => ?_⟩
    show i < (Array.modify _ _ _).size
    rw [Array.size_modify]
    exact h.opened i hi

end Numbered

theorem symbol?_declare (h : t.declare id = .ok t') {i : SymbolId} (hi : i ≠ id) :
    t'.symbol? i = t.symbol? i := by
  rcases declare_ok h with rfl | ⟨s, _, rfl⟩
  · rfl
  · unfold symbol?
    rw [Array.getElem?_modify, if_neg hi.symm]

/-- Only the innermost scope changes, and the name is new to it. -/
theorem scopes_declare (h : t.declare id = .ok t') (i : Nat) (sc : Scope)
    (hsc : t.scopes[i]? = some sc) : ∃ sc', t'.scopes[i]? = some sc' ∧ sc.Extends sc' := by
  rcases declare_ok h with rfl | ⟨s, hnew, rfl⟩
  · exact ⟨sc, hsc, .refl sc⟩
  · rw [Array.getElem?_modify, hsc]
    split
    · rename_i hi
      have hcurrent : t.current = sc := by
        unfold current
        rw [hi, Array.getD_eq_getD_getElem?, hsc]
        rfl
      rw [hcurrent] at hnew
      refine ⟨_, rfl, rfl, rfl, rfl, ?_⟩
      dsimp only
      rw [Assoc.put_of_not_contains _ hnew]
      exact List.prefix_append _ _
    · exact ⟨sc, rfl, .refl sc⟩

end SymbolTable

namespace Symbol

/-- Whether a symbol is a constant. -/
def isConst (s : Symbol) : Bool := s.asVariable?.any Variable.const

/-- Whether a symbol is a variable without a type of its own. -/
def isInferred (s : Symbol) : Bool := s.asVariable?.any Variable.inferred

/-- Whether a symbol is a variable whose type the next assignment may fix. -/
def awaitsType (s : Symbol) : Bool := s.isInferred && s.type? == some .null

/-- Two symbols are one declaration, whatever is known of its type. -/
structure SameDeclaration (s s' : Symbol) : Prop where
  name : s'.name = s.name
  scope : s'.scope = s.scope
  kind : s'.kind = s.kind
  isConst : s'.isConst = s.isConst
  isInferred : s'.isInferred = s.isInferred

theorem SameDeclaration.refl (s : Symbol) : s.SameDeclaration s := ⟨rfl, rfl, rfl, rfl, rfl⟩

theorem SameDeclaration.trans {s s' s'' : Symbol} (h₁ : s.SameDeclaration s')
    (h₂ : s'.SameDeclaration s'') : s.SameDeclaration s'' :=
  ⟨h₂.name.trans h₁.name, h₂.scope.trans h₁.scope, h₂.kind.trans h₁.kind,
    h₂.isConst.trans h₁.isConst, h₂.isInferred.trans h₁.isInferred⟩

end Symbol

/-- Reports are only added, and every scope and symbol is still there. -/
structure Build.Grown (b b' : Build) : Prop where
  errors : b.errors.toList <+: b'.errors.toList
  warnings : b.warnings.toList <+: b'.warnings.toList
  scopes : ∀ (i : Nat) (s : Scope), b.table.scopes[i]? = some s →
    ∃ s', b'.table.scopes[i]? = some s' ∧ s.Extends s'
  symbols : ∀ id s, b.table.symbol? id = some s →
    ∃ s', b'.table.symbol? id = some s' ∧ s.SameDeclaration s'

namespace Build.Grown

variable {b c d : Build}

theorem same (symbols : c.table.symbols = b.table.symbols)
    (scopes : c.table.scopes = b.table.scopes) (errors : c.errors = b.errors)
    (warnings : c.warnings = b.warnings) : Grown b c where
  errors := errors ▸ List.prefix_rfl
  warnings := warnings ▸ List.prefix_rfl
  scopes _ s h := ⟨s, scopes ▸ h, .refl s⟩
  symbols _ s h := ⟨s, by rwa [SymbolTable.symbol?, symbols], .refl s⟩

theorem refl (b : Build) : Grown b b := same rfl rfl rfl rfl

theorem trans (h₁ : Grown b c) (h₂ : Grown c d) : Grown b d where
  errors := h₁.errors.trans h₂.errors
  warnings := h₁.warnings.trans h₂.warnings
  scopes i s h := by
    obtain ⟨s₁, hs₁, hext₁⟩ := h₁.scopes i s h
    obtain ⟨s₂, hs₂, hext₂⟩ := h₂.scopes i s₁ hs₁
    exact ⟨s₂, hs₂, hext₁.trans hext₂⟩
  symbols id s h := by
    obtain ⟨s₁, hs₁, hsame₁⟩ := h₁.symbols id s h
    obtain ⟨s₂, hs₂, hsame₂⟩ := h₂.symbols id s₁ hs₁
    exact ⟨s₂, hs₂, hsame₁.trans hsame₂⟩

/-- Names are looked up in the same way after a step that leaves the table alone. -/
theorem of_quiet (h : Compile.Quiet b c) : Grown b c where
  errors := h.errors
  warnings := h.warnings
  scopes _ s hs := ⟨s, h.table ▸ hs, .refl s⟩
  symbols _ s hs := ⟨s, h.table ▸ hs, .refl s⟩

theorem enter (b : Build) (kind : String) : b.Grown { b with table := b.table.enter kind } where
  errors := List.prefix_rfl
  warnings := List.prefix_rfl
  scopes i s hs := by
    have hlt : i < b.table.scopes.size := (Array.getElem?_eq_some_iff.mp hs).1
    refine ⟨s, ?_, .refl s⟩
    show (b.table.scopes.push _)[i]? = some s
    grind
  symbols _ s hs := ⟨s, hs, .refl s⟩

end Build.Grown

/-! ## Where a type comes from -/

/-- The expression behind groups, choices and assignments that gives the type of the whole. -/
def Expr.tail : Expr → Expr
  | .group _ e => e.tail
  | .ternary _ _ no => no.tail
  | .chain _ first [] => first.tail
  | .assign (.mk _ (_ :: _)) v => v.tail
  | e => e

namespace Compile

variable {line : Nat} {level : Level} {value? : Option Ty} {b b' : Build}

/-- A value that may be stored has a type. -/
theorem assignable_gives {target? : Option Ty} :
    Gives (fun _ => value?.isSome) (Check.assignable value? target?) := by
  cases value? with
  | none => exact fun _ _ _ h => absurd h ends_throw
  | some t => exact .pure rfl

/-- What is stored is of the type of the value, unless there is a report. -/
theorem storeName_gives {id : String} {v : Variable} :
    Gives (fun t? => t?.isSome ∧ (t? = some .error ∨ t? = value?))
      (storeName line id v value?) := by
  unfold storeName
  refine .after fun operand => .bind assignable_gives fun allowed htype =>
    .ite ?_ (.after fun clean => .ite ?_ ?_)
  · exact .after fun _ => .after fun _ => .after fun _ => .pure ⟨rfl, .inl rfl⟩
  · exact .after fun _ => .after fun _ => .pure ⟨htype, .inr rfl⟩
  · exact .pure ⟨htype, .inr rfl⟩

theorem storeIndexed_gives {id : String} {e : Ty} {i : Operand} :
    Gives (fun t? => t?.isSome ∧ (t? = some .error ∨ t? = value?))
      (storeIndexed line id e i value?) := by
  unfold storeIndexed
  refine .after fun operand => .bind assignable_gives fun allowed htype =>
    .ite ?_ (.after fun clean => .ite ?_ ?_)
  · exact .after fun _ => .after fun _ => .pure ⟨rfl, .inl rfl⟩
  · exact .after fun _ => .pure ⟨htype, .inr rfl⟩
  · exact .pure ⟨htype, .inr rfl⟩

theorem conclude_gives {t : Target} : Gives (·.isSome) (conclude line t) := by
  unfold conclude
  grind

theorem suffixes_gives {isThis : Bool} (ss : List Suffix) :
    ∀ t : Target, Gives (·.isSome) (suffixes line isThis t ss) := by
  induction ss with
  | nil =>
    intro t
    rw [suffixes]
    exact conclude_gives
  | cons s ss ih =>
    intro t
    cases s with
    | call at_ args | member at_ id =>
      rw [suffixes]
      exact .after fun _ => .after fun t => ih t
    | index at_ e =>
      rw [suffixes]
      grind

theorem follow_gives {start : BuildM (Option Target)} {rest : Target → BuildM (Option Ty)}
    (hrest : ∀ t, Gives (·.isSome) (rest t)) : Gives (·.isSome) (follow start rest) := by
  unfold follow
  refine .after fun t? => ?_
  split
  · exact .pure rfl
  · exact hrest _

/-- An assignment without a type is one to a target that is read and not stored to. -/
theorem assignTo_none {a : Atom} {ss : List Suffix}
    {readIndex readTarget readValue : BuildM (Option Ty)}
    (h : Ends (assignTo a ss readIndex readTarget readValue) b none b') :
    ∃ t b₁, Ends readTarget b t b₁ ∧ ss ≠ [] ∧ Ends readValue b₁ none b' := by
  unfold assignTo at h
  split at h
  · obtain ⟨x?, b₁, _, h⟩ := ends_bind.mp h
    split at h
    · cases (ends_pure.mp h).1
    · obtain ⟨t, b₂, _, h⟩ := ends_bind.mp h
      cases (storeName_gives h).1
  · rename_i hne
    split at h
    · obtain ⟨e?, b₁, _, h⟩ := ends_bind.mp h
      split at h
      · cases (ends_pure.mp h).1
      · simp only [ends_bind] at h
        obtain ⟨t, b₂, _, i?, b₃, _, h⟩ := h
        split at h
        · cases (ends_pure.mp h).1
        · obtain ⟨t, b₄, _, h⟩ := ends_bind.mp h
          cases (storeIndexed_gives h).1
    · obtain ⟨t, b₁, htarget, h⟩ := ends_bind.mp h
      exact ⟨t, b₁, htarget, fun hnil => hne (List.isEmpty_iff.mpr hnil), h⟩

theorem start_gives {type? : Option Ty} :
    Gives (fun c : Chain => c.result? = type?) (Chain.start level type?) := by
  unfold Chain.start
  exact .after fun v => .ite (.after fun _ => .pure rfl) (.pure rfl)

theorem chain_gives (rest : List (String × Expr)) :
    ∀ c : Chain, Fit c.result? → Gives Fit (chain level line c rest) := by
  induction rest with
  | nil =>
    intro c hc
    rw [chain]
    exact .pure hc
  | cons p rest ih =>
    intro c _
    obtain ⟨op, e⟩ := p
    rw [chain]
    exact .after fun t => .bind (Chain.step_fits ..) ih

/-- Elements that do not give an array have been reported. -/
theorem elements_none {first? : Option Ty} {cells : List Operand} {es : List Expr}
    (h : Ends (elements line first? cells es) b none b') :
    b.errors.size < b'.errors.size := by
  induction es generalizing b cells with
  | nil =>
    unfold elements at h
    obtain ⟨_, b₁, _, h⟩ := ends_bind.mp h
    grind
  | cons e es ih =>
    simp only [elements, ends_bind] at h
    obtain ⟨t, b₁, he, v, b₂, hv, h⟩ := h
    have hle := ((Quiet.expr e he).trans (Quiet.exprStable.value hv)).errors_size
    split at h
    · simp only [ends_bind] at h
      obtain ⟨_, b₃, h₃, _, b₄, h₄, _, b₅, h₅, h⟩ := h
      rw [(ends_pure.mp h).2, ends_modify.mp h₅, (ends_ofExcept.mp h₄).2, (ends_ofExcept.mp h₃).2]
      rw [Array.size_push]
      omega
    · exact Nat.lt_of_le_of_lt hle (ih h)

/-- An expression without a type is an array literal at its end, and has been reported. -/
theorem expr_none : ∀ {e : Expr} {b b' : Build}, Ends (expr e) b none b' →
    (∃ line es, e.tail = .array line es) ∧ b.errors.size < b'.errors.size
  | .assign (.mk a []) v, b, b', h => by
    unfold expr at h
    obtain ⟨_, _, _, hne, _⟩ := assignTo_none h
    exact absurd rfl hne
  | .assign (.mk a (s :: ss)) v, b, b', h => by
    unfold expr at h
    obtain ⟨t, b₁, htarget, _, h⟩ := assignTo_none h
    have hle := (Quiet.exprStable.follow
      (Quiet.exprStable.atom a (Atom.all_of_forall (fun _ => trivial) a))
      (fun t => Quiet.exprStable.suffixes _ _ t _ (Suffix.allIn_of_forall (fun _ => trivial) _))
        htarget).errors_size
    rw [Expr.tail]
    exact ⟨(expr_none h).1, Nat.lt_of_le_of_lt hle (expr_none h).2⟩
  | .ternary c yes no, b, b', h => by
    rw [expr] at h
    simp only [ends_bind] at h
    obtain ⟨_, b₁, hc, _, b₂, hyes, h⟩ := h
    have hle := ((Quiet.expr c hc).trans (Quiet.expr yes hyes)).errors_size
    rw [Expr.tail]
    exact ⟨(expr_none h).1, Nat.lt_of_le_of_lt hle (expr_none h).2⟩
  | .chain level first [], b, b', h => by
    rw [expr] at h
    simp only [ends_bind] at h
    obtain ⟨t, b₁, hfirst, c, b₂, hstart, h⟩ := h
    rw [chain, ends_pure] at h
    have hc : c.result? = t := start_gives hstart
    rw [← h.1] at hc
    rw [← hc] at hfirst
    have hle := (Quiet.exprStable.chainStart level t hstart).errors_size
    rw [Expr.tail, h.2]
    exact ⟨(expr_none hfirst).1, Nat.lt_of_lt_of_le (expr_none hfirst).2 hle⟩
  | .chain level first ((op, e) :: rest), b, b', h => by
    rw [expr] at h
    simp only [ends_bind] at h
    obtain ⟨t, b₁, hfirst, c, b₂, hstart, h⟩ := h
    rw [chain] at h
    exact absurd (Gives.after (fun _ => .bind (Chain.step_fits ..) (chain_gives rest)) h)
      not_fit_none
  | .not line e, b, b', h | .negate line e, b, b', h => by
    rw [expr] at h
    obtain ⟨t, b₁, _, h⟩ := ends_bind.mp h
    exact absurd (unary_fits (by trivial) h) not_fit_none
  | .literal _ l, b, b', h => by
    rw [expr] at h
    exact absurd (literal_fits l h) not_fit_none
  | .array _ [], b, b', h => by
    unfold expr at h
    cases (ends_pure.mp h).1
  | .array line (e :: es), b, b', h => by
    simp only [expr, ends_bind] at h
    obtain ⟨t, b₁, he, v, b₂, hv, h⟩ := h
    have hle := ((Quiet.expr e he).trans (Quiet.exprStable.value hv)).errors_size
    exact ⟨⟨line, e :: es, rfl⟩, Nat.lt_of_le_of_lt hle (elements_none h)⟩
  | .group _ e, b, b', h => by
    rw [expr] at h
    rw [Expr.tail]
    exact expr_none h
  | .access (.mk a ss), b, b', h => by
    unfold expr at h
    cases follow_gives (fun t => suffixes_gives ss t) h

/-- Between `b` and `b'` an assignment that `allow` admits has given the symbol `id` the type `t?`:
the type of its value. That is no type at all only if the value is an array literal that has been
reported. -/
structure Retyped (allow : Use → Prop) (b b' : Build) (id : SymbolId) (t? : Option Ty) : Prop where
  fixes : t? != some .null && t? != some .void && t? != some .error
  source : ∃ x e b₁ b₂, allow (.assign x e) ∧ b.Grown b₁ ∧ b₁.table.lookup? x = some id ∧
    Ends (expr e) b₁ t? b₂ ∧ b₂.Grown b' ∧
    (t? = none → ∃ line es, e.tail = .array line es ∧ b₁.errors.size < b₂.errors.size)

theorem Retyped.mono {allow : Use → Prop} {c c' : Build} {id : SymbolId} {t? : Option Ty}
    (h : Retyped allow c c' id t?) (hb : b.Grown c) (hb' : c'.Grown b') :
    Retyped allow b b' id t? := by
  obtain ⟨hfixes, x, e, b₁, b₂, hallow, hgrown₁, hlookup, hends, hgrown₂, hnone⟩ := h
  exact ⟨hfixes, x, e, b₁, b₂, hallow, hb.trans hgrown₁, hlookup, hends, hgrown₂.trans hb', hnone⟩

/-- A declaration is accepted, or the symbol is kept and there is a report. -/
theorem declare_cases {s : Symbol} {r : SymbolId × Bool} (h : Ends (declare line s) b r b') :
    (∃ t, (b.table.keep s).2.declare (b.table.keep s).1 = .ok t ∧ r = ((b.table.keep s).1, true) ∧
      b' = { b with table := t }) ∨
    ∃ f message, (b.table.keep s).2.declare (b.table.keep s).1 = .error f ∧
      r = ((b.table.keep s).1, false) ∧
      b' = { b with table := (b.table.keep s).2, errors := b.errors.push message } := by
  unfold declare at h
  rw [ends_get_bind] at h
  dsimp only at h
  split at h
  · grind
  · rename_i f hf
    rw [ends_modify_bind] at h
    obtain ⟨_, b₁, herror, hpure⟩ := ends_bind.mp h
    obtain rfl := ends_modify.mp herror
    exact .inr ⟨f, _, hf, ends_pure.mp hpure⟩

/-- What reading a part of a program keeps. -/
structure Kept (allow : Use → Prop) (b b' : Build) : Prop extends Build.Grown b b' where
  quads : b.quads.toList <+: b'.quads.toList
  openScopes : b'.table.stack = b.table.stack
  loops : b.loops.Kept b'.loops
  inClass? : b'.inClass? = b.inClass?
  loop? : b'.loop? = b.loop?
  routine? : b'.routine? = b.routine?
  types : ∀ id s s', b.table.symbol? id = some s → b'.table.symbol? id = some s' →
    s'.type? = s.type? ∨ s.awaitsType ∧ Retyped allow b b' id s'.type?

namespace Kept

variable {allow : Use → Prop} {b c d b' : Build} {x : String} {α : Type}

theorem of_quiet (h : Quiet b c) : Kept allow b c where
  toGrown := .of_quiet h
  __ := h
  loops := .of_eq h.loops
  openScopes := by rw [h.table]
  types _ s s' hs hs' := by
    rw [h.table, hs] at hs'
    rw [Option.some.inj hs']
    exact .inl rfl

theorem refl (b : Build) : Kept allow b b := of_quiet (.refl b)

/-- A type that an assignment has fixed is not fixed again. -/
theorem not_awaitsType {id : SymbolId} {s : Symbol} (h : Retyped allow b c id s.type?) :
    s.awaitsType = false := by
  have hfixes := h.fixes
  rw [Bool.and_eq_true, Bool.and_eq_true] at hfixes
  have hnull : (s.type? == some .null) = false := by
    rw [← Bool.not_eq_true']
    exact hfixes.1.1
  rw [Symbol.awaitsType, hnull, Bool.and_false]

theorem trans (h₁ : Kept allow b c) (h₂ : Kept allow c d) : Kept allow b d where
  toGrown := h₁.toGrown.trans h₂.toGrown
  quads := h₁.quads.trans h₂.quads
  openScopes := h₂.openScopes.trans h₁.openScopes
  loops := h₁.loops.trans h₂.loops
  inClass? := h₂.inClass?.trans h₁.inClass?
  loop? := h₂.loop?.trans h₁.loop?
  routine? := h₂.routine?.trans h₁.routine?
  types id s s'' hs hs'' := by
    obtain ⟨s', hs', hsame⟩ := h₁.symbols id s hs
    rcases h₂.types id s' s'' hs' hs'' with hkept₂ | ⟨hawaits₂, hnew₂⟩
    · rcases h₁.types id s s' hs hs' with hkept₁ | ⟨hawaits₁, hnew₁⟩
      · exact .inl (hkept₂.trans hkept₁)
      · exact .inr ⟨hawaits₁, hkept₂ ▸ hnew₁.mono (.refl b) h₂.toGrown⟩
    · rcases h₁.types id s s' hs hs' with hkept₁ | ⟨_, hnew₁⟩
      · have hawaits : s.awaitsType = true := by
          unfold Symbol.awaitsType at hawaits₂ ⊢
          rwa [← hkept₁, ← hsame.isInferred]
        exact .inr ⟨hawaits, hnew₂.mono h₁.toGrown (.refl d)⟩
      · rw [not_awaitsType hnew₁] at hawaits₂
        cases hawaits₂

/-- A reading between states whose names and reports are those of the states around it. -/
theorem adjust {b₀ c₀ : Build} (h : Kept allow b c) (table : b.table = b₀.table)
    (errors : b.errors = b₀.errors) (warnings : b.warnings = b₀.warnings)
    (table' : c₀.table = c.table) (errors' : c₀.errors = c.errors)
    (warnings' : c₀.warnings = c.warnings) (quads : b₀.quads.toList <+: c₀.quads.toList)
    (loops : b₀.loops.Kept c₀.loops) (inClass? : c₀.inClass? = b₀.inClass?)
    (loop? : c₀.loop? = b₀.loop?) (routine? : c₀.routine? = b₀.routine?) : Kept allow b₀ c₀ := by
  have hbefore : b₀.Grown b := .same (by rw [table]) (by rw [table]) errors warnings
  have hafter : c.Grown c₀ := .same (by rw [table']) (by rw [table']) errors' warnings'
  refine ⟨(hbefore.trans h.toGrown).trans hafter, quads, ?_, loops, inClass?, loop?, routine?, ?_⟩
  · rw [table', h.openScopes, table]
  · intro id s s' hs hs'
    rw [← table] at hs
    rw [table'] at hs'
    rcases h.types id s s' hs hs' with hkept | ⟨hawaits, hnew⟩
    · exact .inl hkept
    · exact .inr ⟨hawaits, hnew.mono hbefore hafter⟩

/-- A change of the table that leaves scopes and symbols what they are. -/
theorem of_table {t : SymbolTable} (openScopes : t.stack = b.table.stack)
    (scopes : ∀ (i : Nat) (s : Scope), b.table.scopes[i]? = some s →
      ∃ s', t.scopes[i]? = some s' ∧ s.Extends s')
    (symbols : ∀ id s, b.table.symbol? id = some s →
      ∃ s', t.symbol? id = some s' ∧ s.SameDeclaration s' ∧ s'.type? = s.type?) :
    Kept allow b { b with table := t } where
  __ := (refl b : Kept allow b b)
  scopes := scopes
  symbols id s hs := by
    grind
  openScopes := openScopes
  types id s s' hs hs' := by
    grind

/-! ## The steps of statements -/

/-- Changing a symbol in a way that its declaration and its type survive. -/
theorem modifySymbol (id : SymbolId) (f : Symbol → Symbol)
    (hf : ∀ s, s.SameDeclaration (f s) ∧ (f s).type? = s.type?) :
    Keeps (Kept allow) (Compile.modifySymbol id f) := by
  refine Keeps.modify fun b => of_table rfl (fun _ s hs => ⟨s, hs, .refl s⟩) ?_
  intro i s hs
  rw [SymbolTable.symbol?_modifySymbol, hs]
  split
  · exact ⟨f s, rfl, hf s⟩
  · exact ⟨s, rfl, .refl s, rfl⟩

theorem modifyFunction (id : SymbolId) (f : Function → Function)
    (hf : ∀ g, (f g).result? = g.result?) : Keeps (Kept allow) (Compile.modifyFunction id f) := by
  refine modifySymbol id _ fun s => ?_
  rcases s with ⟨name, scope, v | g | c | ⟨k, t⟩⟩
  · exact ⟨.refl _, rfl⟩
  · exact ⟨⟨rfl, rfl, rfl, rfl, rfl⟩, hf g⟩
  · exact ⟨.refl _, rfl⟩
  · exact ⟨.refl _, rfl⟩

theorem modifyClass (id : SymbolId) (f : Class → Class) :
    Keeps (Kept allow) (Compile.modifyClass id f) := by
  refine modifySymbol id _ fun s => ?_
  rcases s with ⟨name, scope, v | g | c | ⟨k, t⟩⟩ <;> exact ⟨⟨rfl, rfl, rfl, rfl, rfl⟩, rfl⟩

theorem declare (line : Nat) (s : Symbol) : Keeps (Kept allow) (Compile.declare line s) := by
  intro b p b' h
  rcases declare_cases h with ⟨t, hdeclare, -, rfl⟩ | ⟨f, message, -, -, rfl⟩
  · refine of_table (SymbolTable.stack_declare hdeclare :)
      (SymbolTable.scopes_declare hdeclare :) ?_
    intro i s' hs'
    -- The symbol that is given its scope is the one just added.
    have hlt : i < b.table.symbols.size := (Array.getElem?_eq_some_iff.mp hs').1
    have hget := SymbolTable.symbol?_declare hdeclare (Nat.ne_of_lt hlt)
    exact ⟨s', hget.trans (SymbolTable.symbol?_keep hs'), .refl s', rfl⟩
  · have hkeep : Kept allow b { b with table := (b.table.keep s).2 } :=
      of_table rfl (fun _ s hs => ⟨s, hs, .refl s⟩) fun i s' hs' =>
        ⟨s', SymbolTable.symbol?_keep hs', .refl s', rfl⟩
    exact hkeep.trans (of_quiet ⟨rfl, prefix_push _ _, List.prefix_rfl, List.prefix_rfl,
      rfl, rfl, rfl, rfl⟩)

/-- What is opened and closed again leaves the open scopes as they were. -/
theorem scope (kind : String) (b c : Build)
    (h : Kept allow { b with table := b.table.enter kind } c) :
    Kept allow b { c with table := c.table.exit.2 } := by
  have hexit := SymbolTable.exit_of_entered (c.table) h.openScopes
  have henter := Build.Grown.enter b kind
  have hleave : c.Grown { c with table := c.table.exit.2 } := by
    rw [hexit]
    exact .same rfl rfl rfl rfl
  refine ⟨(henter.trans h.toGrown).trans hleave, h.quads, ?_, h.loops, h.inClass?, h.loop?,
    h.routine?, ?_⟩
  · rw [hexit]
  · intro id s s' hs hs'
    rw [hexit] at hs'
    rcases h.types id s s' hs hs' with hkept | ⟨hawaits, hnew⟩
    · exact .inl hkept
    · exact .inr ⟨hawaits, hnew.mono henter hleave⟩

/-! ### Control flow -/

theorem quiet {m : BuildM α} (hm : Keeps Quiet m) : Keeps (Kept allow) m :=
  hm.mono fun _ _ => of_quiet

theorem exprStable : ExprStable (fun _ => True) (Kept allow) :=
  Quiet.exprStable.mono refl (fun _ _ _ => trans) fun _ _ => of_quiet

theorem flow : Flow (Since (Kept allow)) where
  weaken _ hb := hb
  newTemp _ := exprStable.yields exprStable.newTemp
  finish _ _ ht := exprStable.walk.finish ht
  newLabel _ := exprStable.yields (quiet Quiet.newLabel)
  quad _ q _ _ := exprStable.yields (quiet (Quiet.quad q))
  loop _ _ _ hb := ⟨_, refl _, fun _ h => hb.trans
    (h.adjust rfl rfl rfl rfl rfl rfl h.quads h.loops h.inClass? rfl h.routine?)⟩
  leave _ _ hb := hb.trans (of_quiet (Quiet.quad _ (ends_modify (u := ()) |>.mpr rfl)))

/-- A change behind the elements of a list keeps the list in front. -/
theorem prefix_modify {xs : List α} {ys : Array α} (h : xs <+: ys.toList) {i : Nat}
    (hi : xs.length ≤ i) (f : α → α) : xs <+: (ys.modify i f).toList := by
  rw [List.prefix_iff_getElem?] at h ⊢
  intro j hj
  rw [Array.getElem?_toList, Array.getElem?_modify, if_neg (by omega), ← Array.getElem?_toList]
  exact h j hj

/-- The opening of a function stands behind the code there was, so writing its size leaves that code
alone. -/
theorem prefix_routine {Q Q' ending : Array Quad} {label opening : Quad}
    (h : ((Q.push label).push opening).toList <+: Q'.toList) (f : Quad → Quad) :
    Q.toList <+: (Q'.modify (Q.size + 1) f ++ ending).toList := by
  have hquads : Q.toList <+: Q'.toList := ((prefix_push _ _).trans (prefix_push _ _)).trans h
  have hlater : Q.toList.length ≤ Q.size + 1 := by
    rw [Array.length_toList]
    omega
  rw [Array.toList_append]
  exact (prefix_modify hquads hlater f).trans (List.prefix_append _ _)

/-- The size of the frame is written into the code of the function alone. -/
theorem routine (name : String) (frame : FrameId) (label : Operand) (result? : Option Ty)
    {body : BuildM Unit} (hbody : Keeps (Kept allow) body) :
    Keeps (Kept allow) (Emit.routine name frame label result? body) := by
  intro b c b' h
  obtain ⟨ending, d, hin, rfl, -⟩ := Emit.routine_ends h
  have hkept := hbody hin
  have hcode : b.quads.toList <+:
      (d.quads.modify (b.quads.size + 1)
        ({ · with arg1 := Emit.sizeOperand d frame }) ++ ending).toList :=
    prefix_routine hkept.quads _
  exact hkept.adjust rfl rfl rfl rfl rfl rfl hcode hkept.loops hkept.inClass? hkept.loop? rfl

/-! ### Assignments -/

theorem direct (e : Expr) {t : Option Ty} (h : Ends (Compile.direct e) b t b') :
    ∃ b₁ b₂, Quiet b b₁ ∧ Ends (expr e) b₁ t b₂ ∧ Quiet b₂ b' := by
  simp only [Compile.direct, ends_bind, ends_pure] at h
  obtain ⟨_, b₁, hon, t', b₂, hexpr, _, b₃, hoff, rfl, rfl⟩ := h
  exact ⟨b₁, b₂, Quiet.of_silent (.setDirect _ hon), hexpr, Quiet.of_silent (.setDirect _ hoff)⟩

/-- A name that can be assigned to is a variable. -/
theorem assignable?_some {v : Variable}
    (h : Ends (Compile.assignable? line x) b (some v) b') : b' = b ∧
      ∃ id s, b.table.lookup? x = some id ∧ b.table.symbol? id = some s ∧ s.body = .variable v := by
  unfold Compile.assignable? at h
  obtain ⟨s?, b₁, hlookup, hcases⟩ := ends_bind.mp h
  obtain ⟨hs?, rfl⟩ := ends_lookup?.mp hlookup
  split at hcases
  · obtain ⟨_, _, _, hpure⟩ := ends_bind.mp hcases
    cases (ends_pure.mp hpure).1
  · rename_i s
    split at hcases
    · rename_i v' hbody
      split at hcases
      · obtain ⟨_, _, _, hpure⟩ := ends_bind.mp hcases
        cases (ends_pure.mp hpure).1
      · obtain ⟨hv, rfl⟩ := ends_pure.mp hcases
        obtain ⟨id, hid, hs⟩ := Option.bind_eq_some_iff.mp hs?.symm
        exact ⟨rfl, id, s, hid, hs, Option.some.inj hv ▸ hbody⟩
    · exact absurd hcases ends_throw

/-- A name that is assigned to is none that can be; or it is a variable, and its value is read,
gives it a type or is compared with the one it has, and is stored. -/
theorem assignName_cases {e : Expr} {t : Option Ty}
    (h : Ends (Compile.assignName line x e) b t b') :
    Ends (Compile.assignable? line x) b none b' ∨
    ∃ id s v value? b₁ b₂, b.table.lookup? x = some id ∧ b.table.symbol? id = some s ∧
      s.body = .variable v ∧
      Ends (Compile.direct e) b value? b₁ ∧ b₁.table = b.table ∧
      (fixesType v value? = true ∧ b₂ = { b₁ with table := b₁.table.modifySymbol id fun s =>
          { s with body := .variable { v with type? := value? } } } ∨
        ∃ m : BuildM Unit, Check.Remarks m ∧ Ends m b₁ () b₂) ∧
      Ends (do
        Compile.storeValue x
        Emit.endExpression
        return some (value?.getD .error)) b₂ t b' := by
  unfold Compile.assignName at h
  obtain ⟨v?, c, hv, h⟩ := ends_bind.mp h
  split at h
  · obtain ⟨-, rfl⟩ := ends_pure.mp h
    exact .inl hv
  · rename_i v
    obtain ⟨value?, b₁, hread, h⟩ := ends_bind.mp h
    obtain ⟨_, b₂, hfix, hrest⟩ := ends_bind.mp h
    obtain ⟨rfl, id, s, hlookup, hs, hbody⟩ := assignable?_some hv
    obtain ⟨c₁, c₂, hbefore, hexpr, hafter⟩ := direct e hread
    -- Reading the value leaves the names alone, so the variable is still the one that was looked
    -- up.
    have htable : b₁.table = c.table := ((hbefore.trans (Quiet.expr e hexpr)).trans hafter).table
    refine .inr ⟨id, s, v, value?, b₁, b₂, hlookup, hs, hbody, hread, htable, ?_, hrest⟩
    unfold Compile.fixType at hfix
    split at hfix
    · rw [ends_get_bind, htable, hlookup] at hfix
      exact .inl ⟨‹_›, ends_modify.mp hfix⟩
    · exact .inr ⟨_, .unlessAssignable .., hfix⟩

/-- The type of a value goes to the variable that waits for it. -/
theorem retype {e : Expr} {value? : Option Ty} {v : Variable} {id : SymbolId} {s : Symbol}
    {b₁ b₂ b₃ : Build} (hallow : allow (.assign x e)) (hlookup : b.table.lookup? x = some id)
    (hs : b.table.symbol? id = some s) (hbody : s.body = .variable v)
    (hfixes : fixesType v value? = true) (hbefore : Quiet b b₁) (hends : Ends (expr e) b₁ value? b₂)
    (hafter : Quiet b₂ b₃) :
    Kept allow b { b₃ with table := b₃.table.modifySymbol id fun s =>
      { s with body := .variable { v with type? := value? } } } := by
  obtain ⟨name, scope, body⟩ := s
  obtain rfl : body = .variable v := hbody
  have hquiet : Quiet b b₃ := (hbefore.trans (Quiet.expr e hends)).trans hafter
  have hget : ∀ i, (b₃.table.modifySymbol id fun s =>
      { s with body := .variable { v with type? := value? } }).symbol? i
      = if id = i then some ⟨name, scope, .variable { v with type? := value? }⟩
        else b.table.symbol? i := by
    intro i
    rw [hquiet.table, SymbolTable.symbol?_modifySymbol]
    split
    · rename_i hi
      rw [← hi, hs]
      rfl
    · rfl
  have hsame : (⟨name, scope, .variable v⟩ : Symbol).SameDeclaration
      ⟨name, scope, .variable { v with type? := value? }⟩ := ⟨rfl, rfl, rfl, rfl, rfl⟩
  -- The declaration survives from any state with the same table.
  have hgrown : ∀ c : Build, Quiet c b₃ → c.table = b.table →
      c.Grown { b₃ with table := b₃.table.modifySymbol id fun s =>
        { s with body := .variable { v with type? := value? } } } := by
    intro c hc htable
    refine ⟨hc.errors, hc.warnings, fun i sc hsc => ⟨sc, ?_, .refl sc⟩, fun i si hsi => ?_⟩
    · rw [← hc.table] at hsc
      exact hsc
    · rw [htable] at hsi
      by_cases hi : id = i
      · subst hi
        rw [hs] at hsi
        rw [← Option.some.inj hsi]
        exact ⟨_, (hget id).trans (if_pos rfl), hsame⟩
      · exact ⟨si, (hget i).trans ((if_neg hi).trans hsi), .refl si⟩
  have hvalue := hfixes
  unfold fixesType at hvalue
  simp only [Bool.and_eq_true] at hvalue
  obtain ⟨⟨⟨⟨hnull, hinferred⟩, hnotNull⟩, hnotVoid⟩, hnotError⟩ := hvalue
  refine ⟨hgrown b hquiet rfl, hquiet.quads, ?_, .of_eq hquiet.loops, hquiet.inClass?, hquiet.loop?,
    hquiet.routine?, ?_⟩
  · show b₃.table.stack = b.table.stack
    rw [hquiet.table]
  · intro i si si' hsi hsi'
    by_cases hi : id = i
    · subst hi
      rw [hs] at hsi
      rw [(hget id).trans (if_pos rfl)] at hsi'
      rw [← Option.some.inj hsi, ← Option.some.inj hsi']
      refine .inr ⟨?_, ?_, x, e, b₁, b₂, hallow, .of_quiet hbefore, ?_, hends, ?_, ?_⟩
      · exact Bool.and_eq_true_iff.mpr ⟨hinferred, hnull⟩
      · exact Bool.and_eq_true_iff.mpr ⟨Bool.and_eq_true_iff.mpr ⟨hnotNull, hnotVoid⟩, hnotError⟩
      · rw [hbefore.table]
        exact hlookup
      · exact hgrown b₂ hafter ((Quiet.expr e hends).table.trans hbefore.table)
      · rintro rfl
        obtain ⟨⟨line, es, htail⟩, hlt⟩ := expr_none hends
        exact ⟨line, es, htail, hlt⟩
    · rw [(hget i).trans ((if_neg hi).trans hsi)] at hsi'
      rw [Option.some.inj hsi']
      exact .inl rfl

theorem assignName (line : Nat) (x : String) (e : Expr) (hallow : allow (.assign x e)) :
    Keeps (Kept allow) (Compile.assignName line x e) := by
  intro b t b' h
  rcases assignName_cases h with hv | ⟨id, s, v, value?, b₁, b₂, hlookup, hs, hbody,
    hdirect, -, hfix, hrest⟩
  · exact of_quiet (Quiet.exprStable.assignable? _ _ hv)
  · simp only [ends_bind, ends_pure] at hrest
    obtain ⟨_, b₃, hstore, _, b₄, hend, -, rfl⟩ := hrest
    obtain ⟨c₁, c₂, hbefore, hends, hafter⟩ := direct e hdirect
    refine trans ?_ (of_quiet
      ((Quiet.exprStable.storeValue x hstore).trans (.of_silent (.endExpression hend))))
    rcases hfix with ⟨hfixes, rfl⟩ | ⟨m, hm, hfix⟩
    · exact retype hallow hlookup hs hbody hfixes hbefore hends hafter
    · have hquiet : Quiet b b₁ := (hbefore.trans (Quiet.expr e hends)).trans hafter
      exact of_quiet (hquiet.trans (Quiet.exprStable.remarks hm hfix))

/-- Every elementary step keeps what was there. -/
theorem stable : Stable (fun _ => True) allow (Kept allow) where
  toExprStable := exprStable
  sound _ _ := Expr.all_of_forall (fun _ => trivial) _
  warn _ _ := quiet (Keeps.modify fun _ =>
    ⟨rfl, List.prefix_rfl, prefix_push _ _, List.prefix_rfl, rfl, rfl, rfl, rfl⟩)
  aside _ _ := of_quiet (.same rfl rfl rfl rfl rfl rfl rfl rfl)
  layout id := quiet <| Quiet.exprStable.layout (fun _ _ =>
    Keeps.modify fun _ => .same rfl rfl rfl rfl rfl rfl rfl rfl) id
  declare := declare
  modifyFunction := modifyFunction
  modifyClass id f _ := modifyClass id f
  assignName := assignName
  scope := scope
  loops _ _ h := h.adjust rfl rfl rfl rfl rfl rfl h.quads h.loops.leave
    h.inClass? h.loop? h.routine?
  inClass _ _ _ h := h.adjust rfl rfl rfl rfl rfl rfl h.quads h.loops rfl h.loop? h.routine?
  __ := flow.controlStable exprStable.toCodeStable
  routine name frame label result? _ := routine name frame (.text ("FUNC_" ++ label)) result?

end Kept

/-- An assignment to a name keeps what reading its value keeps, and what giving its variable a type
does. -/
theorem CodeStable.assignName_of_retype {R : Build → Build → Prop} (h : CodeStable R)
    (haside : ∀ b c, R b (b.aside c))
    (hretype : ∀ {b : Build} {id : SymbolId} {s : Symbol} {v : Variable} {value? : Option Ty},
      b.table.symbol? id = some s → s.body = .variable v → fixesType v value? = true →
      R b { b with table := b.table.modifySymbol id fun s =>
        { s with body := .variable { v with type? := value? } } })
    (line : Nat) (x : String) {e : Expr} (he : Keeps R (expr e)) :
    Keeps R (Compile.assignName line x e) := by
  intro b t b' hrun
  rcases Kept.assignName_cases hrun with hv | ⟨id, s, v, value?, b₁, b₂, -, hs, hbody, hread,
    htable, hfix, hrest⟩
  · exact h.keeps (S := []) (h.codeWalk.assignable? line x) hv
  · simp only [ends_bind, ends_pure] at hrest
    obtain ⟨_, b₃, hstore, _, b₄, hdone, -, rfl⟩ := hrest
    have hvalue : Keeps R (Compile.direct e) := by
      have hdirect (on) : Keeps R (Emit.setDirect on) := Build.keeps_aside haside fun _ => rfl
      unfold Compile.direct
      exact h.bind (hdirect true) fun _ => h.bind he fun t =>
        h.bind (hdirect false) fun _ => h.pure t
    have hfixed : R b₁ b₂ := by
      rcases hfix with ⟨hfixes, rfl⟩ | ⟨m, hm, hfix⟩
      · exact hretype (htable ▸ hs) hbody hfixes
      · exact h.remarks hm hfix
    exact h.trans _ _ _ (h.trans _ _ _ (hvalue hread) hfixed)
      (h.trans _ _ _ (h.storeValue x hstore) (Build.keeps_aside haside (fun _ => rfl) hdone))

/-- **Reading is balanced and monotone.** Whatever part of a program is read from whatever state, if
the reading completes then the open scopes, the loops around it, the class and the targets and the
function of the code at hand are as before; reports, scopes and code have only been added to; and
every symbol is the declaration it was, of the type it was, unless it is a variable without a type
of its own that an assignment in the part has given one. A type so given is final: no reading of any
part from any state where the symbol has it changes it. The flag that tells whether a loop is around
agrees with the number of loops behind the part if it does before it. -/
theorem part_balanced (p : Part) {b b' : Build} {t : Option Ty} (h : Ends (part p) b t b') :
    Kept (· ∈ p.uses) b b' ∧ (b.loops.Sound → b'.loops = b.loops) ∧
      ∀ id s s', b.table.symbol? id = some s → b'.table.symbol? id = some s' → s'.type? ≠ s.type? →
        ∀ (q : Part) {c c' : Build} {u : Option Ty}, c.table.symbol? id = some s' →
          Ends (part q) c u c' → ∃ s'', c'.table.symbol? id = some s'' ∧ s''.type? = s'.type? := by
  have hkept : Kept (· ∈ p.uses) b b' := Kept.stable.part p (fun _ hu => hu) h
  refine ⟨hkept, hkept.loops.eq_of_sound, fun id s s' hs hs' hne q c c' u hc hends => ?_⟩
  have hlater : Kept (· ∈ q.uses) c c' := Kept.stable.part q (fun _ hu => hu) hends
  obtain ⟨s'', hs'', _⟩ := hlater.symbols id s' hc
  refine ⟨s'', hs'', ?_⟩
  rcases hkept.types id s s' hs hs' with hsame | ⟨_, hretyped⟩
  · exact absurd hsame hne
  · rcases hlater.types id s' s'' hc hs'' with hsame | ⟨hawaits, _⟩
    · exact hsame
    · rw [Kept.not_awaitsType hretyped] at hawaits
      cases hawaits

/-- The first value of a variable that was declared without a type gives it the type integer, once
and for all. -/
theorem part_balanced_first_value :
    ∃ b b' s s', Ends (part (.stmt (.declare ⟨1, "x", none, none⟩))) {} none b ∧
      Ends (part (.stmt (.assign (.toName 2 "x" (.literal 2 (.plain "1")))))) b (some .integer) b' ∧
      b.table.symbol? 0 = some s ∧ b'.table.symbol? 0 = some s' ∧
      s.type? = some .null ∧ s'.type? = some .integer ∧
      Kept (· ∈ [.assign "x" (.literal 2 (.plain "1"))]) b b' ∧
      ∀ (q : Part) {c c' : Build} {u : Option Ty}, c.table.symbol? 0 = some s' →
        Ends (part q) c u c' → ∃ s'', c'.table.symbol? 0 = some s'' ∧
          s''.type? = some .integer := by
  obtain ⟨b, b', s, s', hdeclare, hassign, hs, hs', ht, ht'⟩ : ∃ b b' s s',
      Ends (part (.stmt (.declare ⟨1, "x", none, none⟩))) {} none b ∧
      Ends (part (.stmt (.assign (.toName 2 "x" (.literal 2 (.plain "1")))))) b (some .integer) b' ∧
      b.table.symbol? 0 = some s ∧ b'.table.symbol? 0 = some s' ∧
      s.type? = some .null ∧ s'.type? = some .integer :=
    ⟨_, _, _, _, rfl, rfl, rfl, rfl, rfl, rfl⟩
  obtain ⟨hkept, -, hfinal⟩ := part_balanced _ hassign
  refine ⟨b, b', s, s', hdeclare, hassign, hs, hs', ht, ht', hkept, fun q c c' u hc hends => ?_⟩
  have hne : s'.type? ≠ s.type? := by
    rw [ht, ht']
    exact nofun
  obtain ⟨s'', hs'', htype⟩ := hfinal 0 s s' hs hs' hne q hc hends
  exact ⟨s'', hs'', htype.trans ht'⟩

end Compile

end Scriptc
