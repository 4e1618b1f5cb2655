import Scriptc.Proofs.Addresses
import Scriptc.Proofs.Sites

/-!
# Scriptc: the room that types take

Arrays are of no negative length: a type that is written has dimensions of zero, and a list of
values has as many as it has. So every type in the table of a program fits, whatever the program is
(`program_fits`), and takes no less than no room. The invariant is carried over statements by
`Named.Steps.stmtWalk`; that an expression gives a type that fits is shown by the walk over its
calls.
-/

namespace Scriptc

open Build (Carries Ends Keeps Yields ends_bind ends_modify ends_pure)

/-! ## Tables -/

theorem SymbolTable.symbols_exit (T : SymbolTable) : T.exit.2.symbols = T.symbols := by
  unfold SymbolTable.exit
  split <;> rfl

namespace SymbolTable.Fits

variable {T T' : SymbolTable} {id : SymbolId} {s : Symbol}

/-- A symbol that is changed keeps its type or gets one that fits. -/
theorem modifySymbol (h : T.Fits) {f : Symbol → Symbol}
    (hf : ∀ s t, T.symbol? id = some s → (f s).type? = some t → s.type? = some t ∨ t.Fits) :
    (T.modifySymbol id f).Fits := by
  intro i s' t hs' ht
  rw [symbol?_modifySymbol] at hs'
  split at hs'
  · rename_i hi
    subst hi
    obtain ⟨s, hs, rfl⟩ := Option.map_eq_some_iff.mp hs'
    rcases hf s t hs ht with hsame | hfits
    · exact h id s t hs hsame
    · exact hfits
  · exact h i s' t hs' ht

theorem keep (h : T.Fits) (hs : ∀ t, s.type? = some t → t.Fits) : (T.keep s).2.Fits := by
  intro i s' t hs' ht
  unfold SymbolTable.keep SymbolTable.symbol? at hs'
  rw [Array.getElem?_push] at hs'
  split at hs'
  · cases hs'
    exact hs t ht
  · exact h i s' t hs' ht

theorem declare (h : T.Fits) (hT' : T.declare id = .ok T') : T'.Fits := by
  rcases SymbolTable.declare_ok hT' with rfl | ⟨s, -, rfl⟩
  · exact h
  · have hscope : (T.modifySymbol id ({ · with scope := T.currentId })).Fits :=
      h.modifySymbol fun _ _ _ ht => .inl ht
    exact hscope

end SymbolTable.Fits

namespace Compile

/-! ## Expressions -/

/-- Of reading no more is told than that reports stay. -/
theorem reports_siteWalk (T : SymbolTable) :
    SiteWalk T fun _ b b' => b.errors.size ≤ b'.errors.size := by
  have hstable : ExprStable (fun _ => True)
      (Accounts (fun _ b b' => b.errors.size ≤ b'.errors.size) []) :=
    Quiet.exprStable.mono (fun _ => ⟨rfl, Nat.le_refl _⟩)
      (fun _ _ _ h h' => ⟨h'.1.trans h.1, Nat.le_trans h.2 h'.2⟩) fun _ _ h =>
        ⟨h.table, h.errors_size⟩
  exact {
    errors := fun h => h
    unclean := fun hle _ => hle
    append := Nat.le_trans
    code := hstable.toCodeStable
    callToString := fun v => hstable.keeps (S := [v]) (hstable.walk.call _ (by simp))
    function := fun {_ _ _ args} _ _ _ =>
      hstable.keeps (S := args) (hstable.walk.call _ fun _ ha => ha)
    method := fun {_ _ _ _ _ this args} _ _ _ _ => hstable.keeps (S := this :: args)
      (hstable.walk.callMethod (.head _) _ _ fun _ ha => List.mem_cons_of_mem _ ha)
    construct := fun {_ _ _ args} _ _ _ =>
      hstable.keeps (S := args) (hstable.walk.construct _ _ fun _ ha => ha) }

/-- Where the types of names fit, so does the type of an expression. -/
theorem expr_fits {e : Expr} (he : e.All Expr.Formed) {b b' : Build} {t : Ty} (hb : b.table.Fits)
    (h : Ends (expr e) b (some t) b') : t.Fits :=
  ((reports_siteWalk b.table).expr e he rfl h).2.2 hb t rfl

/-! ## Statements -/

/-- A condition on the table of names. -/
def Named (P : SymbolTable → Prop) (_ : Unit) (_ : List Operand) (b : Build) : Prop := P b.table

namespace Named

variable {α : Type} {P : SymbolTable → Prop} {S : List Operand}
    {out : α → List Operand} {m : BuildM α}

theorem quiet {T : List Operand} {b b' : Build} (h : Quiet b b') (hb : Named P () S b) :
    Named P () T b' := by
  unfold Named
  rw [h.table]
  exact hb

theorem of_quiet (hm : Keeps Quiet m) :
    Yields (Named P) S out m := fun _ _ _ _ hb hend => quiet (hm hend) hb

theorem codeWalk : CodeWalk (Named P) where
  weaken _ hb := hb
  value hb := hb
  lastTemp hb := hb
  routineSlot _ _ hb := hb
  absent hb := hb
  cells _ hb := hb
  ofCells _ hb := hb
  undefined _ hb := hb
  keyword _ _ _ _ _ hb := hb
  stringLabel _ _ := of_quiet (Quiet.exprStable.stringLabel _)
  error _ _ _ := of_quiet (Quiet.exprStable.error _ _)
  say _ _ := of_quiet (Quiet.exprStable.say _)
  newTemp _ := of_quiet Quiet.exprStable.newTemp
  use _ _ _ := of_quiet (Quiet.exprStable.use _)
  release _ _ _ := of_quiet (Quiet.exprStable.release _)
  setValue _ _ _ := of_quiet (Quiet.exprStable.setValue _)
  setLastTemp _ _ _ := of_quiet (Quiet.exprStable.setLastTemp _)
  quad _ _ hop _ := of_quiet (Quiet.exprStable.quad _ hop)
  shortCircuit _ _ _ _ _ _ _ htest := of_quiet (Quiet.exprStable.shortCircuit _ _ _ _ htest)
  allocGlobal hs hsize hb hend := quiet (Quiet.exprStable.allocGlobal hs hsize hend) hb
  allocArray hs hsize hb hend := quiet (Quiet.exprStable.allocArray hs hsize hend) hb
  frameSlot _ _ _ _ hb hend := quiet (Quiet.exprStable.frameSlot _ _ _ hend) hb
  newFrame _ _ := of_quiet (Quiet.exprStable.newFrame _)
  newMethodFrame _ key := of_quiet <| Quiet.exprStable.bind (Quiet.exprStable.newFrame key) fun _ =>
    Quiet.exprStable.modifyFrame _ _
  loadThis S := of_quiet (Quiet.exprStable.keeps (Quiet.exprStable.walk.loadThis S))

theorem flow : Flow (Named P) where
  weaken _ hb := hb
  newTemp := codeWalk.newTemp
  finish S t _ := of_quiet
    (Quiet.exprStable.keeps (S := t :: S) (Quiet.exprStable.walk.finish (.head _)))
  newLabel _ := of_quiet Quiet.newLabel
  quad _ q _ _ := of_quiet (Quiet.quad q)
  loop _ _ _ hb := ⟨(), hb, fun _ hb' => hb'⟩
  leave _ _ hb := hb

/-- Writing a function changes no names but those that its body does. -/
theorem routine {name : String} {frame : FrameId} {label : Operand} {result? : Option Ty}
    {body : BuildM Unit} (hbody : Carries (Named P) S body) :
    Carries (Named P) S (Emit.routine name frame label result? body) := by
  intro i b r b' hb hend
  obtain ⟨ending, d, hin, rfl, -⟩ := Emit.routine_ends hend
  have hd : Named P i S d := by
    refine hbody ?_ hin
    exact hb
  exact hd

/-- That which declares and changes names keeps `P`, which looks at nothing but symbols. -/
structure Steps (allow : Use → Prop) (P : SymbolTable → Prop) : Prop where
  declare : ∀ {S} line s, s.asClass? = none → (∀ t, s.type? = some t → Found allow (Named P) t) →
    Carries (Named P) S (Compile.declare line s)
  declareClass : ∀ {S} line name parent?,
    Carries (Named P) S (Compile.declareClass line name parent?)
  modifyFunction : ∀ {S} id f, (∀ g, (f g).result? = g.result?) →
    Carries (Named P) S (Compile.modifyFunction id f)
  modifyClass : ∀ {S} id f, (∀ k : Class, k.Extends (f k)) →
    Carries (Named P) S (Compile.modifyClass id f)
  assignName : ∀ {S} line x e, allow (.assign x e) →
    Carries (Named P) S (Compile.assignName line x e)
  symbols : ∀ {T T'}, T'.symbols = T.symbols → P T → P T'

theorem Steps.stmtWalk {allow : Use → Prop} (h : Steps allow P) :
    StmtWalk allow (fun _ => True) (Named P) where
  toCodeWalk := codeWalk
  valueOf _ := of_quiet (Quiet.expr _)
  warn _ _ _ := .modify fun _ _ hb => hb
  endExpression _ := .modify fun _ _ hb => hb
  setDirect _ _ := .modify fun _ _ hb => hb
  setFunction _ _ _ _ := .modify fun _ _ hb => hb
  setUnreachable _ _ := .modify fun _ _ hb => hb
  setInFunction _ _ := .modify fun _ _ hb => hb
  leaveFunction _ := .modify fun _ _ hb => hb
  layout _ id := codeWalk.layout (fun _ _ _ => .modify fun _ _ hb => hb) id
  declare _ := h.declare
  declareClass _ := h.declareClass
  modifyFunction _ := h.modifyFunction
  modifyClass _ := h.modifyClass
  assignName _ := h.assignName
  scope kind _ _ b hb :=
    ⟨(), h.symbols (T := b.table) rfl hb, fun _ hb' => h.symbols (SymbolTable.symbols_exit _) hb'⟩
  loops _ _ _ hb := ⟨(), hb, fun _ hb' => hb'⟩
  inClass _ _ _ _ hb := ⟨(), hb, fun _ hb' => hb'⟩
  ifElse _ _ hc _ _ hyes hno := flow.ifElse hc hyes hno
  whileLoop _ _ _ hc hbody := flow.whileLoop hc hbody
  forLoop _ _ _ _ _ hinit hc hupdate hbody := flow.forLoop hinit hc hupdate hbody
  breakLoop _ := flow.leaveTo fun _ => .inr rfl
  continueLoop _ := flow.leaveTo fun _ => .inl rfl
  switch _ _ hsubject _ _ hcases hdefault := flow.switchCode hsubject hcases hdefault
  function _ _ _ _ _ _ hbody := fun _ b _ b' hb hend => by
    obtain ⟨frameOf, hroutine⟩ := Emit.function_ends hend
    refine routine hbody ?_ hroutine
    exact hb
  method _ _ _ _ _ _ _ hbody := fun _ b _ b' hb hend => by
    obtain ⟨counts, frameOf, log, hroutine⟩ := Emit.method_ends hend
    refine routine hbody ?_ hroutine
    exact hb

end Named

/-- The types of all names fit. -/
abbrev Fitting : Unit → List Operand → Build → Prop := Named SymbolTable.Fits

namespace Fitting

open Named (codeWalk quiet)

variable {S : List Operand}

theorem fits_of_found {t : Ty} (h : Found Use.Formed Fitting t) : t.Fits := by
  induction h with
  | null => trivial
  | void => trivial
  | written h => exact typeOf_fits h
  | read hb he h => exact expr_fits he hb h
  | element _ ih => exact ih.1

theorem declare (line : Nat) {s : Symbol} (hs : ∀ t, s.type? = some t → t.Fits) :
    Carries Fitting S (Compile.declare line s) := by
  intro i b p b' hb hend
  have hkeep : (b.table.keep s).2.Fits := SymbolTable.Fits.keep hb hs
  rcases declare_cases hend with ⟨T, hT, -, rfl⟩ | ⟨_, _, -, -, rfl⟩
  · exact hkeep.declare hT
  · exact hkeep

theorem modifySymbol (id : SymbolId) {f : Symbol → Symbol} (hf : ∀ s, (f s).type? = s.type?) :
    Carries Fitting S (Compile.modifySymbol id f) :=
  .modify fun _ _ hb => SymbolTable.Fits.modifySymbol hb fun s _ _ ht => .inl ((hf s).symm.trans ht)

/-- A variable whose type is fixed has the type of its value from then on. -/
theorem assignName (line : Nat) (x : String) {e : Expr} (he : e.All Expr.Formed) :
    Carries Fitting S (Compile.assignName line x e) := by
  intro i b t b' hb hend
  rcases Kept.assignName_cases hend with hv | ⟨id, s, v, value?, b₁, b₂, -, -, -,
    hread, -, hfix, hrest⟩
  · exact codeWalk.assignable? line x hb hv
  · simp only [ends_bind, ends_pure] at hrest
    obtain ⟨_, b₃, hstore, _, b₄, hdone, -, rfl⟩ := hrest
    obtain rfl := ends_modify.mp hdone
    obtain ⟨c₁, c₂, hbefore, hexpr, hafter⟩ := Kept.direct e hread
    have hc₁ : Fitting () S c₁ := quiet hbefore hb
    have hb₁ : Fitting () [] b₁ := quiet ((Quiet.expr e hexpr).trans hafter) hc₁
    have hb₂ : Fitting () [] b₂ := by
      rcases hfix with ⟨-, rfl⟩ | ⟨m, hm, hfix⟩
      · refine SymbolTable.Fits.modifySymbol hb₁ fun s t _ ht => .inr ?_
        obtain rfl : value? = some t := ht
        exact expr_fits he hc₁ hexpr
      · exact codeWalk.remarks hm hb₁ hfix
    have hb₃ : Fitting () [] b₃ := codeWalk.storeValue x hb₂ hstore
    exact hb₃

theorem steps : Named.Steps Use.Formed SymbolTable.Fits where
  declare line _ _ hs := declare line fun t ht => fits_of_found (hs t ht)
  declareClass := codeWalk.declareClass fun line s hs => declare line fun t ht => by
    rw [hs] at ht
    cases ht
  modifyFunction id f hf := modifySymbol id fun s => by
    rcases s with ⟨name, scope, v | g | c | ⟨k, t⟩⟩
    · rfl
    · exact hf g
    · rfl
    · rfl
  modifyClass id f _ := modifySymbol id fun s => by
    rcases s with ⟨name, scope, v | g | c | ⟨k, t⟩⟩ <;> rfl
  assignName line x _ he := assignName line x he
  symbols heq h id s t hs := h id s t (by rwa [SymbolTable.symbol?, ← heq])

end Fitting

/-- **Every type fits.** No name of a program has a type that takes less than no room, whether the
program is right or not. -/
theorem program_fits {p : Program} {b : Build} (hp : ∀ u ∈ Stmt.usesAll p, u.Formed)
    (h : Ends (program p) {} () b) : b.table.Fits := by
  have hstart : Fitting () [] {} := fun id s t hs => by
    rw [SymbolTable.symbol?, Array.getElem?_eq_none (Nat.zero_le id)] at hs
    cases hs
  exact Fitting.steps.stmtWalk.statements p [] hp (fun _ _ => trivial) hstart h

end Compile

end Scriptc
