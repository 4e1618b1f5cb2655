import Scriptc.Proofs.Addresses
import Scriptc.Proofs.Scopes
import Scriptc.Proofs.Sites

/-!
# Scriptc: where names can be seen

A statement changes no open scope but the innermost one (`Confined`, kept by every step of a
reading). So what a block declares in a scope of its own is gone behind the block, and the scope
around it is as it was: every name stands for what it stood for, and can be declared if it could
before.

A block has a scope of its own unless it stands right inside a function: there its declarations are
those of the function, can be seen behind the block and are in the way of others of the same name
(`block_scoping`).
-/

namespace Scriptc

open Build (Ends Keeps ends_bind ends_pure ends_get_bind ends_modify
    ends_modify_bind ends_read_bind)
variable {x : String} {id : SymbolId} {s : Symbol}

namespace SymbolTable

variable {t t' : SymbolTable}

/-! ## Tables with other symbols -/

namespace Sound

/-- The scopes do not ask for more of their symbols than that they are there, under their names and
in their scopes. -/
theorem of_symbols (h : t.Sound) {symbols : Array Symbol} (hsymbols : ∀ (i : Nat) s,
    t.symbol? i = some s →
    ∃ s', symbols[i]? = some s' ∧ s'.name = s.name ∧ s'.scope = s.scope) :
      Sound { t with symbols } := by
  refine ⟨h.numbered, h.global, h.next, h.nested, h.bottom, h.older, h.distinct,
    fun i c hc e he => ?_⟩
  obtain ⟨s, hs, hname, hscope⟩ := h.owned i c hc e he
  obtain ⟨s', hs', hname', hscope'⟩ := hsymbols e.2 s hs
  exact ⟨s', hs', hname'.trans hname, hscope'.trans hscope⟩

theorem keep (h : t.Sound) (s : Symbol) : (t.keep s).2.Sound :=
  h.of_symbols fun _ s' hs' => ⟨s', symbol?_keep hs', rfl, rfl⟩

theorem modifySymbol (h : t.Sound) (id : SymbolId) {f : Symbol → Symbol}
    (hf : ∀ s, (f s).name = s.name ∧ (f s).scope = s.scope) : (t.modifySymbol id f).Sound := by
  refine h.of_symbols fun i s hs => ?_
  show ∃ s', (t.modifySymbol id f).symbol? i = some s' ∧ _
  rw [symbol?_modifySymbol, hs]
  split
  · exact ⟨f s, rfl, hf s⟩
  · exact ⟨s, rfl, rfl, rfl⟩

theorem add (h : t.Sound) (hadd : t.add s = .ok (id, t')) : t'.Sound := by
  have hperform : (Action.add s).perform t = t' := by rw [Action.perform, hadd]
  exact hperform ▸ h.perform (.add s)

/-- In a sound table a name that is taken has a symbol. -/
theorem exists_symbol (h : t.Sound) (hx : t.lookupCurrent? x = some id) :
    ∃ s, t.symbol? id = some s := by
  obtain ⟨c, hc, hget⟩ := Option.bind_eq_some_iff.mp hx
  obtain ⟨s, hs, -⟩ := h.owned t.currentId c hc (x, id) (Assoc.mem_of_get? hget)
  exact ⟨s, hs⟩

theorem lt_of_mem_openIds (h : t.Sound) {i : Nat} (hi : i ∈ t.openIds) : i < t.scopes.size := by
  obtain ⟨c, hc⟩ := h.exists_of_mem_openIds hi
  exact (Array.getElem?_eq_some_iff.mp hc).1

end Sound

theorem currentId_mem_openIds (t : SymbolTable) : t.currentId ∈ t.openIds := by
  exact (.head _)

theorem Sound.lookupCurrent?_enter (h : t.Sound) (kind x : String) :
    (t.enter kind).lookupCurrent? x = none := by
  show (t.scopes.push _)[t.nextId]?.bind _ = none
  rw [Array.getElem?_push, if_pos h.next]
  rfl

/-- What a name stands for depends on the open scopes alone. -/
theorem lookup?_congr (hopen : t'.stack = t.stack)
    (hfind : ∀ i ∈ t.openIds, t'.findIn? i x = t.findIn? i x) : t'.lookup? x = t.lookup? x := by
  have hids : t'.openIds = t.openIds := by rw [openIds, openIds, currentId, currentId, hopen]
  unfold lookup?
  rw [hids]
  generalize t.openIds = ids at hfind ⊢
  induction ids with
  | nil => rfl
  | cons i ids ih =>
    grind

/-- A symbol is declared in the innermost scope. -/
theorem Adds.lookupCurrent? (h : t.Adds s id t') (hsound : t.Sound)
    (hnew : t.lookupCurrent? s.name = none) : t'.lookupCurrent? s.name = some id := by
  obtain ⟨c, hc⟩ := hsound.exists_current
  have hcurrent : t'.currentId = t.currentId := by rw [currentId, currentId, h.openScopes]
  have hget : c.entries.get? s.name = none := by
    unfold SymbolTable.lookupCurrent? findIn? at hnew
    rwa [hc] at hnew
  unfold SymbolTable.lookupCurrent? findIn?
  rw [hcurrent, h.innermost c hc, Option.bind_some]
  have hcontains : c.entries.contains s.name = false := by
    unfold Assoc.contains
    rw [hget]
    rfl
  show Assoc.get? (c.entries ++ [(s.name, id)]) s.name = some id
  rw [← Assoc.put_of_not_contains id hcontains, Assoc.get?_put_self]

end SymbolTable

/-- The name that a statement declares as a variable or a constant. -/
def Stmt.declared? : Stmt → Option String
  | declare d => some d.name
  | constant d => some d.name
  | _ => none

namespace Compile

variable {b c d : Build} {allow : Use → Prop}

/-! ## Only the innermost scope changes -/

/-- The table stays sound, and no scope that there was has changed but the innermost one. -/
structure Confined (b c : Build) : Prop where
  sound : b.table.Sound → c.table.Sound
  openScopes : c.table.stack = b.table.stack
  grown : b.table.scopes.size ≤ c.table.scopes.size
  outer : b.table.Sound → ∀ i, i < b.table.scopes.size → i ≠ b.table.currentId →
    c.table.scopes[i]? = b.table.scopes[i]?

/-- A declaration is either accepted or turned away, and it is turned away if the name is taken. -/
theorem declare_ends {line : Nat} {r : SymbolId × Bool} (h : Ends (Compile.declare line s) b r c) :
    (∃ id t, b.table.lookupCurrent? s.name = none ∧ b.table.add s = .ok (id, t) ∧ r = (id, true) ∧
      c = { b with table := t }) ∨
    (b.table.lookupCurrent? s.name).isSome = true ∧ r.2 = false ∧ c.table = (b.table.keep s).2 ∧
      b.errors.size < c.errors.size := by
  have hadd : b.table.add s =
    (do return ((b.table.keep s).1, ← (b.table.keep s).2.declare (b.table.keep s).1)) := rfl
  rcases declare_cases h with ⟨t, hdeclare, hr, hc⟩ | ⟨f, message, hdeclare, rfl, rfl⟩
  · have hok : b.table.add s = .ok ((b.table.keep s).1, t) := by
      rw [hadd, hdeclare]
      rfl
    refine .inl ⟨_, t, ?_, hok, hr, hc⟩
    cases hx : b.table.lookupCurrent? s.name with
    | none => rfl
    | some id =>
      have htaken : b.table.current.entries.contains s.name = true := by
        rw [← SymbolTable.isSome_lookupCurrent?, hx]
        rfl
      rw [SymbolTable.add_eq_error_iff.mpr ⟨htaken, rfl⟩] at hok
      cases hok
  · have herr : b.table.add s = .error f := by
      rw [hadd, hdeclare]
      rfl
    refine .inr ⟨?_, rfl, rfl, by simp⟩
    rw [SymbolTable.isSome_lookupCurrent?]
    exact (SymbolTable.add_eq_error_iff.mp herr).1

namespace Confined

theorem of_table (h : c.table = b.table) : Confined b c :=
  ⟨fun hb => h ▸ hb, by rw [h], by rw [h], fun _ _ _ _ => by rw [h]⟩

theorem trans (h₁ : Confined b c) (h₂ : Confined c d) : Confined b d where
  sound hb := h₂.sound (h₁.sound hb)
  openScopes := h₂.openScopes.trans h₁.openScopes
  grown := Nat.le_trans h₁.grown h₂.grown
  outer hb i hi hne := by
    have hcurrent : c.table.currentId = b.table.currentId := by
      rw [SymbolTable.currentId, SymbolTable.currentId, h₁.openScopes]
    rw [h₂.outer (h₁.sound hb) i (Nat.lt_of_lt_of_le hi h₁.grown) (hcurrent ▸ hne),
      h₁.outer hb i hi hne]

theorem modifySymbol (id : SymbolId) {f : Symbol → Symbol}
    (hf : ∀ s, (f s).name = s.name ∧ (f s).scope = s.scope) :
    Keeps Confined (Compile.modifySymbol id f) :=
  Keeps.modify fun _ => ⟨fun hb => hb.modifySymbol id hf, rfl, Nat.le_refl _, fun _ _ _ _ => rfl⟩

theorem declare (line : Nat) (s : Symbol) : Keeps Confined (Compile.declare line s) := by
  intro b r c hend
  rcases declare_ends hend with ⟨id, t, -, hadd, -, rfl⟩ | ⟨-, -, htable, -⟩
  · have hadds := SymbolTable.adds_of_add hadd
    refine ⟨fun hb => hb.add hadd, hadds.openScopes, ?_, fun _ i _ hne => hadds.elsewhere i hne⟩
    rw [SymbolTable.add_eq] at hadd
    grind
  · have hscopes : c.table.scopes = b.table.scopes := by rw [htable]; rfl
    exact ⟨fun hb => htable ▸ hb.keep s, by rw [htable]; rfl, Nat.le_of_eq (by rw [hscopes]),
      fun _ _ _ _ => by rw [hscopes]⟩

/-- A scope that is opened and closed again leaves all others as they were, the innermost one
too. -/
theorem inner_scope (kind : String) (h : Confined { b with table := b.table.enter kind } c) :
    (b.table.Sound → c.table.exit.2.Sound) ∧ c.table.exit.2.stack = b.table.stack ∧
      b.table.scopes.size ≤ c.table.scopes.size ∧
      (b.table.Sound → ∀ i, i < b.table.scopes.size →
        c.table.exit.2.scopes[i]? = b.table.scopes[i]?) := by
  have hexit := SymbolTable.exit_of_entered c.table h.openScopes
  have hpush : (b.table.scopes.push ⟨b.table.nextId, kind, some b.table.currentId, []⟩).size ≤
      c.table.scopes.size := h.grown
  rw [Array.size_push] at hpush
  refine ⟨fun hb => (h.sound (hb.enter kind)).exit, by rw [hexit], by omega, fun hb i hi => ?_⟩
  have hsame := h.outer (hb.enter kind) i
    (by show i < (b.table.scopes.push _).size; rw [Array.size_push]; omega)
    (hb.next ▸ Nat.ne_of_lt hi : i ≠ b.table.nextId)
  rw [hexit]
  refine hsame.trans ?_
  show (b.table.scopes.push _)[i]? = _
  rw [Array.getElem?_push, if_neg (Nat.ne_of_lt hi)]

theorem flow : Flow (Since Confined) :=
  .of_same trans (fun htable _ _ _ _ => of_table htable) fun _ _ => of_table rfl

theorem exprStable : ExprStable (fun _ => True) Confined :=
  Quiet.exprStable.mono (fun _ => of_table rfl) (fun _ _ _ => trans) fun _ _ h => of_table h.table

/-- No step of a reading changes an open scope but the innermost one. -/
theorem stable : Stable (fun _ => True) (fun _ => True) Confined where
  toExprStable := exprStable
  sound _ _ := Expr.all_of_forall (fun _ => trivial) _
  warn _ _ := Keeps.modify fun _ => of_table rfl
  aside _ _ := of_table rfl
  layout id := exprStable.layout (fun _ _ => Keeps.modify fun _ => of_table rfl) id
  declare := declare
  modifyFunction id f _ := modifySymbol id fun s => by
    rcases s with ⟨name, scope, v | g | k | ⟨k, t⟩⟩ <;> exact ⟨rfl, rfl⟩
  modifyClass id f _ := modifySymbol id fun s => by
    rcases s with ⟨name, scope, v | g | k | ⟨k, t⟩⟩ <;> exact ⟨rfl, rfl⟩
  assignName line x e _ := exprStable.toCodeStable.assignName_of_retype (fun _ _ => of_table rfl)
    (fun {b id _ v value?} _ _ _ =>
      modifySymbol id (f := fun s => { s with body := .variable { v with type? := value? } })
        (fun _ => ⟨rfl, rfl⟩)
        (ends_modify.mpr rfl : Ends _ b () _))
    line x (exprStable.expr e (Expr.all_of_forall (fun _ => trivial) e))
  scope kind b c h := by
    obtain ⟨hsound, hinner, hgrown, hscopes⟩ := inner_scope kind h
    refine ⟨hsound, hinner, Nat.le_trans hgrown (Nat.le_of_eq ?_), fun hb i hi _ => hscopes hb i hi⟩
    show c.table.scopes.size = c.table.exit.2.scopes.size
    unfold SymbolTable.exit
    split <;> rfl
  loops _ _ h := { h with }
  inClass _ _ _ h := { h with }
  __ := flow.controlStable exprStable.toCodeStable
  routine name frame label result? body hbody := by
    intro b r c hend
    obtain ⟨ending, d, hin, rfl, -⟩ := Emit.routine_ends hend
    have h := hbody hin
    exact { h with }

end Confined

/-- Every step of a reading leaves the names of scopes that stay open in place. -/
theorem isSome_lookupCurrent?_of_kept (h : Kept allow b c)
    (hx : (b.table.lookupCurrent? x).isSome = true) : (c.table.lookupCurrent? x).isSome = true := by
  unfold SymbolTable.lookupCurrent? SymbolTable.findIn? at hx ⊢
  have hcurrent : c.table.currentId = b.table.currentId := by
    rw [SymbolTable.currentId, SymbolTable.currentId, h.openScopes]
  cases hsc : b.table.scopes[b.table.currentId]? with
  | none => simp [hsc] at hx
  | some sc =>
    obtain ⟨sc', hsc', hext⟩ := h.scopes _ sc hsc
    rw [hsc, Option.bind_some] at hx
    rw [hcurrent, hsc', Option.bind_some]
    have hmem : x ∈ sc.entries.keys := Assoc.contains_iff_mem_keys.mp hx
    exact Assoc.contains_iff_mem_keys.mpr ((hext.entries.map Prod.fst).subset hmem)

/-! ## Declarations in a scope -/

/-- Between `b` and `c` the name `x` is declared as a variable in the innermost scope, by a symbol
that is new. -/
def Declares (x : String) (const : Bool) (b c : Build) : Prop :=
  ∃ id s, c.table.lookupCurrent? x = some id ∧ b.table.symbol? id = none ∧
    c.table.symbol? id = some s ∧
    s.name = x ∧ s.kind = .variable ∧ s.isConst = const

/-- A declaration of `x` is not turned away: the name is declared. A constant whose value is of a
wrong type is not declared, which is reported. -/
structure Free (x : String) (b : Build) : Prop where
  varDecl : ∀ d c, d.name = x → Ends (variableDecl d) b () c → Declares x false b c
  constDecl : ∀ d c, d.name = x → Ends (constantDecl d) b () c → Declares x true b c ∨
    b.errors.size < c.errors.size ∧ ∃ value final,
      c.errors.back? = some ("Error semántico. Línea " ++ Build.lineText (some d.line) ++ ": " ++
      ("No se puede asignar " ++ value ++ " a " ++ final ++ " en constante"))

/-- A declaration of `x` is turned away: it is reported, and changes nothing else. -/
structure Taken (x : String) (b : Build) : Prop where
  varDecl : ∀ d c, d.name = x →
    (Ends (variableDecl d) b () c ↔ ∃ s, b.table.lookupSymbol? x = some s ∧
    Ends (Build.error (some d.line) ("Variable '" ++ x ++ "' ya declarada como " ++ declaredAs s ++
      " en este ámbito")) b () c)
  constDecl : ∀ d c, d.name = x →
    (Ends (constantDecl d) b () c ↔ ∃ s, b.table.lookupSymbol? x = some s ∧
    Ends (Build.error (some d.line) ("Constante '" ++ x ++ "' ya declarada como " ++ declaredAs s ++
      " en este ámbito")) b () c)

theorem ends_currentSymbol?_bind {α : Type} {f : Option Symbol → BuildM α} {a : α} :
    Ends (currentSymbol? x >>= f) b a c ↔
      Ends (f ((b.table.lookupCurrent? x).bind b.table.symbol?)) b a c :=
  ends_read_bind (f := fun b => (b.table.lookupCurrent? x).bind b.table.symbol?)

/-- A name of the innermost scope stands for what it is there. -/
theorem lookup?_of_lookupCurrent? {t : SymbolTable}
    (h : t.lookupCurrent? x = some id) : t.lookup? x = some id := by
  unfold SymbolTable.lookup?
  unfold SymbolTable.lookupCurrent? at h
  rw [SymbolTable.openIds, List.findSome?_cons, h]

theorem taken_of_lookupCurrent? (hsound : b.table.Sound)
    (hx : (b.table.lookupCurrent? x).isSome = true) : Taken x b := by
  obtain ⟨id, hid⟩ := Option.isSome_iff_exists.mp hx
  obtain ⟨s, hs⟩ := hsound.exists_symbol hid
  have hcurrent : (b.table.lookupCurrent? x).bind b.table.symbol? = some s := by
    rw [hid]
    exact hs
  have hsymbol : b.table.lookupSymbol? x = some s := by
    unfold SymbolTable.lookupSymbol?
    rw [lookup?_of_lookupCurrent? hid]
    exact hs
  constructor
  · rintro d c rfl
    unfold variableDecl
    rw [ends_currentSymbol?_bind, hcurrent, hsymbol]
    simp only [Option.some.injEq, exists_eq_left']
  · rintro d c rfl
    unfold constantDecl
    rw [ends_currentSymbol?_bind, hcurrent, hsymbol]
    simp only [Option.some.injEq, exists_eq_left']

/-- What is told a class of a variable changes no name and no variable. -/
theorem Declares.tellClass {const : Bool} (h : Declares x const b c)
    {tell : SymbolId → Class → Class}
    (hend : Ends (Compile.tellClass fun k => modifyClass k (tell k)) c () d) :
    Declares x const b d := by
  obtain ⟨id, s, hlook, hnew, hs, hname, hkind, hconst⟩ := h
  unfold Compile.tellClass at hend
  rw [ends_get_bind] at hend
  split at hend
  · rename_i k hk
    obtain rfl := ends_modify.mp hend
    refine ⟨id, s, hlook, hnew, ?_, hname, hkind, hconst⟩
    rw [SymbolTable.symbol?_modifySymbol, hs]
    split
    · obtain ⟨name, scope, v | g | cls | ⟨o, t⟩⟩ := s
      · rfl
      · cases hkind
      · cases hkind
      · cases hkind
    · rfl
  · obtain ⟨-, rfl⟩ := ends_pure.mp hend
    exact ⟨id, s, hlook, hnew, hs, hname, hkind, hconst⟩

theorem Declares.of_quiet {b' c' : Build} {const : Bool} (h : Declares x const b' c)
    (hb : Quiet b b') (hc : Quiet c c') : Declares x const b c' := by
  unfold Declares at h ⊢
  rwa [hb.table, ← hc.table] at h

theorem quiet_direct (e : Expr) : Keeps Quiet (direct e) := by
  intro b t c hend
  obtain ⟨b₁, b₂, hb, hexpr, hc⟩ := Kept.direct e hend
  exact (hb.trans (Quiet.expr e hexpr)).trans hc

theorem quiet_initialType (init? : Option Expr) : Keeps Quiet (initialType init?) := by
  cases init? with
  | none => exact Quiet.pure _
  | some e => exact quiet_direct e

/-- A name that is not taken is declared by what declares it. -/
theorem declares_of_declare {line scope : Nat} {v : Variable} {r : SymbolId × Bool}
    (hsound : b.table.Sound) (hx : b.table.lookupCurrent? x = none)
    (hend : Ends (Compile.declare line ⟨x, scope, .variable v⟩) b r c) :
    Declares x v.const b c := by
  rcases declare_ends hend with ⟨id, t, -, hadd, -, rfl⟩ | ⟨htaken, -⟩
  · have hadds := SymbolTable.adds_of_add hadd
    exact ⟨id, _, hadds.lookupCurrent? hsound hx, hadds.fresh, hadds.stored, rfl, rfl, rfl⟩
  · rw [hx] at htaken
    cases htaken

theorem declares_of_addVariable {decl : VarDecl} {v : Variable} (hsound : b.table.Sound)
    (hx : b.table.lookupCurrent? decl.name = none) (hend : Ends (addVariable decl v) b () c) :
    Declares decl.name v.const b c := by
  unfold addVariable currentScope at hend
  rw [ends_read_bind] at hend
  obtain ⟨r, b₁, hdeclare, hend⟩ := ends_bind.mp hend
  have hdeclared := declares_of_declare hsound hx hdeclare
  unfold Build.isClean at hend
  dsimp only at hend
  rw [ends_read_bind] at hend
  have hrest : ∀ {d}, Quiet b₁ d → Ends (do
      Compile.tellClass (addAttribute · decl.name r.1)
      Emit.endExpression) d () c → Declares decl.name v.const b c := by
    intro d hquiet hend
    obtain ⟨_, d₁, htell, hdone⟩ := ends_bind.mp hend
    have htold := Declares.tellClass (hdeclared.of_quiet (.refl b) hquiet) htell
    exact htold.of_quiet (.refl b) (Quiet.silent .endExpression hdone)
  split at hend
  · obtain ⟨_, b₂, hinit, hend⟩ := ends_bind.mp hend
    exact hrest (Quiet.exprStable.keeps (S := [])
      (Quiet.exprStable.codeWalk.initialise _) hinit) hend
  · exact hrest (.refl b₁) hend

theorem free_of_lookupCurrent? (hsound : b.table.Sound) (hx : b.table.lookupCurrent? x = none) :
    Free x b := by
  have hcurrent : (b.table.lookupCurrent? x).bind b.table.symbol? = none := by
    rw [hx]
    rfl
  constructor
  · rintro d c rfl hend
    unfold variableDecl at hend
    rw [ends_currentSymbol?_bind, hcurrent] at hend
    obtain ⟨declared?, b₁, htype, hend⟩ := ends_bind.mp hend
    have htyped := Quiet.exprStable.keeps (S := []) (Quiet.exprStable.codeWalk.typeOf? _) htype
    obtain ⟨init?, b₂, hinit, hend⟩ := ends_bind.mp hend
    obtain ⟨_, b₃, hcheck, hend⟩ := ends_bind.mp hend
    have hquiet : Quiet b b₃ := (htyped.trans (quiet_initialType _ hinit)).trans
      (Quiet.exprStable.remarks (.checkInitial ..) hcheck)
    rw [← hquiet.table] at hsound hx
    exact (declares_of_addVariable hsound hx hend).of_quiet hquiet (.refl c)
  · rintro d c rfl hend
    unfold constantDecl at hend
    rw [ends_currentSymbol?_bind, hcurrent] at hend
    obtain ⟨declared?, b₁, htype, hend⟩ := ends_bind.mp hend
    have htyped := Quiet.exprStable.keeps (S := []) (Quiet.exprStable.codeWalk.typeOf? _) htype
    obtain ⟨value?, b₂, hvalue, hend⟩ := ends_bind.mp hend
    have hquiet : Quiet b b₂ := htyped.trans (quiet_direct _ hvalue)
    dsimp only at hend
    split at hend
    · rw [← hquiet.table] at hsound hx
      unfold addConstant currentScope at hend
      rw [ends_read_bind] at hend
      obtain ⟨r, b₃, hdeclare, hend⟩ := ends_bind.mp hend
      obtain ⟨_, b₄, hstore, hend⟩ := ends_bind.mp hend
      have hdeclared := declares_of_declare hsound hx hdeclare
      exact .inl (hdeclared.of_quiet hquiet
        ((Quiet.exprStable.storeValue _ hstore).trans (Quiet.silent .endExpression hend)))
    · obtain ⟨final, b₃, hname, hend⟩ := ends_bind.mp hend
      obtain rfl := ends_modify.mp hend
      obtain ⟨-, rfl⟩ := Build.ends_ofExcept.mp hname
      refine .inr ⟨?_, (value?.map Ty.name).getD "", final, Array.back?_push⟩
      show _ < (b₃.errors.push _).size
      rw [Array.size_push]
      exact Nat.lt_succ_of_le hquiet.errors_size

/-- Behind a declaration that reports nothing its name is in the innermost scope. -/
theorem isSome_of_declared {s : Stmt} {t : Option Ty} (hx : s.declared? = some x)
    (hsound : b.table.Sound) (hend : Ends (statement s) b t c) (herrors : c.errors = b.errors) :
    (c.table.lookupCurrent? x).isSome = true := by
  have hfree : b.table.lookupCurrent? x = none → Free x b := free_of_lookupCurrent? hsound
  have htaken : (b.table.lookupCurrent? x).isSome = true → Taken x b :=
    taken_of_lookupCurrent? hsound
  have hreport : ∀ {line text}, ¬ Ends (Build.error line text) b () c := fun hend => by
    have hlt := errors_lt hend
    rw [herrors] at hlt
    exact Nat.lt_irrefl _ hlt
  unfold Stmt.declared? at hx
  split at hx
  · rename_i d
    cases hx
    simp only [statement, ends_bind, ends_pure] at hend
    obtain ⟨_, b₁, hdecl, -, rfl⟩ := hend
    cases hlook : b.table.lookupCurrent? d.name with
    | none =>
      obtain ⟨id, s, hid, -⟩ := (hfree hlook).varDecl d c rfl hdecl
      rw [hid]
      rfl
    | some id =>
      obtain ⟨s, -, herror⟩ := ((htaken (by rw [hlook]; rfl)).varDecl d c rfl).mp hdecl
      exact absurd herror hreport
  · rename_i d
    cases hx
    simp only [statement, ends_bind, ends_pure] at hend
    obtain ⟨_, b₁, hdecl, -, rfl⟩ := hend
    cases hlook : b.table.lookupCurrent? d.name with
    | none =>
      rcases (hfree hlook).constDecl d c rfl hdecl with ⟨id, s, hid, -⟩ | ⟨hlt, -⟩
      · rw [hid]
        rfl
      · rw [herrors] at hlt
        exact absurd hlt (Nat.lt_irrefl _)
    | some id =>
      obtain ⟨s, -, herror⟩ := ((htaken (by rw [hlook]; rfl)).constDecl d c rfl).mp hdecl
      exact absurd herror hreport
  · cases hx

/-- Reports are only added, so there are none in the middle if there are none at the end. -/
theorem errors_between {allow' : Use → Prop} (h₁ : Kept allow b c) (h₂ : Kept allow' c d)
    (herrors : d.errors = b.errors) : c.errors = b.errors ∧ d.errors = c.errors := by
  have hmiddle : c.errors = b.errors := by
    apply Array.toList_inj.mp
    refine (h₁.errors.eq_of_length_le ?_).symm
    rw [← herrors]
    exact h₂.errors.length_le
  exact ⟨hmiddle, herrors.trans hmiddle.symm⟩

theorem isSome_of_mem {ss : List Stmt} {s : Stmt} (hs : s ∈ ss) (hx : s.declared? = some x)
    (hsound : b.table.Sound) (hend : Ends (statements ss) b () c) (herrors : c.errors = b.errors) :
    (c.table.lookupCurrent? x).isSome = true := by
  induction ss generalizing b with
  | nil => cases hs
  | cons s' ss ih =>
    simp only [statements, ends_bind] at hend
    obtain ⟨_, b₁, hwarn, t, b₂, hfirst, hrest⟩ := hend
    have hkept₁ : Kept (fun _ => True) b b₁ := Kept.stable.unreachable _ _ hwarn
    have hkept₂ : Kept (fun _ => True) b₁ b₂ := Kept.stable.statement s' (fun _ _ => trivial) hfirst
    have hkept₃ : Kept (fun _ => True) b₂ c := Kept.stable.statements ss (fun _ _ => trivial) hrest
    obtain ⟨-, herrors⟩ := errors_between hkept₁ (hkept₂.trans hkept₃) herrors
    obtain ⟨hfirst', hrest'⟩ := errors_between hkept₂ hkept₃ herrors
    have hsound₁ : b₁.table.Sound := (Confined.stable.unreachable _ _ hwarn).sound hsound
    rcases List.mem_cons.mp hs with rfl | hs
    · exact isSome_lookupCurrent?_of_kept hkept₃ (isSome_of_declared hx hsound₁ hfirst hfirst')
    · exact ih hs ((Confined.stable.statement s' (fun _ _ => trivial) hfirst).sound hsound₁)
        hrest hrest'

/-! ## Blocks -/

theorem reachable_ends {body : BuildM Unit} (h : Ends (reachable body) b () c) :
    ∃ b', Ends body { b with unreachable := false } () b' ∧
      c = { b' with unreachable := b.unreachable } := by
  unfold reachable at h
  rw [ends_get_bind, ends_modify_bind] at h
  obtain ⟨_, b', hbody, h⟩ := ends_bind.mp h
  exact ⟨b', hbody, ends_modify.mp h⟩

theorem block_ends {body : BuildM Unit} (h : Ends (block body) b () c) :
    Ends (if ["function", "class"].contains b.table.current.kind then reachable body
      else inScope "block" (reachable body)) b () c := by
  unfold block at h
  rwa [ends_get_bind] at h

/-- A block with a scope of its own leaves all open scopes as they were. -/
theorem scoped_block {body : List Stmt} (hb : b.table.Sound)
    (h : Ends (block (statements body)) b () c)
    (hkind : ["function", "class"].contains b.table.current.kind = false) :
    c.table.stack = b.table.stack ∧ ∀ i ∈ b.table.openIds,
      c.table.scopes[i]? = b.table.scopes[i]? := by
  have hin := block_ends h
  rw [if_neg (by rw [hkind]; exact Bool.false_ne_true)] at hin
  unfold inScope enterScope exitScope at hin
  rw [ends_modify_bind] at hin
  obtain ⟨_, c₀, hreach, hexit⟩ := ends_bind.mp hin
  obtain rfl := ends_modify.mp hexit
  obtain ⟨c₁, hread, rfl⟩ := reachable_ends hreach
  have hconfined := Confined.stable.statements body (fun _ _ => trivial) hread
  obtain ⟨-, hinner, -, hscopes⟩ := Confined.inner_scope (b := b) (c := c₁) "block"
    { hconfined with }
  exact ⟨hinner, fun i hi => hscopes hb i (hb.lt_of_mem_openIds hi)⟩

/-- A name that the innermost scope does not have stands for what it stood for. -/
theorem lookup?_of_confined (hb : b.table.Sound) (hconfined : Confined b c) (hkept : Kept allow b c)
    (hx : c.table.lookupCurrent? x = none) : c.table.lookup? x = b.table.lookup? x := by
  refine SymbolTable.lookup?_congr hconfined.openScopes fun i hi => ?_
  by_cases hcurrent : i = b.table.currentId
  · have hbefore : b.table.lookupCurrent? x = none := by
      rw [← Option.not_isSome_iff_eq_none]
      intro hsome
      have hafter := isSome_lookupCurrent?_of_kept hkept hsome
      rw [hx] at hafter
      cases hafter
    have hid : c.table.currentId = b.table.currentId := by
      rw [SymbolTable.currentId, SymbolTable.currentId, hconfined.openScopes]
    unfold SymbolTable.lookupCurrent? at hx hbefore
    rw [hid] at hx
    rw [hcurrent, hx, hbefore]
  · unfold SymbolTable.findIn?
    rw [hconfined.outer hb i (hb.lt_of_mem_openIds hi) hcurrent]

/-- **What a block declares.** A block that is not right inside a function or a class leaves every
name to stand for what it stood for, and what could be declared before it, can be declared behind
it; a block beside it can declare every name. Right inside a function a block has no scope of its
own: a name that it declares, and reports nothing, can be seen behind it, where another declaration
of the name is reported and does nothing; other names stand for what they stood for. -/
theorem block_scoping {body : List Stmt} (hb : b.table.Sound)
    (h : Ends (block (statements body)) b () c) :
    c.table.Sound ∧
    (["function", "class"].contains b.table.current.kind = false →
      (∀ x, c.table.lookup? x = b.table.lookup? x) ∧
      (∀ x, b.table.lookupCurrent? x = none → Free x c) ∧
      ∀ x, Free x { c with table := c.table.enter "block" }) ∧
    (["function", "class"].contains b.table.current.kind = true →
      (∀ x, c.table.lookupCurrent? x = none → c.table.lookup? x = b.table.lookup? x) ∧
      ∀ s ∈ body, ∀ x, s.declared? = some x → c.errors = b.errors →
        (c.table.lookup? x).isSome = true ∧ Taken x c) := by
  have hconfined : Confined b c :=
    Confined.stable.block (Confined.stable.statements body fun _ _ => trivial) h
  have hkept : Kept (fun _ => True) b c :=
    Kept.stable.block (Kept.stable.statements body fun _ _ => trivial) h
  have hsound : c.table.Sound := hconfined.sound hb
  refine ⟨hsound, fun hkind => ?_, fun hkind => ?_⟩
  -- The block has a scope of its own, which is closed again.
  · obtain ⟨hinner, hscopes⟩ := scoped_block hb h hkind
    have hfind : ∀ i ∈ b.table.openIds, ∀ x, c.table.findIn? i x = b.table.findIn? i x := by
      intro i hi x
      unfold SymbolTable.findIn?
      rw [hscopes i hi]
    refine ⟨fun x => SymbolTable.lookup?_congr hinner fun i hi => hfind i hi x,
      fun x hx => ?_, fun x => ?_⟩
    · refine free_of_lookupCurrent? hsound ?_
      have hcurrent : c.table.currentId = b.table.currentId := by
        rw [SymbolTable.currentId, SymbolTable.currentId, hinner]
      unfold SymbolTable.lookupCurrent? at hx ⊢
      rw [hcurrent, hfind _ (SymbolTable.currentId_mem_openIds _), hx]
    · exact free_of_lookupCurrent? (hsound.enter "block") (hsound.lookupCurrent?_enter _ _)
  -- The block writes into the scope around it.
  · refine ⟨fun x hx => lookup?_of_confined hb hconfined hkept hx, fun s hs x hx herrors => ?_⟩
    have hin := block_ends h
    rw [if_pos hkind] at hin
    obtain ⟨c₁, hread, rfl⟩ := reachable_ends hin
    have hsome := isSome_of_mem (b := { b with unreachable := false }) hs hx hb hread herrors
    obtain ⟨id, hid⟩ := Option.isSome_iff_exists.mp hsome
    refine ⟨?_, taken_of_lookupCurrent? hsound hsome⟩
    show (c₁.table.lookup? x).isSome = true
    rw [lookup?_of_lookupCurrent? hid]
    rfl

/-- Behind a block of the main program its variable cannot be seen, and another one can have its
name. -/
theorem block_scoping_main : ∃ b c,
    Ends (statements [.declare ⟨1, "x", some "integer", none⟩]) {} () b ∧
    Ends (block (statements [.declare ⟨2, "y", some "integer", none⟩])) b () c ∧
    ["function", "class"].contains b.table.current.kind = false ∧
    b.table.lookupCurrent? "y" = none ∧
    c.table.symbols.size = 2 ∧ c.table.lookup? "y" = none ∧ Free "y" c := by
  obtain ⟨b, c, hb, hc, hkind, hy, hsize⟩ : ∃ b c,
      Ends (statements [.declare ⟨1, "x", some "integer", none⟩]) {} () b ∧
      Ends (block (statements [.declare ⟨2, "y", some "integer", none⟩])) b () c ∧
      ["function", "class"].contains b.table.current.kind = false ∧
      (b.table.lookup? "y" = none ∧ b.table.lookupCurrent? "y" = none) ∧ c.table.symbols.size = 2 :=
    ⟨_, _, rfl, rfl, rfl, ⟨rfl, rfl⟩, rfl⟩
  have hsound : b.table.Sound :=
    (Confined.stable.statements _ (fun _ _ => trivial) hb).sound SymbolTable.Sound.start
  obtain ⟨-, hscoped, -⟩ := block_scoping hsound hc
  obtain ⟨hsame, hfree, -⟩ := hscoped hkind
  exact ⟨b, c, hb, hc, hkind, hy.2, hsize, (hsame "y").trans hy.1, hfree "y" hy.2⟩

/-- The same in a function: the variable of the block is in the way of the one behind the block. -/
theorem block_in_function_reported : ∃ s b,
    Source.ofText "function f() \x7b \x7b let x: integer = 1; \x7d let x: integer = 2; \x7d" =
      .ok s ∧
    Ends (statements s.program) {} () b ∧
    b.errors = #["Error semántico. Línea 1: Variable 'x' ya declarada como variable en este ámbito"]
      ∧
    b.table.scopes.toList.map Scope.kind = ["global", "function"] :=
  Source.ends_of_read? statements _ (by decide +kernel)

end Compile

end Scriptc
