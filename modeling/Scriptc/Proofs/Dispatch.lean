import Scriptc.Proofs.Hierarchy
import Scriptc.Proofs.Resolution
import Scriptc.Proofs.Sums

/-!
# Scriptc: calls of methods

A call of a method is read when some of the program has been read, and translated when all has. In
between the table of names grows: classes get more members, and new classes are declared
(`SymbolTable.Grows`). So every call in the code of a program was made by the names of some table
that grew into the last one (`Dispatches.stable`), and the method that was found then is compared
with the label that is found at last.
-/

namespace Scriptc

open Build (Ends Keeps ends_bind ends_get_bind ends_pure ends_modify)
variable {id : SymbolId} {f : Symbol → Symbol}

/-! ## Tables that grow -/

theorem Class.Extends.refl (k : Class) : k.Extends k := ⟨rfl, fun _ hm => hm⟩

theorem Class.Extends.trans {k k' k'' : Class} (h : k.Extends k') (h' : k'.Extends k'') :
    k.Extends k'' :=
  ⟨h'.parent?.trans h.parent?, fun m hm => h'.methods m (h.methods m hm)⟩

/-- A symbol keeps its name, and stays a class or no class. -/
structure Symbol.Evolves (s s' : Symbol) : Prop where
  name : s'.name = s.name
  asClass? : ∀ k, s.asClass? = some k → ∃ k', s'.asClass? = some k' ∧ k.Extends k'
  noClass : s.asClass? = none → s'.asClass? = none

namespace Symbol.Evolves

variable {s s' s'' : Symbol}

theorem refl (s : Symbol) : s.Evolves s := ⟨rfl, fun k hk => ⟨k, hk, .refl k⟩, fun h => h⟩

theorem trans (h : s.Evolves s') (h' : s'.Evolves s'') : s.Evolves s'' where
  name := h'.name.trans h.name
  asClass? k hk := by
    obtain ⟨k₁, hk₁, hext₁⟩ := h.asClass? k hk
    obtain ⟨k₂, hk₂, hext₂⟩ := h'.asClass? k₁ hk₁
    exact ⟨k₂, hk₂, hext₁.trans hext₂⟩
  noClass hno := h'.noClass (h.noClass hno)

/-- A symbol that is a class now has been one before. -/
theorem wasClass (h : s.Evolves s') {k' : Class} (hk' : s'.asClass? = some k') :
    ∃ k, s.asClass? = some k := by
  cases hk : s.asClass? with
  | none =>
    rw [h.noClass hk] at hk'
    cases hk'
  | some k => exact ⟨k, rfl⟩

theorem of_body (hbody : s.asClass? = none) (hbody' : s'.asClass? = none)
    (hname : s'.name = s.name) :
    s.Evolves s' := by
  refine ⟨hname, fun k hk => ?_, fun _ => hbody'⟩
  rw [hbody] at hk
  cases hk

end Symbol.Evolves

namespace SymbolTable

variable {t t' t'' : SymbolTable} {m : String} {c d : SymbolId}

/-- A declaration leaves the symbols that there are. -/
theorem symbol?_of_declare {s s' : Symbol} (h : (t.keep s).2.declare (t.keep s).1 = .ok t')
    (hs' : t.symbol? id = some s') : t'.symbol? id = some s' := by
  have hlt : id < t.symbols.size := (Array.getElem?_eq_some_iff.mp hs').1
  rw [symbol?_declare_keep h, if_neg (Nat.ne_of_gt hlt)]
  exact hs'

/-- Every symbol of the one table is in the other one, with more members if it is a class, and
entered where it was. -/
structure Grows (t t' : SymbolTable) : Prop where
  symbols : ∀ id s, t.symbol? id = some s → ∃ s', t'.symbol? id = some s' ∧ s.Evolves s'
  entries : ∀ sc ∈ t.scopes, ∀ x id, sc.entries.get? x = some id →
    ∃ sc' ∈ t'.scopes, sc'.entries.get? x = some id

namespace Grows

theorem of_scopes (hscopes : t'.scopes = t.scopes)
    (hsymbols : ∀ id s, t.symbol? id = some s → ∃ s', t'.symbol? id = some s' ∧ s.Evolves s') :
    t.Grows t' :=
  ⟨hsymbols, fun sc hsc _ _ hid => ⟨sc, hscopes ▸ hsc, hid⟩⟩

theorem refl (t : SymbolTable) : t.Grows t := of_scopes rfl fun _ s hs => ⟨s, hs, .refl s⟩

theorem trans (h : t.Grows t') (h' : t'.Grows t'') : t.Grows t'' := by
  refine ⟨fun id s hs => ?_, fun sc hsc x id hid => ?_⟩
  · obtain ⟨s₁, hs₁, hev₁⟩ := h.symbols id s hs
    obtain ⟨s₂, hs₂, hev₂⟩ := h'.symbols id s₁ hs₁
    exact ⟨s₂, hs₂, hev₁.trans hev₂⟩
  · obtain ⟨sc₁, hsc₁, hid₁⟩ := h.entries sc hsc x id hid
    exact h'.entries sc₁ hsc₁ x id hid₁

theorem class? (h : t.Grows t') {k : Class} (hk : t.class? c = some k) :
    ∃ k', t'.class? c = some k' ∧ k.Extends k' := by
  obtain ⟨s, hs, hclass⟩ := class?_eq_some_iff.mp hk
  obtain ⟨s', hs', hev⟩ := h.symbols c s hs
  obtain ⟨k', hk', hext⟩ := hev.asClass? k hclass
  exact ⟨k', class?_eq_some_iff.mpr ⟨s', hs', hk'⟩, hext⟩

theorem above (h : t.Grows t') (hd : t.Above c d) : t'.Above c d := by
  induction hd with
  | refl => exact .refl
  | up hk hparent _ ih =>
    obtain ⟨k', hk', hext⟩ := h.class? hk
    exact .up hk' (hext.parent?.trans hparent) ih

/-- A method that was found is found later on too: in that class, or in one in front of it that has
got such a method since. -/
theorem nearest (h : t.Grows t') (hd : t.Nearest (·.HasMethod m) c d) :
    ∃ d', t'.Nearest (·.HasMethod m) c d' ∧ t'.Above d' d ∧
      (d' = d ∨ ∃ k, t.class? d' = some k ∧ ¬ k.HasMethod m) := by
  induction hd with
  | here hk hmethod =>
    obtain ⟨k', hk', hext⟩ := h.class? hk
    exact ⟨_, .here hk' (hext.methods m hmethod), .refl, .inl rfl⟩
  | up hk hno hparent hlt hrest ih =>
    obtain ⟨k', hk', hext⟩ := h.class? hk
    have hparent' := hext.parent?.trans hparent
    by_cases hmethod : k'.HasMethod m
    · -- The class has got the method since.
      exact ⟨_, .here hk' hmethod, .up hk' hparent' (h.above hrest.above), .inr ⟨_, hk, hno⟩⟩
    · obtain ⟨d', hd', habove, hsince⟩ := ih
      exact ⟨d', .up hk' hmethod hparent' hlt hd', habove, hsince⟩

theorem enter (t : SymbolTable) (kind : String) : t.Grows (t.enter kind) :=
  ⟨fun _ s hs => ⟨s, hs, .refl s⟩, fun sc hsc _ _ hid => ⟨sc, Array.mem_push_of_mem _ hsc, hid⟩⟩

theorem exit (t : SymbolTable) : t.Grows t.exit.2 := by
  unfold SymbolTable.exit
  split
  · exact refl t
  · exact of_scopes rfl fun _ s hs => ⟨s, hs, .refl s⟩

theorem modifySymbol (hf : ∀ s, t.symbol? id = some s → s.Evolves (f s)) :
    t.Grows (t.modifySymbol id f) := by
  refine of_scopes rfl fun i s hs => ?_
  rw [symbol?_modifySymbol, hs]
  split
  · rename_i hi
    exact ⟨f s, rfl, hf s (hi ▸ hs)⟩
  · exact ⟨s, rfl, .refl s⟩

theorem keep (t : SymbolTable) (s : Symbol) : t.Grows (t.keep s).2 :=
  of_scopes rfl fun _ s' hs' => ⟨s', symbol?_keep hs', .refl s'⟩

theorem declare {s : Symbol} (h : (t.keep s).2.declare (t.keep s).1 = .ok t') : t.Grows t' := by
  refine ⟨fun id s' hs' => ⟨s', symbol?_of_declare h hs', .refl s'⟩, fun sc hsc x id hid => ?_⟩
  obtain ⟨i, hi⟩ := Array.getElem?_of_mem hsc
  obtain ⟨sc', hsc', hext⟩ := scopes_declare h i sc hi
  exact ⟨sc', Array.mem_of_getElem? hsc', Assoc.get?_of_prefix hext.entries hid⟩

end Grows

namespace Entered

/-- What happens to symbols in their place leaves entries and classes as they are. -/
theorem of_symbols (ht : t.Entered) (hscopes : t'.scopes = t.scopes) (hnumbered : t'.Numbered)
    (hgrows : t.Grows t')
    (hback : ∀ id s', t'.symbol? id = some s' → ∃ s, t.symbol? id = some s ∧ s.Evolves s') :
    t'.Entered where
  numbered := hnumbered
  named sc hsc x id hid := by
    rw [hscopes] at hsc
    obtain ⟨s, hs, hname⟩ := ht.named sc hsc x id hid
    obtain ⟨s', hs', hev⟩ := hgrows.symbols id s hs
    exact ⟨s', hs', hev.name.trans hname⟩
  classes id s' k' hs' hk' := by
    obtain ⟨s, hs, hev⟩ := hback id s' hs'
    obtain ⟨k, hk⟩ := hev.wasClass hk'
    rw [hscopes, hev.name]
    exact ht.classes id s k hs hk

/-- A scope that is opened is empty. -/
theorem enter (ht : t.Entered) (kind : String) : (t.enter kind).Entered where
  numbered := ht.numbered.enter kind
  named sc hsc x id hid := by
    rcases Array.mem_push.mp hsc with hsc | rfl
    · exact ht.named sc hsc x id hid
    · cases hid
  classes id s k hs hk := by
    obtain ⟨sc, hsc, hid⟩ := ht.classes id s k hs hk
    exact ⟨sc, Array.mem_push_of_mem _ hsc, hid⟩

theorem modifySymbol (ht : t.Entered)
    (hf : ∀ s, t.symbol? id = some s → s.Evolves (f s)) : (t.modifySymbol id f).Entered := by
  refine ht.of_symbols rfl { ht.numbered with } (.modifySymbol hf) fun i s' hs' => ?_
  rw [symbol?_modifySymbol] at hs'
  split at hs'
  · rename_i hi
    obtain ⟨s, hs, rfl⟩ := Option.map_eq_some_iff.mp hs'
    exact ⟨s, hs, hf s (hi ▸ hs)⟩
  · exact ⟨s', hs', .refl s'⟩

theorem exit (ht : t.Entered) : t.exit.2.Entered := by
  have hnumbered := ht.numbered.exit
  unfold SymbolTable.exit at hnumbered ⊢
  split at hnumbered
  · exact ht
  · exact ht.of_symbols rfl hnumbered (.of_scopes rfl fun _ s hs => ⟨s, hs, .refl s⟩)
      fun id s hs => ⟨s, hs, .refl s⟩

/-- A declaration enters the new symbol in the innermost scope. -/
theorem declare {s : Symbol} (ht : t.Entered) (h : (t.keep s).2.declare (t.keep s).1 = .ok t') :
    t'.Entered := by
  have hsymbol := symbol?_declare_keep h
  have hnew : t'.symbol? t.symbols.size = some { s with scope := t.currentId } := by
    rw [hsymbol, if_pos rfl]
  have hscopes : t'.scopes = t.scopes.modify t.currentId fun c =>
      { c with entries := c.entries.put s.name t.symbols.size } := by
    rw [declare_keep h]
  refine ⟨?_, fun sc' hsc' x id hid => ?_, fun id s' k' hs' hk' => ?_⟩
  · exact (ht.numbered.keep s).declare h
  · -- The entry that is asked for is the new one, or an old one.
    have holdEntry : ∀ sc ∈ t.scopes, sc.entries.get? x = some id → ∃ s',
      t'.symbol? id = some s' ∧ s'.name = x := by
      intro sc hsc hid
      obtain ⟨s', hs', hname⟩ := ht.named sc hsc x id hid
      exact ⟨s', symbol?_of_declare h hs', hname⟩
    obtain ⟨i, hi⟩ := Array.getElem?_of_mem hsc'
    rw [hscopes, Array.getElem?_modify] at hi
    split at hi
    · obtain ⟨sc, hsc, rfl⟩ := Option.map_eq_some_iff.mp hi
      by_cases hx : x = s.name
      · subst hx
        rw [Assoc.get?_put_self] at hid
        cases hid
        exact ⟨_, hnew, rfl⟩
      · rw [Assoc.get?_put_of_ne _ _ hx] at hid
        exact holdEntry sc (Array.mem_of_getElem? hsc) hid
    · exact holdEntry sc' (Array.mem_of_getElem? hi) hid
  · rw [hsymbol] at hs'
    split at hs'
    · rename_i hid
      cases hs'
      subst hid
      have hcurrent : t.currentId < t.scopes.size := ht.numbered.opened _ (.head _)
      refine ⟨{ t.scopes[t.currentId] with
        entries := t.scopes[t.currentId].entries.put s.name t.symbols.size },
        Array.mem_of_getElem? (i := t.currentId) ?_, Assoc.get?_put_self _ _ _⟩
      grind
    · obtain ⟨sc, hsc, hid⟩ := ht.classes id s' k' hs' hk'
      exact (Grows.declare h).entries sc hsc _ _ hid

end Entered

end SymbolTable

/-! ## Calls by the names of a table -/

/-- The quadruple of a call that the program makes by the names of a table, or that turns a number
into a string. -/
inductive Quad.CalledBy (t : SymbolTable) (q : Quad) : Prop where
  | text (hq : q.result = Emit.functionLabel "toString")
  | site {site : Site} {c : Call} (hc : site.Resolves t c) (hq : q.result = c.label)

/-- Each call in the code was made by the names of some table between the two. -/
def CallsBetween (t t' : SymbolTable) (code : List Quad) : Prop :=
  ∀ q ∈ code, q.op = .call → ∃ u, t.Grows u ∧ u.Grows t' ∧ q.CalledBy u

namespace CallsBetween

variable {t t' u u' : SymbolTable} {c d : List Quad}

theorem of_forall_ne (h : ∀ q ∈ c, q.op ≠ .call) :
    CallsBetween t t' c := fun q hq hop => absurd hop (h q hq)

theorem append (hc : CallsBetween t t' c) (hd : CallsBetween t t' d) : CallsBetween t t' (c ++ d) :=
  List.forall_mem_append.mpr ⟨hc, hd⟩

theorem widen (h : CallsBetween u u' c) (hu : t.Grows u) (hu' : u'.Grows t') :
    CallsBetween t t' c := by
  intro q hq hop
  obtain ⟨v, hv, hv', hcalled⟩ := h q hq hop
  exact ⟨v, hu.trans hv, hv'.trans hu', hcalled⟩

theorem of_hasCalls {ss : List Site} (h : HasCalls t ss c) : CallsBetween t t c := by
  induction h with
  | nil => exact of_forall_ne (by simp)
  | quad hq _ ih =>
    have hstack := Quad.isStack_of_inFlow hq
    refine List.forall_mem_cons.mpr ⟨fun hop => ?_, ih⟩
    rw [hop] at hstack
    cases hstack
  | text _ ih =>
    refine append (fun q hq hop => ⟨t, .refl t, .refl t, .text ?_⟩) ih
    exact (Call.mem_code hq).2 hop
  | call hc _ ih =>
    refine append (fun q hq hop => ⟨t, .refl t, .refl t, .site hc ?_⟩) ih
    exact (Call.mem_code hq).2 hop
  | bare _ _ _ _ ih => exact ih

end CallsBetween

namespace Compile

variable {result? : Option Ty} {ss : List Stmt} {b b' : Build} {cls : String}

/-- From `b` to `b'` the table has grown, it is in order if it was, and the calls that have been
written were made by the names that it had in between. -/
structure Dispatches (b b' : Build) : Prop where
  grows : b.table.Grows b'.table
  entered : b'.errors = #[] → b.table.Entered → b'.table.Entered
  lays : Lays (CallsBetween b.table b'.table) b b'

namespace Dispatches

variable {b c d : Build}

/-- Code without calls, under the same names. -/
theorem of_lays (htable : c.table = b.table) (h : Lays (CallsBetween b.table b.table) b c) :
    Dispatches b c := by
  refine ⟨htable ▸ .refl _, fun _ hb => htable ▸ hb, ?_⟩
  rw [htable]
  exact h

/-- Other names, and no code. -/
theorem of_table (herrors : c.errors = b.errors) (hquads : c.quads = b.quads)
    (hgrows : b.table.Grows c.table) (hentered : b.table.Entered → c.table.Entered) :
    Dispatches b c := by
  refine ⟨hgrows, fun _ => hentered, herrors ▸ Nat.le_refl _,
    fun _ => ⟨[], ?_, .of_forall_ne (by simp)⟩⟩
  rw [hquads, List.append_nil]

theorem same (htable : c.table = b.table) (herrors : c.errors = b.errors)
    (hquads : c.quads = b.quads) :
    Dispatches b c :=
  of_table herrors hquads (htable ▸ .refl _) fun hb => htable ▸ hb

theorem refl (b : Build) : Dispatches b b := same rfl rfl rfl

theorem trans (h : Dispatches b c) (h' : Dispatches c d) : Dispatches b d where
  grows := h.grows.trans h'.grows
  entered hclean hb := h'.entered hclean (h.entered (h'.lays.clean hclean) hb)
  lays := h.lays.append h'.lays fun _ _ hcode hcode' =>
    (hcode.widen (.refl _) h'.grows).append (hcode'.widen h.grows (.refl _))

theorem push {q : Quad} (hq : q.op ≠ .call) : Dispatches b { b with quads := b.quads.push q } :=
  of_lays rfl (.push (.of_forall_ne fun q' hq' => by rwa [List.mem_singleton.mp hq']))

theorem quad {q : Quad} (hq : q.inFlow = true) : Keeps Dispatches (Emit.quad q) :=
  Keeps.modify fun _ => push fun hop => by
    have hstack := Quad.isStack_of_inFlow hq
    rw [hop] at hstack
    cases hstack

theorem flow : Flow (Since Dispatches) :=
  .of_same trans (fun htable _ _ => same htable) fun _ hq =>
    quad hq (Emit.ends_quad.mpr rfl : Ends _ _ () _)

theorem codeStable : CodeStable Dispatches :=
  .of_silent refl (fun _ _ _ => trans) (fun _ _ h => same h.table h.errors h.quads)
    (fun _ _ => Keeps.modify fun _ => of_lays rfl (.report (by simp)))
    (fun q hq => quad (Quad.inFlow_of_isPlain hq))
    fun _ constant left right htest b _ _ hend =>
      flow.shortCircuit (S := [left, right]) htest constant (by simp) (by simp) (refl b) hend

/-- The calls in an expression are made by the names that there are. -/
theorem expr {e : Expr} (he : e.All Expr.Formed) : Keeps Dispatches (Compile.expr e) := by
  intro b type? b' hend
  obtain ⟨htable, hlays, -⟩ := expr_makes e he rfl hend
  exact of_lays htable (hlays.mono fun _ => .of_hasCalls)

theorem modifySymbol
    (hf : ∀ s, b.table.symbol? id = some s → s.Evolves (f s)) :
    Dispatches b { b with table := b.table.modifySymbol id f } :=
  of_table rfl rfl (.modifySymbol hf) fun hb => hb.modifySymbol hf

theorem declare (line : Nat) (s : Symbol) : Keeps Dispatches (Compile.declare line s) := by
  intro b r b' h
  rcases declare_cases h with ⟨t, ht, -, rfl⟩ | ⟨_, _, -, -, rfl⟩
  · exact of_table rfl rfl (.declare ht) fun hb => hb.declare ht
  · -- A symbol that cannot be declared is kept, but there is a report.
    refine ⟨.keep _ _, fun hclean => ?_, .report (by simp)⟩
    simp at hclean

theorem scope (kind : String) (b b' : Build)
    (h : Dispatches { b with table := b.table.enter kind } b') :
    Dispatches b { b' with table := b'.table.exit.2 } where
  grows := ((SymbolTable.Grows.enter b.table kind).trans h.grows).trans (.exit _)
  entered hclean hb := (h.entered hclean (hb.enter kind)).exit
  lays := (h.lays.mono fun _ hcode => hcode.widen (.enter _ kind) (.exit _)).around rfl rfl rfl rfl

theorem routine {name : String} {frame : FrameId} {label : Operand} {body : BuildM Unit}
    (hbody : Keeps Dispatches body) :
    Keeps Dispatches (Emit.routine name frame label result? body) := by
  intro b r b' hend
  obtain ⟨c, d, hd, htable, -, -, htable', herrors', hwhole⟩ := Lays.routine_lays hend
  have h := hbody hd
  refine ⟨htable' ▸ htable ▸ h.grows, fun hclean hb => ?_,
    hwhole h.lays fun size _ _ hcode hending => ?_⟩
  · rw [htable']
    exact h.entered (herrors' ▸ hclean) (htable ▸ hb)
  · rw [htable', ← htable]
    have hopening : CallsBetween c.table d.table [{ op := .label, result := label },
      { op := .enter, arg1 := size }] :=
      .of_forall_ne (by simp)
    refine hopening.append (hcode.append (.of_forall_ne fun q hq => ?_))
    rcases hending.mem q (Array.mem_toList_iff.mp hq) with rfl | rfl <;> simp

theorem flowStable : FlowStable Use.Formed Dispatches where
  toCodeStable := codeStable
  toControlStable := flow.controlStable codeStable
  valueOf he := expr he
  warn _ _ := Keeps.modify fun _ => same rfl rfl rfl
  aside _ _ := same rfl rfl rfl
  layout := codeStable.layout fun _ _ => Keeps.modify fun _ => same rfl rfl rfl
  declare := declare
  modifyFunction id f _ := Keeps.modify fun b => modifySymbol fun s _ => by
    rcases s with ⟨name, scope, v | g | k | ⟨k, t⟩⟩
    · exact .refl _
    · exact .of_body rfl rfl rfl
    · exact .refl _
    · exact .refl _
  modifyClass id f hf := Keeps.modify fun b => modifySymbol fun s _ => by
    rcases s with ⟨name, scope, v | g | k | ⟨k, t⟩⟩
    · exact .refl _
    · exact .refl _
    · refine ⟨rfl, fun k' hk' => ⟨f k, rfl, ?_⟩, nofun⟩
      cases hk'
      exact hf k
    · exact .refl _
  assignName line x e he := codeStable.assignName_of_retype (fun _ _ => same rfl rfl rfl)
    (fun {b id s v value?} hs hbody _ => modifySymbol fun s' hs' => by
      obtain rfl := Option.some.inj (hs.symm.trans hs')
      exact .of_body (by rw [Symbol.asClass?, hbody]) rfl rfl)
    line x (expr he)
  scope := scope
  loops _ _ h := ⟨h.grows, h.entered, h.lays.around rfl rfl rfl rfl⟩
  inClass _ _ _ h := ⟨h.grows, h.entered, h.lays.around rfl rfl rfl rfl⟩

end Dispatches

theorem program_dispatches {p : Program} (hp : ∀ u ∈ Stmt.usesAll p, u.Formed)
    (h : Ends (program p) {} () b) : Dispatches {} b := by
  have hwalk : StmtWalk Use.Formed (fun _ => True) (Since Dispatches) :=
    Dispatches.flowStable.walk fun r _ hbody frame result? => Dispatches.routine hbody
  exact Dispatches.flowStable.keeps (S := []) (hwalk.statements p [] hp fun _ _ => trivial) h

theorem entered_start : ({} : SymbolTable).Entered where
  numbered := .start
  named sc hsc x id hid := by
    obtain rfl : sc = ⟨0, "global", none, []⟩ := by simpa using hsc
    cases hid
  classes id s k hs hk := by simp [SymbolTable.symbol?] at hs

/-! ## Labels of methods that are declared -/

theorem Kept.clean {allow : Use → Prop} {c : Build} (h : Kept allow b c) (hclean : c.errors = #[]) :
    b.errors = #[] := by
  have herrors := h.errors
  rw [hclean] at herrors
  exact Array.toList_eq_nil_iff.mp (List.prefix_nil.mp herrors)

theorem Kept.lays {allow : Use → Prop} {c : Build} (h : Kept allow b c) :
    Lays (fun _ => True) b c := by
  refine ⟨h.errors.length_le, fun _ => ?_⟩
  obtain ⟨code, hcode⟩ := h.quads
  exact ⟨code, hcode.symm, trivial⟩

/-- The code of a method begins with its label. -/
theorem method_label {name : String} {ps : List (String × Option Ty)} {r : Emit.RoutineCode}
    (h : Ends (Emit.method cls name ps result? (block (statements ss))) b r b') :
    Lays ({ op := .label, result := Emit.methodLabel cls name } ∈ ·) b b' := by
  obtain ⟨_, _, _, hroutine⟩ := Emit.method_ends h
  obtain ⟨c, d, hd, -, -, -, -, -, hlays⟩ := Lays.routine_lays hroutine
  have hkept : Kept (fun _ => True) c d :=
    Kept.stable.block (Kept.stable.statements ss fun _ _ => trivial) hd
  exact (hlays hkept.lays fun _ _ _ _ _ => (.head _) ..).around rfl rfl rfl rfl

/-- A method that is declared without errors has its label in the code. -/
theorem methodBody_label {sig : Signature} {check : List (Option Ty) → BuildM Unit}
    (hcheck : ∀ rs, Keeps (Kept fun _ => True) (check rs))
    (h : Ends (methodBody cls sig id result? check (block (statements ss))) b () b')
    (hclean : b'.errors = #[]) :
    { op := .label, result := Emit.methodLabel cls sig.name } ∈ b'.quads := by
  simp only [methodBody, ends_bind] at h
  obtain ⟨_, b₁, -, _, b₂, -, scope, b₃, -, _, b₄, -, _, _, hroutine, returns, b₅, hreturns, _,
    b₆, hchecked, _, b₇,
    hexit, hleave⟩ := h
  obtain ⟨-, rfl⟩ := Build.ends_read.mp hreturns
  obtain rfl := ends_modify.mp hexit
  obtain rfl := ends_modify.mp hleave
  -- What comes behind the code of the method adds reports and code at most.
  have hkept := hcheck returns hchecked
  have hclean₅ := hkept.clean hclean
  have hmem : { op := .label, result := Emit.methodLabel cls sig.name } ∈ b₅.quads := by
    unfold routineBody Build.isClean at hroutine
    rw [Build.ends_read_bind] at hroutine
    split at hroutine
    · obtain ⟨ps, c, hps, hmethod⟩ := ends_bind.mp hroutine
      obtain ⟨r, hmethod⟩ := Build.ends_discard.mp hmethod
      obtain ⟨code, hcode, hlabel⟩ := (method_label hmethod).code hclean₅
      rw [← Array.mem_toList_iff, hcode]
      exact List.mem_append_right _ hlabel
    · rename_i hdirty
      have hbody : Kept (fun _ => True) b₄ b₅ :=
        Kept.stable.block (Kept.stable.statements ss fun _ _ => trivial) hroutine
      rw [hbody.clean hclean₅] at hdirty
      exact absurd rfl hdirty
  obtain ⟨code, hcode⟩ := hkept.quads
  show _ ∈ b₆.quads
  rw [← Array.mem_toList_iff, ← hcode]
  exact List.mem_append_left _ (Array.mem_toList_iff.mpr hmem)

theorem methodDecl_label {clsId : SymbolId} {sig : Signature}
    (h : Ends (methodDecl cls clsId sig (block (statements ss))) b () b')
    (hclean : b'.errors = #[]) :
    { op := .label, result := Emit.methodLabel cls sig.name } ∈ b'.quads := by
  unfold methodDecl at h
  obtain ⟨result?, b₁, -, h⟩ := ends_bind.mp h
  split at h
  · obtain rfl := ends_modify.mp h
    simp at hclean
  · rw [ends_get_bind] at h
    simp only [ends_bind] at h
    obtain ⟨_, b₂, -, scope, b₃, -, ⟨id, fresh⟩, b₄, hdeclare, h⟩ := h
    dsimp only at h
    split at h
    · refine methodBody_label (fun rs => ?_) h hclean
      exact Kept.stable.remarks (.checkResult ..)
    · -- A name that is taken is reported.
      rename_i hfresh
      obtain ⟨-, rfl⟩ := ends_pure.mp h
      rcases declare_cases hdeclare with ⟨t, -, hr, -⟩ | ⟨_, _, -, -, rfl⟩
      · exact absurd (congrArg Prod.snd hr) hfresh
      · simp at hclean

/-! ## Where calls go -/

theorem mem_scopes_of_lookup? {t : SymbolTable} {x : String} (h : t.lookup? x = some id) :
    ∃ sc ∈ t.scopes, sc.entries.get? x = some id := by
  obtain ⟨i, -, hfound⟩ := List.exists_of_findSome?_eq_some h
  obtain ⟨sc, hsc, hid⟩ := Option.bind_eq_some_iff.mp hfound
  exact ⟨sc, Array.mem_of_getElem? hsc, hid⟩

/-- A table that grew into the one at the end has found a method somewhere. The translation of a
call goes to that class, or to one in front of it that has got such a method since. -/
theorem call_goes_to {t : SymbolTable} (input : Mips.Input) {m : String} {c d : SymbolId}
    {k : Class} (hgrows : t.Grows input.table) (hentered : input.table.Entered)
    (hc : t.lookup? cls = some c) (hd : t.Nearest (·.HasMember m) c d) (hk : t.class? d = some k)
    (hmethod : k.HasMethod m) (hm : IsName m) (hplain : '_' ∉ m.toList)
    (hown : ∀ i, input.table.Above c i → input.table.OwnName i) :
    ∃ d' D, input.table.Nearest (·.HasMethod m) c d' ∧ input.table.Above d' d ∧
      (d' = d ∨ ∃ k', t.class? d' = some k' ∧ ¬ k'.HasMethod m) ∧ input.table.symbol? d' = some D ∧
      ∀ (st : Mips.Select) (q : Quad), st.skipping = false → q.op = .call →
        q.result = Emit.methodLabel cls m →
        Mips.Select.Ends input (Mips.Select.quad q) st
          [.remark ("Call function: " ++ q.result.render),
          .code (.jal (Emit.methodLabel D.name m).toLabel)] st := by
  obtain ⟨d', hd', habove, hsince⟩ := hgrows.nearest (hd.of_hasMember hk hmethod)
  obtain ⟨kd, hkd, -⟩ := hd'.holds
  obtain ⟨D, hD, -⟩ := SymbolTable.class?_eq_some_iff.mp hkd
  refine ⟨d', D, hd', habove, hsince, hD, fun st q hst hop hq => ?_⟩
  -- The class that the call names is entered under its name still.
  obtain ⟨sc, hsc, hentry⟩ := mem_scopes_of_lookup? hc
  obtain ⟨sc', hsc', hentry'⟩ := hgrows.entries sc hsc cls c hentry
  obtain ⟨s, hs, hname⟩ := hentered.named sc' hsc' cls c hentry'
  exact Mips.Select.quad_nearest hentered hd' hown hs hD hm hplain hop (hname.symm ▸ hq) hst

/-- **Calls of methods.** In the code of a program without errors every call was made by the names
of some table that grew into the last one. Where such a table finds a member, that is in the nearest
class that has it. If it is a method, whose name has no underscore, and the classes on the way have
names of their own, then the translation of the call completes, and the call goes to the label of
that class, or of a class in front of it that has got such a method since. That label is in the code
when the method has been declared. -/
theorem method_calls_dispatch {text : String} {s : Source} {b : Build}
    (hs : Source.ofText text = .ok s) (h : s.build = (.ok (), b)) (hclean : b.errors = #[]) :
    (∀ q ∈ b.quads, q.op = .call → ∃ t : SymbolTable, t.Grows b.table ∧ q.CalledBy t) ∧
    (∀ (t : SymbolTable) cls m id, t.Grows b.table → t.member? cls m = some id →
      ∃ c d k, t.lookup? cls = some c ∧ t.Nearest (·.HasMember m) c d ∧ t.class? d = some k ∧
        SymbolTable.ownMember? k m = some id ∧
        (k.HasMethod m → IsName m → '_' ∉ m.toList → (∀ i, b.table.Above c i → b.table.OwnName i) →
          ∃ d' D, b.table.Nearest (·.HasMethod m) c d' ∧ b.table.Above d' d ∧
            (d' = d ∨ ∃ k', t.class? d' = some k' ∧ ¬ k'.HasMethod m) ∧
              b.table.symbol? d' = some D ∧
            ∀ (st : Mips.Select) (q : Quad), st.skipping = false → q.op = .call →
              q.result = Emit.methodLabel cls m → Mips.Select.Ends b.input (Mips.Select.quad q) st
                [.remark ("Call function: " ++ q.result.render),
                  .code (.jal (Emit.methodLabel D.name m).toLabel)] st)) ∧
    ∀ cls id sig ss b₁ b₂,
      Ends (methodDecl cls id sig (block (statements ss))) b₁ () b₂ → b₂.errors = #[] →
      { op := .label, result := Emit.methodLabel cls sig.name } ∈ b₂.quads := by
  have hdispatches := program_dispatches (Source.formed hs) h
  refine ⟨fun q hq hop => ?_, fun t cls m id hgrows hid => ?_,
    fun cls id sig ss b₁ b₂ => methodDecl_label⟩
  -- Calls are written while the classes are still growing.
  · obtain ⟨code, hcode, hcalls⟩ := hdispatches.lays.code hclean
    have hmem : q ∈ code := by
      rw [← Array.mem_toList_iff, hcode] at hq
      simpa using hq
    obtain ⟨t, -, hgrows, hcalled⟩ := hcalls q hmem hop
    exact ⟨t, hgrows, hcalled⟩
  -- The member is found on the way up, and the back end goes the same way.
  · obtain ⟨c, hc, hmember⟩ := Option.bind_eq_some_iff.mp hid
    obtain ⟨d, k, hd, hk, hown⟩ := SymbolTable.memberOf?_nearest hmember
    refine ⟨c, d, k, hc, hd, hk, hown, fun hmethod hm hplain hnames => ?_⟩
    have hentered := hdispatches.entered hclean entered_start
    exact call_goes_to b.input hgrows hentered hc hd hk hmethod hm hplain hnames

/-- A method that the class `B` inherits: the call goes to the label of `A`. -/
theorem method_calls_dispatch_inherited : ∃ s b,
    Source.ofText "class A \x7b function get(): integer \x7b return 1; \x7d \x7d class B : A \x7b \x7d let b: B = new B(); print(b.get());" = .ok s ∧
    s.build = (.ok (), b) ∧ b.errors = #[] ∧
    { op := .call, result := Emit.methodLabel "B" "get", comment? := some "Call B.get" } ∈ b.quads ∧
    ∀ (st : Mips.Select) (q : Quad), st.skipping = false → q.op = .call →
      q.result = Emit.methodLabel "B" "get" →
      Mips.Select.Ends b.input (Mips.Select.quad q) st
        [.remark ("Call function: " ++ q.result.render), .code (.jal "FUNC_get_A")] st := by
  refine Source.exists_of_read? program (P := fun _ b => b.errors = #[] ∧
    { op := .call, result := Emit.methodLabel "B" "get", comment? := some "Call B.get" } ∈ b.quads ∧
    (b.table.member? "B" "get").isSome = true ∧ (b.table.symbols.toList.map Symbol.name).Nodup ∧
    (∀ s ∈ b.table.symbols, IsName s.name) ∧
    ∀ s ∈ b.table.symbols, ∀ k ∈ s.asClass?, (SymbolTable.ownMember? k "get").isSome = true →
      k.methods.contains "get" = true ∧ s.name = "A") (by decide +kernel) fun s b hs hb htest => ?_
  obtain ⟨hclean, hcall, hmember, hnodup, hnames, hget⟩ := htest
  obtain ⟨id, hid⟩ := Option.isSome_iff_exists.mp hmember
  obtain ⟨-, hfound, -⟩ := method_calls_dispatch hs hb hclean
  obtain ⟨c, d, k, -, -, hk, hown, hgoes⟩ := hfound b.table "B" "get" id (.refl _) hid
  -- Of the classes with a member of that name there is only `A`, which has it as a method.
  have honly : ∀ {i : SymbolId} {k : Class}, b.table.class? i = some k → k.HasMember "get" →
      k.HasMethod "get" ∧ ∀ D, b.table.symbol? i = some D → D.name = "A" := by
    intro i k hk hmember
    obtain ⟨D, hD, hclass⟩ := SymbolTable.class?_eq_some_iff.mp hk
    obtain ⟨hmethod, hname⟩ := hget D (Array.mem_of_getElem? hD) k hclass hmember
    exact ⟨hmethod, fun D' hD' => by rwa [← Option.some.inj (hD.symm.trans hD')]⟩
  have hmember : k.HasMember "get" := by rw [Class.HasMember, hown]; rfl
  obtain ⟨d', D, hd', -, -, hD, hends⟩ := hgoes (honly hk hmember).1 (by decide) (by decide)
    fun i _ => .of_nodup hnodup hnames i
  obtain ⟨k', hk', hmethod⟩ := hd'.holds
  have hlabel : (Emit.methodLabel D.name "get").toLabel = "FUNC_get_A" := by
    rw [(honly hk' hmethod.hasMember).2 D hD]
    decide +kernel
  exact ⟨hclean, hcall, hlabel ▸ hends⟩

/-- A method with an underscore in its name: for a call on an object of the class `B`, which
inherits it, no class is found, and the call goes to a label that is not in the code. -/
theorem inherited_method_not_found : ∃ s b asm,
    Source.ofText "class A \x7b function get_x(): integer \x7b return 1; \x7d \x7d class B : A \x7b\x7d let b: B = new B(); print(b.get_x());" = .ok s ∧
    s.build = (.ok (), b) ∧ b.errors = #[] ∧ b.assembly? = some (.ok asm) ∧
    (b.table.member? "B" "get_x").isSome = true ∧
    b.table.member? "B" "get_x" = b.table.member? "A" "get_x" ∧
    b.input.labels = ["FUNC_get_x_A"] ∧
    asm.allBlocks.any (·.code.contains (.code (.jal "FUNC_get_x_B"))) = true := by
  simp only [exists_and_left]
  exact Source.of_read? (by decide +kernel)

end Compile

end Scriptc
