import Scriptc.Proofs.Hierarchy
import Scriptc.Proofs.Pairing
import Scriptc.Proofs.Room

/-!
# Scriptc: parents come first

A class may take the class of its own name in an outer scope for its parent, so names do not show
that no class is among its own parents. Numbers do: a parent is looked up before the class is kept,
so it has the smaller number (`SymbolTable.Founded`). Every step of a reading leaves that so
(`Analysed.founded`), and the search for a member, which stops where a parent has no smaller number,
never stops for that reason (`Founded.memberOf?_eq_none_iff`).
-/

namespace Scriptc

open Build (Carries Ends ends_bind ends_modify ends_pure)

namespace SymbolTable

variable {t t' : SymbolTable} {s : Symbol} {m : String} {c d id : SymbolId}

/-- The parent of a class is a class that was kept before it. -/
def Founded (t : SymbolTable) : Prop :=
  ∀ c k p, t.class? c = some k → k.parent? = some p → p < c ∧ (t.class? p).isSome = true

namespace Founded

/-- What counts of a class is its parent. -/
theorem of_parents (h : t.Founded)
    (heq : ∀ i, (t'.class? i).map Class.parent? = (t.class? i).map Class.parent?) :
    t'.Founded := by
  intro c k p hk hp
  have hparent : (t.class? c).map Class.parent? = some (some p) := by
    rw [← heq, hk, Option.map_some, hp]
  obtain ⟨k', hk', hp'⟩ := Option.map_eq_some_iff.mp hparent
  obtain ⟨hlt, hclass⟩ := h c k' p hk' hp'
  refine ⟨hlt, ?_⟩
  rw [← Option.isSome_map (f := Class.parent?), heq, Option.isSome_map, hclass]

theorem modifySymbol (h : t.Founded) {f : Symbol → Symbol}
    (hf : ∀ s, t.symbol? id = some s →
      (f s).asClass?.map Class.parent? = s.asClass?.map Class.parent?) :
    (t.modifySymbol id f).Founded := by
  refine h.of_parents fun i => ?_
  unfold class?
  rw [symbol?_modifySymbol]
  split
  · rename_i hi
    subst hi
    cases hs : t.symbol? id with
    | none => rfl
    | some s => exact hf s hs
  · rfl

/-- A class that is kept has the next number, which is greater than that of its parent. -/
theorem keep (h : t.Founded)
    (hs : ∀ k p, s.asClass? = some k → k.parent? = some p → (t.class? p).isSome = true) :
    (t.keep s).2.Founded := by
  have hold {p : SymbolId} (hp : (t.class? p).isSome = true) :
      p < t.symbols.size ∧ ((t.keep s).2.class? p).isSome = true := by
    obtain ⟨k, hk⟩ := Option.isSome_iff_exists.mp hp
    obtain ⟨s', hs', hk'⟩ := class?_eq_some_iff.mp hk
    have hkept := symbol?_keep (s := s) hs'
    exact ⟨(Array.getElem?_eq_some_iff.mp hs').1, by
      rw [class?_eq_some_iff.mpr ⟨s', hkept, hk'⟩]; rfl⟩
  intro c k p hk hp
  obtain ⟨s', hs', hk'⟩ := class?_eq_some_iff.mp hk
  unfold SymbolTable.keep symbol? at hs'
  rw [Array.getElem?_push] at hs'
  split at hs'
  · grind
  · obtain ⟨hlt, hclass⟩ := h c k p (class?_eq_some_iff.mpr ⟨s', hs', hk'⟩) hp
    exact ⟨hlt, (hold hclass).2⟩

theorem declare (h : t.Founded) (ht' : t.declare id = .ok t') : t'.Founded := by
  rcases declare_ok ht' with rfl | ⟨s, -, rfl⟩
  · exact h
  · have hscope : (t.modifySymbol id ({ · with scope := t.currentId })).Founded :=
      h.modifySymbol fun _ _ => rfl
    exact hscope

end Founded

/-- What is found is the member of the nearest class that has one. -/
theorem Nearest.memberOf?_eq (h : t.Nearest (·.HasMember m) c d) {k : Class}
    (hd : t.class? d = some k) :
    t.memberOf? m c = ownMember? k m := by
  induction h with
  | here hk hm =>
    obtain rfl := Option.some.inj (hk.symm.trans hd)
    obtain ⟨own, hown⟩ := Option.isSome_iff_exists.mp hm
    unfold memberOf?
    simp only [hk, hown]
  | up hk hno hparent hlt _ ih =>
    have hnone := Option.not_isSome_iff_eq_none.mp hno
    unfold memberOf?
    grind

theorem Founded.exists_nearest (h : t.Founded) {P : Class → Prop} (hd : t.Above c d) {k : Class}
    (hk : t.class? d = some k) (hp : P k) : ∃ d', t.Nearest P c d' := by
  induction hd with
  | refl => exact ⟨_, .here hk hp⟩
  | @up c p d k' hk' hparent _ ih =>
    obtain ⟨d', hd'⟩ := ih hk
    by_cases hp' : P k'
    · exact ⟨c, .here hk' hp'⟩
    · exact ⟨d', .up hk' hp' hparent (h c k' p hk' hparent).1 hd'⟩

/-- Nothing is found if no class from `c` upwards has the member, and only then. -/
theorem Founded.memberOf?_eq_none_iff (h : t.Founded) :
    t.memberOf? m c = none ↔ ∀ d k, t.Above c d → t.class? d = some k → ¬ k.HasMember m := by
  constructor
  · intro hnone d k habove hk hm
    obtain ⟨d', hnearest⟩ := h.exists_nearest (P := (·.HasMember m)) habove hk hm
    obtain ⟨k', hk', hm'⟩ := hnearest.holds
    rw [Class.HasMember, ← hnearest.memberOf?_eq hk', hnone] at hm'
    cases hm'
  · intro hall
    cases hfound : t.memberOf? m c with
    | none => rfl
    | some id =>
      obtain ⟨d, k, hnearest, -, -⟩ := memberOf?_nearest hfound
      obtain ⟨k', hk', hm⟩ := hnearest.holds
      exact absurd hm (hall d k' hnearest.above hk')

end SymbolTable

namespace Compile

open SymbolTable (Founded)

/-! ## Reading -/

theorem founded_declare (line : Nat) {s : Symbol} {b b' : Build} {r : SymbolId × Bool}
    (hb : b.table.Founded)
    (hs : ∀ k p, s.asClass? = some k → k.parent? = some p → (b.table.class? p).isSome = true)
    (hend : Ends (Compile.declare line s) b r b') : b'.table.Founded := by
  have hkeep := hb.keep hs
  rcases declare_cases hend with ⟨t, ht, -, rfl⟩ | ⟨_, _, -, -, rfl⟩
  · exact hkeep.declare ht
  · exact hkeep

/-- The parent that is found for a class is one. -/
theorem parentOf_class {line : Nat} {parent? : Option String} {b b' : Build} {p? : Option SymbolId}
    (h : Ends (parentOf line parent?) b p? b') :
    b'.table = b.table ∧ ∀ p, p? = some p → (b.table.class? p).isSome = true := by
  cases parent? with
  | none =>
    obtain ⟨rfl, rfl⟩ := ends_pure.mp h
    exact ⟨rfl, nofun⟩
  | some name =>
    obtain ⟨s?, b₁, hclass, h⟩ := ends_bind.mp h
    rw [class?_eq] at hclass
    obtain ⟨rfl, rfl⟩ := Build.ends_read.mp hclass
    split at h
    · rename_i s hs
      obtain ⟨rfl, rfl⟩ := Build.ends_read.mp h
      refine ⟨rfl, fun p hp => ?_⟩
      obtain ⟨hs, hkind⟩ := Option.filter_eq_some_iff.mp hs
      obtain ⟨id, hid, hs⟩ := Option.bind_eq_some_iff.mp hs
      obtain rfl := Option.some.inj (hid.symm.trans hp)
      rw [SymbolTable.class?, hs]
      obtain ⟨_, _, v | f | k | ⟨_, _⟩⟩ := s <;> first | rfl | cases hkind
    · obtain ⟨_, b₁, herror, h⟩ := ends_bind.mp h
      obtain ⟨rfl, rfl⟩ := ends_pure.mp h
      obtain rfl := ends_modify.mp herror
      exact ⟨rfl, nofun⟩

theorem founded_declareClass {line : Nat} {name : String} {parent? : Option String} {b b' : Build}
    {r : SymbolId × Bool} (hb : b.table.Founded)
    (hend : Ends (declareClass line name parent?) b r b') :
    b'.table.Founded := by
  obtain ⟨p?, b₁, hparent, hend⟩ := ends_bind.mp hend
  obtain ⟨scope, b₂, hscope, hend⟩ := ends_bind.mp hend
  obtain ⟨-, rfl⟩ := Build.ends_read.mp hscope
  obtain ⟨htable, hp⟩ := parentOf_class hparent
  refine founded_declare line (htable ▸ hb) (fun k p hk hkp => ?_) hend
  cases hk
  rw [htable]
  exact hp p hkp

theorem founded_steps : Named.Steps (fun _ => True) Founded where
  declare line s hclass _ _ _ _ _ hb hend :=
    founded_declare line hb (fun k _ hk => by rw [hclass] at hk; cases hk) hend
  declareClass _ _ _ _ _ _ _ hb hend := founded_declareClass hb hend
  modifyFunction id f _ := .modify fun _ _ hb => hb.modifySymbol fun s _ => by
    rcases s with ⟨name, scope, v | g | k | ⟨k, t⟩⟩ <;> rfl
  modifyClass id f hf := .modify fun _ _ hb => hb.modifySymbol fun s _ => by
    rcases s with ⟨name, scope, v | g | k | ⟨k, t⟩⟩
    · rfl
    · rfl
    · exact congrArg some (hf k).1
    · rfl
  assignName line x e _ _ _ _ _ hb hend := by
    have hstable : ExprStable (fun _ => True) fun b b' : Build => b.table.Founded →
      b'.table.Founded :=
      Quiet.exprStable.mono (fun _ h => h) (fun _ _ _ h h' hb => h' (h hb)) fun _ _ h hb =>
        h.table ▸ hb
    refine hstable.toCodeStable.assignName_of_retype (fun _ _ h => h)
      (fun hs hbody _ hb => hb.modifySymbol fun s' hs' => ?_) line x
      (hstable.expr e (Expr.all_of_forall (fun _ => trivial) e)) hend hb
    obtain rfl := Option.some.inj (hs.symm.trans hs')
    rw [Symbol.asClass?, Symbol.asClass?, hbody]
  symbols heq h := h.of_parents fun i => by rw [SymbolTable.class?, SymbolTable.symbol?, heq]; rfl

/-- What an analysis comes to: it is made of steps that every walk over statements takes, and of
scopes that are opened and closed between them. -/
inductive Analysed : Build → Prop where
  | start : Analysed {}
  | step {α : Type} {m : BuildM α} {b b' : Build} {a : α} (h : Analysed b)
      (hm : ∀ {ι : Type} {I : ι → List Operand → Build → Prop},
        StmtWalk (fun _ => True) (fun _ => True) I →
        Carries I [] m) (hend : Ends m b a b') : Analysed b'
  | enter {b : Build} (kind : String) (h : Analysed b) :
      Analysed { b with table := b.table.enter kind }
  | exit {b : Build} (h : Analysed b) : Analysed { b with table := b.table.exit.2 }

theorem Analysed.founded {b : Build} (h : Analysed b) : b.table.Founded := by
  induction h with
  | start => exact nofun
  | step _ hm hend ih => exact hm founded_steps.stmtWalk (i := ()) ih hend
  | enter _ _ ih => exact ih
  | exit _ ih => exact founded_steps.symbols (SymbolTable.symbols_exit _) ih

/-- Parents are declared before their classes, whatever has been read, so the way up from a class
ends. What a search for a member of a class gives is the member of the nearest class that has one,
and nothing where none has one. -/
theorem member_search_founded {b : Build} (h : Analysed b) : b.table.Founded ∧ ∀ cls m,
    (∀ id, b.table.member? cls m = some id ↔ ∃ c d k, b.table.lookup? cls = some c ∧
      b.table.Nearest (·.HasMember m) c d ∧ b.table.class? d = some k ∧
        SymbolTable.ownMember? k m = some id) ∧
    (b.table.member? cls m = none ↔ ∀ c d k, b.table.lookup? cls = some c → b.table.Above c d →
      b.table.class? d = some k → ¬ k.HasMember m) := by
  refine ⟨h.founded, fun cls m => ⟨fun id => ?_, ?_⟩⟩
  · unfold SymbolTable.member?
    rw [Option.bind_eq_some_iff]
    constructor
    · rintro ⟨c, hc, hid⟩
      obtain ⟨d, k, hnearest, hk, hown⟩ := SymbolTable.memberOf?_nearest hid
      exact ⟨c, d, k, hc, hnearest, hk, hown⟩
    · rintro ⟨c, d, k, hc, hnearest, hk, hown⟩
      exact ⟨c, hc, (hnearest.memberOf?_eq hk).trans hown⟩
  · unfold SymbolTable.member?
    rw [Option.bind_eq_none_iff]
    simp only [h.founded.memberOf?_eq_none_iff]
    exact ⟨fun hall c d k hc => hall c hc d k, fun hall c hc d k => hall c d k hc⟩

/-- A class that takes the class of its own name in the scope around it for its parent. -/
theorem member_search_founded_namesake :
    ∃ b, Analysed b ∧ (b.table.class? 2).bind Class.parent? = some 0 ∧ b.table.Founded := by
  obtain ⟨b, hend, hparent⟩ : ∃ b, Ends (statements
      [.classDecl 1 "A" none [.field ⟨1, "v", some "integer", none⟩],
        .block 1 [.classDecl 1 "A" (some "A") []]]) {} () b ∧
        (b.table.class? 2).bind Class.parent? = some 0 := by
    decide +kernel
  have hb : Analysed b :=
    .step .start (fun hw => hw.statements _ [] (fun _ _ => trivial) fun _ _ => trivial) hend
  exact ⟨b, hb, hparent, (member_search_founded hb).1⟩

end Compile

end Scriptc
