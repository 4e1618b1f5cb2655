import Mathlib.Data.List.Chain
import Scriptc.Proofs.Balance

/-!
# Scriptc: scopes

A table of names is worked with in four ways: a scope is opened, the innermost one is left, a symbol
is declared, a name is looked up (`SymbolTable.Action`). `SymbolTable.Sound` is what holds of every
table that such actions lead to (`scopes_sound`):

* scopes are numbered as they are opened, and each but the first lies in an older one;
* the open scopes lie in one another, and the first one, which lies in none, is always open;
* a scope has at most one symbol of a name, and the symbol knows its scope.

A name is looked up by walking along the open scopes. `SymbolTable.Resolves` goes from a scope to
the one that it lies in instead, and both find the same.
-/

namespace Scriptc

namespace Assoc

variable {κ ν : Type} [DecidableEq κ] {t : Assoc κ ν} {x : κ}

theorem contains_iff_mem_keys : t.contains x = true ↔ x ∈ t.keys := by
  induction t with
  | nil => simp [contains, get?, keys]
  | cons e t ih =>
    by_cases h : e.1 = x
    · simp [contains, get?, keys, h]
    · have hmem : x ∈ keys (e :: t) ↔ x ∈ keys t := by simp [keys, Ne.symm h]
      rw [hmem, ← ih]
      simp [contains, get?, h]

end Assoc

namespace SymbolTable

/-! ## Actions -/

/-- What is done with a table. -/
inductive Action where
  | enter (kind : String)
  | exit
  | add (s : Symbol)
  | lookup (name : String) (currentOnly : Bool)

namespace Action

/-- The kind of the scope that an action opens. -/
def opened? : Action → Option String
  | enter kind => some kind
  | _ => none

/-- The table behind an action. -/
def perform (t : SymbolTable) : Action → SymbolTable
  | enter kind => t.enter kind
  | exit => t.exit.2
  | add s =>
    match t.add s with
    | .ok (_, t') => t'
    | .error _ => t
  | lookup _ _ => t

end Action

/-! ## Declarations -/

/-- `t'` is `t` with the symbol `s` declared under the number `id`. -/
@[grind cases] structure Adds (t : SymbolTable) (s : Symbol) (id : SymbolId) (t' : SymbolTable) :
    Prop where
  fresh : t.symbol? id = none
  stored : t'.symbol? id = some { s with scope := t.currentId }
  others : ∀ i, i ≠ id → t'.symbol? i = t.symbol? i
  openScopes : t'.stack = t.stack
  next : t'.nextId = t.nextId ∧ t'.scopes.size = t.scopes.size
  innermost : ∀ c, t.scopes[t.currentId]? = some c →
    t'.scopes[t.currentId]? = some { c with entries := c.entries ++ [(s.name, id)] }
  elsewhere : ∀ i, i ≠ t.currentId → t'.scopes[i]? = t.scopes[i]?

variable {t t' : SymbolTable} {s : Symbol} {id : SymbolId} {name : String}

theorem isSome_lookupCurrent? :
    (t.lookupCurrent? name).isSome = t.current.entries.contains name := by
  unfold lookupCurrent? findIn? current
  rw [Array.getD_eq_getD_getElem?]
  cases t.scopes[t.currentId]? <;> rfl

/-- A name that is taken is refused, and any other is put behind the names there are. -/
theorem add_eq (t : SymbolTable) (s : Symbol) :
    t.add s = if t.current.entries.contains s.name then .error (.duplicate s.name)
      else .ok (t.symbols.size, { t with
        symbols := (t.symbols.push s).modify t.symbols.size ({ · with scope := t.currentId })
        scopes := t.scopes.modify t.currentId fun c =>
          { c with entries := c.entries.put s.name t.symbols.size } }) := by
  have hlast : (t.keep s).2.symbol? (t.keep s).1 = some s := by
    unfold keep symbol?
    rw [Array.getElem?_push, if_pos rfl]
  unfold add declare
  dsimp only
  rw [hlast]
  show (if t.current.entries.contains s.name = true then _ else _) >>= _ = _
  split <;> rfl

theorem add_eq_error_iff {f : Fault} :
    t.add s = .error f ↔ t.current.entries.contains s.name = true ∧ f = .duplicate s.name := by
  rw [add_eq]
  split
  · rename_i htaken
    simp [htaken, eq_comm]
  · rename_i hnew
    simp [hnew]

theorem adds_of_add (h : t.add s = .ok (id, t')) : t.Adds s id t' := by
  rw [add_eq] at h
  split at h
  · cases h
  · rename_i hnew
    rw [Bool.not_eq_true] at hnew
    obtain ⟨rfl, rfl⟩ := Prod.mk.inj (Except.ok.inj h)
    refine ⟨?_, ?_, fun i hi => ?_, rfl, ⟨rfl, Array.size_modify⟩, fun c hc => ?_, fun i hi => ?_⟩
    · exact Array.getElem?_eq_none (Nat.le_refl _)
    · unfold symbol?
      grind
    · unfold symbol?
      rw [Array.getElem?_modify, if_neg hi.symm, Array.getElem?_push, if_neg hi]
    · have hcurrent : t.current = c := by
        unfold current
        rw [Array.getD_eq_getD_getElem?, hc]
        rfl
      rw [hcurrent] at hnew
      rw [Array.getElem?_modify, if_pos rfl, hc, Option.map_some, Assoc.put_of_not_contains _ hnew]
    · rw [Array.getElem?_modify, if_neg hi.symm]

/-! ## What holds of every table -/

/-- The scope `i` lies in the scope `j`. -/
def LiesIn (t : SymbolTable) (i j : Nat) : Prop := ∃ c, t.scopes[i]? = some c ∧ c.parent? = some j

@[grind cases] structure Sound (t : SymbolTable) : Prop where
  numbered : ∀ (i : Nat) c, t.scopes[i]? = some c → c.id = i
  global : ∃ c, t.scopes[0]? = some c ∧ c.kind = "global" ∧ c.parent? = none
  next : t.nextId = t.scopes.size
  nested : t.openIds.IsChain t.LiesIn
  bottom : t.openIds.getLast? = some 0
  older : ∀ (i : Nat) c, t.scopes[i]? = some c → i ≠ 0 → ∃ p, c.parent? = some p ∧ p < i
  distinct : ∀ (i : Nat) c, t.scopes[i]? = some c → c.entries.keys.Nodup
  owned : ∀ (i : Nat) c, t.scopes[i]? = some c → ∀ e ∈ c.entries,
    ∃ s, t.symbol? e.2 = some s ∧ s.name = e.1 ∧ s.scope = i

namespace Sound

theorem start : Sound {} := by
  have honly : ∀ (i : Nat) c, ({} : SymbolTable).scopes[i]? = some c →
    i = 0 ∧ c = ⟨0, "global", none, []⟩ := by
    grind
  refine ⟨fun i c hc => ?_, ⟨_, rfl, rfl, rfl⟩, rfl, .singleton 0, rfl,
    fun i c hc hi => ?_, fun i c hc => ?_,
    fun i c hc e he => ?_⟩
  · obtain ⟨rfl, rfl⟩ := honly i c hc
    rfl
  · exact absurd (honly i c hc).1 hi
  · obtain ⟨rfl, rfl⟩ := honly i c hc
    exact .nil
  · obtain ⟨rfl, rfl⟩ := honly i c hc
    cases he

section
variable (h : t.Sound)
include h

/-- The first scope is the last of the open ones. -/
theorem openIds_eq : t.openIds = t.openIds.dropLast ++ [0] :=
  (List.dropLast_append_getLast? 0 h.bottom).symm

/-- Every open scope but the first lies in the next one. -/
theorem exists_of_mem_dropLast {i : Nat} (hi : i ∈ t.openIds.dropLast) : ∃ j, t.LiesIn i j := by
  obtain ⟨before, after, heq⟩ := List.append_of_mem hi
  have hchain : (before ++ i :: (after ++ [0])).IsChain t.LiesIn := by
    have hnested := h.nested
    rwa [h.openIds_eq, heq, List.append_assoc, List.cons_append] at hnested
  have htail := (List.isChain_append.mp hchain).2.1
  cases after with
  | nil => exact ⟨0, (List.isChain_cons_cons.mp htail).1⟩
  | cons j after => exact ⟨j, (List.isChain_cons_cons.mp htail).1⟩

/-- Every open scope is one of the table. -/
theorem exists_of_mem_openIds {i : Nat} (hi : i ∈ t.openIds) : ∃ c, t.scopes[i]? = some c := by
  rw [h.openIds_eq] at hi
  rcases List.mem_append.mp hi with hi | hi
  · obtain ⟨_, c, hc, -⟩ := h.exists_of_mem_dropLast hi
    exact ⟨c, hc⟩
  · obtain ⟨c, hc, -⟩ := h.global
    exact ⟨c, List.mem_singleton.mp hi ▸ hc⟩

theorem exists_current : ∃ c, t.scopes[t.currentId]? = some c := h.exists_of_mem_openIds (.head _)

theorem zero_not_mem_dropLast : 0 ∉ t.openIds.dropLast := by
  intro hi
  obtain ⟨j, c, hc, hparent⟩ := h.exists_of_mem_dropLast hi
  obtain ⟨c₀, hc₀, -, hnone⟩ := h.global
  grind

theorem enter (kind : String) : (t.enter kind).Sound := by
  have hpush : ∀ (i : Nat) c, (t.enter kind).scopes[i]? = some c →
      t.scopes[i]? = some c ∨ i = t.scopes.size ∧ c = ⟨i, kind, some t.currentId, []⟩ := by
    intro i c hc
    unfold SymbolTable.enter at hc
    rw [h.next, Array.getElem?_push] at hc
    split at hc
    · grind
    · exact .inl hc
  have hold : ∀ (i : Nat) c, t.scopes[i]? = some c → (t.enter kind).scopes[i]? = some c := by
    intro i c hc
    have hlt : i < t.scopes.size := (Array.getElem?_eq_some_iff.mp hc).1
    unfold SymbolTable.enter
    grind
  have hcurrent : t.currentId < t.scopes.size := by
    obtain ⟨c, hc⟩ := h.exists_current
    exact (Array.getElem?_eq_some_iff.mp hc).1
  refine ⟨fun i c hc => ?_, ?_, ?_, ?_, ?_, fun i c hc hi => ?_, fun i c hc => ?_,
    fun i c hc e he => ?_⟩
  · grind
  · grind
  · exact (congrArg (· + 1) h.next).trans (Array.size_push _).symm
  · -- The new scope lies in the one that was innermost.
    have hnested : t.openIds.IsChain (t.enter kind).LiesIn := by
      refine h.nested.imp ?_
      rintro i j ⟨c, hc, hparent⟩
      exact ⟨c, hold i c hc, hparent⟩
    refine List.isChain_cons_cons.mpr ⟨⟨⟨t.nextId, kind, some t.currentId, []⟩, ?_, rfl⟩, hnested⟩
    show (t.scopes.push _)[t.nextId]? = _
    rw [Array.getElem?_push, if_pos h.next]
  · exact h.bottom
  · grind
  · rcases hpush i c hc with hc | ⟨-, rfl⟩
    · exact h.distinct i c hc
    · exact .nil
  · rcases hpush i c hc with hc | ⟨-, rfl⟩
    · exact h.owned i c hc e he
    · cases he

theorem exit : t.exit.2.Sound := by
  unfold SymbolTable.exit
  split
  · exact h
  · rename_i i rest heq
    have hnested := h.nested
    have hbottom := h.bottom
    rw [openIds, heq] at hnested hbottom
    exact ⟨h.numbered, h.global, h.next, hnested.tail, hbottom, h.older, h.distinct, h.owned⟩

theorem adds (hadds : t.Adds s id t') (hnew : t.current.entries.contains s.name = false) :
    t'.Sound := by
  -- One scope has one entry more, and all others are as they were.
  have hscope : ∀ (i : Nat) c', t'.scopes[i]? = some c' → ∃ c, t.scopes[i]? = some c ∧
      (c' = c ∨ i = t.currentId ∧ c' = { c with entries := c.entries ++ [(s.name, id)] }) := by
    intro i c' hc'
    by_cases hi : i = t.currentId
    · obtain ⟨c, hc⟩ := h.exists_current
      grind
    · grind
  have hlies : ∀ i j, t.LiesIn i j → t'.LiesIn i j := by
    rintro i j ⟨c, hc, hparent⟩
    by_cases hi : i = t.currentId
    · subst hi
      exact ⟨_, hadds.innermost c hc, hparent⟩
    · exact ⟨c, by rw [hadds.elsewhere i hi]; exact hc, hparent⟩
  have hcurrent : ∀ c, t.scopes[t.currentId]? = some c → c.entries.contains s.name = false := by
    intro c hc
    unfold current at hnew
    rwa [Array.getD_eq_getD_getElem?, hc] at hnew
  have hkept : ∀ i s', t.symbol? i = some s' → t'.symbol? i = some s' := by
    grind
  have hopen : t'.openIds = t.openIds := by
    rw [openIds, currentId, hadds.openScopes, openIds, currentId]
  refine ⟨fun i c' hc' => ?_, ?_, ?_, hopen ▸ h.nested.imp hlies, hopen ▸ h.bottom,
    fun i c' hc' hi => ?_,
    fun i c' hc' => ?_, fun i c' hc' e he => ?_⟩
  · obtain ⟨c, hc, rfl | ⟨-, rfl⟩⟩ := hscope i c' hc'
    · exact h.numbered i c' hc
    · exact h.numbered i c hc
  · grind
  · rw [hadds.next.1, hadds.next.2, h.next]
  · obtain ⟨c, hc, rfl | ⟨-, rfl⟩⟩ := hscope i c' hc'
    · exact h.older i c' hc hi
    · exact h.older i c hc hi
  -- The name was not taken, so no name stands twice.
  · obtain ⟨c, hc, rfl | ⟨rfl, rfl⟩⟩ := hscope i c' hc'
    · exact h.distinct i c' hc
    · have hfree : s.name ∉ c.entries.keys := by
        rw [← Assoc.contains_iff_mem_keys, hcurrent c hc]
        exact Bool.false_ne_true
      unfold Assoc.keys at hfree ⊢
      rw [List.map_append, List.nodup_append]
      refine ⟨h.distinct _ c hc, List.nodup_singleton _, fun x hx y hy => ?_⟩
      grind
  · obtain ⟨c, hc, rfl | ⟨rfl, rfl⟩⟩ := hscope i c' hc'
    · obtain ⟨s', hs', hname⟩ := h.owned i c' hc e he
      exact ⟨s', hkept _ s' hs', hname⟩
    · rcases List.mem_append.mp he with he | he
      · obtain ⟨s', hs', hname⟩ := h.owned _ c hc e he
        exact ⟨s', hkept _ s' hs', hname⟩
      · grind

theorem perform (a : Action) : (a.perform t).Sound := by
  cases a with
  | enter kind => exact h.enter kind
  | exit => exact h.exit
  | lookup name currentOnly => exact h
  | add s =>
    unfold Action.perform
    dsimp only
    split
    · rename_i id t' hadd
      refine h.adds (adds_of_add hadd) ?_
      rw [← Bool.not_eq_true]
      intro htaken
      rw [add_eq_error_iff.mpr ⟨htaken, rfl⟩] at hadd
      cases hadd
    · exact h

end

/-- Every table that actions lead to is sound. -/
theorem run (actions : List Action) (h : t.Sound) : (actions.foldl Action.perform t).Sound := by
  induction actions generalizing t with
  | nil => exact h
  | cons a actions ih => exact ih (h.perform a)

end Sound

/-- Scopes are never forgotten: they are those that were opened, in their order. -/
theorem kinds_perform (t : SymbolTable) (a : Action) :
    (a.perform t).scopes.toList.map Scope.kind = t.scopes.toList.map Scope.kind ++
    a.opened?.toList := by
  cases a with
  | enter kind => simp [Action.perform, Action.opened?, enter]
  | exit =>
    have hexit : t.exit.2.scopes = t.scopes := by
      unfold exit
      split <;> rfl
    simp [Action.perform, Action.opened?, hexit]
  | lookup name currentOnly => simp [Action.perform, Action.opened?]
  | add s =>
    simp only [Action.perform, Action.opened?, add_eq, Option.toList_none, List.append_nil]
    by_cases htaken : t.current.entries.contains s.name = true
    · rw [if_pos htaken]
    · rw [if_neg htaken]
      apply List.ext_getElem?
      grind

theorem kinds_run (actions : List Action) (t : SymbolTable) :
    (actions.foldl Action.perform t).scopes.toList.map Scope.kind =
      t.scopes.toList.map Scope.kind ++ actions.filterMap Action.opened? := by
  induction actions generalizing t with
  | nil => simp
  | cons a actions ih =>
    rw [List.foldl_cons, ih, kinds_perform, List.append_assoc]
    cases h : a.opened? <;> simp [h]

/-! ## Looking up -/

/-- What a name stands for in a scope: its symbol there, or else what it stands for in the scope
around. -/
inductive Resolves (t : SymbolTable) (name : String) : Nat → Option SymbolId → Prop where
  | here {i : Nat} {c : Scope} {id : SymbolId} (hc : t.scopes[i]? = some c)
      (hget : c.entries.get? name = some id) :
    Resolves t name i (some id)
  | around {i p : Nat} {c : Scope} {id? : Option SymbolId} (hc : t.scopes[i]? = some c)
    (hget : c.entries.get? name = none) (hparent : c.parent? = some p)
    (hp : Resolves t name p id?) :
    Resolves t name i id?
  | nowhere {i : Nat} {c : Scope} (hc : t.scopes[i]? = some c) (hget : c.entries.get? name = none)
    (hparent : c.parent? = none) : Resolves t name i none

theorem Resolves.unique {i : Nat} {x? y? : Option SymbolId} (hx : t.Resolves name i x?)
    (hy : t.Resolves name i y?) : x? = y? := by
  induction hx with
  | here hc hget => cases hy <;> simp_all
  | around hc hget hparent hp ih =>
    cases hy with
    | here hc' hget' => simp_all
    | around hc' hget' hparent' hp' =>
      grind
    | nowhere hc' hget' hparent' => simp_all
  | nowhere hc hget hparent => cases hy <;> simp_all

/-- Scopes that lie in one another, down to the first one, are searched in the order in which they
do. -/
theorem Sound.resolves (h : t.Sound) (name : String) :
    t.Resolves name t.currentId (t.lookup? name) := by
  obtain ⟨c₀, hc₀, -, hroot⟩ := h.global
  have hsearch : ∀ (i : Nat) (rest : List Nat), (i :: rest).IsChain t.LiesIn →
    (i :: rest).getLast? = some 0 →
      t.Resolves name i ((i :: rest).findSome? (t.findIn? · name)) := by
    intro i rest
    induction rest generalizing i with
    | nil =>
      intro _ hlast
      obtain rfl : i = 0 := Option.some.inj hlast
      rw [List.findSome?_cons, findIn?, hc₀, Option.bind_some]
      cases hget : c₀.entries.get? name with
      | none => exact .nowhere hc₀ hget hroot
      | some id => exact .here hc₀ hget
    | cons j rest ih =>
      intro hchain hlast
      obtain ⟨⟨c, hc, hparent⟩, hrest⟩ := List.isChain_cons_cons.mp hchain
      rw [List.findSome?_cons, findIn?, hc, Option.bind_some]
      cases hget : c.entries.get? name with
      | none => exact .around hc hget hparent (ih j hrest hlast)
      | some id => exact .here hc hget
  exact hsearch _ _ h.nested h.bottom

/-- **Scopes are kept in order.** Whatever is done with a new table, it stays sound, the first scope
stays open below all others, and the scopes are those that were opened, in their order; the next one
will have the next number. A declaration fails exactly if the innermost scope has the name, and then
nothing changes; otherwise the symbol goes into that scope, and all else stays as it is. A name
stands for the symbol in the first scope that has it, from the innermost scope outwards. -/
theorem scopes_sound (actions : List Action) :
    ∃ t, t = actions.foldl Action.perform {} ∧ t.Sound ∧
      t.openIds.getLast? = some 0 ∧ 0 ∉ t.openIds.dropLast ∧ t.nextId = t.scopes.size ∧
      t.scopes.toList.map Scope.kind = "global" :: actions.filterMap Action.opened? ∧
      (∀ kind, (t.enter kind).currentId = t.scopes.size) ∧
      (∀ s, (∃ f, t.add s = .error f) ↔ (t.lookupCurrent? s.name).isSome = true) ∧
      (∀ s f, t.add s = .error f → f = .duplicate s.name ∧ (Action.add s).perform t = t) ∧
      (∀ s id t', t.add s = .ok (id, t') → t.Adds s id t' ∧ (Action.add s).perform t = t') ∧
      ∀ name id?, t.Resolves name t.currentId id? ↔ t.lookup? name = id? := by
  have hsound : (actions.foldl Action.perform {}).Sound := Sound.start.run actions
  refine ⟨_, rfl, hsound, hsound.bottom, hsound.zero_not_mem_dropLast, hsound.next,
    kinds_run actions {},
    fun _ => hsound.next, fun s => ?_, fun s f hadd => ?_, fun s id t' hadd =>
      ?_, fun name id? => ?_⟩
  · rw [isSome_lookupCurrent?]
    refine ⟨?_, fun htaken => ⟨_, add_eq_error_iff.mpr ⟨htaken, rfl⟩⟩⟩
    rintro ⟨f, hadd⟩
    exact (add_eq_error_iff.mp hadd).1
  · refine ⟨(add_eq_error_iff.mp hadd).2, ?_⟩
    rw [Action.perform, hadd]
  · refine ⟨adds_of_add hadd, ?_⟩
    rw [Action.perform, hadd]
  · exact ⟨fun hid => (hsound.resolves name).unique hid, fun hid => hid ▸ hsound.resolves name⟩

end SymbolTable

end Scriptc
