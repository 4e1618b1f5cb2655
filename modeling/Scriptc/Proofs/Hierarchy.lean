import Scriptc.Proofs.Balance
import Scriptc.Proofs.Selection
import Scriptc.Token.Rule

/-!
# Scriptc: classes and their parents

A member of a class is looked for in the class and then in its parents, one after the other. There
are two such searches. Names are read by one that follows numbers of symbols
(`SymbolTable.memberOf?`). The translation of a call follows names: it asks all scopes for a class
of the name that stands in the label, and goes on with the name of the parent
(`Mips.Select.resolveFrom`).

`SymbolTable.Nearest P c d` says where such a search ends: `d` is the first class from `c` upwards
that has the property. The first search is one for a member (`memberOf?_nearest`), the second one
for a method, if every class on the way has a name of its own (`resolve_nearest`). The label of a
method with an underscore in its name is not taken apart where it was put together, so of such
methods nothing is said (`callTarget_method`).
-/

namespace Scriptc

/-! ## Looking for a class -/

/-- The class itself has a member of that name. -/
def Class.HasMember (k : Class) (m : String) : Prop := (SymbolTable.ownMember? k m).isSome = true

/-- The class itself has a method of that name. -/
def Class.HasMethod (k : Class) (m : String) : Prop := k.methods.contains m = true

theorem Class.HasMethod.hasMember {k : Class} {m : String} (h : k.HasMethod m) : k.HasMember m := by
  unfold Class.HasMethod Assoc.contains at h
  rw [Class.HasMember, SymbolTable.ownMember?, Option.isSome_or, h, Bool.or_true]

namespace SymbolTable

variable {t : SymbolTable} {m : String} {c d p id : SymbolId} {P : Class → Prop}

/-- From the class `c` upwards, `d` is the first with the property. Parents have smaller numbers. -/
inductive Nearest (t : SymbolTable) (P : Class → Prop) : SymbolId → SymbolId → Prop where
  | here {c : SymbolId} {k : Class} (hk : t.class? c = some k) (hp : P k) : Nearest t P c c
  | up {c p d : SymbolId} {k : Class} (hk : t.class? c = some k) (hp : ¬ P k)
      (hparent : k.parent? = some p)
      (hlt : p < c) (h : Nearest t P p d) : Nearest t P c d

/-- The class `d` is `c`, or a parent of it, or a parent of a parent. -/
inductive Above (t : SymbolTable) : SymbolId → SymbolId → Prop where
  | refl {c : SymbolId} : Above t c c
  | up {c p d : SymbolId} {k : Class} (hk : t.class? c = some k) (hparent : k.parent? = some p)
      (h : Above t p d) : Above t c d

theorem Nearest.class?_isSome (h : t.Nearest P c d) : (t.class? c).isSome = true := by
  cases h with
  | here hk _ => rw [hk]; rfl
  | up hk _ _ _ _ => rw [hk]; rfl

theorem Nearest.holds (h : t.Nearest P c d) : ∃ k, t.class? d = some k ∧ P k := by
  induction h with
  | here hk hp => exact ⟨_, hk, hp⟩
  | up _ _ _ _ _ ih => exact ih

theorem Nearest.above (h : t.Nearest P c d) : t.Above c d := by
  induction h with
  | here _ _ => exact .refl
  | up hk _ hparent _ _ ih => exact .up hk hparent ih

/-- The search by numbers ends at the nearest class with a member of that name. -/
theorem memberOf?_nearest (h : t.memberOf? m c = some id) :
    ∃ d k, t.Nearest (·.HasMember m) c d ∧ t.class? d = some k ∧ ownMember? k m = some id := by
  induction c using Nat.strongRecOn with
  | ind c ih =>
    unfold memberOf? at h
    split at h
    · cases h
    · rename_i k hk
      split at h
      · -- The class has the member itself.
        rename_i own hown
        refine ⟨c, k, .here hk ?_, hk, hown.trans h⟩
        rw [Class.HasMember, hown]
        rfl
      · rename_i hnone
        have hno : ¬ k.HasMember m := by simp [Class.HasMember, hnone]
        split at h
        · cases h
        · rename_i p hparent
          split at h
          · rename_i hlt
            obtain ⟨d, k', hd, hk', hown⟩ := ih p hlt h
            exact ⟨d, k', .up hk hno hparent hlt hd, hk', hown⟩
          · cases h

/-- Where a member was found that is a method, there is the nearest class with such a method. -/
theorem Nearest.of_hasMember (h : t.Nearest (·.HasMember m) c d) {k : Class}
    (hd : t.class? d = some k) (hmethod : k.HasMethod m) : t.Nearest (·.HasMethod m) c d := by
  induction h with
  | here _ _ => exact .here hd hmethod
  | up hk hno hparent hlt _ ih =>
    exact .up hk (fun hmethod => hno hmethod.hasMember) hparent hlt (ih hd)

end SymbolTable

/-! ## The search by names -/

/-- A name as the lexer takes it. -/
def IsName (x : String) : Prop := ∀ ch ∈ x.toList, LexRule.isNamePart ch = true

instance (x : String) : Decidable (IsName x) :=
  decidable_of_iff (x.toList.all LexRule.isNamePart = true) List.all_eq_true

/-- What is done to the characters of a label leaves names as they are. -/
theorem IsName.cleaned {x : String} (h : IsName x) :
    (x.toList.map fun ch => if ch = ' ' then '_' else ch).filter
    (fun ch => ch ≠ '(' && ch ≠ ')') = x.toList := by
  have hplain : ∀ ch ∈ x.toList, ch ≠ ' ' ∧ ch ≠ '(' ∧ ch ≠ ')' := by
    intro ch hch
    have hpart := h ch hch
    refine ⟨?_, ?_, ?_⟩ <;> rintro rfl <;> exact absurd hpart (by decide)
  have hmap : (x.toList.map fun ch => if ch = ' ' then '_' else ch) = x.toList :=
    (List.map_congr_left fun ch hch => if_neg (hplain ch hch).1).trans (List.map_id' _)
  rw [hmap, List.filter_eq_self]
  intro ch hch
  simp [hplain ch hch]

namespace SymbolTable

variable {t : SymbolTable} {m : String} {c d : SymbolId} {s : Symbol}

/-- Scopes are numbered, their entries are under the names of their symbols, and each class is
entered somewhere. -/
structure Entered (t : SymbolTable) : Prop where
  numbered : t.Numbered
  named : ∀ sc ∈ t.scopes, ∀ x id, sc.entries.get? x = some id → ∃ s,
    t.symbol? id = some s ∧ s.name = x
  classes : ∀ id s k, t.symbol? id = some s → s.asClass? = some k →
    ∃ sc ∈ t.scopes, sc.entries.get? s.name = some id

/-- The class has a name that no other class has. -/
structure OwnName (t : SymbolTable) (c : SymbolId) : Prop where
  isName : ∀ s, t.symbol? c = some s → IsName s.name
  alone : ∀ s id s' k, t.symbol? c = some s → t.symbol? id = some s' → s'.asClass? = some k →
    s'.name = s.name → id = c

/-- In a table where no name is declared twice, every class has a name of its own. -/
theorem OwnName.of_nodup (hnodup : (t.symbols.toList.map Symbol.name).Nodup)
    (hnames : ∀ s ∈ t.symbols, IsName s.name) (c : SymbolId) : t.OwnName c where
  isName s hs := hnames s (Array.mem_of_getElem? hs)
  alone s id s' k hs hs' _ hname := by
    have hat : ∀ {i : Nat} {r : Symbol}, t.symbol? i = some r →
        (t.symbols.toList.map Symbol.name)[i]? = some r.name := by
      intro i r hr
      rw [List.getElem?_map, Array.getElem?_toList]
      exact congrArg (Option.map Symbol.name) hr
    have hlt := (List.getElem?_eq_some_iff.mp (hat hs')).1
    apply (List.getElem?_inj hlt hnodup).mp
    rw [hat hs', hat hs, hname]

theorem class?_eq_some_iff {k : Class} :
    t.class? c = some k ↔ ∃ s, t.symbol? c = some s ∧ s.asClass? = some k := by
  simp [class?, Option.bind_eq_some_iff]

end SymbolTable

namespace Mips.Select

open SymbolTable (Entered OwnName)

variable {t : SymbolTable} {m : String} {c d : SymbolId} {s : Symbol} {k : Class}

/-- The classes of a name, one for each scope that has one. -/
def classesNamed (t : SymbolTable) (cls : String) : List Class :=
  t.scopes.toList.filterMap fun sc => ((sc.entries.get? cls).bind t.symbol?).bind Symbol.asClass?

/-- A class with a name of its own is all that is found under that name. -/
theorem find?_classesNamed (ht : t.Entered) (hown : t.OwnName c) (hs : t.symbol? c = some s)
    (hk : s.asClass? = some k) (test : Class → Bool) (htest : test k = true) :
    (classesNamed t s.name).find? test = some k := by
  have hall : ∀ k' ∈ classesNamed t s.name, k' = k := by
    intro k' hk'
    obtain ⟨sc, hsc, hfound⟩ := List.mem_filterMap.mp hk'
    obtain ⟨s', hs', hclass⟩ := Option.bind_eq_some_iff.mp hfound
    obtain ⟨id, hid, hsymbol⟩ := Option.bind_eq_some_iff.mp hs'
    -- The entry is under the name of its symbol, so it is the class itself.
    obtain ⟨s'', hs'', hname⟩ := ht.named sc (Array.mem_toList_iff.mp hsc) _ _ hid
    obtain rfl := Option.some.inj (hs''.symm.trans hsymbol)
    obtain rfl := hown.alone s id s'' k' hs hsymbol hclass hname
    grind
  have hmem : k ∈ classesNamed t s.name := by
    obtain ⟨sc, hsc, hid⟩ := ht.classes c s k hs hk
    apply List.mem_filterMap.mpr
    grind
  cases hlist : classesNamed t s.name with
  | nil =>
    rw [hlist] at hmem
    cases hmem
  | cons k' rest =>
    obtain rfl := hall k' (hlist ▸ (.head _) ..)
    exact List.find?_cons_of_pos htest

/-- The search by names ends at the nearest class with a method of that name: from class to class
the numbers get smaller, so it needs no more steps than there are classes in front. -/
theorem resolveFrom_nearest (ht : t.Entered) (h : t.Nearest (·.HasMethod m) c d)
    (hown : ∀ i, t.Above c i → t.OwnName i) {fuel : Nat} (hfuel : c < fuel) {sd : Symbol}
    (hs : t.symbol? c = some s) (hsd : t.symbol? d = some sd) :
    resolveFrom t m fuel s.name = .ok (some ("FUNC_" ++ m ++ "_" ++ sd.name)) := by
  induction h generalizing fuel s with
  | @here c k hk hmethod =>
    obtain ⟨s', hs', hclass⟩ := SymbolTable.class?_eq_some_iff.mp hk
    obtain rfl := Option.some.inj (hs'.symm.trans hs)
    obtain rfl := Option.some.inj (hs'.symm.trans hsd)
    cases fuel with
    | zero => exact absurd hfuel (Nat.not_lt_zero c)
    | succ fuel =>
      have hcontains : k.methods.contains m = true := hmethod
      have hfound := find?_classesNamed ht (hown c .refl) hs hclass
        (fun k => k.methods.contains m || k.parent?.isSome) (by simp [hcontains])
      rw [classesNamed] at hfound
      simp only [resolveFrom, hfound, hcontains, if_true]
      rfl
  | @up c p d k hk hno hparent hlt hrest ih =>
    obtain ⟨s', hs', hclass⟩ := SymbolTable.class?_eq_some_iff.mp hk
    obtain rfl := Option.some.inj (hs'.symm.trans hs)
    cases fuel with
    | zero => exact absurd hfuel (Nat.not_lt_zero c)
    | succ fuel =>
      -- The class has no such method, so the search goes on with the name of the parent.
      have hcontains : k.methods.contains m = false := by simpa [Class.HasMethod] using hno
      have hfound := find?_classesNamed ht (hown c .refl) hs hclass
        (fun k => k.methods.contains m || k.parent?.isSome) (by simp [hparent])
      obtain ⟨kp, hkp⟩ := Option.isSome_iff_exists.mp hrest.class?_isSome
      obtain ⟨sp, hsp, -⟩ := SymbolTable.class?_eq_some_iff.mp hkp
      rw [classesNamed] at hfound
      simp only [resolveFrom, hfound, hcontains, hparent, Option.bind_some, hsp]
      exact ih (fun i hi => hown i (.up hk hparent hi))
        (Nat.lt_of_lt_of_le hlt (Nat.le_of_lt_succ hfuel)) hsp hsd

/-! ## Labels of methods -/

/-- The label of a method as the assembler takes it. -/
theorem methodLabel_toLabel {cls : String} (hcls : IsName cls) (hm : IsName m) :
    (Emit.methodLabel cls m).toLabel = "FUNC_" ++ m ++ "_" ++ cls := by
  have htext : (Emit.methodLabel cls m).text? = some ("FUNC_" ++ m ++ " (" ++ cls ++ ")") := rfl
  rw [Operand.toLabel, htext]
  apply String.toList_injective
  simp only [String.toList_ofList, String.toList_append, List.map_append,
    List.filter_append, hm.cleaned,
    hcls.cleaned]
  simp

/-- A label is taken apart at its underscores. -/
theorem callTarget_method {input : Input} {st : Select} {cls label : String} (hcls : IsName cls)
    (hm : IsName m) (hplain : '_' ∉ m.toList) (h : resolve input.table m cls = .ok (some label)) :
    Ends input (callTarget (Emit.methodLabel cls m).toLabel) st label st := by
  have hsplit : (Emit.methodLabel cls m).toLabel.toList.splitOn '_' =
      "FUNC".toList :: m.toList :: cls.toList.splitOn '_' := by
    have hlist : (Emit.methodLabel cls m).toLabel.toList =
        "FUNC".toList ++ '_' :: (m.toList ++ '_' :: cls.toList) := by
      rw [methodLabel_toLabel hcls hm]
      simp
    have hrest : (m.toList ++ '_' :: cls.toList).splitOn '_' =
      m.toList :: cls.toList.splitOn '_' := by
      apply List.splitOnP_append_cons_of_forall_mem
      · grind
      · rfl
    rw [hlist, ← hrest]
    apply List.splitOnP_append_cons_of_forall_mem
    · simp
    · rfl
  obtain ⟨part, parts, hparts⟩ := List.exists_cons_of_ne_nil (List.splitOn_ne_nil '_' cls.toList)
  have hjoin : String.ofList (['_'].intercalate (part :: parts)) = cls := by
    rw [← hparts, List.intercalate_splitOn, String.ofList_toList]
  unfold callTarget
  rw [hsplit, hparts]
  simp [hjoin, h]

/-- A call of a method goes to the nearest class that has a method of that name. -/
theorem quad_nearest {input : Input} {st : Select} {q : Quad} {sd : Symbol}
    (ht : input.table.Entered) (h : input.table.Nearest (·.HasMethod m) c d)
    (hown : ∀ i, input.table.Above c i → input.table.OwnName i)
    (hs : input.table.symbol? c = some s) (hsd : input.table.symbol? d = some sd) (hm : IsName m)
    (hplain : '_' ∉ m.toList) (hop : q.op = .call) (hq : q.result = Emit.methodLabel s.name m)
    (hst : st.skipping = false) :
    Ends input (quad q) st [.remark ("Call function: " ++ q.result.render),
      .code (.jal (Emit.methodLabel sd.name m).toLabel)] st := by
  have hresolve : resolve input.table m s.name =
    .ok (some (Emit.methodLabel sd.name m).toLabel) := by
    rw [methodLabel_toLabel ((hown d h.above).isName sd hsd) hm]
    refine resolveFrom_nearest ht h hown ?_ hs hsd
    exact Nat.lt_succ_of_lt (Array.getElem?_eq_some_iff.mp hs).1
  have hcall : Ends input (call q) st [.remark ("Call function: " ++ q.result.render),
      .code (.jal (Emit.methodLabel sd.name m).toLabel)] st := by
    unfold call
    rw [ends_bind]
    refine ⟨_, st, ?_, ends_pure.mpr ⟨rfl, rfl⟩⟩
    rw [hq]
    exact callTarget_method ((hown c .refl).isName s hs) hm hplain hresolve
  unfold quad function
  rw [ends_get_bind, hst, if_neg Bool.false_ne_true, hop]
  exact hcall

end Mips.Select

end Scriptc
