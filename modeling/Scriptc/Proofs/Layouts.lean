import Scriptc.Proofs.Registers
import Scriptc.Proofs.Sizes

/-!
# Scriptc: fields of objects

A layout is sound (`Layout.Sound`) if every field begins at a word and no two share a byte of the
words they take. Each field is put behind all that is there, so adding the fields of a class keeps
that, whatever the layout of its parent is (`Sound.extend`), and a field of the parent that is not
declared again stays where it was (`get?_extend`). From there it goes up the chain of parents:
`layout_laid`.
-/

namespace Scriptc

open Build (Ends ends_bind ends_get_bind ends_pure)

/-- The least multiple of four from a number on. -/
theorem Storage.align_eq (a : Int) : ∃ k, align a = 4 * k ∧ a ≤ 4 * k ∧ 4 * k < a + 4 := by
  unfold align
  split
  · exact ⟨a / 4, by omega⟩
  · exact ⟨a / 4 + 1, by omega⟩

/-- A type that takes room: no dimension is negative, and it is not called `void`. -/
def Ty.TakesRoom (t : Ty) : Prop := t.Fits ∧ t.name ≠ "void"

theorem Ty.TakesRoom.size_pos {t : Ty} (h : t.TakesRoom) : 0 < t.size := by
  have hwidth := h.1.width_nonneg
  unfold Ty.size
  rw [if_neg h.2]
  split
  · decide
  split
  · omega
  split <;> decide

/-- Where a field ends; it takes a word at least. -/
def Field.stop (f : Field) : Int := f.offset + max 4 (Layout.fieldSize f.type?)

namespace Layout

structure Sound (l : Layout) : Prop where
  nonneg : 0 ≤ l.size
  aligned : ∀ {x f}, l.fields.get? x = some f → 4 ∣ f.offset
  within : ∀ {x f}, l.fields.get? x = some f → 0 ≤ f.offset ∧ f.stop ≤ Storage.align l.size
  apart : ∀ {x y f g}, x ≠ y → l.fields.get? x = some f → l.fields.get? y = some g →
    f.stop ≤ g.offset ∨ g.stop ≤ f.offset

theorem sound_empty : Sound {} := ⟨Int.le_refl 0, nofun, nofun, nofun⟩

variable {l : Layout} {own : List (String × Option Ty)} {x : String} {type? : Option Ty}

theorem Sound.align (h : l.Sound) : Sound { l with size := Storage.align l.size } := by
  have hle := Storage.le_align l.size
  have hle' := Storage.le_align (Storage.align l.size)
  exact { h with
    nonneg := Int.le_trans h.nonneg hle
    within := fun hx => ⟨(h.within hx).1, Int.le_trans (h.within hx).2 hle'⟩ }

/-- A field goes behind all others. -/
theorem Sound.addField (h : l.Sound) (htype : ∀ t ∈ type?, t.TakesRoom) :
    (l.addField x type?).Sound := by
  have hroom : 0 < fieldSize type? := by
    cases type? with
    | none => decide
    | some t => exact (htype t rfl).size_pos
  obtain ⟨k, hk, hle, -⟩ := Storage.align_eq l.size
  obtain ⟨m, hm, hle', -⟩ := Storage.align_eq (Storage.align l.size + fieldSize type?)
  have hnonneg := h.nonneg
  -- The new field and any old one.
  have hnew : Field.stop ⟨Storage.align l.size, type?⟩ ≤ Storage.align
    (l.addField x type?).size := by
    show Storage.align l.size + max 4 (fieldSize type?) ≤ Storage.align
      (Storage.align l.size + fieldSize type?)
    omega
  have hold {y f} (hy : l.fields.get? y = some f) :
    f.stop ≤ Storage.align (l.addField x type?).size := by
    have := (h.within hy).2
    show f.stop ≤ Storage.align (Storage.align l.size + fieldSize type?)
    omega
  have hget (y : String) : (l.addField x type?).fields.get? y =
      if y = x then some ⟨Storage.align l.size, type?⟩ else l.fields.get? y :=
        Assoc.get?_put _ _ _ _
  refine ⟨by show 0 ≤ Storage.align l.size + fieldSize type?; omega, fun {y
    f} hy => ?_, fun {y f} hy => ?_,
    fun {y z f g} hne hy hz => ?_⟩
  · rw [hget] at hy
    split at hy
    · cases hy
      exact ⟨k, hk⟩
    · exact h.aligned hy
  · rw [hget] at hy
    split at hy
    · grind
    · exact ⟨(h.within hy).1, hold hy⟩
  · rw [hget] at hy hz
    split at hy <;> split at hz
    · exact absurd (‹y = x›.trans ‹z = x›.symm) hne
    · cases hy
      exact .inr (h.within hz).2
    · cases hz
      exact .inl (h.within hy).2
    · exact h.apart hne hy hz

theorem Sound.extend (h : l.Sound) (hown : ∀ f ∈ own, ∀ t ∈ f.2, t.TakesRoom) :
    (l.extend own).Sound :=
  List.foldlRecOn own _ h.align fun _ hl f hf => hl.addField (hown f hf)

theorem get?_extend (l : Layout) (hx : x ∉ own.map Prod.fst) :
    (l.extend own).fields.get? x = l.fields.get? x := by
  refine List.foldlRecOn (motive := fun l' : Layout => l'.fields.get? x = l.fields.get? x)
    own _ rfl fun l' hl f hf => ?_
  rw [← hl]
  exact Assoc.get?_put_of_ne _ _ fun heq => hx (heq ▸ List.mem_map_of_mem hf)

end Layout

namespace SymbolTable

/-- The fields that a class declares itself, with their types. -/
def fieldsOf (T : SymbolTable) (c : Class) : List (String × Option Ty) :=
  c.attributes.map fun (n, a) => (n, (T.symbol? a).bind Symbol.type?)

/-- A class with a name, and with fields that take room. -/
structure IsClass (T : SymbolTable) (id : SymbolId) (s : Symbol) (c : Class) : Prop where
  symbol : T.symbol? id = some s
  body : s.asClass? = some c
  named : s.name ≠ ""
  room : ∀ f ∈ T.fieldsOf c, ∀ t ∈ f.2, t.TakesRoom

/-- The classes from `id` up to one without a parent, by their names. A parent is there before its
children. -/
inductive Lineage (T : SymbolTable) : SymbolId → List String → Prop where
  | root {id s c} (h : T.IsClass id s c) (hparent : c.parent? = none) : Lineage T id [s.name]
  | child {id s c p names} (h : T.IsClass id s c) (hparent : c.parent? = some p) (hlt : p < id)
      (hp : Lineage T p names) : Lineage T id (s.name :: names)

/-- The layouts of a class and of all above it: each is kept under the name of its class and sound,
and the fields that a class does not declare itself are where the layout of its parent has them. -/
inductive Laid (T : SymbolTable) (L : Assoc String Layout) : SymbolId → Layout → Prop where
  | root {id s c l} (h : T.IsClass id s c) (hparent : c.parent? = none)
      (hl : L.get? s.name = some l)
      (hsound : l.Sound) : Laid T L id l
  | child {id s c p l l'} (h : T.IsClass id s c) (hparent : c.parent? = some p) (hp : Laid T L p l')
      (hl : L.get? s.name = some l) (hsound : l.Sound)
      (hkeeps : ∀ x ∉ c.attributes.keys, l.fields.get? x = l'.fields.get? x) : Laid T L id l

end SymbolTable

namespace Emit

open SymbolTable (IsClass Laid Lineage)

variable {b : Build} {id : SymbolId} {s : Symbol} {c : Class} {names : List String} {l : Layout}

theorem layout_known (h : b.table.IsClass id s c) (hl : b.layouts.get? s.name = some l) :
    Ends (layout id) b (some l) b := by
  rw [layout, ends_get_bind, h.symbol]
  dsimp only
  rw [if_neg h.named, ends_get_bind, hl]
  exact ends_pure.mpr ⟨rfl, rfl⟩

/-- A class without a layout gets one from that of its parent. -/
theorem layout_new (h : b.table.IsClass id s c) (hnone : b.layouts.get? s.name = none)
    {parent? : Option Layout}
    {L : Assoc String Layout} (hparent : c.parent? = none ∧ parent? = none ∧ L = b.layouts ∨
      ∃ p < id, c.parent? = some p ∧ Ends (layout p) b parent? { b with layouts := L }) :
    Ends (layout id) b (some ((parent?.getD {}).extend (b.table.fieldsOf c)))
      { b with layouts := L.put s.name ((parent?.getD {}).extend (b.table.fieldsOf c)) } := by
  rw [layout, ends_get_bind, h.symbol]
  dsimp only
  rw [if_neg h.named, ends_get_bind, hnone, h.body]
  rcases hparent with ⟨hparent, rfl, rfl⟩ | ⟨p, hlt, hparent, hends⟩
  · dsimp only
    rw [hparent]
    rfl
  · dsimp only
    rw [hparent]
    dsimp only
    rw [dif_pos hlt]
    exact ends_bind.mpr ⟨parent?, _, hends, rfl⟩

/-- The layouts of a chain are made in one go if none of its classes has one yet. -/
theorem layout_ends {T : SymbolTable} (h : T.Lineage id names) (hT : b.table = T)
    (hnames : names.Nodup) (hnone : ∀ x ∈ names, b.layouts.get? x = none) :
    ∃ l L, Ends (layout id) b (some l) { b with layouts := L } ∧
      ∀ L', (∀ x ∈ names, L'.get? x = L.get? x) → Laid T L' id l := by
  subst hT
  induction h with
  | root h hparent =>
    refine ⟨_, _, layout_new h (hnone _ (.head _)) (.inl ⟨hparent, rfl, rfl⟩), fun L' hL' => ?_⟩
    refine .root h hparent ?_ (Layout.sound_empty.extend h.room)
    rw [hL' _ (.head _), Assoc.get?_put_self]
  | @child id s c p names h hparent hlt hp ih =>
    obtain ⟨hnew, hnames⟩ := List.nodup_cons.mp hnames
    obtain ⟨hnone, hnone'⟩ := List.forall_mem_cons.mp hnone
    obtain ⟨l', L, hends, hlaid⟩ := ih hnames hnone'
    refine ⟨_, _, layout_new h hnone (.inr ⟨p, hlt, hparent, hends⟩), fun L' hL' => ?_⟩
    have hp : Laid b.table L' p l' := by
      grind
    refine .child h hparent hp ?_ (Layout.Sound.extend ?_ h.room) fun x hx =>
      Layout.get?_extend l' ?_
    · rw [hL' _ (.head _), Assoc.get?_put_self]
    · cases hp <;> assumption
    · rw [SymbolTable.fieldsOf, List.map_map]
      exact hx

/-- **Layouts of classes.** Where no class has a layout yet, a chain of classes with names of their
own gets layouts in which fields begin at words, share no byte and stay where the parent has them;
asked again, the class has the same one. -/
theorem layout_laid (h : b.table.Lineage id names) (hnames : names.Nodup)
    (hempty : b.layouts = []) :
    ∃ l b', Ends (layout id) b (some l) b' ∧ Laid b.table b'.layouts id l ∧
      Ends (layout id) b' (some l) b' := by
  obtain ⟨l, L, hends, hlaid⟩ := layout_ends h rfl hnames fun x _ => by rw [hempty]; rfl
  replace hlaid := hlaid L fun _ _ => rfl
  refine ⟨l, _, hends, hlaid, ?_⟩
  cases hlaid with
  | root h _ hl _ => exact layout_known (b := { b with layouts := L }) h hl
  | child h _ _ hl _ _ => exact layout_known (b := { b with layouts := L }) h hl

/-- A class with a truth value, and a class below it with a number. -/
def flagAndCount : Build where
  table.symbols := #[⟨"flag", 1, .variable { type? := some .boolean }⟩,
    ⟨"Flag", 0, .classDecl { attributes := [("flag", 0)] }⟩,
    ⟨"count", 2, .variable { type? := some .integer }⟩,
    ⟨"Count", 0, .classDecl { parent? := some 1, attributes := [("count", 2)] }⟩]

theorem layout_laid_flagAndCount : ∃ l b', Ends (layout 3) flagAndCount (some l) b' ∧
    Laid flagAndCount.table b'.layouts 3 l ∧ Ends (layout 3) b' (some l) b' := by
  have hroom (x : String) {t : Ty} (ht : t.TakesRoom) : ∀ f ∈ [(x, some t)],
    ∀ t ∈ f.2, t.TakesRoom := by
    simpa using ht
  refine layout_laid
    (.child ⟨rfl, rfl, by decide, hroom "count" ⟨trivial, by decide⟩⟩ rfl (by decide)
    (.root ⟨rfl, rfl, by decide, hroom "flag" ⟨trivial, by decide⟩⟩ rfl)) (by decide) rfl

end Emit

end Scriptc
