import Scriptc.Proofs.Addends
import Scriptc.Proofs.Addresses
import Scriptc.Proofs.Evaluation

/-!
# Scriptc: sums from types to instructions

The types of operands decide whether `+` adds numbers or joins strings, but they do not go into the
code, and the translation finds out anew. Both agree on the sums of an expression of which the
translation can see enough: `sums_agree`. What it must see is said by the text of the expression,
`Expr.sight?`:

* A variable, and a constant where the value of an assignment is read, are operands of their own and
  say what they are. For a variable that takes that no other declaration of its name has another
  type and that no other name has its address (`Build.Lone`).
* The result of an operator is noted, except for that of a remainder. Elsewhere a number is loaded
  into a temporary without a note; a string is noted.
* Of a call, a member or an element nothing is seen.

Where nothing is seen the two may differ: `print(1 + 2);` joins two numbers
(`sum_of_numbers_joined`).

`expr_told` follows the reading of an expression and says that the sums in its code can be told.
`Proceeds` says what lies between two moments of a compilation, so that the code is found again in
the program.
-/

namespace Scriptc

open Build (Ends Keeps ends_bind ends_get_bind ends_modify ends_pure ends_read ends_read_bind)

/-! ## Expressions whose sums can be told -/

namespace Addend

/-- Whether a text is a constant of the kind. -/
def isConstant : Addend → String → Bool
  | number, s => (Decimal.read? s.toList).isSome
  | text, s => Emit.isQuoted s

/-- What is seen of a constant that is loaded into a temporary. -/
def loaded : Addend → Sight
  | number => .bare
  | text => .noted

/-- What is seen of the result of an operator, if it can be told what it does. -/
def result? (kind : Addend) (level : Level) (op : String) (k l : Sight) : Option Sight :=
  if level = .additive ∧ op = "+" then if kind.tells k l then some .noted else none
  else if kind = .number ∧
    (level, op) ∈ [(.additive, "-"), (.multiplicative, "*"), (.multiplicative, "/")] then
    some .noted
  else if kind = .number ∧ level = .multiplicative ∧ op = "%" then some .bare
  else none

end Addend

namespace Expr

mutual

/-- What is seen of the value of an expression over the variables `vars`, if all its sums can be
told. -/
def sight? (kind : Addend) (vars : List String) (direct : Bool) : Expr → Option Sight
  | .chain level first rest =>
    (first.sight? kind vars direct).bind fun k => chainSight? kind vars direct level k rest
  | .negate _ e => if kind = .number then (e.sight? kind vars direct).map fun _ => .bare else none
  | .literal _ (.plain s) =>
    if kind.isConstant s then some (if direct then .placed else kind.loaded) else none
  | .group _ e => e.sight? kind vars direct
  | .access (.mk (.name _ x) []) => if x ∈ vars then some .placed else none
  | _ => none

/-- What is seen of a chain of operators, behind the value so far. -/
def chainSight? (kind : Addend) (vars : List String) (direct : Bool) (level : Level) (k : Sight) :
    List (String × Expr) → Option Sight
  | [] => some k
  | (op, e) :: rest =>
    (e.sight? kind vars direct).bind fun l =>
      (kind.result? level op k l).bind fun m => chainSight? kind vars direct level m rest

end

end Expr

/-! ## Assembly -/

/-- Whether a compilation comes to an assembly program as told is found by writing it. -/
instance {b : Build} {P : Mips.Program → Prop} [DecidablePred P] :
    Decidable (∃ p, b.assembly? = some (.ok p) ∧ P p) :=
  decidable_of_iff (∃ r ∈ b.assembly?, ∃ p ∈ r.toOption, P p) (by
    constructor
    · rintro ⟨_ | p, hr, q, hq, h⟩
      · cases hq
      · cases hq
        exact ⟨p, hr, h⟩
    · rintro ⟨p, hp, h⟩
      exact ⟨_, hp, p, rfl, h⟩)

/-! ## Variables -/

namespace Build

/-- A name stands for a variable of the type. -/
def Names (b : Build) (x : String) (t : Ty) : Prop :=
  ∃ s v, b.table.lookupSymbol? x = some s ∧ s.body = .variable v ∧ v.type? = some t

/-- A name is declared with one type only, and no other name has its address. -/
structure Lone (b : Build) (x : String) (t : Ty) : Prop where
  plain : Storage.Plain x
  named : x ≠ ""
  types : ∀ s, b.Declares x s → s.type? = some t
  alone : ∀ a, b.storage.slot? x = some (.address a) →
    0 ≤ a ∧ ∀ y, (y, .address a) ∈ b.storage.slots → y = x

variable {b b' final : Build} {x : String} {t : Ty} {o : Operand}

/-- Whether a symbol is a variable that holds numbers. -/
def holdsNumber (s : Symbol) : Bool :=
  match s.body with
  | .variable ⟨some .integer, _, _⟩ => true
  | _ => false

theorem exists_of_holdsNumber {s : Symbol} (h : holdsNumber s = true) :
    ∃ v, s.body = .variable v ∧ v.type? = some .integer := by
  unfold holdsNumber at h
  split at h
  · exact ⟨_, ‹_›, rfl⟩
  · cases h

/-- In a program whose variables all hold numbers, one that has its address for itself is lone. -/
theorem lone_of_numbers {a : Int} (hx : Storage.Plain x ∧ x ≠ "")
    (hall : ∀ s ∈ b.table.symbols.toList, holdsNumber s = true)
    (hslot : b.storage.slot? x = some (.address a) ∧ 0 ≤ a)
    (halone : ∀ y, (y, .address a) ∈ b.storage.slots → y = x) : b.Lone x .integer where
  plain := hx.1
  named := hx.2
  types s hs := by
    obtain ⟨i, sc, id, -, -, hid⟩ := hs
    obtain ⟨v, hbody, htype⟩ := exists_of_holdsNumber
      (hall s (List.mem_of_getElem? (by rw [Array.getElem?_toList]; exact hid)))
    unfold Symbol.type?
    rw [hbody]
    exact htype
  alone a' ha' := by
    grind

theorem declaredString_iff : Mips.Select.declaredString b.table x = true ↔
    ∃ s, b.Declares x s ∧ s.type?.map Ty.name = some "string" := by
  unfold Mips.Select.declaredString
  rw [List.any_eq_true]
  constructor
  · rintro ⟨sc, hsc, hstring⟩
    split at hstring
    · rename_i s hs
      obtain ⟨id, hid, hs⟩ := Option.bind_eq_some_iff.mp hs
      obtain ⟨i, hi⟩ := List.mem_iff_getElem?.mp hsc
      exact ⟨s, ⟨i, sc, id, by rwa [← Array.getElem?_toList], hid, hs⟩, of_decide_eq_true hstring⟩
    · cases hstring
  · rintro ⟨s, ⟨i, sc, id, hsc, hid, hs⟩, htype⟩
    grind

/-- At the address of a lone variable lies that variable. -/
theorem Lone.nameAt? {a : Int} (h : b.Lone x t) (hslot : b.storage.slot? x = some (.address a)) :
    Mips.Select.nameAt? b.storage.slots a = some x := by
  unfold Mips.Select.nameAt?
  cases hfind : b.storage.slots.find? fun e => e.2 = .address a with
  | none =>
    exact absurd (Assoc.mem_of_get? hslot) fun hmem => by
      simpa using List.find?_eq_none.mp hfind _ hmem
  | some e =>
    have ha : e.2 = .address a := by simpa using List.find?_some hfind
    have hmem : (e.1, .address a) ∈ b.storage.slots := by
      rw [← ha]
      exact List.mem_of_find?_eq_some hfind
    exact congrArg some ((h.alone a hslot).2 e.1 hmem)

/-- The address of a lone variable is that of a string exactly if the variable is one. -/
theorem Lone.isString {kind : Addend} {n : Nat} (h : b.Lone x kind.type)
    (hdeclared : ∃ s, b.Declares x s) (hslot : b.storage.slot? x = some (.address n)) :
    b.input.isString (.address n) = kind.isText := by
  have hstring : b.input.isString (.address n) = Mips.Select.declaredString b.table x := by
    show ((some (n : Int)).bind (Mips.Select.nameAt? b.storage.slots)).any _ = _
    rw [Option.bind_some, h.nameAt? hslot, Option.any_some, decide_eq_true h.named, Bool.true_and]
    rfl
  rw [hstring, Bool.eq_iff_iff, declaredString_iff]
  obtain ⟨s, hs⟩ := hdeclared
  cases kind with
  | number =>
    refine ⟨?_, nofun⟩
    rintro ⟨s', hs', htype⟩
    rw [h.types s' hs'] at htype
    exact absurd htype (by decide)
  | text => exact ⟨fun _ => rfl, fun _ => ⟨s, hs, by rw [h.types s hs]; rfl⟩⟩

end Build

namespace Compile

open Mips (Seen Told)

variable {b b' c final : Build} {o t : Operand} {x : String} {kind : Addend}
    {s : String} {level : Level}
  {input : Mips.Input} {op : String} {vars : List String} {code : List Quad}
variable {line : Nat} {ch : Chain}

/-- The operand of a lone variable shows its type, or is a place in the frame. -/
theorem place_shows {s : Symbol} (hx : b.table.lookupSymbol? x = some s)
    (hlone : final.Lone x kind.type) (h : Ends (Emit.place x) b o b') (hlater : Placed b' final) :
    final.input.Shows kind o := by
  have hplaced : Placed b b' := Placed.exprStable.keeps (S := []) (Placed.exprStable.walk.place x) h
  rcases (place_cases h).2 with ⟨hnone, -⟩ | ⟨n, rfl⟩ | ⟨a, rfl, hslot⟩
  · cases hnone.symm.trans hx
  · exact ⟨rfl, .inl ⟨n, rfl⟩⟩
  · have hslot : final.storage.slot? x = some (.address a) := hlater.slots x _ hlone.plain hslot
    obtain ⟨n, rfl⟩ := Int.eq_ofNat_of_zero_le (hlone.alone a hslot).1
    obtain ⟨s', hs', -⟩ := (hplaced.trans hlater).declares x s (Build.declares_of_lookup hx)
    exact ⟨rfl, .inr (hlone.isString ⟨s', hs'⟩ hslot)⟩

/-! ## The code of an expression -/

/-- What is handed out are temporaries, and strings have labels. -/
structure Supplied (b : Build) : Prop where
  temps : ∀ o ∈ b.reusable, o.isTempName = true
  labels : Emit.StringsLabelled b

/-- Nothing but code has been added that matters to an expression. -/
structure Appends (b b' : Build) (code : List Quad) : Prop where
  quads : b'.quads.toList = b.quads.toList ++ code
  table : b'.table = b.table
  direct : b'.direct = b.direct
  supplied : Supplied b'

namespace Appends

variable {code code' : List Quad} {left right : Operand} {op : String} {u : Unit}

theorem refl (h : Supplied b) : Appends b b [] := ⟨(List.append_nil _).symm, rfl, rfl, h⟩

theorem trans (h : Appends b c code) (h' : Appends c b' code') : Appends b b' (code ++ code') :=
  ⟨by rw [h'.quads, h.quads,
    List.append_assoc], h'.table.trans h.table, h'.direct.trans h.direct, h'.supplied⟩

theorem use (hb : Supplied b) (h : Ends (Emit.use o) b u b') :
    Appends b b' [] ∧ b'.value = b.value := by
  rw [ends_modify.mp h]
  split
  · exact ⟨⟨(List.append_nil _).symm, rfl, rfl,
      fun t ht => hb.temps t (List.mem_of_mem_erase ht), hb.labels⟩, rfl⟩
  · exact ⟨refl hb, rfl⟩

theorem newTemp (hb : Supplied b) (h : Ends Emit.newTemp b t b') :
    Appends b b' [] ∧ t.isTempName = true := by
  obtain ⟨counts, rest, rfl, hrest, ht⟩ := Emit.newTemp_ends h
  refine ⟨⟨(List.append_nil _).symm, rfl, rfl, fun o ho => hb.temps o (hrest ho), hb.labels⟩, ?_⟩
  rcases ht with ht | ⟨k, rfl⟩
  · exact hb.temps t ht
  · rfl

theorem quad {q : Quad} (hb : Supplied b) (h : Ends (Emit.quad q) b u b') : Appends b b' [q] := by
  obtain rfl := Emit.ends_quad.mp h
  exact ⟨Array.toList_push, rfl, rfl, hb.temps, hb.labels⟩

theorem setValue (hb : Supplied b) (h : Ends (Emit.setValue o) b u b') :
    Appends b b' [] ∧ b'.value = o := by
  obtain rfl := Emit.ends_setValue.mp h
  exact ⟨⟨(List.append_nil _).symm, rfl, rfl, hb.temps, hb.labels⟩, rfl⟩

theorem finish (hb : Supplied b) (h : Ends (Emit.finish t) b o b') :
    Appends b b' [] ∧ b'.value = t ∧ o = t := by
  obtain ⟨rfl, rfl⟩ := Emit.ends_finish.mp h
  exact ⟨⟨(List.append_nil _).symm, rfl, rfl, hb.temps, hb.labels⟩, rfl, rfl⟩

theorem arithmetic (hb : Supplied b) (h : Ends (Emit.arithmetic left right op) b o b') :
    Appends b b' [{ op := .ofText op, arg1 := left, arg2 := right, result := o }] ∧
      o.isTempName = true ∧ b'.value = o := by
  unfold Emit.arithmetic at h
  obtain ⟨_, b₁, hleft, h⟩ := ends_bind.mp h
  obtain ⟨_, b₂, hright, h⟩ := ends_bind.mp h
  obtain ⟨_, -, h⟩ := Build.ends_ofExcept_bind.mp h
  obtain ⟨_, -, h⟩ := Build.ends_ofExcept_bind.mp h
  obtain ⟨t, b₃, htemp, h⟩ := ends_bind.mp h
  obtain ⟨_, b₄, hquad, h⟩ := ends_bind.mp h
  have h₁ := (use hb hleft).1
  have h₂ := (use h₁.supplied hright).1
  obtain ⟨h₃, ht⟩ := newTemp h₂.supplied htemp
  have h₄ := quad h₃.supplied hquad
  obtain ⟨h₅, hvalue, rfl⟩ := finish h₄.supplied h
  exact ⟨(((h₁.trans h₂).trans h₃).trans h₄).trans h₅, ht, hvalue⟩

theorem unary (hb : Supplied b) (h : Ends (Emit.unary left op) b o b') :
    Appends b b' [{ op := .ofText op, arg1 := left, result := o }] ∧ b'.value = o := by
  simp only [Emit.unary, ends_bind] at h
  obtain ⟨_, b₁, huse, t, b₂, htemp, _, b₃, hquad, h⟩ := h
  have h₁ := (use hb huse).1
  have h₂ : Appends b₁ b₂ [] := by
    unfold Emit.lastOrNew at htemp
    rw [ends_get_bind] at htemp
    split at htemp
    · rw [(ends_pure.mp htemp).2]
      exact refl h₁.supplied
    · exact (newTemp h₁.supplied htemp).1
  have h₃ := quad h₂.supplied hquad
  obtain ⟨h₄, hvalue, rfl⟩ := finish h₃.supplied h
  exact ⟨((h₁.trans h₂).trans h₃).trans h₄, hvalue⟩

end Appends

/-! ### Constants -/

/-- A numeral says by itself that it is no string. -/
theorem numeral_shows (hs : (Decimal.read? s.toList).isSome = true) (input : Mips.Input) :
    Emit.isQuoted s = false ∧ input.Shows .number (.ofText s) ∧
      (Operand.ofText s).isStringLabel = false := by
  have hdigits : s.toList.all Char.isDigit = true := by
    unfold Decimal.read? at hs
    grind
  have hbegins : ∀ p : String, p.toList.all Char.isDigit = false →
    Affix.begins s p = false := fun p =>
    begins_of_digits hdigits
  rw [ofText_of_digits hdigits]
  have hlabel : (Operand.text s).isStringLabel = false := hbegins "str_" (by decide)
  refine ⟨?_, ⟨hbegins "t" (by decide), .inr ?_⟩, hlabel⟩
  · unfold Emit.isQuoted
    rw [hbegins "\"" (by decide), Bool.false_and]
  · unfold Mips.Input.isString
    rw [hlabel, show (Operand.text s).hexValue? = none from
      if_neg (by rw [hbegins "0x" (by decide)]; decide)]
    rfl

/-- The label of a string says by itself that it is one. -/
theorem label_shows {ds : List Char} (hs : s.toList = 's' :: 't' :: 'r' :: '_' :: ds)
    (input : Mips.Input) :
    input.Shows .text (.ofText s) ∧ (Operand.ofText s).isStringLabel = true := by
  have hcases : (∃ n, Operand.ofText s = .string n) ∨ Operand.ofText s = .text s := by
    have hcandidate : Operand.candidate s =
      ((Decimal.read? ds).map Operand.string).getD (.text s) := by
      unfold Operand.candidate
      rw [hs]
      rfl
    unfold Operand.ofText
    rw [hcandidate]
    dsimp only
    split
    · cases Decimal.read? ds with
      | none => exact .inr rfl
      | some n => exact .inl ⟨n, rfl⟩
    · exact .inr rfl
  have hlabel : (Operand.ofText s).isStringLabel = true := by
    rcases hcases with ⟨n, htext⟩ | htext
    · rw [htext]
      rfl
    · rw [htext]
      show Affix.begins s "str_" = true
      unfold Affix.begins
      rw [hs]
      rfl
  refine ⟨⟨?_, .inr ?_⟩, hlabel⟩
  · rcases hcases with ⟨n, htext⟩ | htext
    · rw [htext]
      rfl
    · rw [htext]
      show Affix.begins s "t" = false
      unfold Affix.begins
      rw [hs]
      rfl
  · unfold Mips.Input.isString
    rw [hlabel]
    rfl

/-- The operand of a constant says by itself what it is. -/
theorem constant_shows (hb : Supplied b) (hs : kind.isConstant s = true)
    (h : Ends (if Emit.isQuoted s then Operand.ofText <$> Emit.stringLabel s else
      pure (.ofText s)) b o b')
    (input : Mips.Input) :
    Appends b b' [] ∧ input.Shows kind o ∧ o.isStringLabel = kind.isText := by
  cases kind with
  | number =>
    obtain ⟨hquoted, hshows, hlabel⟩ := numeral_shows hs input
    rw [hquoted, if_neg Bool.false_ne_true] at h
    obtain ⟨rfl, rfl⟩ := ends_pure.mp h
    exact ⟨.refl hb, hshows, hlabel⟩
  | text =>
    rw [if_pos (show Emit.isQuoted s = true from hs)] at h
    obtain ⟨l, hlabel, rfl⟩ := Build.ends_map.mp h
    obtain ⟨⟨k, rfl⟩, hlabels⟩ := hb.labels.stringLabel hlabel
    have hrender : (Operand.string k).render.toList = 's' :: 't' :: 'r' :: '_' ::
      (toString k).toList :=
      String.toList_append ..
    refine ⟨?_, label_shows hrender input⟩
    rcases Emit.stringLabel_ends hlabel with ⟨-, rfl⟩ | ⟨-, rfl⟩
    · exact .refl hb
    · exact ⟨(List.append_nil _).symm, rfl, rfl, hb.temps, hlabels⟩

theorem constant_told (seg : List Quad) (hb : Supplied b)
    (hs : kind.isConstant s = true) (h : Ends (Emit.constant s) b o b') :
    ∃ code, Appends b b' code ∧ Told input kind seg code ∧
      Seen input kind (seg ++ code) (if b.direct then .placed else kind.loaded) b'.value := by
  -- First comes the operand, a label or the text itself, then what is done with it.
  obtain ⟨v, b₁, hv, h⟩ : ∃ v b₁,
      Ends (if Emit.isQuoted s then Operand.ofText <$> Emit.stringLabel s else
        pure (.ofText s)) b v b₁ ∧
      Ends (do
        if (← get).direct then
          Emit.setValue v
          return v
        else
          let t ← Emit.newTemp
          Emit.quad { op := .copy, arg1 := v, result := t }
          Emit.setValue t
          return t) b₁ o b' := by
    unfold Emit.constant at h
    dsimp only at h
    split at h
    · obtain ⟨v, b₁, hv, h⟩ := ends_bind.mp h
      exact ⟨v, b₁, by rwa [if_pos ‹_›], h⟩
    · obtain ⟨v, b₁, hv, h⟩ := ends_bind.mp h
      exact ⟨v, b₁, by rwa [if_neg ‹_›], h⟩
  obtain ⟨h₁, hshows, hlabel⟩ := constant_shows hb hs hv input
  rw [ends_get_bind, h₁.direct] at h
  split at h
  · rename_i hdirect
    rw [if_pos hdirect]
    obtain ⟨_, b₂, hset, h⟩ := ends_bind.mp h
    obtain ⟨-, rfl⟩ := ends_pure.mp h
    obtain ⟨h₂, rfl⟩ := Appends.setValue h₁.supplied hset
    exact ⟨[], h₁.trans h₂, trivial, hshows⟩
  · rename_i hdirect
    rw [if_neg hdirect]
    simp only [ends_bind, ends_pure] at h
    obtain ⟨t, b₂, htemp, _, b₃, hquad, _, b₄, hset, -, rfl⟩ := h
    obtain ⟨h₂, ht⟩ := Appends.newTemp h₁.supplied htemp
    have h₃ := Appends.quad h₂.supplied hquad
    obtain ⟨h₄, rfl⟩ := Appends.setValue h₃.supplied hset
    refine ⟨_, ((h₁.trans h₂).trans h₃).trans h₄,
      ⟨.constant hshows.isTempName hlabel ht, trivial⟩, ?_⟩
    cases kind with
    | number => trivial
    | text => exact ⟨Addend.mem_noted_snoc.mpr (.inr ⟨rfl, rfl⟩), ht⟩

/-! ### Names -/

/-- The operand of a variable is its place. -/
theorem variableValue_told {s : Symbol} (hb : Supplied b) (hx : b.table.lookupSymbol? x = some s)
    (hlone : final.Lone x kind.type) (h : Ends (Emit.variableValue x) b o b')
    (hlater : Placed b' final) :
    Appends b b' [] ∧ final.input.Shows kind o := by
  unfold Emit.variableValue at h
  obtain ⟨n?, b₁, hoffset, hload⟩ := ends_bind.mp h
  have hsame : b₁ = b := by
    unfold Emit.routineOffset? at hoffset
    rw [ends_get_bind] at hoffset
    split at hoffset
    · exact (ends_pure.mp hoffset).2
    · exact (ends_read.mp hoffset).2
  subst hsame
  split at hload
  · simp only [ends_bind] at hload
    obtain ⟨o', b₂, hpure, _, b₃, hset, hdone⟩ := hload
    obtain ⟨rfl, rfl⟩ := ends_pure.mp hdone
    obtain ⟨rfl, rfl⟩ := ends_pure.mp hpure
    exact ⟨(Appends.setValue hb hset).1, rfl, .inl ⟨_, rfl⟩⟩
  · simp only [ends_bind] at hload
    obtain ⟨o', b₂, hplace, _, b₃, hset, hdone⟩ := hload
    obtain ⟨rfl, rfl⟩ := ends_pure.mp hdone
    have hb₂ : Appends b₁ b₂ [] := by
      obtain ⟨frames, storage, rfl⟩ := (place_cases hplace).1
      exact ⟨(List.append_nil _).symm, rfl, rfl, hb.temps, hb.labels⟩
    refine ⟨hb₂.trans (Appends.setValue hb₂.supplied hset).1, ?_⟩
    exact place_shows hx hlone hplace (Placed.trans (Placed.exprStable.setValue o hset) hlater)

/-- A variable that stands alone at its address shows its type. -/
theorem name_told {target? : Option Target} (hb : Supplied b) (hx : b.Names x kind.type)
    (hlone : final.Lone x kind.type) (h : Ends (name line x) b target? b')
    (hlater : Placed b' final) :
    Appends b b' [] ∧ final.input.Shows kind b'.value ∧
      target? = some { type? := some kind.type } := by
  obtain ⟨s, v, hs, hbody, htype⟩ := hx
  unfold name at h
  rw [Build.ends_lookup?_bind, hs] at h
  dsimp only at h
  rw [hbody] at h
  dsimp only at h
  rw [htype] at h
  have hload : Ends (do
      Emit.setValue (← Emit.variableValue x)
      return some { type? := some kind.type }) b target? b' := by
    cases kind <;> exact h
  simp only [ends_bind, ends_pure] at hload
  obtain ⟨o, b₁, hvariable, _, b₂, hset, rfl, rfl⟩ := hload
  -- Its place is what it has in the end, so what is seen of it there is seen here.
  have hlater₁ : Placed b₁ final := (Placed.exprStable.setValue o hset).trans hlater
  obtain ⟨h₁, hshows⟩ := variableValue_told hb hs hlone hvariable hlater₁
  obtain ⟨h₂, rfl⟩ := Appends.setValue h₁.supplied hset
  exact ⟨h₁.trans h₂, hshows, rfl⟩

/-! ### Operators -/

/-- A chain whose type so far is that of the kind, and of whose value enough is seen. -/
structure Reached (input : Mips.Input) (kind : Addend) (code : List Quad) (k : Sight) (c : Chain) :
    Prop where
  left : c.left? = some kind.type
  result : c.result? = some kind.type
  seen : Seen input kind code k c.value

/-- The operators that the types of the operands allow. -/
theorem result?_cases {k l m : Sight} (h : kind.result? level op k l = some m) :
    (level = .additive ∧ op = "+" ∧ kind.tells k l = true ∧ m = .noted) ∨
    (kind = .number ∧ (level = .additive ∧ op = "-" ∨ level = .multiplicative ∧ op = "*" ∨
      level = .multiplicative ∧ op = "/") ∧ m = .noted) ∨
    (kind = .number ∧ level = .multiplicative ∧ op = "%" ∧ m = .bare) := by
  unfold Addend.result? at h
  split at h
  · grind
  split at h
  · grind
  split at h
  · grind
  · cases h

theorem sum_same {v : Operand} (hleft : ch.left? = some kind.type) :
    ch.sum op (some kind.type) v = Emit.arithmetic ch.value v op := by
  unfold Chain.sum
  rw [hleft]
  cases kind with
  | number =>
    rw [show (some Addend.number.type == some Ty.string) = false from rfl,
      Bool.and_false, Bool.and_false,
      Bool.false_and]
    rfl
  | text =>
    rw [show (some Addend.text.type == some Ty.integer) = false from rfl,
      Bool.and_false, Bool.and_false,
      Bool.false_and]
    rfl

/-- An operator on operands of one type writes one quadruple. -/
theorem step_appends {at_ : Nat} {ch' : Chain} (hb : Supplied b) (hleft : ch.left? = some kind.type)
    (hop : level = .additive ∧ (op = "+" ∨ op = "-" ∧ kind = .number) ∨
      level = .multiplicative ∧ kind = .number)
    (h : Ends (ch.step level line op at_ (some kind.type)) b ch' b') :
    ∃ o, Appends b b' [{ op := .ofText op, arg1 := ch.value, arg2 := b.value, result := o }] ∧
      o.isTempName = true ∧ b'.value = o ∧ ch' = ⟨some kind.type, some kind.type, o⟩ := by
  unfold Chain.step at h
  replace h := ends_read_bind.mp h
  have hok : (kind.type == .error) = false := by cases kind <;> rfl
  rcases hop with ⟨rfl, hop⟩ | ⟨rfl, rfl⟩
  · have hcheck : Check.additive (some kind.type) (some kind.type) op at_ = pure kind.type := by
      rcases hop with rfl | ⟨rfl, rfl⟩
      · cases kind <;> rfl
      · rfl
    dsimp only at h
    obtain ⟨_, b₁, huse, h⟩ := ends_bind.mp h
    rw [hleft, hcheck, pure_bind, hok, if_neg Bool.false_ne_true, sum_same hleft] at h
    obtain ⟨o, b₂, harith, h⟩ := ends_bind.mp h
    obtain ⟨rfl, rfl⟩ := ends_pure.mp h
    have h₁ := (Appends.use hb huse).1
    obtain ⟨h₂, ho, hvalue⟩ := Appends.arithmetic h₁.supplied harith
    exact ⟨o, h₁.trans h₂, ho, hvalue, rfl⟩
  · have hcheck : Check.arithmetic (some Ty.integer) (some Ty.integer) at_ = pure .integer := rfl
    dsimp only at h
    rw [hleft] at h
    change Ends (Check.arithmetic (some Ty.integer) (some Ty.integer) at_ >>= _) _ _ _ at h
    rw [hcheck, pure_bind] at h
    obtain ⟨o, b₂, harith, h⟩ := ends_bind.mp h
    obtain ⟨rfl, rfl⟩ := ends_pure.mp h
    obtain ⟨h₂, ho, hvalue⟩ := Appends.arithmetic hb harith
    exact ⟨o, h₂, ho, hvalue, rfl⟩

/-- An operator that can be told, behind operands of which enough is seen. -/
theorem step_told {at_ : Nat} {ch' : Chain}
    {seg : List Quad} {k l m : Sight} (hb : Supplied b) (hch : Reached input kind seg k ch)
    (hv : Seen input kind seg l b.value) (hop : kind.result? level op k l = some m)
    (h : Ends (ch.step level line op at_ (some kind.type)) b ch' b') :
    ∃ code, Appends b b' code ∧ Told input kind seg code ∧ Reached input kind (seg ++ code) m ch' ∧
      b'.value = ch'.value := by
  have hcases := result?_cases hop
  obtain ⟨o, happends, ho, hvalue, rfl⟩ := step_appends hb hch.left (by
    rcases hcases with
      ⟨hlevel, hplus, -⟩ | ⟨hkind, ⟨hlevel, hminus⟩ | ⟨hlevel, -⟩ | ⟨hlevel, -⟩, -⟩ |
      ⟨hkind, hlevel, -⟩
    · exact .inl ⟨hlevel, .inl hplus⟩
    · exact .inl ⟨hlevel, .inr ⟨hminus, hkind⟩⟩
    all_goals exact .inr ⟨hlevel, hkind⟩) h
  have hnoted : kind.notes (.ofText op) = true → o ∈ kind.noted
      (seg ++ [{ op := .ofText op, arg1 := ch.value, arg2 := b.value, result := o }]) :=
        fun hnotes =>
    Addend.mem_noted_snoc.mpr (.inr ⟨hnotes, rfl⟩)
  refine ⟨_, happends, ⟨?_, trivial⟩, ⟨rfl, rfl, ?_⟩, hvalue⟩
  · rcases hcases with ⟨-, rfl, htells, -⟩ | ⟨rfl, hops, -⟩ | ⟨rfl, -, rfl, -⟩
    · exact .sum htells hch.seen hv ho
    · rcases hops with ⟨-, rfl⟩ | ⟨-, rfl⟩ | ⟨-, rfl⟩ <;> exact .operator rfl (by decide +kernel) ho
    · exact .other rfl (by decide +kernel)
  · rcases hcases with ⟨-, rfl, -, rfl⟩ | ⟨rfl, hops, rfl⟩ | ⟨rfl, -, rfl, rfl⟩
    · exact ⟨hnoted (by cases kind <;> decide +kernel), ho⟩
    · rcases hops with ⟨-, rfl⟩ | ⟨-, rfl⟩ | ⟨-, rfl⟩ <;> exact ⟨hnoted (by decide +kernel), ho⟩
    · trivial

/-- A number with its sign changed. -/
theorem negate_told {type? : Option Ty} (hkind : kind = .number) (seg : List Quad) (hb : Supplied b)
    (h : Ends (unary line "-" "entero" .integer (some kind.type) (Emit.unary · "NEG")) b type? b') :
    ∃ code, Appends b b' code ∧ Told input kind seg code ∧ type? = some kind.type := by
  subst hkind
  change Ends (unary line "-" "entero" .integer (some .integer) (Emit.unary · "NEG"))
    b type? b' at h
  unfold unary Check.wrong? at h
  rw [show (some Ty.integer == some Ty.integer || some Ty.integer == some Ty.error) =
    true from rfl, if_pos rfl,
    pure_bind] at h
  dsimp only at h
  rw [show (some Ty.integer != some Ty.error) = true from rfl, if_pos rfl] at h
  replace h := ends_read_bind.mp h
  obtain ⟨o, b₂, hcode, h⟩ := ends_bind.mp h
  obtain ⟨rfl, rfl⟩ := ends_pure.mp h
  exact ⟨_, (Appends.unary hb hcode).1, ⟨.other rfl (by decide +kernel), trivial⟩, rfl⟩

/-! ### Expressions -/

theorem Placed.chain (level : Level) (line : Nat) (ch : Chain) (rest : List (String × Expr)) :
    Keeps Placed (Compile.chain level line ch rest) :=
  Placed.exprStable.chain level line ch (fun _ _ _ _ _ => Placed.quad _)
    (Expr.allRest_of_forall (fun _ => trivial) rest)

theorem Placed.negate (line : Nat) (type? : Option Ty) :
    Keeps Placed (unary line "-" "entero" .integer type? (Emit.unary · "NEG")) :=
  Placed.exprStable.unary line "-" "entero" .integer type? fun o =>
    Placed.exprStable.keeps
      (Placed.exprStable.walk.unaryCode (List.mem_singleton_self o) (by decide +kernel))

theorem start_appends {type? : Option Ty} (hb : Supplied b)
    (h : Ends (Chain.start level type?) b ch b') :
    ch = ⟨type?, type?, b.value⟩ ∧ Appends b b' [] ∧ b'.value = b.value := by
  unfold Chain.start at h
  replace h := ends_read_bind.mp h
  dsimp only at h
  split at h
  · obtain ⟨_, b₁, huse, h⟩ := ends_bind.mp h
    obtain ⟨rfl, rfl⟩ := ends_pure.mp h
    exact ⟨rfl, Appends.use hb huse⟩
  · obtain ⟨rfl, rfl⟩ := ends_pure.mp h
    exact ⟨rfl, .refl hb, rfl⟩

theorem type_of_isConstant (hs : kind.isConstant s = true) :
    (if Affix.begins s "\"" then Ty.string else .integer) = kind.type := by
  cases kind with
  | number =>
    rw [(constant_text (Option.isSome_of_eq_some (constant?_of_digits hs))).1]
    rfl
  | text =>
    rw [if_pos (Bool.and_eq_true_iff.mp hs).1]
    rfl

theorem Appends.names (h : Appends b b' code)
    (hnames : ∀ x ∈ vars, b.Names x kind.type) : ∀ x ∈ vars, b'.Names x kind.type := by
  unfold Build.Names at hnames ⊢
  rw [h.table]
  exact hnames

mutual

/-- The sums of an expression can be told in its code, and the expression has the type of its
kind. -/
theorem expr_told (hlone : ∀ x ∈ vars, final.Lone x kind.type) :
    ∀ (e : Expr) {b b' type? k} (seg : List Quad), Supplied b → (∀ x ∈ vars, b.Names x kind.type) →
      e.sight? kind vars b.direct = some k → Ends (expr e) b type? b' → Placed b' final →
      ∃ code, Appends b b' code ∧ Told final.input kind seg code ∧
        Seen final.input kind (seg ++ code) k b'.value ∧ type? = some kind.type
  | .chain level first rest, b, b', type?, k, seg, hb, hnames, hk, h, hlater => by
    rw [expr] at h
    rw [Expr.sight?] at hk
    obtain ⟨l, hl, hk⟩ := Option.bind_eq_some_iff.mp hk
    simp only [ends_bind] at h
    obtain ⟨t, b₁, hfirst, ch, b₂, hstart, hchain⟩ := h
    have hlater₂ : Placed b₂ final := (Placed.chain level _ ch rest hchain).trans hlater
    have hlater₁ : Placed b₁ final := (Placed.exprStable.chainStart level t hstart).trans hlater₂
    obtain ⟨code₁, h₁, htold₁, hseen₁, rfl⟩ := expr_told hlone first seg hb hnames hl hfirst hlater₁
    obtain ⟨rfl, h₂, hvalue⟩ := start_appends h₁.supplied hstart
    have hch : Reached final.input kind (seg ++ code₁) l ⟨some kind.type,
      some kind.type, b₁.value⟩ :=
      ⟨rfl, rfl, hseen₁⟩
    have h₁₂ := h₁.trans h₂
    rw [List.append_nil] at h₁₂
    rw [← h₁₂.direct] at hk
    obtain ⟨code₂, h₃, htold₂, hseen₂, htype⟩ :=
      chain_told hlone level rest (seg ++ code₁) h₂.supplied
      (h₁₂.names hnames) hch hvalue hk hchain hlater
    exact ⟨code₁ ++ code₂, h₁₂.trans h₃, Mips.told_append.mpr ⟨htold₁, htold₂⟩,
      by rw [← List.append_assoc]; exact hseen₂, htype⟩
  | .negate line e, b, b', type?, k, seg, hb, hnames, hk, h, hlater => by
    rw [expr] at h
    rw [Expr.sight?] at hk
    split at hk
    · rename_i hkind
      obtain ⟨l, hl, rfl⟩ := Option.map_eq_some_iff.mp hk
      obtain ⟨t, b₁, hread, hnegate⟩ := ends_bind.mp h
      have hlater₁ : Placed b₁ final := (Placed.negate line t hnegate).trans hlater
      obtain ⟨code₁, h₁, htold₁, -, rfl⟩ := expr_told hlone e seg hb hnames hl hread hlater₁
      obtain ⟨code₂, h₂, htold₂, rfl⟩ := negate_told hkind (seg ++ code₁) h₁.supplied hnegate
      exact ⟨code₁ ++ code₂, h₁.trans h₂, Mips.told_append.mpr ⟨htold₁, htold₂⟩, trivial, rfl⟩
    · cases hk
  | .literal _ (.plain s), b, b', type?, k, seg, hb, hnames, hk, h, hlater => by
    rw [expr] at h
    rw [Expr.sight?] at hk
    split at hk
    · rename_i hconstant
      cases hk
      obtain ⟨o, b₁, hcode, h⟩ := ends_bind.mp h
      obtain ⟨rfl, rfl⟩ := ends_pure.mp h
      obtain ⟨code, happends, htold, hseen⟩ := constant_told seg hb hconstant hcode
      exact ⟨code, happends, htold, hseen, by rw [type_of_isConstant hconstant]⟩
    · cases hk
  | .group _ e, b, b', type?, k, seg, hb, hnames, hk, h, hlater => by
    rw [expr] at h
    rw [Expr.sight?] at hk
    exact expr_told hlone e seg hb hnames hk h hlater
  | .access (.mk (.name line x) []), b, b', type?, k, seg, hb, hnames, hk, h, hlater => by
    rw [Expr.sight?] at hk
    split at hk
    · rename_i hx
      cases hk
      unfold expr atom at h
      obtain ⟨target?, b₁, hname, h⟩ := ends_bind.mp h
      have hlater₁ : Placed b₁ final := by
        refine Placed.trans ?_ hlater
        cases target? with
        | none => exact (ends_pure.mp h).2 ▸ .refl _
        | some target =>
          dsimp only at h
          rw [suffixes] at h
          exact Placed.exprStable.conclude _ _ h
      obtain ⟨h₁, hshows, rfl⟩ := name_told hb (hnames x hx) (hlone x hx) hname hlater₁
      dsimp only at h
      rw [suffixes] at h
      obtain ⟨rfl, rfl⟩ := ends_pure.mp h
      exact ⟨[], h₁, trivial, hshows, rfl⟩
    · cases hk
  -- Of all other expressions nothing is seen.
  | .access (.mk (.name _ _) (_ :: _)), _, _, _, _, _, _, _, hk, _, _
  | .access (.mk (.new _ _ _ _) _), _, _, _, _, _, _, _, hk, _, _
  | .access (.mk (.this _) _), _, _, _, _, _, _, _, hk, _, _
  | .literal _ .null, _, _, _, _, _, _, _, hk, _, _
  | .literal _ (.bool _), _, _, _, _, _, _, _, hk, _, _
  | .assign _ _, _, _, _, _, _, _, _, hk, _, _
  | .ternary _ _ _, _, _, _, _, _, _, _, hk, _, _
  | .not _ _, _, _, _, _, _, _, _, hk, _, _
  | .array _ _, _, _, _, _, _, _, _, hk, _, _ => by simp [Expr.sight?] at hk

/-- The rest of a chain, behind a value of which enough is seen. -/
theorem chain_told (hlone : ∀ x ∈ vars, final.Lone x kind.type) (level : Level) :
    ∀ (rest : List (String × Expr)) {line b b' type? k m ch} (seg : List Quad), Supplied b →
      (∀ x ∈ vars, b.Names x kind.type) → Reached final.input kind seg k ch → b.value = ch.value →
      Expr.chainSight? kind vars b.direct level k rest = some m →
        Ends (chain level line ch rest) b type? b' →
      Placed b' final →
      ∃ code, Appends b b' code ∧ Told final.input kind seg code ∧
        Seen final.input kind (seg ++ code) m b'.value ∧ type? = some kind.type
  | [], line, b, b', type?, k, m, ch, seg, hb, hnames, hch, hvalue, hm, h, hlater => by
    rw [chain] at h
    rw [Expr.chainSight?] at hm
    obtain ⟨rfl, rfl⟩ := ends_pure.mp h
    cases hm
    exact ⟨[], .refl hb, trivial, by rw [List.append_nil, hvalue]; exact hch.seen, hch.result⟩
  | (op, e) :: rest, line, b, b', type?, k, m, ch, seg, hb, hnames, hch, hvalue, hm, h, hlater => by
    rw [chain] at h
    rw [Expr.chainSight?] at hm
    obtain ⟨l, hl, hm⟩ := Option.bind_eq_some_iff.mp hm
    obtain ⟨r, hr, hm⟩ := Option.bind_eq_some_iff.mp hm
    simp only [ends_bind] at h
    obtain ⟨t, b₁, hread, ch₂, b₂, hstep, hchain⟩ := h
    have hlater₂ : Placed b₂ final := (Placed.chain level line ch₂ rest hchain).trans hlater
    have hlater₁ : Placed b₁ final :=
      (Placed.exprStable.chainStep level line ch (fun _ _ _ => Placed.quad _)
        _ _ hstep).trans hlater₂
    obtain ⟨code₁, h₁, htold₁, hseen₁, rfl⟩ := expr_told hlone e seg hb hnames hl hread hlater₁
    have hch₁ : Reached final.input kind (seg ++ code₁) k ch :=
      ⟨hch.left, hch.result, hch.seen.append code₁⟩
    obtain ⟨code₂, h₂, htold₂, hch₂, hvalue₂⟩ := step_told h₁.supplied hch₁ hseen₁ hr hstep
    have h₁₂ := h₁.trans h₂
    rw [← h₁₂.direct] at hm
    obtain ⟨code₃, h₃, htold₃, hseen₃, htype⟩ :=
      chain_told hlone level rest _ h₂.supplied (h₁₂.names hnames)
      hch₂ hvalue₂ hm hchain hlater
    refine ⟨code₁ ++ code₂ ++ code₃, h₁₂.trans h₃, ?_, ?_, htype⟩
    · rw [Mips.told_append, Mips.told_append, ← List.append_assoc]
      exact ⟨⟨htold₁, htold₂⟩, htold₃⟩
    · grind

end

/-! ## Moments of a compilation -/

/-- All that temporaries are handed out by, but for the function at hand. -/
def pool (b : Build) := (b.tempCounts, b.value, b.lastTemp, b.reusable, b.used, b.strings)

/-- Code stays as it is written, but for the sizes of frames. -/
def Stands (b b' : Build) : Prop :=
  ∀ (i : Nat) (q : Quad), b.quads[i]? = some q → q.op ≠ .enter → b'.quads[i]? = some q

/-- What lies between two moments of a compilation: parts of the program, declarations, values that
are stored, functions that are begun, expressions that end, and whatever leaves places, code and
temporaries as they are. -/
inductive Proceeds (b : Build) : Build → Prop where
  | refl : Proceeds b b
  | part {c d : Build} {p : Part} {type? : Option Ty} : Proceeds b c → (∀ u ∈ p.uses, u.Formed) →
    Ends (part p) c type? d → Proceeds b d
  | declare {c d : Build} {line : Nat} {s : Symbol} {r : SymbolId × Bool} : Proceeds b c →
    Ends (declare line s) c r d → Proceeds b d
  | initialise {c d : Build} {x : String} : Proceeds b c → Ends (initialise x) c () d → Proceeds b d
  | storeValue {c d : Build} {x : String} : Proceeds b c → Ends (storeValue x) c () d → Proceeds b d
  | setFunction {c d : Build} {f : String} :
      Proceeds b c → Ends (Emit.setFunction f) c () d → Proceeds b d
  | endExpression {c d : Build} : Proceeds b c → Ends Emit.endExpression c () d → Proceeds b d
  | other {c d : Build} : Proceeds b c → Placed c d → Stands c d → pool d = pool c → Proceeds b d

namespace Proceeds

variable {d : Build}

theorem stands_of_extended (h : b.quads.toList <+: c.quads.toList) :
    Stands b c := fun i q hq _ => by
  obtain ⟨rest, hrest⟩ := h
  rw [← Array.getElem?_toList] at hq ⊢
  grind

/-- Of the pool of all functions together, the function at hand is no part. -/
theorem pool_same (h : PoolHolds (fun _ => True) () [] c) (hsame : pool d = pool c) :
    PoolHolds (fun _ => True) () [] d := by
  have hview : Build.temps { d with function := c.function } = c.temps := by
    simp only [pool, Prod.mk.injEq] at hsame
    simp only [Build.temps, Prod.mk.injEq]
    exact ⟨trivial, hsame⟩
  have hholds := PoolHolds.same h hview
  exact ⟨⟨trivial, hholds.state.nodup, hholds.state.idle, hholds.state.reusable, hholds.state.used,
    hholds.state.labels⟩, hholds.operands⟩

/-- Places stay, and so does code. -/
theorem stable (h : Proceeds b c) : Placed b c ∧ Stands b c := by
  have next : ∀ {c d : Build}, Placed b c ∧ Stands b c → Placed c d → Stands c d →
    Placed b d ∧ Stands b d :=
    fun hbc hplaced hstands =>
      ⟨hbc.1.trans hplaced, fun i q hq hop => hstands i q (hbc.2 i q hq hop) hop⟩
  have kept : Stable (fun _ => True) (fun _ => True) (Kept fun _ => True) := Kept.stable
  induction h with
  | refl => exact ⟨.refl b, fun _ _ hq _ => hq⟩
  | part _ _ hend ih =>
    exact next ih (Placed.stable.part _ (fun _ _ => trivial) hend)
      (stands_of_extended (kept.part _ (fun _ _ => trivial) hend).quads)
  | declare _ hend ih =>
    exact next ih (Placed.declare _ _ hend) (stands_of_extended (kept.declare _ _ hend).quads)
  | initialise _ hend ih =>
    exact next ih (Placed.stable.keeps (S := []) (Placed.stable.walk.initialise _) hend)
      (stands_of_extended (kept.keeps (S := []) (kept.walk.initialise _) hend).quads)
  | storeValue _ hend ih =>
    exact next ih (Placed.exprStable.storeValue _ hend)
      (stands_of_extended (kept.storeValue _ hend).quads)
  | setFunction _ hend ih =>
    exact next ih (Placed.stable.setFunction _ hend)
      (stands_of_extended (kept.setFunction _ hend).quads)
  | endExpression _ hend ih =>
    exact next ih (Placed.stable.endExpression hend)
      (stands_of_extended (kept.endExpression hend).quads)
  | other _ hplaced hstands _ ih => exact next ih hplaced hstands

theorem direct (h : Proceeds b c) (on : Bool) : Proceeds b { c with direct := on } :=
  h.other (.same rfl rfl rfl) (fun _ _ hq _ => hq) rfl

/-- The pool stays sound. -/
theorem supplied (h : Proceeds {} b) : Supplied b := by
  -- The invariant of the pool is carried from step to step, for all functions at once.
  have hpool : PoolHolds (fun _ => True) () [] b := by
    induction h with
    | refl => exact pooled_start trivial
    | part _ hformed hend ih =>
      exact PoolHolds.walk.part _ hformed (fun _ _ => ⟨trivial, trivial⟩) ih hend
    | declare _ hend ih =>
      exact PoolHolds.exprWalk.declare (fun _ _ _ _ h => h.same rfl) _ _ ih hend
    | initialise _ hend ih => exact PoolHolds.walk.initialise _ ih hend
    | storeValue _ hend ih => exact PoolHolds.exprWalk.storeValue _ ih hend
    | setFunction _ hend ih => exact PoolHolds.setFunction trivial ih hend
    | endExpression _ hend ih => exact PoolHolds.endExpression ih hend
    | other _ _ _ hsame ih => exact pool_same ih hsame
  refine ⟨fun o ho => ?_, hpool.state.labels⟩
  obtain ⟨k, f, rfl, -⟩ := hpool.state.reusable o ho
  rfl

end Proceeds

/-! ## Sums of a program -/

/-- The expression `n + 2 * n - 1`. -/
def thriceLessOne : Expr :=
  .chain .additive (.access (.mk (.name 1 "n") []))
    [("+", .chain .multiplicative (.literal 1 (.plain "2"))
      [("*", .access (.mk (.name 1 "n") []))]),
      ("-", .literal 1 (.plain "1"))]

/-- A sum that was written between two moments, in the code of the whole program. -/
structure SumAt (b₀ b₁ b : Build) (i : Nat) (q : Quad) : Prop where
  behind : b₀.quads.size ≤ i
  before : i < b₁.quads.size
  quad : b.quads[i]? = some q
  op : q.op = .add

theorem Appends.size (h : Appends b c code) : c.quads.size = b.quads.size + code.length := by
  rw [← Array.length_toList, h.quads, List.length_append, Array.length_toList]

/-- Code that was written between two moments stands at its place in the whole program. -/
theorem Appends.kept (h : Appends b c code) (hstands : Stands c b')
    (hcode : ∀ q ∈ code, q.op ≠ .enter) {j : Nat} {q : Quad} (hq : code[j]? = some q) :
    b'.quads.toList[b.quads.size + j]? = some q := by
  rw [Array.getElem?_toList]
  refine hstands _ q ?_ (hcode q (List.mem_of_getElem? hq))
  rw [← Array.getElem?_toList, h.quads, ← Array.length_toList,
    List.getElem?_append_right (Nat.le_add_right _ _),
    Nat.add_sub_cancel_left]
  exact hq

/-- It is a piece of the code of the whole program. -/
theorem Appends.piece (h : Appends b c code) (hstands : Stands c b')
    (hcode : ∀ q ∈ code, q.op ≠ .enter) (hne : code ≠ []) : ∃ before after,
      before.length = b.quads.size ∧ b'.quads.toList = before ++ code ++ after := by
  have hpiece : (b'.quads.toList.drop b.quads.size).take code.length = code := by
    refine List.ext_getElem? fun j => ?_
    by_cases hj : j < code.length
    · rw [List.getElem?_take_of_lt hj, List.getElem?_drop, List.getElem?_eq_getElem hj]
      exact h.kept hstands hcode (List.getElem?_eq_getElem hj)
    · rw [List.getElem?_take_eq_none (Nat.not_lt.mp hj), List.getElem?_eq_none (Nat.not_lt.mp hj)]
  refine ⟨b'.quads.toList.take b.quads.size,
    (b'.quads.toList.drop b.quads.size).drop code.length, ?_, ?_⟩
  -- The program is long enough, since it has the first quadruple of the code.
  · have hfirst := h.kept hstands hcode (List.getElem?_eq_getElem (List.length_pos_of_ne_nil hne))
    grind
  · have hrest := List.take_append_drop code.length (b'.quads.toList.drop b.quads.size)
    rw [hpiece] at hrest
    rw [List.append_assoc, hrest, List.take_append_drop]

/-- **Sums are what their types say.** At any moment of a compilation that comes to an assembly
program, let an expression be read of whose sums enough can be seen. Then it has the type of its
kind, and every sum in its code is translated as that type asks: numbers are added, strings are
joined. The variables in it are lone in the end, no sum is of two places in the frame unless the
names of functions leave it to numbers, and no routine takes the place of a function. -/
theorem sums_agree {e : Expr} {vars : List String} {type? : Option Ty} {b₀ b₁ : Build}
    {p : Mips.Program} (hbefore : Proceeds {} b₀) (he : Ends (expr e) b₀ type? b₁)
    (hafter : Proceeds b₁ b) (hassembly : b.assembly? = some (.ok p))
    (hsight : (e.sight? kind vars b₀.direct).isSome = true)
    (hvars : ∀ x ∈ vars, b₀.Names x kind.type ∧ b.Lone x kind.type)
    (hframes : ∀ i q, SumAt b₀ b₁ b i q → Mips.Decided kind b.input.labels q)
    (hkept : ∀ l ∈ b.input.labels, Mips.Routine.replacement? l = none) :
    type? = some kind.type ∧ ∀ i q, SumAt b₀ b₁ b i q →
      ∃ block ∈ p.allBlocks, block.index = i ∧ block.quad = q ∧ Mips.Comes kind block.code := by
  -- The code of the expression can be told at the moment at which it is written.
  obtain ⟨k, hk⟩ := Option.isSome_iff_exists.mp hsight
  obtain ⟨code, happends, htold, -, htype⟩ :=
    expr_told (fun x hx => (hvars x hx).2) e [] hbefore.supplied
    (fun x hx => (hvars x hx).1) hk he hafter.stable.1
  have hp : Mips.Program.ofInput b.input = .ok p := by
    unfold Build.assembly? at hassembly
    split at hassembly
    · exact Option.some.inj hassembly
    · cases hassembly
  refine ⟨htype, fun i q hsum => ?_⟩
  obtain ⟨j, rfl⟩ := Nat.exists_eq_add_of_le hsum.behind
  have hj : j < code.length := by
    have hlt := hsum.before
    rw [happends.size] at hlt
    omega
  have henter : ∀ q ∈ code, q.op ≠ .enter := fun q hq => (htold.computes hq).2.1
  -- It stands in the finished program, in one piece.
  obtain ⟨before, after, hlength, hquads⟩ := happends.piece hafter.stable.2 henter
    (List.ne_nil_of_length_pos (Nat.zero_lt_of_lt hj))
  have hat : ∀ j q, code[j]? = some q → b.quads[b₀.quads.size + j]? = some q := fun j q hq => by
    rw [← Array.getElem?_toList]
    exact happends.kept hafter.stable.2 henter hq
  have hq : code[j]? = some q := by
    rw [List.getElem?_eq_getElem hj, ← hsum.quad]
    exact (hat j _ (List.getElem?_eq_getElem hj)).symm
  have hdecided : ∀ q ∈ code, q.op = .add → Mips.Decided kind b.input.labels q := fun q hq hop => by
    obtain ⟨j, hj⟩ := List.mem_iff_getElem?.mp hq
    refine hframes (b₀.quads.size + j) q ⟨Nat.le_add_right _ _, ?_, hat j q hj, hop⟩
    rw [happends.size]
    exact Nat.add_lt_add_left (List.getElem?_eq_some_iff.mp hj).1 _
  rw [← hlength]
  exact Mips.told_program hquads htold hdecided hkept hp hq hsum.op

/-- The sum in `let m: integer = n + 2 * n - 1;`, behind the declaration of `n`. -/
theorem sums_agree_assigned : ∃ b b₁ b₂ p,
    (∃ t, Ends (part (.stmt (.declare ⟨1, "n", some "integer", none⟩))) {} t b) ∧
    Ends (expr thriceLessOne) { b with direct := true } (some .integer) b₁ ∧ Proceeds b₁ b₂ ∧
    b₂.assembly? = some (.ok p) ∧ ∃ block ∈ p.allBlocks, block.index = 1 ∧
      block.quad = { op := .add, arg1 := .address 4096, arg2 := .temp 0, result := .temp 1 } ∧
      Mips.Adds block.code := by
  -- The program is read in pieces, up to the sum and from there to the end.
  obtain ⟨t, b, hb, hn, hsize, type?, b₁, h₁, hsize₁, r, b₂, h₂, b₃, h₃, hcode, hslots,
    hnumbers, p, hp, -⟩ : ∃ t b,
      Ends (part (.stmt (.declare ⟨1, "n", some "integer", none⟩))) {} t b ∧
      (b.table.lookupSymbol? "n").any Build.holdsNumber = true ∧ b.quads.size = 0 ∧
      ∃ type? b₁, Ends (expr thriceLessOne) { b with direct := true } type? b₁ ∧ b₁.quads.size = 3 ∧
      ∃ r b₂, Ends (declare 1 ⟨"m", 0, .variable { type? := some .integer }⟩)
        { b₁ with direct := false } r b₂ ∧
      ∃ b₃, Ends (initialise "m") b₂ () b₃ ∧
        b₃.quads.toList = [
          { op := .mul, arg1 := .text "2", arg2 := .address 4096, result := .temp 0 },
          { op := .add, arg1 := .address 4096, arg2 := .temp 0, result := .temp 1 },
          { op := .sub, arg1 := .temp 1, arg2 := .text "1", result := .temp 2 },
          { op := .copy, arg1 := .temp 2, result := .address 4100 }] ∧
        b₃.storage.slots = [("n", .address 4096), ("m", .address 4100)] ∧
        b₃.table.symbols.toList.all Build.holdsNumber = true ∧ ∃ p,
          b₃.assembly? = some (.ok p) ∧ True := by
    set_option synthInstance.maxSize 256 in
    decide +kernel
  have hbefore : Proceeds {} { b with direct := true } := by
    have hpart : ∀ u ∈ Part.uses (.stmt (.declare ⟨1, "n", some "integer", none⟩)), u.Formed := by
      intro u hu
      cases hu
    exact (Proceeds.refl.part hpart hb).direct true
  have hafter : Proceeds b₁ b₃ := ((Proceeds.refl.direct false).declare h₂).initialise h₃
  have hnames : Build.Names { b with direct := true } "n" .integer := by
    cases hs : b.table.lookupSymbol? "n" with
    | none =>
      rw [hs] at hn
      cases hn
    | some s =>
      rw [hs] at hn
      obtain ⟨v, hbody, htype⟩ := Build.exists_of_holdsNumber hn
      exact ⟨s, v, hs, hbody, htype⟩
  -- Both variables hold numbers and have addresses of their own.
  have hlone : b₃.Lone "n" .integer := by
    refine Build.lone_of_numbers (a := 4096) (by decide) (List.all_eq_true.mp hnumbers) ?_ ?_
    · unfold Storage.slot?
      rw [hslots]
      exact ⟨rfl, by decide⟩
    · rw [hslots]
      simp
  have hplain : ∀ q ∈ b₃.quads.toList, q.arg1.frameOffset?.isSome = false := by
    rw [hcode]
    decide
  have hsight : (thriceLessOne.sight? .number ["n"] true).isSome = true := by decide +kernel
  obtain ⟨htype, hsums⟩ := sums_agree hbefore h₁ hafter hp hsight
    (fun x hx => by rw [List.mem_singleton.mp hx]; exact ⟨hnames, hlone⟩)
    (fun i q hsum hframe => by
      have hq := hplain q (List.mem_of_getElem? (by rw [Array.getElem?_toList]; exact hsum.quad))
      cases hq.symm.trans hframe)
    (fun l hl => by
      unfold Mips.Input.labels Build.input at hl
      rw [hcode] at hl
      cases hl)
  refine ⟨b, b₁, b₃, p, ⟨t, hb⟩, htype ▸ h₁, hafter, hp, hsums 1 _ ⟨?_, ?_, ?_, rfl⟩⟩
  · show b.quads.size ≤ 1
    omega
  · rw [hsize₁]
    decide
  · rw [← Array.getElem?_toList, hcode]
    rfl

/-- A sum of two numbers is joined as if they were strings: both are loaded into temporaries, which
have no note. -/
theorem sum_of_numbers_joined : ∃ s b p,
    Source.ofText "print(1 + 2);" = .ok s ∧ Ends (statements s.program) {} () b ∧
    b.quads.toList = [{ op := .copy, arg1 := .text "1", result := .temp 0 },
      { op := .copy, arg1 := .text "2", result := .temp 1 },
      { op := .add, arg1 := .temp 0, arg2 := .temp 1, result := .temp 2 },
      { op := .printInt, arg1 := .temp 2, comment? := some "Print integer" }] ∧
    b.assembly? = some (.ok p) ∧
    ∃ block ∈ p.main, block.index = 2 ∧ block.quad.op = .add ∧ Mips.Joins block.code := by
  obtain ⟨s, b, hs, hb, hcode, p, hp, block, hblock, hindex, hop, before, hjoins⟩ :=
    Source.ends_of_read? statements
    "print(1 + 2);"
    (P := fun _ b => b.quads.toList = [{ op := .copy, arg1 := .text "1", result := .temp 0 },
        { op := .copy, arg1 := .text "2", result := .temp 1 },
        { op := .add, arg1 := .temp 0, arg2 := .temp 1, result := .temp 2 },
        { op := .printInt, arg1 := .temp 2, comment? := some "Print integer" }] ∧
      ∃ p, b.assembly? = some (.ok p) ∧ ∃ block ∈ p.main, block.index = 2 ∧ block.quad.op = .add ∧
        Mips.lines [.jal "__concat", .moveSp 8, .move (.t 2) (.v 0)] <:+ block.code)
          (by decide +kernel)
  exact ⟨s, b, p, hs, hb, hcode, hp, block, hblock, hindex, hop, before, _, hjoins.symm⟩

end Compile

end Scriptc
