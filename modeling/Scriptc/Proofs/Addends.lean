import Scriptc.Proofs.Blocks
import Scriptc.Proofs.Pool

/-!
# Scriptc: sums that can be told apart

Whether a sum adds numbers or joins strings is not in its quadruple, and the translation finds it
out from the operands. `Sight` is what can be seen of an operand: a note on its temporary, a place
or a constant that says by itself what it is, or nothing. `Addend.tells` says which operands are
enough. Where nothing is seen an older note on the same temporary may decide, so nothing can be
promised.

`Told` is code in which all sums can be told. The translation of such code adds where numbers are
added and joins where strings are joined (`told_blocks`, `told_program`). Of two places in the frame
only the name of the function tells, and `Decided` says where that is right.
-/

namespace Scriptc

variable {code : List Quad} {q : Quad}

/-- What a sum is of. -/
inductive Addend where
  | number
  | text
  deriving DecidableEq, Repr

/-- What can be seen of an operand. -/
inductive Sight where
  /-- It is in a temporary that has been noted. -/
  | noted
  /-- It says by itself what it is. -/
  | placed
  /-- It is in a temporary that may have an older note. -/
  | bare
  deriving DecidableEq, Repr

namespace Addend

def type : Addend → Ty
  | number => .integer
  | text => .string

def isText : Addend → Bool
  | number => false
  | text => true

/-- How the translation notes a temporary. -/
def note : Addend → String
  | number => "int"
  | text => "string"

/-- Whether the operands of a sum tell what it is of. -/
def tells : Addend → Sight → Sight → Bool
  | number, k, l => k = .noted || l = .noted || k = .placed && l = .placed
  | text, k, l => k ≠ .bare && l ≠ .bare

/-- Whether an operation notes its result. -/
def notes : Addend → Op → Bool
  | number, op => op ∈ [.add, .sub, .mul, .div]
  | text, op => op ∈ [.add, .copy]

/-- The temporaries that code has noted. -/
def noted (kind : Addend) (code : List Quad) : List Operand :=
  (code.filter (kind.notes ·.op)).map Quad.result

theorem mem_noted_append {kind : Addend} {code' : List Quad} {o : Operand} :
    o ∈ kind.noted (code ++ code') ↔ o ∈ kind.noted code ∨ o ∈ kind.noted code' := by
  unfold noted
  rw [List.filter_append, List.map_append, List.mem_append]

theorem mem_noted_snoc {kind : Addend} {o : Operand} :
    o ∈ kind.noted (code ++ [q]) ↔ o ∈ kind.noted code ∨ kind.notes q.op = true ∧ o = q.result := by
  rw [mem_noted_append]
  unfold noted
  by_cases hq : kind.notes q.op = true <;> simp [hq]

end Addend

namespace Mips

open Select (Ends RegsOnly ends_get_bind)
variable {labels : List String} {k l : Sight}

/-- Whether the name of a function says that it works on strings. -/
def namesStrings (f : String) : Bool := Select.stringWords.any (Select.holds · (Select.lower f))

/-- An operand that says by itself whether it is a string, or a place in the frame, which says
nothing. -/
def Input.Shows (input : Input) (kind : Addend) (o : Operand) : Prop :=
  o.beginsLikeTemp = false ∧ ((∃ n, o = .frame n) ∨ input.isString o = kind.isText)

variable {input : Input} {kind : Addend} {s s' : Select} {a b o : Operand} {before : List Quad}

/-- What is seen of an operand behind some code. -/
def Seen (input : Input) (kind : Addend) (code : List Quad) : Sight → Operand → Prop
  | .noted, o => o ∈ kind.noted code ∧ o.isTempName = true
  | .placed, o => input.Shows kind o
  | .bare, _ => True

/-- A quadruple behind some code. If it is a sum, it can be told what of. -/
inductive Fits (input : Input) (kind : Addend) (code : List Quad) : Quad → Prop where
  | sum {k l : Sight} {a b t : Operand} (htells : kind.tells k l = true)
      (ha : Seen input kind code k a)
    (hb : Seen input kind code l b) (ht : t.isTempName = true) :
    Fits input kind code { op := .add, arg1 := a, arg2 := b, result := t }
  | operator {op : Op} {a b t : Operand} (hkind : kind = .number) (hop : op ∈ [.sub, .mul, .div])
    (ht : t.isTempName = true) :
    Fits input kind code { op := op, arg1 := a, arg2 := b, result := t }
  | other {op : Op} {a b t : Operand} (hkind : kind = .number) (hop : op ∈ [.mod, .neg]) :
    Fits input kind code { op := op, arg1 := a, arg2 := b, result := t }
  | constant {a t : Operand} (ha : a.isTempName = false) (hlabel : a.isStringLabel = kind.isText)
    (ht : t.isTempName = true) : Fits input kind code { op := .copy, arg1 := a, result := t }

/-- Code behind other code, whose sums can be told. -/
def Told (input : Input) (kind : Addend) : List Quad → List Quad → Prop
  | _, [] => True
  | code, q :: rest => Fits input kind code q ∧ Told input kind (code ++ [q]) rest

theorem told_append {c₁ c₂ : List Quad} :
    Told input kind code (c₁ ++ c₂) ↔
      Told input kind code c₁ ∧ Told input kind (code ++ c₁) c₂ := by
  induction c₁ generalizing code with
  | nil => simp [Told]
  | cons q c₁ ih => simp [Told, ih, and_assoc]

theorem Seen.append (h : Seen input kind code k o) (more : List Quad) :
    Seen input kind (code ++ more) k o := by
  cases k with
  | noted => exact ⟨Addend.mem_noted_append.mpr (.inl h.1), h.2⟩
  | placed => exact h
  | bare => trivial

/-! ## The rule on such operands -/

theorem beginsLikeTemp_of_isTempName (h : o.isTempName = true) : o.beginsLikeTemp = true := by
  cases o with
  | temp k => rfl
  | text s =>
    rw [Operand.isTempName] at h
    split at h
    · rename_i ds hs
      show Affix.begins s "t" = true
      unfold Affix.begins
      rw [hs]
      rfl
    · cases h
  | _ => cases h

/-- The notes that code has left. -/
def Notes (kind : Addend) (code : List Quad) (s : Select) : Prop :=
  ∀ o ∈ kind.noted code, s.types.get? o.render = some kind.note

theorem isNoted_iff {type : String} : s.isNoted o type = true ↔
    o.isTempName = true ∧ s.types.get? o.render = some type := by
  unfold Select.isNoted
  rw [Bool.and_eq_true_iff, decide_eq_true_iff]

theorem Input.Shows.isTempName (h : input.Shows kind o) : o.isTempName = false := by
  refine Bool.eq_false_iff.mpr fun hname => ?_
  cases h.1.symm.trans (beginsLikeTemp_of_isTempName hname)

/-- An operand that is no temporary has no note. -/
theorem Input.Shows.not_temp (h : input.Shows kind o) :
    (∀ type, s.isNoted o type = false) ∧ s.isFromLabel o = false := by
  unfold Select.isNoted Select.isFromLabel
  rw [h.isTempName]
  exact ⟨fun _ => rfl, rfl⟩

theorem Input.Shows.isString_number (h : input.Shows .number o) :
    input.isString o = false ∧ o.isStringLabel = false := by
  have hstring : input.isString o = false := by
    rcases h.2 with ⟨n, rfl⟩ | hstring
    · rfl
    · exact hstring
  exact ⟨hstring, (Bool.or_eq_false_iff.mp hstring).1⟩

/-- Numbers that can be told are not taken for strings, unless the name of the function says so of
two places in its frame. -/
theorem joins_number (htells : Addend.number.tells k l = true) (ha : Seen input .number code k a)
    (hb : Seen input .number code l b) (hs : Notes .number code s)
    (hjoins : s.joins input a b = true) :
    a.frameOffset?.isSome = true ∧ b.frameOffset?.isSome = true ∧ s.isStringNamed = true := by
  have hnoted : ∀ o, Seen input .number code .noted o → s.isNoted o "int" = true := fun o ho =>
    isNoted_iff.mpr ⟨ho.2, hs o ho.1⟩
  unfold Select.joins at hjoins
  dsimp only at hjoins
  by_cases hk : k = .noted
  · grind
  by_cases hl : l = .noted
  · grind
  have hplaced : k = .placed ∧ l = .placed := by
    simpa [Addend.tells, hk, hl] using htells
  obtain ⟨rfl, rfl⟩ := hplaced
  obtain ⟨hstringA, hlabelA⟩ := Input.Shows.isString_number ha
  obtain ⟨hstringB, hlabelB⟩ := Input.Shows.isString_number hb
  simp only [(Input.Shows.not_temp ha).1, (Input.Shows.not_temp ha).2, (Input.Shows.not_temp hb).1,
    (Input.Shows.not_temp hb).2, hstringA, hlabelA, hstringB, hlabelB, ha.1, hb.1, Bool.or_false,
    Bool.and_false, Bool.not_false, Bool.true_and, Bool.false_or,
    Bool.and_eq_true] at hjoins
  exact ⟨hjoins.1.1, hjoins.1.2, hjoins.2⟩

/-- Strings that can be told are taken for strings, except for two places in the frame. -/
theorem joins_text (htells : Addend.text.tells k l = true)
    (ha : Seen input .text code k a) (hb : Seen input .text code l b) (hs : Notes .text code s)
    (hjoins : s.joins input a b = false) :
    a.frameOffset?.isSome = true ∧ b.frameOffset?.isSome = true := by
  have hnoted : ∀ o, Seen input .text code .noted o →
      s.isNoted o "string" = true ∧ s.isNoted o "int" = false := fun o ho => by
    have htype := hs o ho.1
    refine ⟨isNoted_iff.mpr ⟨ho.2, htype⟩, Bool.eq_false_iff.mpr fun hint => ?_⟩
    exact absurd (htype.symm.trans (isNoted_iff.mp hint).2) (by decide)
  -- No operand is noted as a number, so the rest of the rule decides.
  have hint : ∀ {m o}, m ≠ Sight.bare → Seen input .text code m o → s.isNoted o "int" = false := by
    intro m o hm ho
    cases m with
    | noted => exact (hnoted o ho).2
    | placed => exact (Input.Shows.not_temp ho).1 _
    | bare => exact absurd rfl hm
  have hbare : k ≠ .bare ∧ l ≠ .bare := by simpa [Addend.tells] using htells
  unfold Select.joins at hjoins
  simp only [hint hbare.1 ha, hint hbare.2 hb, Bool.or_false, Bool.not_false, Bool.true_and,
    Bool.or_eq_false_iff] at hjoins
  obtain ⟨⟨⟨⟨hknownA, hknownB⟩, hframeA⟩, hframeB⟩, ⟨⟨-, hstrings⟩, -⟩, -⟩ := hjoins
  have hk : k = .placed := by
    cases k with
    | noted => cases (hnoted a ha).1.symm.trans hknownA.1.1
    | placed => rfl
    | bare => exact absurd rfl hbare.1
  have hl : l = .placed := by
    cases l with
    | noted => cases (hnoted b hb).1.symm.trans hknownB.1.1
    | placed => rfl
    | bare => exact absurd rfl hbare.2
  subst hk hl
  -- Two operands that say what they are: a place in the frame next to a string is taken for one.
  rcases ha.2 with ⟨n, rfl⟩ | hstringA <;> rcases hb.2 with ⟨m, rfl⟩ | hstringB
  · exact ⟨rfl, rfl⟩
  · rw [hstringB] at hframeA
    cases hframeA
  · rw [hstringA] at hframeB
    cases hframeB
  · rw [hstringA, hstringB, show Addend.text.isText = true from rfl, Bool.or_true] at hstrings
    cases hstrings

/-! ## Translating -/

/-- What the code of a sum should be. -/
def Comes : Addend → List Line → Prop
  | .number, code => Adds code
  | .text, code => Joins code

/-- Of two places in the frame only the name of the function tells, so a sum of two such is one of
numbers in a program where no function is named for strings. -/
def Decided (kind : Addend) (labels : List String) (q : Quad) : Prop :=
  q.arg1.frameOffset?.isSome = true → q.arg2.frameOffset?.isSome = true →
    kind = .number ∧ ∀ f ∈ labels, namesStrings f = false

/-- A temporary that gets a note of the kind has it, and those that had one still do. -/
theorem Notes.put {t : Select} (h : Notes kind code s)
    (htypes : t.types = s.types.put q.result.render kind.note) : Notes kind (code ++ [q]) t := by
  intro o ho
  rw [htypes]
  by_cases hkey : o.render = q.result.render
  · rw [hkey, Assoc.get?_put_self]
  · rw [Assoc.get?_put_of_ne _ _ hkey]
    rcases Addend.mem_noted_snoc.mp ho with ho | ⟨-, rfl⟩
    · exact h o ho
    · exact absurd rfl hkey

/-- A quadruple that leaves no note of the kind. -/
theorem Notes.same {t : Select} (h : Notes kind code s)
    (hq : kind.notes q.op = false) (htypes : t.types = s.types) : Notes kind (code ++ [q]) t := by
  intro o ho
  rw [htypes]
  rcases Addend.mem_noted_snoc.mp ho with ho | ⟨hnotes, -⟩
  · exact h o ho
  · cases hq.symm.trans hnotes

theorem types_note {type : String} (h : o.isTempName = true) :
    (s.note o type).types = s.types.put o.render type := by
  unfold Select.note
  rw [if_pos h]

/-- A constant that is no string leaves no note. -/
theorem types_noteSource_of_plain {target : Operand} (htemp : o.isTempName = false)
    (hlabel : o.isStringLabel = false) : (s.noteSource o target).types = s.types := by
  unfold Select.noteSource Select.isNoted
  rw [hlabel, htemp]
  rfl

theorem types_noteSource_of_label {target : Operand} (hlabel : o.isStringLabel = true) :
    (s.noteSource o target).types = s.types.put target.render "string" := by
  unfold Select.noteSource
  rw [hlabel]
  rfl

theorem not_isStackPointer (h : o.isTempName = true) : o.isStackPointer = false := by
  cases o with
  | text t =>
    obtain ⟨ds, hds⟩ := Operand.toList_of_isTempName (s := t) h rfl
    unfold Operand.isStackPointer
    grind
  | _ => rfl

theorem Select.Calm.named (hs : s.Calm labels) (h : s.isStringNamed = true) :
    ∃ f ∈ labels, namesStrings f = true := by
  unfold Select.isStringNamed at h
  split at h
  · rename_i f hf
    exact ⟨f, hs.function f (Option.filter_eq_some_iff.mp hf).1, h⟩
  · cases h

/-- The sum of a state whose operands tell is what it should be, and is noted so. -/
theorem sum_ends {t : Operand} {code : List Line}
    (htells : kind.tells k l = true) (ha : Seen input kind before k a)
    (hb : Seen input kind before l b)
    (hdecided : Decided kind labels { op := .add, arg1 := a, arg2 := b, result := t })
    (hs : s.Calm labels) (hnotes : Notes kind before s)
    (hend : Ends input
      (Select.arithmetic { op := .add, arg1 := a, arg2 := b, result := t }) s code s') :
    Comes kind code ∧ RegsOnly (s.note t kind.note) s' := by
  have hends := Select.arithmetic_ends (by simp) rfl hend
  dsimp only at hends
  cases kind with
  | number =>
    -- They could be joined only by the name of the function, which is one of the labels.
    have hjoins : s.joins input a b = false := by
      refine Bool.eq_false_iff.mpr fun hjoins => ?_
      obtain ⟨hframeA, hframeB, hnamed⟩ := joins_number htells ha hb hnotes hjoins
      obtain ⟨f, hf, hwords⟩ := hs.named hnamed
      cases ((hdecided hframeA hframeB).2 f hf).symm.trans hwords
    rw [hjoins, if_neg (by simp)] at hends
    exact ⟨hends.1 rfl, hends.2⟩
  | text =>
    have hjoins : s.joins input a b = true := by
      refine Bool.not_eq_false _ |>.mp fun hjoins => ?_
      obtain ⟨hframeA, hframeB⟩ := joins_text htells ha hb hnotes hjoins
      cases (hdecided hframeA hframeB).1
    rw [hjoins, if_pos ⟨rfl, rfl⟩] at hends
    exact hends

/-- What fits is translated as it should be, and leaves its note. -/
theorem Fits.quad {code : List Line} (h : Fits input kind before q)
    (hdecided : q.op = .add → Decided kind labels q) (hs : s.Calm labels)
    (hnotes : Notes kind before s) (hend : Ends input (Select.quad q) s code s') :
    Notes kind (before ++ [q]) s' ∧ (q.op = .add → Comes kind code) := by
  unfold Select.quad at hend
  rw [ends_get_bind, hs.skipping, if_neg Bool.false_ne_true] at hend
  cases h with
  -- A sum: what is noted of its operands decides.
  | sum htells ha hb ht =>
    dsimp only at hend
    rw [not_isStackPointer ht, Bool.and_false, if_neg Bool.false_ne_true] at hend
    obtain ⟨hcode, hregs⟩ := sum_ends htells ha hb (hdecided rfl) hs hnotes hend
    exact ⟨hnotes.put (hregs.types.trans (types_note ht)), fun _ => hcode⟩
  | operator hkind hop ht =>
    subst hkind
    simp only [List.mem_cons, List.not_mem_nil, or_false] at hop
    rcases hop with rfl | rfl | rfl
    all_goals
      have hends := Select.arithmetic_ends (by simp) rfl hend
      rw [if_neg (by simp)] at hends
      exact ⟨hnotes.put (hends.2.types.trans (types_note ht)), nofun⟩
  | other hkind hop =>
    subst hkind
    simp only [List.mem_cons, List.not_mem_nil, or_false] at hop
    rcases hop with rfl | rfl
    -- These leave no note, which is where numbers are not seen.
    · exact ⟨hnotes.same rfl (RegsOnly.remainder _ hend).types, nofun⟩
    · dsimp only at hend
      split at hend
      · exact ⟨hnotes.same rfl (RegsOnly.negate _ hend).types, nofun⟩
      · exact ⟨hnotes.same rfl (RegsOnly.pure _ hend).types, nofun⟩
  -- A number is loaded without a note, a string with one.
  | constant ha hlabel ht =>
    have hregs := Select.copy_ends hend
    rw [if_pos ht] at hregs
    refine ⟨?_, nofun⟩
    cases kind with
    | number => exact hnotes.same rfl (hregs.types.trans (types_noteSource_of_plain ha hlabel))
    | text => exact hnotes.put (hregs.types.trans (types_noteSource_of_label hlabel))

/-- Such code has no labels and no frames. -/
theorem Told.computes {rest : List Quad} (h : Told input kind before rest) (hq : q ∈ rest) :
    q.op ≠ .label ∧ q.op ≠ .enter ∧ q.op ≠ .leave := by
  induction rest generalizing before with
  | nil => cases hq
  | cons q' rest ih =>
    rcases List.mem_cons.mp hq with rfl | hq
    · cases h.1 with
      | sum => exact ⟨nofun, nofun, nofun⟩
      | operator hkind hop ht =>
        grind
      | other hkind hop =>
        grind
      | constant => exact ⟨nofun, nofun, nofun⟩
    · exact ih h.2 hq

/-- Code whose sums can be told is translated so that each of them is what it should be. -/
theorem told_blocks {rest : List Quad} {i : Nat} {bs : List Block} (h : Told input kind before rest)
    (hdecided : ∀ q ∈ rest, q.op = .add → Decided kind input.labels q)
    (hkept : ∀ l ∈ input.labels, Routine.replacement? l = none)
    (hs : s.Calm input.labels) (hnotes : Notes kind before s)
    (hend : Ends input (Program.blocks (rest.zipIdx i)) s bs s') :
    ∀ j q, rest[j]? = some q → q.op = .add →
      ∃ block ∈ bs, block.index = i + j ∧ block.quad = q ∧ Comes kind block.code := by
  induction rest generalizing before s i bs with
  | nil => nofun
  | cons q rest ih =>
    rw [List.zipIdx_cons] at hend
    obtain ⟨code, s₁, later, hcode, hlater, rfl⟩ := Program.blocks_cons_ends.mp hend
    obtain ⟨hnotes₁, hcomes⟩ := h.1.quad (hdecided q (.head _)) hs hnotes hcode
    have hs₁ : s₁.Calm input.labels :=
      hs.quad (fun hop => absurd hop (h.computes (.head _)).1) hkept hcode
    have hrest := ih h.2 (fun q' hq' => hdecided q' (.tail _ hq')) hs₁ hnotes₁ hlater
    intro j q' hq' hop
    cases j with
    | zero =>
      cases hq'
      exact ⟨_, (.head _), rfl, rfl, hcomes hop⟩
    | succ j =>
      grind

/-- Such code in a program: every sum is a block of its own, and what it should be. -/
theorem told_program {after : List Quad} {p : Program}
    (hquads : input.quads = before ++ code ++ after) (h : Told input kind [] code)
    (hdecided : ∀ q ∈ code, q.op = .add → Decided kind input.labels q)
    (hkept : ∀ l ∈ input.labels, Routine.replacement? l = none) (hp : Program.ofInput input = .ok p)
    {j : Nat} (hq : code[j]? = some q) (hop : q.op = .add) :
    ∃ block ∈ p.allBlocks, block.index = before.length + j ∧ block.quad = q ∧
      Comes kind block.code := by
  have hnumbered : input.quads.zipIdx = before.zipIdx ++ code.zipIdx before.length ++
      after.zipIdx (before ++ code).length := by
    rw [hquads, List.zipIdx_append, List.zipIdx_append, Nat.zero_add, Nat.zero_add]
  have hplain : ∀ e ∈ code.zipIdx before.length,
      Program.functionLabel? e.1 = none ∧ e.1.op ≠ .leave := fun e he => by
    have hcomputes := h.computes (List.fst_mem_of_mem_zipIdx he)
    refine ⟨?_, hcomputes.2.2⟩
    unfold Program.functionLabel?
    rw [decide_eq_false hcomputes.1, Bool.false_and, if_neg Bool.false_ne_true]
  obtain ⟨s, bs, s', hs, hbs, hall⟩ := Program.segment_ends hnumbered hplain hkept hp
  have hnone : Notes kind [] s := nofun
  obtain ⟨block, hblock, hindex, hquad, hcomes⟩ :=
    told_blocks h hdecided hkept hs hnone hbs j q hq hop
  exact ⟨block, hall block hblock, hindex, hquad, hcomes⟩

end Mips

end Scriptc
