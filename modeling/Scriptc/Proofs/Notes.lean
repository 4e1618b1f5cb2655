import Scriptc.Proofs.Selection

/-!
# Scriptc: what is noted of temporaries

The quadruples do not say which of their operands are strings. The choice of instructions notes what
it learns of temporaries on the way (`Select.types`, `Select.source`) and decides by these notes.

* `Select.joins` is the rule by which a sum is taken for the joining of strings; `isConcat_ends`
  says so.
* `arithmetic_ends` and `copy_ends` say what an operator and a copy come to: which code, and which
  note they leave. Apart from that only registers change.
* `quad_steady`, `label_ends`: only a label changes the function at hand.
-/

namespace Scriptc.Mips

variable {t : Select} {type : String}

/-- Whether an operand is a string by itself: the label of one, or the address of a variable with
some declaration as a string. -/
def Input.isString (input : Input) (o : Operand) : Bool :=
  o.isStringLabel || (o.hexValue?.bind (Select.nameAt? input.slots)).any fun n =>
    n ≠ "" && Select.declaredString input.table n

namespace Select

variable {α β : Type} {input : Input} {s s' : Select} {a b o : Operand}
    {f : Bool → SelectM β} {c : β}

/-- Whether a temporary is noted with the given type. -/
def isNoted (s : Select) (o : Operand) (type : String) : Bool :=
  o.isTempName && s.types.get? o.render = some type

/-- Whether a temporary was copied from the label of a string. -/
def isFromLabel (s : Select) (o : Operand) : Bool :=
  o.isTempName && (s.source.get? o.render).any Operand.isStringLabel

/-- Whether the name of the function at hand says that it works on strings. -/
def isStringNamed (s : Select) : Bool :=
  match s.function?.filter (· ≠ "") with
  | some f => stringWords.any (holds · (lower f))
  | none => false

/-- Whether a sum is taken for the joining of strings. Notes on temporaries come first, one of a
number before one of a string; then what the operands are by themselves. Of two places in the frame
nothing is known but the name of the function, and two temporaries without a note are taken for
strings. -/
def joins (input : Input) (s : Select) (a b : Operand) : Bool :=
  let known (o : Operand) : Bool := s.isNoted o "string" || s.isFromLabel o || o.isStringLabel
  let frame (o : Operand) : Bool := o.frameOffset?.isSome
  !(s.isNoted a "int" || s.isNoted b "int") &&
    (known a || known b || frame a && input.isString b || frame b && input.isString a
      || (frame a && frame b && s.isStringNamed
        || (a.beginsLikeTemp || input.isString a) && input.isString b
        || input.isString a && b.beginsLikeTemp || a.beginsLikeTemp && b.beginsLikeTemp))

@[grind =] theorem ends_isTempOfType_bind :
    Ends input (isTempOfType o type >>= f) s c s' ↔ Ends input (f (s.isNoted o type)) s c s' :=
  ends_bind_of_run rfl

@[grind =] theorem ends_isTempOfLabel_bind :
    Ends input (isTempOfLabel o >>= f) s c s' ↔ Ends input (f (s.isFromLabel o)) s c s' :=
  ends_bind_of_run rfl

@[grind =] theorem ends_inStringFunction_bind :
    Ends input (inStringFunction >>= f) s c s' ↔ Ends input (f s.isStringNamed) s c s' :=
  ends_bind_of_run rfl

theorem isString_ends {r : Bool} (h : Ends input (isString o) s r s') :
    r = input.isString o ∧ s' = s := by
  have hhex : o.isHex = false → o.hexValue? = none := by
    cases o <;> simp_all [Operand.isHex, Operand.hexValue?]
  unfold Select.isString at h
  unfold Input.isString
  grind

@[grind →] theorem ends_isString_bind (h : Ends input (isString o >>= f) s c s') :
    Ends input (f (input.isString o)) s c s' := by
  obtain ⟨r, s₁, hr, hf⟩ := ends_bind.mp h
  obtain ⟨rfl, rfl⟩ := isString_ends hr
  exact hf

/-- What decides where no temporary has a note and no operand is a label. -/
theorem plainConcat_ends {frameA frameB r : Bool} (h : Ends input (do
      let named ← inStringFunction
      if frameA && frameB && named then return true
      let aString ← isString a
      let bString ← isString b
      if aString && bString then return true
      if aString then return b.beginsLikeTemp
      if bString then return a.beginsLikeTemp
      return a.beginsLikeTemp && b.beginsLikeTemp) s r s') :
    r = (frameA && frameB && s.isStringNamed ||
      (a.beginsLikeTemp || input.isString a) && input.isString b
      || input.isString a && b.beginsLikeTemp || a.beginsLikeTemp &&
        b.beginsLikeTemp) ∧ s' = s := by
  rw [Bool.eq_iff_iff]
  simp only [Bool.or_eq_true, Bool.and_eq_true]
  grind

/-- A place in the frame next to a string is one. -/
theorem framedConcat_ends {frame r : Bool} {rest : SelectM Bool}
    (h : Ends input (if frame = true then do if ← isString o then pure true else
      rest else rest) s r s') :
    (frame && input.isString o) = true ∧ r = true ∧ s' = s ∨
      (frame && input.isString o) = false ∧ Ends input rest s r s' := by
  grind

/-- The rule by which a sum is taken for the joining of strings. -/
theorem isConcat_ends {r : Bool} (h : Ends input (isConcat a b) s r s') :
    r = joins input s a b ∧ s' = s := by
  -- The tests stand in the order of the rule; each that fails leaves the rest to the next.
  unfold isConcat at h
  unfold joins
  rw [ends_isTempOfType_bind, ends_isTempOfType_bind] at h
  split at h
  · rename_i hint
    rw [hint]
    exact ends_pure.mp h
  rename_i hint
  rw [ends_isTempOfType_bind, ends_isTempOfType_bind] at h
  split at h
  · grind
  rename_i hnoted
  rw [ends_isTempOfLabel_bind, ends_isTempOfLabel_bind] at h
  split at h
  · grind
  rename_i hfrom
  split at h
  · grind
  rename_i hlabel
  rcases framedConcat_ends h with ⟨hb, rfl, rfl⟩ | ⟨hb, h⟩
  · simp_all
  rcases framedConcat_ends h with ⟨ha, rfl, rfl⟩ | ⟨ha, h⟩
  · simp_all
  obtain ⟨rfl, rfl⟩ := plainConcat_ends h
  refine ⟨?_, rfl⟩
  simp only [Bool.not_eq_true, Bool.or_eq_false_iff] at hint hnoted hfrom hlabel
  simp only [hint, hnoted, hfrom, hlabel, ha, hb, Bool.or_false, Bool.false_or,
    Bool.not_false, Bool.true_and]

/-! ## What a quadruple leaves behind -/

namespace RegsOnly

variable {t u : Select}

theorem function? (h : RegsOnly s t) : t.function? = s.function? := by rw [h]

theorem skipping (h : RegsOnly s t) : t.skipping = s.skipping := by rw [h]

theorem types (h : RegsOnly s t) : t.types = s.types := by rw [h]

end RegsOnly

/-- The state with a note on the type of a temporary. -/
def note (s : Select) (o : Operand) (type : String) : Select :=
  if o.isTempName then { s with types := s.types.put o.render type } else s

/-- The state with a note on what a temporary was copied from. -/
def noteSource (s : Select) (value target : Operand) : Select :=
  { s with
    source := s.source.put target.render value
    types := if value.isStringLabel || s.isNoted value "string" then
      s.types.put target.render "string"
      else s.types }

theorem RegsOnly.note (h : RegsOnly s t) (o : Operand) (type : String) :
    RegsOnly (s.note o type) (t.note o type) := by
  unfold RegsOnly Select.note at *
  split
  · rw [h]
  · exact h

theorem RegsOnly.noteSource (h : RegsOnly s t) (value target : Operand) :
    RegsOnly (s.noteSource value target) (t.noteSource value target) := by
  unfold RegsOnly Select.noteSource Select.isNoted at *
  rw [h]

/-- A step that notes a type at its end, if the operand is a temporary. -/
theorem ends_noteType {f : SelectM β}
    (h : Ends input (if o.isTempName then (setType o type >>= fun _ => f) else f) s c s') :
    Ends input f (s.note o type) c s' := by
  unfold Select.note
  split at h
  · rename_i htemp
    rw [if_pos htemp]
    exact ends_modify_bind.mp h
  · rename_i htemp
    rw [if_neg htemp]
    exact h

end Select

/-! ### Sums -/

/-- Whether an instruction brings a value into a register. -/
def Instr.isLoad : Instr → Bool
  | .li _ _ | .mem .lw _ _ | .mem .la _ _ => true
  | _ => false

/-- Code that brings values into registers and adds two registers. -/
def Adds (code : List Line) : Prop :=
  ∃ loads d l r, code = loads ++ [.code (.alu .add d l r)] ∧ ∀ line ∈ loads,
    line.instr?.any Instr.isLoad = true

/-- Code that ends with a call that joins two strings, and takes its result. -/
def Joins (code : List Line) : Prop :=
  ∃ before d, code = before ++ lines [.jal "__concat", .moveSp 8, .move d (.v 0)]

namespace Select

variable {code : List Line} {q : Quad}

theorem loadOperand_loads {r : Reg} {ls : List Line} (h : Ends input (loadOperand o r) s ls s') :
    ∀ line ∈ ls, line.instr?.any Instr.isLoad = true := by
  unfold loadOperand at h
  split at h
  · rw [(ends_pure.mp h).1]
    exact List.forall_mem_nil _
  split at h
  · rw [(ends_pure.mp h).1]
    simp [loadFrame, Line.noted, Line.instr?, Instr.isLoad, Instr.lw]
  split at h
  · obtain ⟨l, s₁, -, h⟩ := ends_bind.mp h
    rw [(ends_pure.mp h).1]
    split <;> simp [Line.instr?, Instr.isLoad]
  split at h
  · rw [(ends_pure.mp h).1]
    simp [Line.instr?, Instr.isLoad]
  · obtain ⟨l, s₁, -, h⟩ := ends_bind.mp h
    rw [(ends_pure.mp h).1]
    simp [Line.instr?, Instr.isLoad, Instr.lw]

theorem concat_ends (h : Ends input (concat q) s code s') :
    Joins code ∧ RegsOnly (s.note q.result "string") s' := by
  simp only [concat, ends_bind] at h
  obtain ⟨d, s₁, h₁, second, s₂, h₂, first, s₃, h₃, h⟩ := h
  obtain ⟨rfl, rfl⟩ := ends_pure.mp (ends_noteType h)
  refine ⟨⟨_, d, rfl⟩, ?_⟩
  exact (((RegsOnly.reg _ h₁).trans (RegsOnly.loadPiece _ _ h₂)).trans
    (RegsOnly.loadPiece _ _ h₃)).note _ _

/-- The instructions of an operator on numbers, whose result is noted as a number. -/
theorem compute_ends (h : Ends input (do
      let d ← reg q.result
      let (a, b) ← operandRegs d q.arg1 q.arg2
      let first ← loadOperand q.arg1 a
      let second ← loadOperand q.arg2 b
      if q.result.isTempName then setType q.result "int"
      let op := match aluOp? q.op with
        | some op => [Line.code (.alu op d a b)]
        | none => [.code (.div a b), .noted (.mflo d) "quotient"]
      return first ++ second ++ op) s code s') :
    (q.op = .add → Adds code) ∧ RegsOnly (s.note q.result "int") s' := by
  simp only [ends_bind] at h
  obtain ⟨d, s₁, h₁, ⟨a, b⟩, s₂, h₂, first, s₃, h₃, second, s₄, h₄, h⟩ := h
  obtain ⟨rfl, rfl⟩ := ends_pure.mp (ends_noteType h)
  constructor
  · intro hop
    rw [hop]
    refine ⟨first ++ second, d, a, b, rfl, ?_⟩
    exact List.forall_mem_append.mpr ⟨loadOperand_loads h₃, loadOperand_loads h₄⟩
  · exact ((((RegsOnly.reg _ h₁).trans (RegsOnly.operandRegs _ _ _ h₂)).trans
      (RegsOnly.loadOperand _ _ h₃)).trans (RegsOnly.loadOperand _ _ h₄)).note _ _

/-- What an arithmetic operator comes to. -/
theorem arithmetic_ends (hop : q.op ∈ [.add, .sub, .mul, .div])
    (hmember : isMemberAddress q = false) (h : Ends input (arithmetic q) s code s') :
    if q.op = .add ∧ joins input s q.arg1 q.arg2 = true then
      Joins code ∧ RegsOnly (s.note q.result "string") s'
    else (q.op = .add → Adds code) ∧ RegsOnly (s.note q.result "int") s' := by
  obtain ⟨op, a, b, target, comment?⟩ := q
  unfold arithmetic at h
  rw [hmember, if_neg Bool.false_ne_true] at h
  simp only [List.mem_cons, List.not_mem_nil, or_false] at hop
  rcases hop with rfl | rfl | rfl | rfl
  · obtain ⟨r, s₁, hr, h⟩ := ends_bind.mp h
    obtain ⟨rfl, rfl⟩ := isConcat_ends hr
    split at h
    · rename_i hjoins
      rw [if_pos ⟨rfl, hjoins⟩]
      exact concat_ends h
    · rename_i hjoins
      rw [if_neg fun hboth => hjoins hboth.2]
      exact compute_ends h
  all_goals
    rw [if_neg nofun]
    exact compute_ends h

/-! ### Copies -/

theorem noteCopy_ends {value target : Operand} {u : Unit}
    (h : Ends input (noteCopy value target) s u s') :
    s' = s.noteSource value target := by
  unfold noteCopy setType at h
  unfold Select.noteSource
  grind [Select.isNoted]

/-- A copy to a temporary notes where it comes from. -/
theorem copy_ends (h : Ends input (copy q) s code s') :
    RegsOnly (if q.result.isTempName then s.noteSource q.arg1 q.result else s) s' := by
  obtain ⟨⟨value, remark⟩, s₁, hvalue, hrest⟩ := ends_bind.mp h
  by_cases htemp : q.result.isTempName = true
  · -- What goes to a temporary is copied as it is, without looking for another place.
    have hsame : value = q.arg1 ∧ s₁ = s := by
      unfold copiedValue at hvalue
      grind
    rw [hsame.1, hsame.2] at hrest
    rw [if_pos htemp]
    dsimp only at hrest
    rw [if_pos htemp] at hrest
    obtain ⟨d, s₂, hd, hrest⟩ := ends_bind.mp hrest
    have hregs : ∃ (s₃ : Select) (p : Reg × List Line), RegsOnly s₂ s₃ ∧ Ends input (do
        noteCopy q.arg1 q.result
        return remark ++ p.2 ++ if p.1 = d then [] else [Line.code (.move d p.1)]) s₃ code s' := by
      split at hrest
      · obtain ⟨r, s₃, hr, hrest⟩ := ends_bind.mp hrest
        exact ⟨s₃, (r, []), RegsOnly.reg _ hr, by rwa [pure_bind] at hrest⟩
      · obtain ⟨load, s₃, hload, hrest⟩ := ends_bind.mp hrest
        exact ⟨s₃, (d, load), RegsOnly.loadValue _ _ hload, by rwa [pure_bind] at hrest⟩
    obtain ⟨s₃, p, hs₃, hrest⟩ := hregs
    obtain ⟨_, s₄, hnote, hrest⟩ := ends_bind.mp hrest
    obtain ⟨-, rfl⟩ := ends_pure.mp hrest
    rw [noteCopy_ends hnote]
    exact ((RegsOnly.targetReg _ _ hd).trans hs₃).noteSource _ _
  · rw [if_neg htemp]
    refine (RegsOnly.copiedValue _ _ hvalue).trans ?_
    dsimp only at hrest
    rw [if_neg htemp] at hrest
    split at hrest
    · exact RegsOnly.bind (.reg _)
        (fun _ => .bind (.pure _) fun _ => .bind (.storeTo _ _ _) fun _ => .pure _)
        hrest
    · exact RegsOnly.bind .scratch (fun _ => .bind (.loadValue _ _) fun _ =>
        .bind (.pure _) fun _ =>
        .bind (.storeTo _ _ _) fun _ => .pure _) hrest

/-! ### Any quadruple -/

/-- The function at hand is the same, and no routine has taken the place of one. -/
structure Steady (s s' : Select) : Prop where
  function? : s'.function? = s.function?
  skipping : s'.skipping = s.skipping

theorem RegsOnly.steady (h : RegsOnly s t) : Steady s t := ⟨h.function?, h.skipping⟩

theorem RegsOnly.steady_note (h : RegsOnly (s.note o type) t) : Steady s t := by
  refine ⟨h.function?.trans ?_, h.skipping.trans ?_⟩ <;> unfold Select.note <;> split <;> rfl

theorem arithmetic_steady (hop : q.op ∈ [.add, .sub, .mul, .div]) :
    Keeps Steady (arithmetic q) := by
  intro input s code s' h
  by_cases hmember : isMemberAddress q = true
  · unfold arithmetic at h
    rw [if_pos hmember] at h
    exact (RegsOnly.memberAddress q h).steady
  · have hends := arithmetic_ends hop (Bool.not_eq_true _ |>.mp hmember) h
    split at hends
    · exact hends.2.steady_note
    · exact hends.2.steady_note

theorem copy_steady (q : Quad) : Keeps Steady (copy q) := by
  intro input s code s' h
  have hends := copy_ends h
  split at hends
  · exact ⟨hends.function?, hends.skipping⟩
  · exact hends.steady

theorem popResult_steady (o : Operand) : Keeps Steady (popResult o) := by
  intro input s code s' h
  unfold popResult at h
  dsimp only at h
  split at h
  · obtain ⟨r, s₁, h₁, h⟩ := ends_bind.mp h
    rw [ends_modify_bind] at h
    obtain ⟨-, rfl⟩ := ends_pure.mp h
    exact ⟨(RegsOnly.reg _ h₁).function?, (RegsOnly.reg _ h₁).skipping⟩
  · obtain ⟨l, s₁, h₁, h⟩ := ends_bind.mp h
    rw [ends_modify_bind] at h
    obtain ⟨-, rfl⟩ := ends_pure.mp h
    exact ⟨(RegsOnly.memoryLabel _ h₁).function?, (RegsOnly.memoryLabel _ h₁).skipping⟩

theorem function_steady (q : Quad) : Keeps Steady (function q) := by
  have regs {m : SelectM (List Line)} (hm : Keeps RegsOnly m) : Keeps Steady m :=
    fun _ _ _ _ h => (hm h).steady
  unfold function
  split
  · exact regs (.enter q)
  · exact regs .leave
  · exact regs (.pushArg _)
  · exact regs (.call q)
  · exact popResult_steady _
  · exact regs (.ret _)
  · split <;> exact regs (.pure _)
  · exact regs (.pure _)

/-- A quadruple that is no label goes on in the same function. -/
theorem quad_steady (hop : q.op ≠ .label) (hskip : s.skipping = false)
    (h : Ends input (quad q) s code s') : Steady s s' := by
  have regs {m : SelectM (List Line)} (hm : Keeps RegsOnly m) (h : Ends input m s code s') :
    Steady s s' :=
    (hm h).steady
  unfold quad at h
  rw [ends_get_bind, hskip, if_neg Bool.false_ne_true] at h
  split at h
  · split at h
    · exact function_steady q h
    · exact arithmetic_steady (by simp [*]) h
  iterate 3 exact arithmetic_steady (by simp [*]) h
  · exact copy_steady q h
  · exact regs (.deref q) h
  iterate 6 exact regs (.comparison q) h
  iterate 3 exact regs (.logical q) h
  · split at h
    · exact regs (.negate q) h
    · exact regs (.pure _) h
  · exact regs (.remainder q) h
  iterate 4 exact regs (.jump q) h
  iterate 8 exact function_steady q h
  · exact absurd ‹_› hop
  iterate 2 exact regs (.print q) h
  · exact regs (.loadWord q) h
  · exact regs (.storeWord q) h
  · exact regs (.pure _) h

/-- A label may begin a function, which becomes the one at hand. -/
theorem label_ends (hkept : Routine.replacement? q.result.toLabel = none)
    (h : Ends input (label q) s code s') :
    s'.skipping = s.skipping ∧
      (s'.function? = s.function? ∨ s'.function? = some q.result.toLabel) := by
  unfold label at h
  dsimp only at h
  rw [hkept] at h
  split at h
  · grind
  · grind

end Select

end Scriptc.Mips
