import Mathlib.Data.List.Nodup
import Scriptc.Proofs.ExprStable

/-!
# Scriptc: what the elementary steps of code generation do

Each step that makes a label, appends a quadruple or notes a value completes in exactly one way. The
lemmas say so as equivalences of `Ends`, so that a sequence of such steps is carried out by
rewriting.

Steps that hand out temporaries and places write no code, report nothing and leave the names alone:
`Silent`. `Free` and `TempsOk` say which temporaries may be handed out, and `newTemp_spec` what
becomes of them.
-/

namespace Scriptc

open Build (Ends Keeps ends_bind ends_get_bind ends_modify ends_modify_bind ends_pure ends_read
  ends_read_bind ends_set_bind ends_throw)
variable {body : BuildM Unit} {name : String}

namespace Loops

/-- Some loop is around, by the flag or by the count. -/
def Any (n : Loops) : Prop := n.inside = true ∨ n.depth ≠ 0

/-- The flag tells what the count does. -/
def Sound (n : Loops) : Prop := n.inside = true ↔ 0 < n.depth

/-- There are as many loops around as before. A flag that was wrong about them may have been put
right. -/
structure Kept (n m : Loops) : Prop where
  depth : m.depth = n.depth
  inside : m.inside = n.inside ∨ m.inside = true ∧ n.depth ≠ 0

namespace Kept

variable {n m k : Loops}

theorem refl (n : Loops) : Kept n n := ⟨rfl, .inl rfl⟩

theorem of_eq (h : m = n) : Kept n m := h ▸ refl n

theorem trans (h : Kept n m) (h' : Kept m k) : Kept n k := by
  refine ⟨h'.depth.trans h.depth, ?_⟩
  rcases h'.inside with hsame | ⟨htrue, hne⟩
  · rw [hsame]
    exact h.inside
  · exact .inr ⟨htrue, h.depth ▸ hne⟩

/-- What is entered is left again. -/
theorem leave (h : Kept n.enter m) : Kept n (m.leave n) := by
  have hdepth : m.depth - 1 = n.depth := by rw [h.depth]; rfl
  refine ⟨hdepth, ?_⟩
  show (n.inside || decide (m.depth - 1 > 0)) = n.inside ∨
    (n.inside || decide (m.depth - 1 > 0)) = true ∧ _
  rw [hdepth]
  by_cases hzero : n.depth = 0
  · simp [hzero]
  · exact .inr ⟨by simp [Nat.pos_of_ne_zero hzero], hzero⟩

theorem any (h : Kept n m) (hm : m.Any) : n.Any := by
  rcases hm with hinside | hdepth
  · rcases h.inside with hsame | ⟨-, hne⟩
    · exact .inl (hsame ▸ hinside)
    · exact .inr hne
  · exact .inr (h.depth ▸ hdepth)

/-- A flag that was right is as it was. -/
theorem eq_of_sound (h : Kept n m) (hn : n.Sound) : m = n := by
  have hinside : m.inside = n.inside := by
    rcases h.inside with hsame | ⟨htrue, hne⟩
    · exact hsame
    · rw [htrue, hn.mpr (Nat.pos_of_ne_zero hne)]
  obtain ⟨i, d⟩ := m
  obtain ⟨j, e⟩ := n
  rw [show i = j from hinside, show d = e from h.depth]

end Kept

end Loops

namespace Emit

variable {b b' : Build} {u : Unit} {o t : Operand}

@[simp, grind =] theorem ends_quad {q : Quad} :
    Ends (quad q) b u b' ↔ b' = { b with quads := b.quads.push q } :=
  ends_modify

@[simp, grind =] theorem ends_setValue : Ends (setValue o) b u b' ↔ b' = { b with value := o } :=
  ends_modify

@[simp, grind =] theorem ends_newLabel : Ends newLabel b o b' ↔
    o = .label b.labelCount ∧ b' = { b with labelCount := b.labelCount + 1 } := by
  unfold newLabel
  rw [ends_get_bind, ends_set_bind, ends_pure]

theorem quads_quad {q : Quad} (h : Ends (quad q) b u b') : b'.quads = b.quads.push q := by
  rw [ends_quad.mp h]

/-- The result of an operation is noted twice. -/
@[simp, grind =] theorem ends_finish : Ends (finish t) b o b' ↔
    o = t ∧ b' = { b with value := t, lastTemp := t } := by
  unfold finish setValue setLastTemp
  rw [ends_modify_bind, ends_modify_bind, ends_pure]

/-! ## What the other steps can do -/

/-- Room in storage is made, and nothing else. -/
theorem allocate_ends {alloc : Storage → Slot × Storage} (h : Ends (allocate alloc) b o b') :
    ∃ a, (alloc b.storage).1 = .address a ∧ o = .ofAddress a ∧
      b' = { b with storage := (alloc b.storage).2 } := by
  unfold allocate absolute at h
  grind

@[simp, grind =] theorem ends_newFrame {function : String} {id : FrameId} :
    Ends (newFrame function) b id b' ↔
    id = b.frames.size ∧ b' = { b with
      frames := b.frames.push { function := function }
      frameOf := b.frameOf.put function b.frames.size
      frame? := some b.frames.size } := by
  unfold newFrame
  rw [ends_get_bind]
  dsimp only
  rw [ends_set_bind, ends_pure]

/-- A name has a place in the frame already, or it is added to the frame. -/
theorem frameSlot_ends {id : FrameId} {type? : Option Ty}
    (h : Ends (frameSlot id name type?) b o b') :
    (∃ n, (b.frames.getD id default).offset? name = some n ∧ o = .frame n ∧ b' = b) ∨
    ((b.frames.getD id default).offset? name = none ∧
      ∃ function slot, o = .frame (((b'.frames.getD id default).offset? name).getD 0) ∧
        b' = { b with
          frames := b.frames.modify id (·.addLocal name type?)
          storage := { b.storage with
            slots := b.storage.slots.put (Storage.localKey function name) slot } }) := by
  unfold frameSlot at h
  replace h := ends_read_bind.mp h
  split at h
  · grind
  · refine .inr ⟨‹_›, ?_⟩
    unfold modifyFrame at h
    rw [ends_modify_bind] at h
    replace h := ends_read_bind.mp h
    grind

/-- A string constant has a label already, or it gets the next one. -/
theorem stringLabel_ends {literal l : String} (h : Ends (stringLabel literal) b l b') :
    (b.strings.get? literal = some l ∧ b' = b) ∨
    (l = (Operand.string b.stringCount).render ∧ b' = { b with
      strings := b.strings.put literal l, stringCount := b.stringCount + 1 }) := by
  unfold stringLabel at h
  grind

/-- Inside of a loop its targets are known, behind it those from before. -/
theorem withLoop_ends {l : Loop} (h : Ends (withLoop l body) b u b') :
    ∃ c, Ends body { b with loop? := some l } () c ∧ b' = { c with loop? := b.loop? } := by
  unfold withLoop at h
  grind [ends_bind]

/-- A jump to a target of the loop at hand, if there is one. -/
theorem leaveTo_ends {target : Loop → Operand} (h : Ends (leaveTo target) b o b') :
    b.loop? = none ∧ b' = b ∨
    ∃ l, b.loop? = some l ∧
      b' = { b with quads := b.quads.push { op := .goto, result := target l } } := by
  unfold leaveTo jump at h
  grind [ends_bind]

/-- A temporary comes from the pool, or it is a new one. -/
theorem newTemp_ends (h : Ends newTemp b t b') :
    ∃ counts rest, b' = { b with tempCounts := counts, reusable := rest, lastTemp := t } ∧
      rest ⊆ b.reusable ∧ (t ∈ b.reusable ∨ ∃ k, t = .temp k) := by
  unfold newTemp at h
  rw [ends_get_bind] at h
  dsimp only at h
  split at h
  · grind
  · grind

/-- The labels of string constants are numbered. -/
def StringsLabelled (b : Build) : Prop :=
  ∀ s l, b.strings.get? s = some l → ∃ k, l = (Operand.string k).render

theorem StringsLabelled.stringLabel {literal l : String} (hb : StringsLabelled b)
    (h : Ends (stringLabel literal) b l b') :
    (∃ k, l = (Operand.string k).render) ∧ StringsLabelled b' := by
  rcases stringLabel_ends h with ⟨hl, rfl⟩ | ⟨rfl, rfl⟩
  · exact ⟨hb _ _ hl, hb⟩
  · refine ⟨⟨_, rfl⟩, fun s l hget => ?_⟩
    by_cases heq : s = literal
    · rw [heq, Assoc.get?_put_self] at hget
      exact ⟨_, (Option.some.inj hget).symm⟩
    · rw [Assoc.get?_put_of_ne _ _ heq] at hget
      exact hb s l hget

/-- An object is given room, and then its address is loaded. -/
theorem newObject_ends {cls : String} (h : Ends (newObject cls) b o b') :
    ∃ layouts storage a, Ends (do
      let t ← newTemp
      quad { op := .copy, arg1 := .ofAddress a, result := t }
      setValue t
      return t) { b with layouts := layouts, storage := storage } o b' := by
  unfold newObject at h
  rw [ends_get_bind] at h
  dsimp only at h
  rw [ends_set_bind] at h
  exact ⟨_, _, _, h⟩

/-- What an object changes besides temporaries: a class without a layout gets an empty one, room is
made as the layout says, and its address is loaded. -/
theorem newObject_storage {cls : String} (h : Ends (newObject cls) b o b') :
    b'.table = b.table ∧
    b'.storage = (b.storage.allocHeap ((b.layouts.get? cls).getD {}).size).2 ∧
    (b'.layouts = if b.layouts.contains cls then b.layouts else b.layouts.put cls {}) ∧
    b'.quads = b.quads.push
      { op := .copy, arg1 := .ofAddress (Storage.align b.storage.nextHeap), result := o } := by
  unfold newObject at h
  rw [ends_get_bind] at h
  dsimp only at h
  rw [ends_set_bind] at h
  obtain ⟨t, b₁, htemp, h⟩ := ends_bind.mp h
  obtain ⟨counts, rest, rfl, -, -⟩ := newTemp_ends htemp
  obtain ⟨_, b₂, hquad, h⟩ := ends_bind.mp h
  obtain rfl := ends_quad.mp hquad
  obtain ⟨_, b₃, hset, h⟩ := ends_bind.mp h
  obtain rfl := ends_setValue.mp hset
  obtain ⟨rfl, rfl⟩ := ends_pure.mp h
  refine ⟨rfl, rfl, ?_, rfl⟩
  dsimp only
  split
  · rfl
  · rename_i hnone
    rw [Option.not_isSome_iff_eq_none.mp hnone]
    rfl

/-! ## Steps without code -/

/-- Only temporaries, places and the value at hand have changed. -/
structure Silent (b b' : Build) : Prop where
  table : b'.table = b.table
  errors : b'.errors = b.errors
  warnings : b'.warnings = b.warnings
  quads : b'.quads = b.quads
  labelCount : b'.labelCount = b.labelCount
  loops : b'.loops = b.loops
  inClass? : b'.inClass? = b.inClass?
  loop? : b'.loop? = b.loop?
  routine? : b'.routine? = b.routine?
  function : b'.function = b.function
  inFunction? : b'.inFunction? = b.inFunction?
  unreachable : b'.unreachable = b.unreachable

namespace Silent

variable {c d : Build}

theorem refl (b : Build) :
    Silent b b := ⟨rfl, rfl, rfl, rfl, rfl, rfl, rfl, rfl, rfl, rfl, rfl, rfl⟩

theorem trans (h₁ : Silent b c) (h₂ : Silent c d) : Silent b d where
  table := h₂.table.trans h₁.table
  errors := h₂.errors.trans h₁.errors
  warnings := h₂.warnings.trans h₁.warnings
  quads := h₂.quads.trans h₁.quads
  labelCount := h₂.labelCount.trans h₁.labelCount
  loops := h₂.loops.trans h₁.loops
  inClass? := h₂.inClass?.trans h₁.inClass?
  loop? := h₂.loop?.trans h₁.loop?
  routine? := h₂.routine?.trans h₁.routine?
  function := h₂.function.trans h₁.function
  inFunction? := h₂.inFunction?.trans h₁.inFunction?
  unreachable := h₂.unreachable.trans h₁.unreachable

theorem say (line : String) : Keeps Silent (Build.say line) :=
  Keeps.modify fun _ => { refl _ with }

theorem setValue (o : Operand) : Keeps Silent (Emit.setValue o) :=
  Keeps.modify fun _ => { refl _ with }

theorem setLastTemp (o : Operand) : Keeps Silent (Emit.setLastTemp o) :=
  Keeps.modify fun _ => { refl _ with }

theorem endExpression : Keeps Silent Emit.endExpression :=
  Keeps.modify fun _ => { refl _ with }

theorem setDirect (on : Bool) : Keeps Silent (Emit.setDirect on) :=
  Keeps.modify fun _ => { refl _ with }

theorem newTemp : Keeps Silent Emit.newTemp := by
  intro b t b' h
  obtain ⟨counts, rest, rfl, -, -⟩ := newTemp_ends h
  exact { refl b with }

theorem use (o : Operand) : Keeps Silent (Emit.use o) := by
  refine Keeps.modify fun b => ?_
  split
  · exact { refl _ with }
  · exact refl b

theorem release (o : Operand) : Keeps Silent (Emit.release o) := by
  refine Keeps.modify fun b => ?_
  split
  · exact { refl _ with }
  · exact refl b

theorem allocate (alloc : Storage → Slot × Storage) : Keeps Silent (Emit.allocate alloc) := by
  intro b o b' h
  obtain ⟨a, -, -, rfl⟩ := allocate_ends h
  exact { refl _ with }

theorem newFrame (function : String) : Keeps Silent (Emit.newFrame function) := by
  intro b id b' h
  obtain ⟨-, rfl⟩ := ends_newFrame.mp h
  exact { refl _ with }

theorem modifyFrame (id : FrameId) (f : Frame → Frame) : Keeps Silent (Emit.modifyFrame id f) :=
  Keeps.modify fun _ => { refl _ with }

theorem frameSlot (id : FrameId) (name : String) (type? : Option Ty) :
    Keeps Silent (Emit.frameSlot id name type?) := by
  intro b o b' h
  rcases frameSlot_ends h with ⟨n, -, -, rfl⟩ | ⟨-, _, _, -, hb'⟩
  · exact refl _
  · rw [hb']
    exact { refl _ with }

theorem stringLabel (literal : String) : Keeps Silent (Emit.stringLabel literal) := by
  intro b l b' h
  rcases stringLabel_ends h with ⟨-, rfl⟩ | ⟨-, rfl⟩
  · exact refl _
  · exact { refl _ with }

end Silent

end Emit

namespace Compile

open Emit (Silent)
variable {R : Build → Build → Prop}

/-- To make an object is a step without code, before its address is loaded. -/
theorem CodeStable.newObject_of_silent (h : CodeStable R)
    (silent : ∀ b c, Silent b c → R b c) (cls : String) : Keeps R (Emit.newObject cls) := by
  intro b o b' hend
  obtain ⟨layouts, storage, a, hload⟩ := Emit.newObject_ends hend
  have hsilent : Silent b { b with layouts := layouts, storage := storage } :=
    { Silent.refl _ with }
  refine h.trans _ _ _ (silent _ _ hsilent) (h.bind h.newTemp (fun t => ?_) hload)
  exact h.bind (h.quad _ rfl) fun _ => h.bind (h.setValue t) fun _ => h.pure t

section
variable (refl : ∀ b, R b b) (trans : ∀ b c d, R b c → R c d → R b d) (silent : ∀ b c,
    Silent b c → R b c)
  (error : ∀ line text, Keeps R (Build.error line text))
include refl trans silent error

/-- What steps without code, reports and appended code keep, every step of an expression keeps. -/
theorem CodeStable.of_silent
    (quad : ∀ q : Quad, q.op.isPlain = true → Keeps R (Emit.quad q))
    (shortCircuit : ∀ test constant left right,
      test.isTest = true →
        Keeps R (Emit.shortCircuit test constant left right)) : CodeStable R where
  refl := refl
  trans := trans
  error := error
  say line := (Silent.say line).mono silent
  newTemp := Silent.newTemp.mono silent
  use o := (Silent.use o).mono silent
  release o := (Silent.release o).mono silent
  setValue o := (Silent.setValue o).mono silent
  setLastTemp o := (Silent.setLastTemp o).mono silent
  quad := quad
  shortCircuit := shortCircuit
  allocGlobal _ _ hend := silent _ _ (Silent.allocate _ hend)
  allocArray _ _ hend := silent _ _ (Silent.allocate _ hend)
  frameSlot id name type? := (Silent.frameSlot id name type?).mono silent
  newFrame function := (Silent.newFrame function).mono silent
  modifyFrame id f := (Silent.modifyFrame id f).mono silent
  stringLabel literal := (Silent.stringLabel literal).mono silent

/-- So it is where all appended code is kept that is no jump. -/
theorem ExprStable.of_silent {ok : Expr → Prop}
    (quad : ∀ q : Quad, q.op.isJump = false → Keeps R (Emit.quad q))
    (operator : ∀ {level first rest}, ok (.chain level first rest) → ∀ p ∈ rest,
      ∀ left right result,
      Keeps R (Emit.quad { op := .ofText p.1, arg1 := left, arg2 := right, result := result }))
    (shortCircuit : ∀ test constant left right,
      test.isTest = true → Keeps R (Emit.shortCircuit test constant left right)) :
        ExprStable ok R where
  toCodeStable := .of_silent refl trans silent error (fun q hq => quad q (Op.isJump_of_isPlain hq))
    shortCircuit
  stack q hq := quad q (Op.isJump_of_isStack hq)
  newObject := CodeStable.newObject_of_silent (.of_silent refl trans silent error
    (fun q hq => quad q (Op.isJump_of_isPlain hq)) shortCircuit) silent
  operator := operator

/-- And it is where all appended code is kept. -/
theorem ExprStable.of_quads {ok : Expr → Prop} (label : Keeps R Emit.newLabel)
    (quad : ∀ q, Keeps R (Emit.quad q)) : ExprStable ok R :=
  .of_silent refl trans silent error (fun q _ => quad q) (fun _ _ _ _ _ _ => quad _)
    fun test constant left right _ => by
      have seq {α β : Type} {m : BuildM α} {f : α → BuildM β} (hm : Keeps R m)
        (hf : ∀ a, Keeps R (f a)) :
        Keeps R (m >>= f) := .bind trans hm hf
      unfold Emit.shortCircuit Emit.finish Emit.jump Emit.mark
      refine seq (Silent.newTemp.mono silent) fun t => seq label fun short =>
        seq label fun done => ?_
      refine seq (quad _) fun _ => seq (quad _) fun _ => seq (quad _) fun _ => ?_
      refine seq (quad _) fun _ => seq (quad _) fun _ => seq (quad _) fun _ => ?_
      exact seq ((Silent.setValue t).mono silent) fun _ =>
        seq ((Silent.setLastTemp t).mono silent) fun _ => .pure refl t

end

end Compile

namespace Emit

variable {b b' c : Build} {o t : Operand} {u : Unit} {result? : Option Ty} {r : RoutineCode}

/-! ## Functions -/

/-- The size of a frame, as it is written. -/
def sizeOperand (b : Build) (frame : FrameId) : Operand :=
  .text (toString (b.frames.getD frame default).size)

/-- How the code of a function ends: with a return, if it gives no value, and the closing of its
frame. -/
def IsEnding (ending : Array Quad) : Prop :=
  ending = #[{ op := .leave }] ∨ ending = #[{ op := .ret }, { op := .leave }]

theorem IsEnding.mem {ending : Array Quad} (h : IsEnding ending) :
    ∀ q ∈ ending, q = { op := .ret } ∨ q = { op := .leave } := by
  rcases h with rfl | rfl <;> simp

/-- The code of a function is its label, the opening of its frame, the code of its body and an
ending without labels. The size of the frame is written into the opening at last. -/
theorem routine_ends {frame : FrameId} {label : Operand}
    (h : Ends (routine name frame label result? body) b r b') :
    ∃ ending d,
      Ends body { b with
        quads := (b.quads.push { op := .label, result := label }).push
          { op := .enter, arg1 := sizeOperand b frame }
        routine? := some ⟨name, frame⟩ } () d ∧
      b' = { d with
        quads := d.quads.modify (b.quads.size + 1)
          ({ · with arg1 := sizeOperand d frame }) ++ ending
        routine? := b.routine?, frame? := none, function := "global" } ∧
      IsEnding ending := by
  unfold routine at h
  obtain ⟨_, b₁, hmark, h⟩ := ends_bind.mp h
  rw [ends_get_bind] at h
  obtain ⟨f, b₂, hframe, h⟩ := ends_bind.mp h
  obtain ⟨_, b₃, henter, h⟩ := ends_bind.mp h
  rw [ends_get_bind, ends_modify_bind] at h
  obtain ⟨_, d, hbody, h⟩ := ends_bind.mp h
  obtain ⟨f', b₅, hframe', htail⟩ := ends_bind.mp h
  obtain rfl := ends_quad.mp hmark
  obtain ⟨rfl, rfl⟩ := ends_read.mp hframe
  obtain rfl := ends_quad.mp henter
  obtain ⟨rfl, rfl⟩ := ends_read.mp hframe'
  rw [ends_modify_bind] at htail
  dsimp only at htail
  split at htail
  · obtain ⟨_, b₇, hret, htail⟩ := ends_bind.mp htail
    obtain ⟨_, b₈, hleave, htail⟩ := ends_bind.mp htail
    rw [ends_modify_bind, ends_pure] at htail
    obtain rfl := ends_quad.mp hret
    obtain rfl := ends_quad.mp hleave
    refine ⟨#[{ op := .ret }, { op := .leave }], _, hbody, ?_, .inr rfl⟩
    rw [htail.2, Array.size_push]
    rfl
  · obtain ⟨_, b₈, hleave, htail⟩ := ends_bind.mp htail
    rw [ends_modify_bind, ends_pure] at htail
    obtain rfl := ends_quad.mp hleave
    refine ⟨#[{ op := .leave }], _, hbody, ?_, .inl rfl⟩
    rw [htail.2, Array.size_push]
    rfl

/-- The code of a function, with the opening of its frame as it is at last. -/
theorem toList_modify_opening {before after ending : Array Quad} {first opening : Quad}
    {code : List Quad} (g : Quad → Quad)
    (h : after.toList = before.toList ++ first :: opening :: code) :
    (after.modify (before.size + 1) g ++ ending).toList =
      before.toList ++ first :: g opening :: (code ++ ending.toList) := by
  rw [Array.toList_append, Array.toList_modify, h, ← Array.length_toList]
  show (List.modifyTailIdx _ _ _) ++ _ = _
  rw [List.modifyTailIdx_add, List.append_assoc]
  rfl

/-- What is printed of a frame changes nothing else. -/
theorem sayFrame_ends {cls method : String} {f : Frame} (h : Ends (sayFrame cls method f) b u b') :
    ∃ log, b' = { b with log := log } := by
  have hentries : ∀ (ps : List FrameEntry) (text : FrameEntry → String) {b b' : Build} {u : PUnit},
      Ends (ps.forM fun p => Build.say (text p)) b u b' → ∃ log, b' = { b with log := log } := by
    intro ps text
    induction ps with
    | nil =>
      intro b b' u h
      exact ⟨b.log, (ends_pure.mp h).2⟩
    | cons p ps ih =>
      intro b b' u h
      obtain ⟨_, b₁, hsay, hrest⟩ := ends_bind.mp h
      obtain rfl := ends_modify.mp hsay
      grind
  unfold sayFrame Build.say at h
  rw [ends_modify_bind, ends_modify_bind] at h
  obtain ⟨_, b₁, hparams, hlast⟩ := ends_bind.mp h
  obtain ⟨log, rfl⟩ := hentries _ _ hparams
  obtain rfl := ends_modify.mp hlast
  exact ⟨_, rfl⟩

theorem push_modify_last (fs : Array Frame) (f : Frame) (g : Frame → Frame) :
    (fs.push f).modify fs.size g = fs.push (g f) := by
  apply Array.ext
  · simp
  · grind

/-- A function is given a frame with its parameters, and then its code is written. -/
theorem function_ends {ps : List (String × Option Ty)}
    (h : Ends (function name ps result? body) b r b') :
    ∃ frameOf, Ends (routine name b.frames.size (functionLabel name) result? body) { b with
      frames := b.frames.push (Frame.addParams { function := name } ps)
      frameOf := frameOf
      frame? := some b.frames.size } r b' := by
  unfold function modifyFrame at h
  obtain ⟨id, b₁, hframe, h⟩ := ends_bind.mp h
  obtain ⟨rfl, rfl⟩ := ends_newFrame.mp hframe
  rw [ends_modify_bind] at h
  dsimp only at h
  rw [push_modify_last] at h
  exact ⟨_, h⟩

/-- A method is given a frame with the object it works on and its parameters, and then its code is
written. -/
theorem method_ends {cls : String} {ps : List (String × Option Ty)}
    (h : Ends (method cls name ps result? body) b r b') :
    ∃ counts frameOf log,
      Ends (routine (methodKey cls name) b.frames.size (methodLabel cls name) result? body) { b with
        function := methodKey cls name
        tempCounts := counts
        reusable := []
        used := []
        lastTemp := .none
        frames := b.frames.push
          ((Frame.addParam { function := methodKey cls name } thisParam none).addParams ps)
        frameOf := frameOf
        frame? := some b.frames.size
        log := log } r b' := by
  unfold method setFunction modifyFrame at h
  dsimp only at h
  rw [ends_modify_bind] at h
  obtain ⟨id, b₁, hframe, h⟩ := ends_bind.mp h
  obtain ⟨rfl, rfl⟩ := ends_newFrame.mp hframe
  rw [ends_modify_bind] at h
  replace h := ends_read_bind.mp h
  obtain ⟨_, b₃, hsay, h⟩ := ends_bind.mp h
  obtain ⟨log, rfl⟩ := sayFrame_ends hsay
  dsimp only at h
  rw [push_modify_last] at h
  exact ⟨_, _, log, h⟩

/-! ## Temporaries -/

/-- How many temporaries the function at hand has used. -/
def tempCount (b : Build) : Nat := (b.tempCounts.get? b.function).getD 0

/-- A temporary that may be handed out. -/
def Free (b : Build) (k : Nat) : Prop := .temp k ∈ b.reusable ∨ tempCount b ≤ k

/-- Only temporaries that have been handed out before are handed out again, each once. -/
structure TempsOk (b : Build) : Prop where
  nodup : b.reusable.Nodup
  below : ∀ o ∈ b.reusable, ∃ k, o = .temp k ∧ k < tempCount b

/-- No code is written, nothing gets a place, and no temporary becomes free. -/
structure Idle (b b' : Build) : Prop extends Silent b b' where
  storage : b'.storage = b.storage
  free : ∀ k, Free b' k → Free b k
  temps : TempsOk b → TempsOk b'

namespace Idle

/-- A step that leaves the temporaries alone too. -/
theorem of_silent (h : Silent b b') (storage : b'.storage = b.storage)
    (counts : b'.tempCounts = b.tempCounts) (reusable : b'.reusable = b.reusable) : Idle b b' where
  toSilent := h
  storage := storage
  free k hk := by
    unfold Free tempCount at hk ⊢
    rwa [counts, reusable, h.function] at hk
  temps ht := by
    refine ⟨reusable ▸ ht.nodup, fun o ho => ?_⟩
    unfold tempCount
    rw [counts, h.function]
    exact ht.below o (reusable ▸ ho)

theorem refl (b : Build) : Idle b b := of_silent (.refl b) rfl rfl rfl

theorem trans (h₁ : Idle b c) (h₂ : Idle c b') : Idle b b' where
  toSilent := h₁.toSilent.trans h₂.toSilent
  storage := h₂.storage.trans h₁.storage
  free k hk := h₁.free k (h₂.free k hk)
  temps ht := h₂.temps (h₁.temps ht)

theorem setValue (h : Ends (Emit.setValue o) b u b') : Idle b b' := by
  obtain rfl := ends_setValue.mp h
  exact of_silent (.setValue o h) rfl rfl rfl

theorem setDirect {on : Bool} (h : Ends (Emit.setDirect on) b u b') : Idle b b' := by
  have hsilent := Silent.setDirect on h
  obtain rfl := ends_modify.mp h
  exact of_silent hsilent rfl rfl rfl

theorem endExpression (h : Ends Emit.endExpression b u b') : Idle b b' := by
  have hsilent := Silent.endExpression h
  obtain rfl := ends_modify.mp h
  exact of_silent hsilent rfl rfl rfl

theorem finish (h : Ends (Emit.finish t) b o b') : Idle b b' := by
  rw [(ends_finish.mp h).2]
  exact of_silent { refl _ with } rfl rfl rfl

/-- A temporary that is needed is no longer handed out. -/
theorem use (h : Ends (Emit.use o) b u b') : Idle b b' := by
  have hsilent := Silent.use o h
  have hb' := ends_modify.mp h
  split at hb'
  · subst hb'
    refine ⟨hsilent, rfl, fun k hk => ?_, fun ht => ⟨ht.nodup.erase _, fun o' ho' => ?_⟩⟩
    · exact hk.imp_left List.mem_of_mem_erase
    · exact ht.below o' (List.mem_of_mem_erase ho')
  · exact hb' ▸ refl b

end Idle

theorem tempCount_of_put {n : Nat} (hcounts : b'.tempCounts = b.tempCounts.put b.function n)
    (hfunction : b'.function = b.function) : tempCount b' = n := by
  unfold tempCount
  rw [hcounts, hfunction, Assoc.get?_put_self]
  rfl

theorem value_use (h : Ends (use o) b u b') : b'.value = b.value := by
  rw [ends_modify.mp h]
  split <;> rfl

/-- A new temporary was free and is not any more. -/
theorem newTemp_spec (ht : TempsOk b) (h : Ends newTemp b t b') :
    ∃ k, t = .temp k ∧ Free b k ∧ ¬ Free b' k ∧ Idle b b' ∧ b'.value = b.value := by
  have hsilent := Silent.newTemp h
  unfold newTemp at h
  rw [ends_get_bind] at h
  dsimp only at h
  split at h
  -- A temporary that was released is taken out of the pool.
  · rename_i t₀ rest hreusable
    rw [ends_set_bind, ends_pure] at h
    obtain ⟨rfl, hb'⟩ := h
    have hcount : tempCount b' = tempCount b := by
      exact tempCount_of_put (by rw [hb']; rfl) (by rw [hb'])
    have hrest : b'.reusable = rest := by rw [hb']
    obtain ⟨k, rfl, hk⟩ := ht.below t (hreusable ▸ (.head _))
    obtain ⟨hnew, hnodup⟩ := List.nodup_cons.mp (hreusable ▸ ht.nodup)
    have hmem : ∀ {o}, o ∈ rest → o ∈ b.reusable := fun ho => hreusable ▸ List.mem_cons_of_mem _ ho
    refine ⟨k, rfl, .inl (hreusable ▸ (.head _)), ?_, ⟨hsilent, by rw [hb'], ?_, ?_⟩, by rw [hb']⟩
    · unfold Free
      grind
    · unfold Free
      rw [hrest, hcount]
      exact fun j hj => hj.imp_left hmem
    · intro _
      exact ⟨hrest ▸ hnodup, fun o ho => hcount ▸ ht.below o (hmem (hrest ▸ ho))⟩
  -- The pool is empty, so the next number is counted.
  · rename_i hreusable
    rw [ends_set_bind, ends_pure] at h
    obtain ⟨rfl, hb'⟩ := h
    have hcount : tempCount b' = tempCount b + 1 := by
      exact tempCount_of_put (by rw [hb']; rfl) (by rw [hb'])
    have hrest : b'.reusable = [] := by rw [hb', hreusable]
    refine ⟨tempCount b, rfl, .inr (Nat.le_refl _), ?_, ⟨hsilent, by rw [hb'], ?_, ?_⟩, by rw [hb']⟩
    · unfold Free
      grind
    · unfold Free
      grind
    · intro _
      exact ⟨hrest ▸ List.nodup_nil, fun o ho => absurd (hrest ▸ ho) List.not_mem_nil⟩

/-- A temporary that is released may become free; no other does. -/
theorem release_spec (ho : o.isTempName = true → ∃ k, o = .temp k ∧ k < tempCount b)
    (h : Ends (release o) b u b') :
    Silent b b' ∧ b'.storage = b.storage ∧ (∀ k, Free b' k → Free b k ∨ o = .temp k) ∧
      (TempsOk b → TempsOk b') := by
  have hsilent := Silent.release o h
  have hb' := ends_modify.mp h
  split at hb'
  · rename_i hname
    subst hb'
    refine ⟨hsilent, rfl, fun k hk => ?_, fun ht => ⟨ht.nodup.insert, fun o' ho' => ?_⟩⟩
    · rcases hk with hin | hle
      · rcases List.mem_insert_iff.mp hin with heq | hin
        · exact .inr heq.symm
        · exact .inl (.inl hin)
      · exact .inl (.inr hle)
    · rcases List.mem_insert_iff.mp ho' with rfl | hin
      · exact ho (Bool.and_eq_true_iff.mp hname).1
      · exact ht.below o' hin
  · grind

end Emit

end Scriptc
