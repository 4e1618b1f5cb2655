import Mathlib.Data.List.Nodup
import Scriptc.Proofs.Formed
import Scriptc.Proofs.Tracking

/-!
# Scriptc: which temporaries are handed out again

Temporaries are counted for each function, but the pool of those that may be handed out again is one
for all functions. Entering a function empties the pool; leaving it does not. So what the pool holds
is known only up to the functions that have been read: `Build.Pooled F`, for any set `F` of
functions, is carried by every part of a program that declares functions of `F` only
(`reuse_within_functions`).

For a part that declares no function `F` is the function at hand alone, and then a new temporary is
one that the expression at hand does not need. Behind a function that is not so:
`reused_across_functions`.
-/

namespace Scriptc

open Build (Ends Yields Carries ends_bind ends_get_bind ends_modify ends_pure ends_set_bind)

/-! ## Texts that are no temporaries -/

namespace Operand

theorem toList_of_isTempName {o : Operand} {s : String} (h : o.isTempName = true)
    (htext : o.text? = some s) : ∃ ds, s.toList = 't' :: ds := by
  cases o with
  | temp k =>
    cases htext
    exact ⟨(toString k).toList, String.toList_append ..⟩
  | text s' =>
    obtain rfl : s' = s := Option.some.inj htext
    rw [isTempName] at h
    split at h
    · exact ⟨_, ‹_›⟩
    · cases h
  | _ => cases h

theorem isTempName_ofText {s : String} (h : ∀ ds, s.toList ≠ 't' :: ds) :
    (ofText s).isTempName = false := by
  refine Bool.eq_false_iff.mpr fun hname => ?_
  obtain ⟨ds, hds⟩ := toList_of_isTempName hname (text_ofText s)
  exact h ds hds

theorem ofAddress_text (a : Int) : ∃ s, (ofAddress a).text? = some s := by
  cases a <;> exact ⟨_, rfl⟩

theorem isTempName_ofAddress (a : Int) : (ofAddress a).isTempName = false := by
  cases a with
  | ofNat n => rfl
  | negSucc n =>
    refine Bool.eq_false_iff.mpr fun hname => ?_
    obtain ⟨ds, hds⟩ := toList_of_isTempName hname rfl
    have hwide : (Hex.wide (.negSucc n)).toList = 't' :: ds := hds
    rw [Hex.wide, String.toList_ofList] at hwide
    cases (List.cons.inj hwide).1

end Operand

/-! ## The pool -/

namespace Build

variable {F : String → Prop} {b c : Build} {o : Operand}

/-- How many temporaries a function has used. -/
def countOf (b : Build) (f : String) : Nat := (b.tempCounts.get? f).getD 0

/-- All that temporaries are handed out by. -/
def temps (b : Build) :=
  (b.function, b.tempCounts, b.value, b.lastTemp, b.reusable, b.used, b.strings)

/-- A temporary that one of the functions `F` has used. -/
def Counted (F : String → Prop) (b : Build) (o : Operand) : Prop :=
  ∃ k f, o = .temp k ∧ F f ∧ k < b.countOf f

/-- What is named like a temporary is one that one of the functions `F` has used. -/
def Owned (F : String → Prop) (b : Build) (o : Operand) : Prop :=
  o.isTempName = true → b.Counted F o

/-- The pool holds temporaries of the functions `F` only, none that is in use and none twice. -/
@[grind cases] structure Pooled (F : String → Prop) (b : Build) : Prop where
  function : F b.function
  nodup : b.reusable.Nodup
  idle : ∀ o ∈ b.reusable, o ∉ b.used
  reusable : ∀ o ∈ b.reusable, b.Counted F o
  used : ∀ o ∈ b.used, b.Owned F o
  labels : Emit.StringsLabelled b

theorem Counted.mono (hle : ∀ f, b.countOf f ≤ c.countOf f) (h : b.Counted F o) :
    c.Counted F o := by
  obtain ⟨k, f, rfl, hf, hk⟩ := h
  exact ⟨k, f, rfl, hf, Nat.lt_of_lt_of_le hk (hle f)⟩

theorem Owned.mono (hle : ∀ f, b.countOf f ≤ c.countOf f) (h : b.Owned F o) : c.Owned F o :=
  fun hname => (h hname).mono hle

theorem countOf_put {n : Nat} (hcounts : c.tempCounts = b.tempCounts.put b.function n)
    (hn : b.countOf b.function ≤ n) (f : String) : b.countOf f ≤ c.countOf f := by
  unfold countOf at hn ⊢
  rw [hcounts]
  by_cases hf : f = b.function
  · rw [hf, Assoc.get?_put_self]
    exact hn
  · exact Nat.le_of_eq (by rw [Assoc.get?_put_of_ne _ _ hf])

end Build

open Build (Pooled Owned Counted countOf_put)

namespace Compile

/-- The pool is sound for the functions `F`, and so are the operands at hand. -/
def PoolHolds (F : String → Prop) (_ : Unit) : List Operand → Build → Prop :=
  Holds (Pooled F) (Owned F)

namespace PoolHolds

variable {F : String → Prop} {S : List Operand} {b c : Build} {o : Operand}

/-- A step that touches nothing of what temporaries are handed out by. -/
theorem same (h : PoolHolds F () S b) (hview : c.temps = b.temps) : PoolHolds F () S c := by
  simp only [Build.temps, Prod.mk.injEq] at hview
  obtain ⟨function, counts, value, lastTemp, reusable, used, strings⟩ := hview
  have hcount : ∀ f, b.countOf f ≤ c.countOf f := fun f =>
    Nat.le_of_eq (by unfold Build.countOf; rw [counts])
  refine Holds.step h ⟨function ▸ h.state.function, reusable ▸ h.state.nodup, ?_, ?_, ?_, ?_⟩
    (fun _ hl => hl.mono hcount) (by simp [value]) ?_
  · rw [reusable, used]
    exact h.state.idle
  · rw [reusable]
    exact fun o ho => (h.state.reusable o ho).mono hcount
  · rw [used]
    exact fun o ho => (h.state.used o ho).mono hcount
  · exact fun s l hget => h.state.labels s l (strings ▸ hget)
  · rw [lastTemp]
    exact fun l hl => (h.operands _ (by simp) l hl).mono hcount

theorem takeText (h : PoolHolds F () S b) {s : String} (htext : o.text? = some s)
    (hname : o.isTempName = false) : PoolHolds F () (o :: S) b := by
  refine Holds.take h fun l hl => ?_
  rw [Operand.leaves_of_text htext] at hl
  obtain rfl := List.mem_singleton.mp hl
  intro htrue
  rw [hname] at htrue
  cases htrue

/-- A temporary is handed out, and `rest` is left in the pool. -/
def issued (b : Build) (n : Nat) (rest : List Operand) (t : Operand) : Build :=
  { b with tempCounts := b.tempCounts.put b.function n, reusable := rest, lastTemp := t }

theorem issue (h : PoolHolds F () S b) {n : Nat} (hn : b.countOf b.function ≤ n)
    {rest : List Operand} (hrest : rest.Sublist b.reusable) (ho : (issued b n rest o).Counted F o) :
    PoolHolds F () (o :: S) (issued b n rest o) := by
  have hs : Pooled F b := h.state
  have hcount : ∀ f, b.countOf f ≤ (issued b n rest o).countOf f := countOf_put rfl hn
  have hleaves : ∀ l ∈ o.leaves, Owned F (issued b n rest o) l := by
    obtain ⟨k, f, rfl, hf, hk⟩ := ho
    intro l hl _
    obtain rfl := List.mem_singleton.mp hl
    exact ⟨k, f, rfl, hf, hk⟩
  refine Holds.take (Holds.step h ⟨hs.function, hs.nodup.sublist hrest, ?_, ?_, ?_, hs.labels⟩ ?_ ?_
    hleaves) hleaves
  · exact fun o' ho' => hs.idle o' (hrest.subset ho')
  · exact fun o' ho' => (hs.reusable o' (hrest.subset ho')).mono hcount
  · exact fun o' ho' => (hs.used o' ho').mono hcount
  · exact fun l hl => hl.mono hcount
  · exact (.head _)

theorem newTemp : Yields (PoolHolds F) S ([·]) Emit.newTemp := by
  intro _ b t b' hb hend
  unfold Emit.newTemp at hend
  rw [ends_get_bind] at hend
  dsimp only at hend
  split at hend
  · -- One that is free again: it was counted before.
    rename_i t₀ rest hreusable
    rw [ends_set_bind, ends_pure] at hend
    obtain ⟨rfl, rfl⟩ := hend
    refine issue hb (Nat.le_refl _) (hreusable ▸ List.sublist_cons_self t rest) ?_
    exact (hb.state.reusable t (hreusable ▸ (.head _))).mono (countOf_put rfl (Nat.le_refl _))
  · -- The next one of the function at hand, which has used one more from here on.
    rename_i hreusable
    rw [ends_set_bind, ends_pure] at hend
    obtain ⟨rfl, rfl⟩ := hend
    refine issue hb (Nat.le_succ _) (List.Sublist.refl _) ⟨_, b.function, rfl,
      hb.state.function, ?_⟩
    unfold Build.countOf issued
    rw [Assoc.get?_put_self]
    exact Nat.lt_succ_self _

/-- Whatever begins like a temporary is no array. -/
theorem owned_of_mem (h : PoolHolds F () S b) (ho : o ∈ S) (hleaves : o.leaves = [o]) :
    b.Owned F o :=
  h.leaf ho (hleaves ▸ List.mem_singleton_self o)

theorem use (ho : o ∈ S) : Carries (PoolHolds F) S (Emit.use o) := by
  refine Carries.modify fun _ b h => ?_
  have hs : Pooled F b := h.state
  split
  · rename_i hname
    have howned : b.Owned F o := h.owned_of_mem ho (by cases o <;> first | rfl | cases hname)
    refine Holds.step h ⟨hs.function, hs.nodup.erase _, fun o' ho' => ?_, fun o' ho' => ?_,
      fun o' ho' => ?_, hs.labels⟩ (fun _ hl => hl) (.head _) (h.operands _ (by simp))
    · grind
    · exact hs.reusable o' (List.mem_of_mem_erase ho')
    · rcases List.mem_insert_iff.mp ho' with rfl | hin
      · exact howned
      · exact hs.used o' hin
  · exact h

theorem release (ho : o ∈ S) : Carries (PoolHolds F) S (Emit.release o) := by
  refine Carries.modify fun _ b h => ?_
  have hs : Pooled F b := h.state
  split
  · rename_i hboth
    obtain ⟨hname, hunused⟩ := Bool.and_eq_true_iff.mp hboth
    have hunused : o ∉ b.used := by simpa using hunused
    have howned : b.Owned F o := h.owned_of_mem ho (by cases o <;> first | rfl | cases hname)
    refine Holds.step h ⟨hs.function, hs.nodup.insert, fun o' ho' => ?_, fun o' ho' => ?_, hs.used,
      hs.labels⟩ (fun _ hl => hl) (.head _) (h.operands _ (by simp))
    · grind
    · rcases List.mem_insert_iff.mp ho' with rfl | hin
      · exact howned hname
      · exact hs.reusable o' hin
  · exact h

theorem setValue (ho : o ∈ S) : Carries (PoolHolds F) S (Emit.setValue o) := by
  refine Carries.modify fun _ b h => ?_
  have hs : Pooled F b := h.state
  exact Holds.step h { hs with } (fun _ hl => hl)
    (by simp [ho]) (h.operands _ (by simp))

theorem setLastTemp (ho : o ∈ S) : Carries (PoolHolds F) S (Emit.setLastTemp o) := by
  refine Carries.modify fun _ b h => ?_
  have hs : Pooled F b := h.state
  exact Holds.step h { hs with } (fun _ hl => hl)
    (.head _) fun _ hl => h.leaf ho hl

theorem endExpression : Carries (PoolHolds F) S Emit.endExpression := by
  refine Carries.modify fun _ b h => ?_
  have hs : Pooled F b := h.state
  refine Holds.step h ⟨hs.function, hs.nodup, nofun, hs.reusable, nofun, hs.labels⟩ (fun _ hl => hl)
    (.head _) fun l hl => ?_
  obtain rfl := List.mem_singleton.mp hl
  exact nofun

theorem setFunction {name : String} (hname : F name) :
    Carries (PoolHolds F) S (Emit.setFunction name) := by
  refine Carries.modify fun _ b h => ?_
  have hcount : ∀ f, b.countOf f ≤ Build.countOf { b with
      tempCounts := if b.tempCounts.contains name then b.tempCounts else
        b.tempCounts.put name 0 } f := by
    intro f
    unfold Build.countOf
    dsimp only
    split
    · exact Nat.le_refl _
    · rename_i hnew
      by_cases hf : f = name
      · rw [hf, Option.not_isSome_iff_eq_none.mp hnew]
        exact Nat.zero_le _
      · exact Nat.le_of_eq (by rw [Assoc.get?_put_of_ne _ _ hf])
  refine Holds.step h ⟨hname, List.nodup_nil, fun _ ho => absurd ho List.not_mem_nil,
    fun _ ho => absurd ho List.not_mem_nil, fun _ ho => absurd ho List.not_mem_nil, h.state.labels⟩
    (fun _ hl => hl.mono hcount) (.head _) fun l hl => ?_
  obtain rfl := List.mem_singleton.mp hl
  exact fun hname => absurd hname Bool.false_ne_true

theorem isTempName_label (k : Nat) :
    (Operand.ofText (Operand.string k).render).isTempName = false := by
  refine Operand.isTempName_ofText fun ds hds => ?_
  have hlabel : ("str_" ++ toString k).toList = 't' :: ds := hds
  rw [String.toList_append] at hlabel
  cases (List.cons.inj hlabel).1

theorem stringLabel (literal : String) :
    Yields (PoolHolds F) S (fun l => [.ofText l]) (Emit.stringLabel literal) := by
  intro _ b l b' h hend
  have hs : Pooled F b := h.state
  obtain ⟨⟨k, rfl⟩, hlabels⟩ := hs.labels.stringLabel hend
  refine takeText ?_ (Operand.text_ofText _) (isTempName_label k)
  rcases Emit.stringLabel_ends hend with ⟨-, rfl⟩ | ⟨-, rfl⟩
  · exact h
  · exact Holds.step h { hs with labels := hlabels }
      (fun _ hl => hl) (.head _) (h.operands _ (by simp))

theorem allocate (alloc : Storage → Slot × Storage) :
    Yields (PoolHolds F) S ([·]) (Emit.allocate alloc) := by
  intro _ b o b' h hend
  obtain ⟨a, -, rfl, rfl⟩ := Emit.allocate_ends hend
  obtain ⟨s, hs⟩ := Operand.ofAddress_text a
  exact takeText (h.same rfl) hs (Operand.isTempName_ofAddress a)

theorem quad (q : Quad) : Carries (PoolHolds F) S (Emit.quad q) :=
  Carries.modify fun _ _ h => h.same rfl

theorem modifyFrame (id : FrameId) (f : Frame → Frame) :
    Carries (PoolHolds F) S (Emit.modifyFrame id f) :=
  Carries.modify fun _ _ h => h.same rfl

theorem flow : Flow (PoolHolds F) where
  weaken := Holds.weaken
  newTemp _ := newTemp
  finish S t ht := by
    unfold Emit.finish
    refine .bind (I := PoolHolds F) Holds.weaken (setValue ht) fun _ => ?_
    refine .bind (I := PoolHolds F) Holds.weaken (setLastTemp (by simpa using ht)) fun _ => ?_
    exact .give (I := PoolHolds F) Holds.weaken (by simpa using ht)
  newLabel S := by
    intro _ b l b' h hend
    obtain ⟨-, rfl⟩ := Emit.ends_newLabel.mp hend
    exact h.same rfl
  quad _ q _ _ := quad q
  loop _ _ _ h := ⟨(), h.same rfl, fun _ h' => h'.same rfl⟩
  leave _ _ h := h.same rfl

theorem codeWalk : CodeWalk (PoolHolds F) where
  weaken := Holds.weaken
  value := Holds.value
  lastTemp := Holds.lastTemp
  routineSlot _ _ h := h.takeText rfl rfl
  absent h := Holds.take h fun l hl => by
    obtain rfl := List.mem_singleton.mp hl
    exact nofun
  cells := Holds.cells
  ofCells := Holds.ofCells
  undefined name h := by
    refine h.takeText rfl (Bool.eq_false_iff.mpr fun hname => ?_)
    obtain ⟨ds, hds⟩ := Operand.toList_of_isTempName hname rfl
    have hlist : ("UNDEFINED_" ++ name).toList = 't' :: ds := hds
    rw [String.toList_append] at hlist
    cases (List.cons.inj hlist).1
  keyword text htext _ _ _ h := by
    have hwords : ∀ text ∈ ["null", "true", "false"], (Operand.ofText text).isTempName = false := by
      decide +kernel
    exact h.takeText (Operand.text_ofText _) (hwords text htext)
  stringLabel _ literal := stringLabel literal
  error _ _ _ := Carries.modify fun _ _ h => h.same rfl
  say _ _ := Carries.modify fun _ _ h => h.same rfl
  newTemp _ := newTemp
  use _ _ := use
  release _ _ := release
  setValue _ _ := setValue
  setLastTemp _ _ := setLastTemp
  quad _ q _ _ := quad q
  shortCircuit _ _ constant _ hl _ hr htest := flow.shortCircuit htest constant hl hr
  allocGlobal _ _ h := allocate _ h
  allocArray _ _ h := allocate _ h
  frameSlot id name type? _ h hend := by
    rcases Emit.frameSlot_ends hend with ⟨n, -, rfl, rfl⟩ | ⟨-, _, _, rfl, hb'⟩
    · exact h.takeText rfl rfl
    · rw [hb']
      exact takeText (h.same rfl) rfl rfl
  newFrame _ _ := by
    intro _ b id b' h hend
    obtain ⟨-, rfl⟩ := Emit.ends_newFrame.mp hend
    exact h.same rfl
  newMethodFrame _ _ := by
    intro _ b u b' h hend
    obtain ⟨id, b₁, hframe, hend⟩ := ends_bind.mp hend
    obtain ⟨-, rfl⟩ := Emit.ends_newFrame.mp hframe
    obtain rfl := ends_modify.mp hend
    exact h.same rfl
  loadThis _ := by
    intro _ b o b' h hend
    obtain ⟨t, b₁, htemp, hend⟩ := ends_bind.mp hend
    obtain ⟨_, b₂, hquad, hend⟩ := ends_bind.mp hend
    obtain ⟨_, b₃, huse, hend⟩ := ends_bind.mp hend
    obtain ⟨rfl, rfl⟩ := ends_pure.mp hend
    exact use (.head _) (quad _ (newTemp h htemp) hquad) huse

theorem newObject (S : List Operand) (cls : String) :
    Yields (PoolHolds F) S ([·]) (Emit.newObject cls) := by
  intro _ b o b' h hend
  obtain ⟨layouts, storage, a, hload⟩ := Emit.newObject_ends hend
  have hstart : PoolHolds F () _ { b with layouts := layouts, storage := storage } :=
    h.same rfl
  simp only [ends_bind, ends_pure] at hload
  obtain ⟨t, b₁, htemp, _, b₂, hquad, _, b₃, hset, rfl, rfl⟩ := hload
  exact setValue (.head _) (quad _ (newTemp hstart htemp) hquad) hset

theorem exprWalk : ExprWalk Expr.Formed (PoolHolds F) :=
  codeWalk.exprWalk (fun _ q _ _ => quad q) newObject
    (fun hok _ _ _ h => h.takeText (Operand.text_ofText _)
      (Operand.isTempName_ofText fun _ => IsConstant.ne_cons hok rfl (by decide)))
    fun _ _ _ _ _ _ _ _ _ _ => quad _

/-- Leaving a function, the code at hand is that of the main program again, and the pool is as the
function has left it. -/
theorem routine (hglobal : F "global") (name : String) (frame : FrameId) (label : Operand)
    (result? : Option Ty) {body : BuildM Unit} (hbody : Carries (PoolHolds F) S body) :
    Carries (PoolHolds F) S (Emit.routine name frame label result? body) := by
  intro _ b r b' h hend
  obtain ⟨ending, d, hin, rfl, -⟩ := Emit.routine_ends hend
  have hopen : PoolHolds F () S { b with
      quads := (b.quads.push { op := .label, result := label }).push
        { op := .enter, arg1 := Emit.sizeOperand b frame }
      routine? := some ⟨name, frame⟩ } := h.same rfl
  have hd : PoolHolds F () S d := hbody hopen hin
  have hs : Pooled F d := hd.state
  exact Holds.step hd ⟨hglobal, hs.nodup, hs.idle, hs.reusable, hs.used, hs.labels⟩ (fun _ hl => hl)
    (.head _) (hd.operands _ (by simp))

theorem walk : Walk Expr.Formed Use.Formed (fun f => F f ∧ F "global") (PoolHolds F) where
  toExprWalk := exprWalk
  sound _ hu := hu
  warn _ _ _ := Carries.modify fun _ _ h => h.same rfl
  endExpression _ := endExpression
  setDirect _ _ := Carries.modify fun _ _ h => h.same rfl
  setFunction _ _ _ hname := setFunction hname.1
  setUnreachable _ _ := Carries.modify fun _ _ h => h.same rfl
  setInFunction _ _ := Carries.modify fun _ _ h => h.same rfl
  leaveFunction _ := Carries.modify fun _ _ h => h.same rfl
  layout _ := exprWalk.layout fun _ _ _ => Carries.modify fun _ _ h => h.same rfl
  declare _ line s _ _ := exprWalk.declare (fun _ _ _ _ h => h.same rfl) line s
  declareClass _ := exprWalk.declareClass fun line s _ =>
    exprWalk.declare (fun _ _ _ _ h => h.same rfl) line s
  modifyFunction _ _ _ _ := Carries.modify fun _ _ h => h.same rfl
  modifyClass _ _ _ _ := Carries.modify fun _ _ h => h.same rfl
  assignName _ line x e he := exprWalk.assignName
    (fun _ _ => Carries.modify fun _ _ h => h.same rfl) (fun _ => endExpression)
    (fun _ _ _ _ h => h.same rfl) line x e he
  scope _ _ _ _ h := ⟨(), h.same rfl, fun _ h' => h'.same rfl⟩
  loops _ _ _ h := ⟨(), h.same rfl, fun _ h' => h'.same rfl⟩
  inClass _ _ _ _ h := ⟨(), h.same rfl, fun _ h' => h'.same rfl⟩
  ifElse _ _ hc _ _ := flow.ifElse hc
  whileLoop _ _ _ := flow.whileLoop
  forLoop _ _ _ _ _ := flow.forLoop
  breakLoop _ := flow.leaveTo fun _ => .inr rfl
  continueLoop _ := flow.leaveTo fun _ => .inl rfl
  switch _ _ hsubject _ _ := flow.switchCode hsubject
  function _ _ _ _ _ hname hbody := by
    unfold Emit.function
    refine flow.bind (exprWalk.newFrame _ _) fun _ => flow.bind (modifyFrame _ _) fun _ => ?_
    exact routine hname.2 _ _ _ _ hbody
  method _ _ _ _ _ _ hname hbody := by
    unfold Emit.method
    refine flow.bind (setFunction hname.1) fun _ => flow.bind (exprWalk.newFrame _ _) fun _ => ?_
    refine flow.bind (modifyFrame _ _) fun _ => flow.bind (exprWalk.frameAt _) fun f => ?_
    exact flow.bind (exprWalk.sayFrame _ _ f) fun _ => routine hname.2 _ _ _ _ hbody

end PoolHolds

/-- At the beginning nothing has been handed out. -/
theorem pooled_start {F : String → Prop} (hglobal : F "global") :
    Holds (Pooled F) (Owned F) [] {} := by
  refine ⟨⟨hglobal, List.nodup_nil, nofun, nofun, nofun, nofun⟩, fun o ho l hl => ?_⟩
  have hnone : o = .none := by simpa using ho
  rw [hnone] at hl
  obtain rfl := List.mem_singleton.mp hl
  exact nofun

/-- A new temporary is not in use, as long as no function has used more temporaries than the one at
hand. -/
theorem newTemp_not_used {F : String → Prop} {b b' : Build} {t : Operand} (hb : Pooled F b)
    (hmost : ∀ f, F f → b.countOf f ≤ b.countOf b.function) (h : Ends Emit.newTemp b t b') :
    t ∉ b.used := by
  unfold Emit.newTemp at h
  rw [ends_get_bind] at h
  dsimp only at h
  split at h
  · grind
  · rw [ends_set_bind, ends_pure] at h
    rw [h.1]
    intro hused
    obtain ⟨k, f, hk, hf, hlt⟩ := hb.used _ hused rfl
    have hk : b.countOf b.function = k := Operand.temp.inj hk
    have hle := hmost f hf
    omega

/-- **Temporaries are reused within the functions that have been read.** Whatever part of a program
is read, the pool keeps to the functions `F` that count its temporaries, and what it holds is not in
use. A temporary that is handed out is not in use either, as long as none of these functions has
used more temporaries than the one at hand; so it is if that one is all of `F`. -/
theorem reuse_within_functions {F : String → Prop} {p : Part} {b b' : Build} {type? : Option Ty}
    (hp : ∀ u ∈ p.uses, u.Formed) (hF : ∀ f ∈ p.routines, F f ∧ F "global")
    (hb : Holds (Pooled F) (Owned F) [] b) (h : Ends (part p) b type? b') :
    Holds (Pooled F) (Owned F) [] b' ∧
    (∀ o ∈ b'.reusable, o ∉ b'.used ∧ ∃ k f, o = .temp k ∧ F f ∧ k < b'.countOf f) ∧
    ((∀ f, F f → b'.countOf f ≤ b'.countOf b'.function) →
      ∀ t c, Ends Emit.newTemp b' t c → t ∉ b'.used) := by
  have hstart : PoolHolds F () [] b := hb
  have hb' : Holds (Pooled F) (Owned F) [] b' := PoolHolds.walk.part p hp hF hstart h
  refine ⟨hb', fun o ho => ⟨hb'.state.idle o ho, hb'.state.reusable o ho⟩, ?_⟩
  exact fun hmost t c ht => newTemp_not_used hb'.state hmost ht

/-- Two sums of the main program, with no function around, are in temporaries of their own. -/
theorem reuse_within_functions_main : ∃ s b,
    Source.ofText "let y: integer = (1 + 2) * (3 + 4);" = .ok s ∧ Stmt.routinesAll s.program = [] ∧
    Ends (part (.program s.program)) {} none b ∧
    (∀ o ∈ b.reusable, o ∉ b.used ∧ ∃ k f, o = .temp k ∧ f = "global" ∧ k < b.countOf f) ∧
    ∀ t c, Ends Emit.newTemp b t c → t ∉ b.used := by
  obtain ⟨s, b, hs, hb, hnone, hfunction⟩ :=
    Source.ends_of_read? program "let y: integer = (1 + 2) * (3 + 4);"
    (P := fun s b => Stmt.routinesAll s.program = [] ∧ b.function = "global") (by decide +kernel)
  have hpart : Ends (part (.program s.program)) {} none b :=
    ends_bind.mpr ⟨_, b, hb, ends_pure.mpr ⟨rfl, rfl⟩⟩
  obtain ⟨-, hpool, hfresh⟩ :=
    reuse_within_functions (F := (· = "global")) (p := .program s.program)
    (Source.formed hs) (fun f hf => by rw [Part.routines, hnone] at hf; cases hf)
    (pooled_start rfl) hpart
  refine ⟨s, b, hs, hnone, hpart, hpool, hfresh ?_⟩
  rintro f rfl
  exact Nat.le_of_eq (by rw [hfunction])

/-- Behind a function the pool holds a temporary that the main program has not counted, and a sum
that is still to be used is overwritten by the next one. -/
theorem reused_across_functions : ∃ s b c,
    Source.ofText "function g() \x7b let q: integer = 1 + 2; \x7d let y: integer = (1 + 2) * (3 + 4);" = .ok s ∧
    Ends (statements (s.program.take 1)) {} () b ∧ Ends (statements s.program) {} () c ∧
    (b.errors = #[] ∧ b.function = "global" ∧ .temp 0 ∈ b.reusable ∧ b.countOf b.function = 0) ∧
    c.errors = #[] ∧
    [{ op := .add, arg1 := .text "1", arg2 := .text "2", result := .temp 0 },
      { op := .add, arg1 := .text "3", arg2 := .text "4", result := .temp 0 },
      { op := .mul, arg1 := .temp 0, arg2 := .temp 0, result := .temp 1 }] <:+: c.quads.toList := by
  simp only [exists_and_left]
  exact Source.of_read? (by decide +kernel)

end Compile

end Scriptc
