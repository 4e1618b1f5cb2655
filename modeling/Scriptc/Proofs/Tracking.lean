import Scriptc.Proofs.Emitted
import Scriptc.Proofs.Stable

/-!
# Scriptc: conditions on the operands at hand

Tools for properties that the walk over a program carries.

* `Compile.Holds inv ok`: a condition `inv` on the state, and a condition `ok` on every operand that
  is at hand or that the state holds. The cells of an array count one by one (`Operand.leaves`).
* `Compile.Flow`: if labels may be made, loops opened and quadruples written of operands at hand,
  then the forms of control flow carry the property (`Flow.ifElse`, `Flow.whileLoop`,
  `Flow.switchCode`).
-/

namespace Scriptc

open Build (Yields Carries ends_bind ends_get_bind ends_modify ends_pure ends_set_bind)

mutual

/-- What an operand consists of: its cells and theirs, or itself. -/
def Operand.leaves : Operand → List Operand
  | .cells vs => Operand.leavesAll vs
  | o => [o]

def Operand.leavesAll : List Operand → List Operand
  | [] => []
  | v :: vs => v.leaves ++ Operand.leavesAll vs

end

theorem Operand.mem_leavesAll {l : Operand} {vs : List Operand} :
    l ∈ Operand.leavesAll vs ↔ ∃ v ∈ vs, l ∈ v.leaves := by
  induction vs with
  | nil => simp [Operand.leavesAll]
  | cons v vs ih => simp [Operand.leavesAll, ih]

theorem Operand.leaves_of_text {o : Operand} {s : String} (h : o.text? = some s) :
    o.leaves = [o] := by
  cases o with
  | cells vs => cases h
  | _ => rfl

def Operand.isLabel : Operand → Bool
  | .label _ => true
  | _ => false

/-- Whether a quadruple belongs to no call and to no frame and marks no label but a numbered one. -/
def Quad.inFlow (q : Quad) : Bool :=
  !q.op.isStack && !q.op.isFrame && (q.op != .label || q.result.isLabel)

theorem Quad.inFlow_of_isPlain {q : Quad} (h : q.op.isPlain = true) : q.inFlow = true := by
  have hlabel : (q.op != .label) = true := by
    rw [bne_iff_ne]
    intro hop
    rw [hop] at h
    cases h
  simp only [Op.isPlain, Bool.and_eq_true] at h
  simp [Quad.inFlow, hlabel, h.1.2, h.2]

namespace Compile

/-- A condition on the state, and one on all operands at hand and on those that the state holds. -/
@[grind cases] structure Holds (inv : Build → Prop) (ok : Build → Operand → Prop) (S : List Operand)
    (b : Build) :
    Prop where
  state : inv b
  operands : ∀ o ∈ b.value :: b.lastTemp :: S, ∀ l ∈ o.leaves, ok b l

namespace Holds

variable {inv : Build → Prop} {ok : Build → Operand → Prop} {S T : List Operand} {b c : Build}
  {o : Operand}

theorem weaken (hsub : S ⊆ T) (h : Holds inv ok T b) : Holds inv ok S b :=
  ⟨h.state, fun o ho => h.operands o (List.cons_subset_cons _ (List.cons_subset_cons _ hsub) ho)⟩

theorem leaf (h : Holds inv ok S b) (ho : o ∈ S) {l : Operand} (hl : l ∈ o.leaves) : ok b l :=
  h.operands o (.tail _ (.tail _ ho)) l hl

/-- An operand that satisfies the condition may be taken as one at hand. -/
theorem take (h : Holds inv ok S b) (ho : ∀ l ∈ o.leaves, ok b l) : Holds inv ok (o :: S) b := by
  refine ⟨h.state, fun o' ho' => ?_⟩
  grind

theorem value (h : Holds inv ok S b) : Holds inv ok (b.value :: S) b :=
  h.take (h.operands _ (by simp))

theorem lastTemp (h : Holds inv ok S b) : Holds inv ok (b.lastTemp :: S) b :=
  h.take (h.operands _ (by simp))

theorem cells {vs : List Operand} (hvs : ∀ v ∈ vs, v ∈ S) (h : Holds inv ok S b) :
    Holds inv ok (.cells vs :: S) b := by
  refine h.take fun l hl => ?_
  obtain ⟨v, hv, hl⟩ := Operand.mem_leavesAll.mp hl
  exact h.leaf (hvs v hv) hl

theorem ofCells {vs : List Operand} (hin : .cells vs ∈ S) (h : Holds inv ok S b) :
    Holds inv ok (vs ++ S) b := by
  refine ⟨h.state, fun o ho => ?_⟩
  simp only [List.mem_cons, List.mem_append] at ho
  rcases ho with rfl | rfl | ho | ho
  · exact h.operands _ (by simp)
  · exact h.operands _ (by simp)
  · exact fun l hl => h.leaf hin (Operand.mem_leavesAll.mpr ⟨o, ho, hl⟩)
  · exact h.operands o (by simp [ho])

/-- A step after which the condition on states still holds and operands are as they were, and which
notes only operands that were at hand. -/
theorem step (h : Holds inv ok S b) (hstate : inv c) (hok : ∀ l, ok b l → ok c l)
    (hvalue : c.value ∈ b.value :: b.lastTemp :: S) (hlast : ∀ l ∈ c.lastTemp.leaves, ok c l) :
    Holds inv ok S c := by
  refine ⟨hstate, fun o ho => ?_⟩
  simp only [List.mem_cons] at ho
  rcases ho with rfl | rfl | ho
  · exact fun l hl => hok l (h.operands _ hvalue l hl)
  · exact hlast
  · exact fun l hl => hok l (h.leaf ho hl)

end Holds

/-! ## Control flow -/

/-- The steps of which forms of control flow are made carry `I`. -/
structure Flow {ι : Type} (I : ι → List Operand → Build → Prop) : Prop where
  weaken : ∀ {i S T b}, S ⊆ T → I i T b → I i S b
  newTemp : ∀ S, Yields I S ([·]) Emit.newTemp
  finish : ∀ S, ∀ t ∈ S, Yields I S ([·]) (Emit.finish t)
  newLabel : ∀ S, Carries I S Emit.newLabel
  quad : ∀ S q, q.inFlow = true → (∀ o ∈ q.operands, o ∈ S ∨ o.isFixed = true ∨ o.isLabel = true) →
    Carries I S (Emit.quad q)
  -- Loops, with their targets for `break` and `continue`.
  loop : ∀ {i S b} l, l.again.isLabel = true → l.done.isLabel = true → I i S b →
    ∃ j, I j S { b with loop? := some l } ∧ ∀ b', I j S b' → I i S { b' with loop? := b.loop? }
  leave : ∀ {i S b l o}, b.loop? = some l → o = l.again ∨ o = l.done → I i S b →
    I i S { b with quads := b.quads.push { op := .goto, result := o } }

namespace Flow

variable {ι α β : Type} {I : ι → List Operand → Build → Prop} {S : List Operand}
  {out : α → List Operand} {out' : β → List Operand} (h : Flow I)
variable {condition : BuildM Operand} {body : BuildM Unit}
include h

theorem pure (a : α) : Carries I S (Pure.pure a : BuildM α) :=
  .give (I := I) h.weaken nofun

theorem bind {m : BuildM α} {f : α → BuildM β} (hm : Yields I S out m)
    (hf : ∀ a, Yields I (out a ++ S) out' (f a)) : Yields I S out' (m >>= f) :=
  .bind (I := I) h.weaken hm hf

theorem newLabel_bind {f : Operand → BuildM β} (hf : ∀ k, Yields I S out' (f (.label k))) :
    Yields I S out' (Emit.newLabel >>= f) := by
  intro i b c b' hb hend
  obtain ⟨l, b₁, hlabel, hend⟩ := ends_bind.mp hend
  have hb₁ := h.newLabel S hb hlabel
  unfold Emit.newLabel at hlabel
  rw [ends_get_bind, ends_set_bind, ends_pure] at hlabel
  rw [hlabel.1] at hend
  exact hf _ hb₁ hend

theorem jump (k : Nat) : Carries I S (Emit.jump (.label k)) :=
  h.quad _ _ rfl (by simp [Quad.operands, Operand.isLabel])

theorem mark (k : Nat) : Carries I S (Emit.mark (.label k)) :=
  h.quad _ _ rfl (by simp [Quad.operands, Operand.isLabel])

theorem shortCircuit {test : Op} (htest : test.isTest = true) (constant : String)
    {left right : Operand} (hl : left ∈ S) (hr : right ∈ S) :
    Yields I S ([·]) (Emit.shortCircuit test constant left right) := by
  unfold Emit.shortCircuit
  refine h.bind (h.newTemp S) fun t => h.newLabel_bind fun short => h.newLabel_bind fun done => ?_
  refine h.bind (h.quad _ _ ?_ ?_) fun _ => h.bind (h.quad _ _ rfl ?_) fun _ =>
    h.bind (h.jump done) fun _ => ?_
  · rcases Op.eq_of_isTest htest with rfl | rfl <;> rfl
  · simp [Quad.operands, Operand.isLabel, hl]
  · simp [Quad.operands, hr]
  refine h.bind (h.mark short) fun _ => h.bind (h.quad _ _ rfl ?_) fun _ =>
    h.bind (h.mark done) fun _ => ?_
  · simp [Quad.operands]
  · exact h.finish _ t (by simp)

theorem ifElse {c : Operand} (hc : c ∈ S) {yes no : BuildM Unit} (hyes : Carries I S yes)
    (hno : Carries I S no) : Carries I S (Emit.ifElse c yes no) := by
  unfold Emit.ifElse
  refine h.newLabel_bind fun yesLabel => h.newLabel_bind fun noLabel =>
    h.newLabel_bind fun done => ?_
  refine h.bind (h.quad _ _ rfl ?_) fun _ => h.bind (h.jump noLabel) fun _ => ?_
  · simp [Quad.operands, Operand.isLabel, hc]
  refine h.bind (h.mark yesLabel) fun _ => h.bind hyes fun _ => h.bind (h.jump done) fun _ => ?_
  exact h.bind (h.mark noLabel) fun _ => h.bind hno fun _ => h.bind (h.mark done) fun _ => h.pure _

theorem exitUnless (hc : Yields I S ([·]) condition) (done : Nat) :
    Carries I S (Emit.exitUnless condition (.label done)) := by
  unfold Emit.exitUnless
  refine h.bind hc fun c => ?_
  split
  · exact h.quad _ _ rfl (by simp [Quad.operands, Operand.isLabel])
  · exact h.pure _

theorem withLoop {again done : Nat} (hbody : Carries I S body) :
    Carries I S (Emit.withLoop ⟨.label again, .label done⟩ body) := by
  intro i b u b' hb hend
  obtain ⟨b₁, hin, rfl⟩ := Emit.withLoop_ends hend
  obtain ⟨j, hopen, hleave⟩ := h.loop ⟨.label again, .label done⟩ rfl rfl hb
  exact hleave _ (hbody hopen hin)

theorem whileLoop (hc : Yields I S ([·]) condition) (hbody : Carries I S body) :
    Carries I S (Emit.whileLoop condition body) := by
  unfold Emit.whileLoop
  refine h.newLabel_bind fun start => h.newLabel_bind fun done =>
    h.bind (h.withLoop ?_) fun _ => h.pure _
  refine h.bind (h.mark start) fun _ => h.bind (h.exitUnless hc done) fun _ =>
    h.bind hbody fun _ => ?_
  exact h.bind (h.jump start) fun _ => h.mark done

theorem forLoop {init update : BuildM Unit}
    (hinit : Carries I S init) (hc : Yields I S ([·]) condition) (hupdate : Carries I S update)
    (hbody : Carries I S body) : Carries I S (Emit.forLoop init condition update body) := by
  unfold Emit.forLoop
  refine h.newLabel_bind fun start => h.newLabel_bind fun again => h.newLabel_bind fun done => ?_
  refine h.bind (h.withLoop ?_) fun _ => h.pure _
  refine h.bind hinit fun _ => h.bind (h.mark start) fun _ =>
    h.bind (h.exitUnless hc done) fun _ => ?_
  refine h.bind hbody fun _ => h.bind (h.mark again) fun _ => h.bind hupdate fun _ => ?_
  exact h.bind (h.jump start) fun _ => h.mark done

theorem leaveTo {target : Loop → Operand} (htarget : ∀ l, target l = l.again ∨ target l = l.done) :
    Carries I S (Emit.leaveTo target) := by
  intro i b o b' hb hend
  rcases Emit.leaveTo_ends hend with ⟨-, rfl⟩ | ⟨l, hl, rfl⟩
  · exact hb
  · exact h.leave hl (htarget l) hb

theorem switchCase {subject value : Operand} (hsubject : subject ∈ S)
    (hvalue : value ∈ S ∨ value.isFixed = true) (done : Nat) (hbody : Carries I S body) :
    Carries I S (Emit.switchCase subject value (.label done) body) := by
  unfold Emit.switchCase
  refine h.newLabel_bind fun here => h.newLabel_bind fun next => ?_
  intro i b u b' hb hend
  obtain ⟨t, b₁, htemp, hend⟩ := ends_bind.mp hend
  obtain ⟨_, b₂, hcompare, hend⟩ := ends_bind.mp hend
  obtain ⟨_, b₃, htest, hend⟩ := ends_bind.mp hend
  have hb₂ := h.quad ([t] ++ S) _ rfl (fun o ho => ?_) (h.newTemp S hb htemp) hcompare
  · have hb₃ := h.quad ([t] ++ S) _ rfl (by simp [Quad.operands, Operand.isLabel]) hb₂ htest
    -- The outcome of the comparison is not at hand in the body.
    have hrest := h.bind (h.mark here) fun _ => h.bind hbody fun _ => h.bind (h.jump done) fun _ =>
      h.mark next
    exact hrest (h.weaken (List.subset_append_right [t] S) hb₃) hend
  · simp only [Quad.operands, List.mem_cons, List.not_mem_nil, or_false] at ho
    grind

theorem switchCode {subject : Operand} (hsubject : subject ∈ S)
    {cases : List (Operand × BuildM Unit)} {default? : Option (BuildM Unit)}
    (hcases : ∀ c ∈ cases, (c.1 ∈ S ∨ c.1.isFixed = true) ∧ Carries I S c.2)
    (hdefault : ∀ d, default? = some d → Carries I S d) :
    Carries I S (Emit.switchCode subject cases default?) := by
  have hforM : ∀ done, Carries I S
      (cases.forM fun c => Emit.switchCase subject c.1 (.label done) c.2) := by
    intro done
    induction cases with
    | nil => exact h.pure _
    | cons c cases ih =>
      obtain ⟨hvalue, hbody⟩ := hcases c (.head _)
      refine h.bind (h.switchCase hsubject hvalue done hbody) fun _ => ?_
      exact ih fun c hc => hcases c (.tail _ hc)
  unfold Emit.switchCode
  refine h.newLabel_bind fun done => h.bind (hforM done) fun _ => ?_
  split
  · exact h.mark done
  · refine h.newLabel_bind fun other => h.bind (h.mark other) fun _ => ?_
    exact h.bind (hdefault _ rfl) fun _ => h.mark done

end Flow

/-- A relation that knows names, places, reports and code only is kept by the steps of control flow,
if it is by one more quadruple. -/
theorem Flow.of_same {R : Build → Build → Prop} (trans : ∀ {b c d}, R b c → R c d → R b d)
    (same : ∀ {b c}, c.table = b.table → c.storage = b.storage → c.layouts = b.layouts →
      c.errors = b.errors →
      c.quads = b.quads → R b c)
    (push : ∀ {b} q, q.inFlow = true → R b { b with quads := b.quads.push q }) :
    Flow (Since R) where
  weaken _ hb := hb
  newTemp _ _ _ _ _ hb hend := by
    obtain ⟨counts, rest, rfl, -, -⟩ := Emit.newTemp_ends hend
    exact trans hb (same rfl rfl rfl rfl rfl)
  finish _ _ _ _ _ _ _ hb hend := by
    obtain ⟨-, rfl⟩ := Emit.ends_finish.mp hend
    exact trans hb (same rfl rfl rfl rfl rfl)
  newLabel _ _ _ _ _ hb hend := by
    obtain ⟨-, rfl⟩ := Emit.ends_newLabel.mp hend
    exact trans hb (same rfl rfl rfl rfl rfl)
  quad _ q hq _ _ _ _ _ hb hend := by
    obtain rfl := Emit.ends_quad.mp hend
    exact trans hb (push q hq)
  loop _ _ _ hb := ⟨_, trans hb (same rfl rfl rfl rfl rfl),
    fun _ hb' => trans hb' (same rfl rfl rfl rfl rfl)⟩
  leave _ _ hb := trans hb (push _ rfl)

/-- A relation that the steps of control flow keep, whatever the operands are, is kept by its
forms. -/
theorem Flow.controlStable {R : Build → Build → Prop} (h : Flow (Since R)) (hcode : CodeStable R) :
    ControlStable R where
  ifElse c _ _ hyes hno :=
    hcode.keeps (S := [c]) (h.ifElse (by simp) (hcode.yields hyes) (hcode.yields hno))
  whileLoop _ _ hc hbody :=
    hcode.keeps (S := []) (h.whileLoop (hcode.yields hc) (hcode.yields hbody))
  forLoop _ _ _ _ hinit hc hupdate hbody := hcode.keeps (S := [])
    (h.forLoop (hcode.yields hinit) (hcode.yields hc) (hcode.yields hupdate) (hcode.yields hbody))
  breakLoop := hcode.keeps (S := []) (h.leaveTo fun _ => .inr rfl)
  continueLoop := hcode.keeps (S := []) (h.leaveTo fun _ => .inl rfl)
  switch subject cases _ hcases hdefault := hcode.keeps (S := subject :: cases.map Prod.fst)
    (h.switchCode (by simp)
      (fun c hc => ⟨.inl (.tail _ (List.mem_map_of_mem hc)), hcode.yields (hcases c hc)⟩)
      fun d hd => hcode.yields (hdefault d hd))

end Compile

end Scriptc
