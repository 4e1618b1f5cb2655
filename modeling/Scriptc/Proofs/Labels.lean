import Mathlib.Data.List.Nodup
import Scriptc.Proofs.Balance
import Scriptc.Proofs.Formed

/-!
# Scriptc: labels and jumps

Labels are numbered as they are made. Whatever part of a program is read, the code that is added
marks each label made meanwhile exactly once and no other, and it jumps to labels made meanwhile or
to the targets that the loop around it has for `break` and `continue`: `Resolved`, kept by every
part (`Resolved.stable`). So a numbered label of a whole program names one place:
`label_place_unique`.

A statement makes its labels before it marks them, and the statements inside of it make and mark
theirs in between. `Open ms ls loop? b c` says which labels are made and not yet marked, which
labels may be jumped to and which targets are at hand; a form of control flow is a walk that ends
with no label left to be marked and with the targets it began with.
-/

namespace Scriptc

open Build (Ends Keeps ends_bind ends_get_bind ends_modify ends_pure ends_read_bind)

/-- The numbered label that a quadruple marks. -/
def Quad.marked? (q : Quad) : Option Nat :=
  match q.op, q.result with
  | .label, .label k => some k
  | _, _ => none

/-- The numbered labels that are marked in a piece of code, in order. -/
def Quad.marks (qs : List Quad) : List Nat := qs.filterMap Quad.marked?

theorem Quad.marked?_of_op {q : Quad} (h : q.op ≠ .label) : q.marked? = none := by
  unfold Quad.marked?
  split
  · exact absurd ‹_› h
  · rfl

theorem Quad.marks_append (qs rs : List Quad) :
    Quad.marks (qs ++ rs) = Quad.marks qs ++ Quad.marks rs :=
  List.filterMap_append

/-- Whether an operation jumps to the label in its result. -/
def Op.jumps : Op → Bool
  | .goto | .ifTrue | .ifFalse => true
  | _ => false

theorem Op.jumps_of_isJump {op : Op} (h : op.isJump = false) : op ≠ .label ∧ op.jumps = false := by
  cases op <;> simp_all [Op.isJump, Op.jumps]

namespace Compile

/-- The operand is a label made between the two states. -/
def Made (b c : Build) (o : Operand) : Prop :=
  ∃ k, o = .label k ∧ b.labelCount ≤ k ∧ k < c.labelCount

/-- Where code that is added between the two states may jump to. -/
def Landing (b c : Build) (o : Operand) : Prop :=
  Made b c o ∨ ∃ l, b.loop? = some l ∧ (o = l.done ∨ o = l.again)

/-- A quadruple marks a label made between the two states or the label of a function, and it jumps
to where it may. -/
structure Aims (b c : Build) (q : Quad) : Prop where
  marks : q.op = .label → Made b c q.result ∨ ∃ name, q.result = .text ("FUNC_" ++ name)
  jumps : q.op.jumps = true → Landing b c q.result

/-- The code marks each label made between the two states once, but for the labels `ms`, and no
other. -/
def Counted (ms : List Nat) (b c : Build) (code : List Quad) : Prop :=
  ∀ k, (Quad.marks code).count k + ms.count k = if b.labelCount ≤ k ∧ k < c.labelCount then 1 else 0

/-- The code added between the two states goes where it may. The labels `ls` have been made between
them, of which `ms` are yet to be marked, and the targets of `break` and `continue` are those of
`loop?` now. -/
structure Open (ms : List Nat) (ls : List Operand) (loop? : Option Loop) (b c : Build) : Prop where
  grown : b.labelCount ≤ c.labelCount
  made : ∀ o ∈ ls, Made b c o
  code : ∃ code, c.quads.toList = b.quads.toList ++ code ∧ (∀ q ∈ code, Aims b c q) ∧
    Counted ms b c code
  loop : c.loop? = loop?
  targets : ∀ l, loop? = some l → Landing b c l.done ∧ Landing b c l.again

/-- Each label made between the two states has been marked once between them, and the same targets
are at hand before and after. -/
def Resolved (b c : Build) : Prop := Open [] [] b.loop? b c

section
variable {b c d : Build} {o : Operand} {q : Quad} {u : Unit} {ms : List Nat} {ls : List Operand}
  {loop? : Option Loop} {code code' : List Quad}

theorem Made.mono (h : Made b c o) (hle : c.labelCount ≤ d.labelCount) : Made b d o := by
  obtain ⟨k, rfl, hlo, hhi⟩ := h
  exact ⟨k, rfl, hlo, Nat.lt_of_lt_of_le hhi hle⟩

theorem Landing.mono (h : Landing b c o) (hle : c.labelCount ≤ d.labelCount) : Landing b d o :=
  h.imp_left (·.mono hle)

theorem Aims.mono (h : Aims b c q) (hle : c.labelCount ≤ d.labelCount) : Aims b d q :=
  ⟨fun hop => (h.marks hop).imp_left (·.mono hle), fun hop => (h.jumps hop).mono hle⟩

/-- A quadruple that has nothing to do with labels. -/
theorem Aims.of_isJump (h : q.op.isJump = false) : Aims b c q := by
  obtain ⟨hlabel, hjumps⟩ := Op.jumps_of_isJump h
  exact ⟨fun hop => absurd hop hlabel, fun hop => absurd (hjumps.symm.trans hop) nofun⟩

namespace Counted

theorem quiet (hmarks : Quad.marks code = []) (hlabels : c.labelCount = b.labelCount) :
    Counted [] b c code := by
  intro k
  rw [hmarks, if_neg (by omega)]
  rfl

/-- What is made and marked in between changes nothing. -/
theorem append (h : Counted ms b c code) (h' : Counted [] c d code')
    (hle : b.labelCount ≤ c.labelCount) (hle' : c.labelCount ≤ d.labelCount) :
    Counted ms b d (code ++ code') := by
  intro k
  have hk := h k
  have hk' := h' k
  rw [Quad.marks_append, List.count_append]
  rw [List.count_nil] at hk'
  split at hk <;> split at hk' <;> split <;> omega

theorem newLabel (h : Counted ms b c code) (hle : b.labelCount ≤ c.labelCount) :
    Counted (ms ++ [c.labelCount]) b { c with labelCount := c.labelCount + 1 } code := by
  intro k
  have hk := h k
  rw [List.count_append, List.count_singleton]
  show _ = if b.labelCount ≤ k ∧ k < c.labelCount + 1 then 1 else 0
  by_cases heq : c.labelCount = k
  · grind
  · grind

theorem mark {n : Nat} (h : Counted (n :: ms) b c code) :
    Counted ms b c (code ++ [{ op := .label, result := .label n }]) := by
  intro k
  rw [← h k, Quad.marks_append, List.count_append, List.count_cons]
  show _ + [n].count k + _ = _
  rw [List.count_singleton]
  omega

/-- A label that is yet to be marked has been made. -/
theorem made {n : Nat} (h : Counted (n :: ms) b c code) : Made b c (.label n) := by
  have hn := h n
  rw [List.count_cons_self] at hn
  refine ⟨n, rfl, ?_⟩
  split at hn
  · assumption
  · omega

end Counted

namespace Open

theorem inner (h : Open ms ls loop? b c) (hin : Resolved c d) : Open ms ls loop? b d where
  grown := Nat.le_trans h.grown hin.grown
  made o ho := (h.made o ho).mono hin.grown
  code := by
    have hmade : ∀ {o}, Made c d o → Made b d o := fun ⟨k, hk, hlo, hhi⟩ =>
      ⟨k, hk, Nat.le_trans h.grown hlo, hhi⟩
    obtain ⟨code₁, hcode₁, haims₁, hcount₁⟩ := h.code
    obtain ⟨code₂, hcode₂, haims₂, hcount₂⟩ := hin.code
    refine ⟨code₁ ++ code₂, by
      rw [hcode₂, hcode₁, List.append_assoc], ?_, hcount₁.append hcount₂ h.grown hin.grown⟩
    refine List.forall_mem_append.mpr ⟨fun q hq => (haims₁ q hq).mono hin.grown, fun q hq => ?_⟩
    refine ⟨fun hop => ((haims₂ q hq).marks hop).imp_left hmade, fun hop => ?_⟩
    -- A jump out of the inner code goes to a target that was at hand there.
    rcases (haims₂ q hq).jumps hop with hnew | ⟨l, hl, heq⟩
    · exact .inl (hmade hnew)
    · obtain ⟨hdone, hagain⟩ := h.targets l (h.loop ▸ hl)
      rcases heq with heq | heq
      · exact heq ▸ hdone.mono hin.grown
      · exact heq ▸ hagain.mono hin.grown
  loop := hin.loop.trans h.loop
  targets l hl := (h.targets l hl).imp (·.mono hin.grown) (·.mono hin.grown)

/-- The code grows by a quadruple that aims where it may. -/
theorem push {ms' : List Nat} (h : Open ms ls loop? b c) (hstep : Ends (Emit.quad q) c u d)
    (hq : Aims b c q) (hcount : ∀ {code}, Counted ms b c code → Counted ms' b c (code ++ [q])) :
    Open ms' ls loop? b d := by
  obtain rfl := Emit.ends_quad.mp hstep
  obtain ⟨code, hcode, haims, hms⟩ := h.code
  refine ⟨h.grown, h.made, ⟨code ++ [q], ?_, fun r hr => ?_, hcount hms⟩, h.loop, h.targets⟩
  · rw [Array.toList_push, hcode, List.append_assoc]
  · rcases List.mem_append.mp hr with hr | hr
    · exact (haims r hr).mono (Nat.le_refl _)
    · obtain rfl := List.mem_singleton.mp hr
      exact hq.mono (Nat.le_refl _)

theorem quad (h : Open ms ls loop? b c) (hstep : Ends (Emit.quad q) c u d) (hop : q.op ≠ .label)
    (hq : q.op.jumps = true → Landing b c q.result) : Open ms ls loop? b d := by
  refine h.push hstep ⟨fun heq => absurd heq hop, hq⟩ fun hcount => ?_
  refine hcount.append (.quiet ?_ rfl) h.grown (Nat.le_refl _)
  rw [Quad.marks, List.filterMap_cons, Quad.marked?_of_op hop]
  rfl

theorem plain (h : Open ms ls loop? b c) (hstep : Ends (Emit.quad q) c u d)
    (hq : q.op.isJump = false) :
    Open ms ls loop? b d := by
  obtain ⟨hlabel, hjumps⟩ := Op.jumps_of_isJump hq
  exact h.quad hstep hlabel fun hop => absurd (hjumps.symm.trans hop) nofun

/-- A jump, whatever it depends on. -/
theorem jump (h : Open ms ls loop? b c) (hstep : Ends (Emit.quad q) c u d) (hop : q.op ≠ .label)
    (ho : q.result ∈ ls) : Open ms ls loop? b d :=
  h.quad hstep hop fun _ => .inl (h.made _ ho)

theorem newLabel (h : Open ms ls loop? b c) (hstep : Ends Emit.newLabel c o d) :
    ∃ n, o = .label n ∧ Open (ms ++ [n]) (o :: ls) loop? b d := by
  obtain ⟨rfl, rfl⟩ := Emit.ends_newLabel.mp hstep
  obtain ⟨code, hcode, haims, hcount⟩ := h.code
  have hle : c.labelCount ≤ c.labelCount + 1 := Nat.le_succ _
  refine ⟨_, rfl, Nat.le_succ_of_le h.grown, ?_, ?_, h.loop, fun l hl => ?_⟩
  · exact List.forall_mem_cons.mpr ⟨⟨_, rfl, h.grown, Nat.lt_succ_self _⟩,
      fun o ho => (h.made o ho).mono hle⟩
  · exact ⟨code, hcode, fun q hq => (haims q hq).mono hle, hcount.newLabel h.grown⟩
  · exact (h.targets l hl).imp (·.mono hle) (·.mono hle)

theorem mark {n : Nat} (h : Open (n :: ms) ls loop? b c)
    (hstep : Ends (Emit.mark (.label n)) c u d) :
    Open ms ls loop? b d := by
  obtain ⟨code, -, -, hcount⟩ := h.code
  exact h.push hstep ⟨fun _ => .inl hcount.made, nofun⟩ Counted.mark

theorem perm {ms' : List Nat} (h : Open ms ls loop? b c) (hperm : ms.Perm ms') :
    Open ms' ls loop? b c := by
  obtain ⟨code, hcode, haims, hcount⟩ := h.code
  exact { h with code := ⟨code, hcode, haims, fun k => hperm.count_eq k ▸ hcount k⟩ }

/-- The targets of a loop that is opened are labels that have been made. -/
theorem openLoop (h : Open ms ls loop? b c) {l : Loop} (hdone : l.done ∈ ls)
    (hagain : l.again ∈ ls) :
    Open ms ls (some l) b { c with loop? := some l } where
  grown := h.grown
  made := h.made
  code := by
    obtain ⟨code, hcode, haims, hcount⟩ := h.code
    exact ⟨code, hcode, fun q hq => (haims q hq).mono (Nat.le_refl _), hcount⟩
  loop := rfl
  targets := by
    rintro _ ⟨⟩
    exact ⟨.inl (h.made _ hdone), .inl (h.made _ hagain)⟩

/-- Behind a loop the targets from before it are at hand again. -/
theorem closeLoop (h : Open [] ls loop? b c) : Resolved b { c with loop? := b.loop? } where
  grown := h.grown
  made := nofun
  code := by
    obtain ⟨code, hcode, haims, hcount⟩ := h.code
    exact ⟨code, hcode, fun q hq => (haims q hq).mono (Nat.le_refl _), hcount⟩
  loop := rfl
  targets l hl := ⟨.inr ⟨l, hl, .inl rfl⟩, .inr ⟨l, hl, .inr rfl⟩⟩

/-- A label may be forgotten once it is marked. -/
theorem forget {ls' : List Operand} (h : Open ms ls loop? b c) (hsub : ls' ⊆ ls) :
    Open ms ls' loop? b c :=
  { h with made := fun o ho => h.made o (hsub ho) }

theorem resolved (h : Open [] ls b.loop? b c) : Resolved b c := h.forget (List.nil_subset _)

end Open

namespace Resolved

variable {α : Type} {done : Operand} {body : BuildM Unit}

/-- Nothing else than labels, code and targets counts. -/
theorem same (hlabels : c.labelCount = b.labelCount) (hquads : c.quads = b.quads)
    (hloop : c.loop? = b.loop?) : Resolved b c where
  grown := Nat.le_of_eq hlabels.symm
  made := nofun
  code := ⟨[], by rw [hquads, List.append_nil], nofun, .quiet rfl hlabels⟩
  loop := hloop
  targets l hl := ⟨.inr ⟨l, hl, .inl rfl⟩, .inr ⟨l, hl, .inr rfl⟩⟩

theorem refl (b : Build) : Resolved b b := same rfl rfl rfl

theorem trans (h₁ : Resolved b c) (h₂ : Resolved c d) : Resolved b d := Open.inner h₁ h₂

theorem around {a : Build} (h : Resolved b c) (hab : Resolved a b) (hcd : Resolved c d) :
    Resolved a d :=
  hab.trans (h.trans hcd)

theorem of_silent (h : Emit.Silent b c) : Resolved b c := same h.labelCount h.quads h.loop?

theorem finish (t : Operand) : Keeps Resolved (Emit.finish t) := by
  intro b o b' h
  rw [(Emit.ends_finish.mp h).2]
  exact same rfl rfl rfl

theorem quad (q : Quad) (hq : q.op.isJump = false) : Keeps Resolved (Emit.quad q) :=
  fun b _ _ h => Open.plain (refl b) h hq

/-! ### Forms of control flow -/

theorem shortCircuit (test : Op) (constant : String) (left right : Operand)
    (htest : test ≠ .label) :
    Keeps Resolved (Emit.shortCircuit test constant left right) := by
  intro b o b' h
  simp only [Emit.shortCircuit, ends_bind] at h
  obtain ⟨t, b₁, h₁, short, b₂, h₂, done, b₃, h₃, _, b₄, h₄, _, b₅, h₅, _, b₆, h₆, _, b₇, h₇, _,
    b₈, h₈, _, b₉, h₉, h₁₀⟩ := h
  obtain ⟨_, rfl, w₂⟩ := ((refl b).trans (of_silent (.newTemp h₁))).newLabel h₂
  obtain ⟨_, rfl, w₃⟩ := w₂.newLabel h₃
  have w₆ := ((w₃.jump h₄ htest (by simp)).plain h₅ rfl).jump h₆ (by simp) (by simp)
  exact ((((w₆.mark h₇).plain h₈ rfl).mark h₉).inner (finish _ h₁₀)).resolved

theorem ifElse (c : Operand) (yes no : BuildM Unit) (hyes : Keeps Resolved yes)
    (hno : Keeps Resolved no) : Keeps Resolved (Emit.ifElse c yes no) := by
  intro b o b' h
  simp only [Emit.ifElse, ends_bind, ends_pure] at h
  obtain ⟨yesLabel, b₁, h₁, noLabel, b₂, h₂, done, b₃, h₃, _, b₄, h₄, _, b₅, h₅, _, b₆, h₆, _, b₇,
    h₇, _, b₈, h₈, _, b₉, h₉, _, b₁₀, h₁₀, _, b₁₁, h₁₁, -, rfl⟩ := h
  obtain ⟨_, rfl, w₁⟩ := (refl b).newLabel h₁
  obtain ⟨_, rfl, w₂⟩ := w₁.newLabel h₂
  obtain ⟨_, rfl, w₃⟩ := w₂.newLabel h₃
  have w₆ := ((w₃.jump h₄ (by simp) (by simp)).jump h₅ (by simp) (by simp)).mark h₆
  have w₉ := ((w₆.inner (hyes h₇)).jump h₈ (by simp) (by simp)).mark h₉
  exact ((w₉.inner (hno h₁₀)).mark h₁₁).resolved

theorem exitUnless {e : BuildM Operand} (he : Keeps Resolved e) (hdone : done ∈ ls)
    (w : Open ms ls loop? b c) (h : Ends (Emit.exitUnless e done) c u d) :
    Open ms ls loop? b d := by
  unfold Emit.exitUnless at h
  obtain ⟨v, c₁, hv, h⟩ := ends_bind.mp h
  split at h
  · exact (w.inner (he hv)).jump h (by simp) hdone
  · rw [(ends_pure.mp h).2]
    exact w.inner (he hv)

/-- Inside of a loop the body sees its targets, behind it those from before. -/
theorem withLoop (w : Open ms ls b.loop? b c) {l : Loop} (hdone : l.done ∈ ls)
    (hagain : l.again ∈ ls) (h : Ends (Emit.withLoop l body) c u d)
    (hbody : ∀ {c₁ c₂ u}, Ends body c₁ u c₂ → Open ms ls (some l) b c₁ → Open [] ls (some l) b c₂) :
    Resolved b d := by
  obtain ⟨c₂, hin, rfl⟩ := Emit.withLoop_ends h
  rw [w.loop]
  exact (hbody hin (w.openLoop hdone hagain)).closeLoop

theorem whileLoop (e : BuildM Operand) (body : BuildM Unit) (he : Keeps Resolved e)
    (hbody : Keeps Resolved body) : Keeps Resolved (Emit.whileLoop e body) := by
  intro b o b' h
  simp only [Emit.whileLoop, ends_bind, ends_pure] at h
  obtain ⟨start, b₁, h₁, done, b₂, h₂, _, b₃, h₃, -, rfl⟩ := h
  obtain ⟨_, rfl, w₁⟩ := (refl b).newLabel h₁
  obtain ⟨_, rfl, w₂⟩ := w₁.newLabel h₂
  refine withLoop w₂ (by simp) (by simp) h₃ fun hin w => ?_
  simp only [ends_bind] at hin
  obtain ⟨_, d₁, k₁, _, d₂, k₂, _, d₃, k₃, _, d₄, k₄, k₅⟩ := hin
  have w₂ := exitUnless he (by simp) (w.mark k₁) k₂
  exact ((w₂.inner (hbody k₃)).jump k₄ (by simp) (by simp)).mark k₅

theorem forLoop (init : BuildM Unit) (e : BuildM Operand) (update body : BuildM Unit)
    (hinit : Keeps Resolved init) (he : Keeps Resolved e) (hupdate : Keeps Resolved update)
    (hbody : Keeps Resolved body) : Keeps Resolved (Emit.forLoop init e update body) := by
  intro b o b' h
  simp only [Emit.forLoop, ends_bind, ends_pure] at h
  obtain ⟨start, b₁, h₁, again, b₂, h₂, done, b₃, h₃, _, b₄, h₄, -, rfl⟩ := h
  obtain ⟨_, rfl, w₁⟩ := (refl b).newLabel h₁
  obtain ⟨_, rfl, w₂⟩ := w₁.newLabel h₂
  obtain ⟨_, rfl, w₃⟩ := w₂.newLabel h₃
  refine withLoop w₃ (by simp) (by simp) h₄ fun hin w => ?_
  simp only [ends_bind] at hin
  obtain ⟨_, d₁, k₁, _, d₂, k₂, _, d₃, k₃, _, d₄, k₄, _, d₅, k₅, _, d₆, k₆, _, d₇, k₇, k₈⟩ := hin
  have w₃ := exitUnless he (by simp) ((w.inner (hinit k₁)).mark k₂) k₃
  have w₆ := ((w₃.inner (hbody k₄)).mark k₅).inner (hupdate k₆)
  exact (w₆.jump k₇ (by simp) (by simp)).mark k₈

/-- `break` and `continue` go to the targets at hand. -/
theorem leaveTo {target : Loop → Operand} (htarget : target = Loop.done ∨ target = Loop.again) :
    Keeps Resolved (Emit.leaveTo target) := by
  intro b o b' h
  rcases Emit.leaveTo_ends h with ⟨-, rfl⟩ | ⟨l, hl, rfl⟩
  · exact refl _
  · refine Open.quad (refl b) (u := ()) (Emit.ends_quad.mpr rfl) nofun fun _ => .inr ⟨l, hl, ?_⟩
    exact htarget.imp (by rintro rfl; rfl) (by rintro rfl; rfl)

theorem switchCase {subject value : Operand} (hdone : done ∈ ls)
    (hbody : Keeps Resolved body) (w : Open ms ls loop? b c)
    (h : Ends (Emit.switchCase subject value done body) c u d) : Open ms ls loop? b d := by
  simp only [Emit.switchCase, ends_bind] at h
  obtain ⟨here, b₁, h₁, next, b₂, h₂, t, b₃, h₃, _, b₄, h₄, _, b₅, h₅, _, b₆, h₆, _, b₇, h₇, _, b₈,
    h₈, h₉⟩ := h
  obtain ⟨_, rfl, w₁⟩ := w.newLabel h₁
  obtain ⟨_, rfl, w₂⟩ := w₁.newLabel h₂
  have w₅ := ((w₂.inner (of_silent (.newTemp h₃))).plain h₄ rfl).jump h₅ (by simp) (by simp)
  rw [List.append_assoc] at w₅
  have w₆ := (w₅.perm List.perm_middle).mark h₆
  have w₈ := (w₆.inner (hbody h₇)).jump h₈ (by simp) (by simp [hdone])
  refine ((w₈.perm (List.perm_append_singleton _ _)).mark h₉).forget fun _ ho => ?_
  exact List.mem_cons_of_mem _ (.tail _ ho)

theorem switchCases {subject : Operand} (hdone : done ∈ ls) {cases : List (Operand × BuildM Unit)}
    (hcases : ∀ c ∈ cases, Keeps Resolved c.2) (w : Open ms ls loop? b c)
    (h : Ends (cases.forM fun c => Emit.switchCase subject c.1 done c.2) c u d) :
    Open ms ls loop? b d := by
  induction cases generalizing c with
  | nil =>
    rw [(ends_pure.mp h).2]
    exact w
  | cons arm cases ih =>
    obtain ⟨_, c₁, harm, hrest⟩ := ends_bind.mp h
    have w₁ := switchCase hdone (hcases arm (.head _)) w harm
    exact ih (fun c hc => hcases c (.tail _ hc)) w₁ hrest

theorem switchCode (subject : Operand) (cases : List (Operand × BuildM Unit))
    (default? : Option (BuildM Unit)) (hcases : ∀ c ∈ cases, Keeps Resolved c.2)
    (hdefault : ∀ d, default? = some d → Keeps Resolved d) :
    Keeps Resolved (Emit.switchCode subject cases default?) := by
  intro b u b' h
  simp only [Emit.switchCode, ends_bind] at h
  obtain ⟨done, b₁, h₁, _, b₂, h₂, h⟩ := h
  obtain ⟨_, rfl, w₁⟩ := (refl b).newLabel h₁
  have w₂ := switchCases (by simp) hcases w₁ h₂
  split at h
  · exact (w₂.mark h).resolved
  · simp only [ends_bind] at h
    obtain ⟨other, b₃, h₃, _, b₄, h₄, _, b₅, h₅, h₆⟩ := h
    obtain ⟨_, rfl, w₃⟩ := w₂.newLabel h₃
    -- The label in front of the default is made after the end of the switch and marked before it.
    have w₄ := (w₃.perm (.swap _ _ _)).mark h₄
    exact ((w₄.inner (hdefault _ rfl h₅)).mark h₆).resolved

/-- The code of a function is its label, which is not a numbered one, the opening of its frame, its
body and an ending that does not jump. -/
theorem routine (name : String) (frame : FrameId) (label : String) (result? : Option Ty)
    (hbody : Keeps Resolved body) :
    Keeps Resolved (Emit.routine name frame (.text ("FUNC_" ++ label)) result? body) := by
  intro b r b' h
  obtain ⟨ending, d, hin, rfl, hending⟩ := Emit.routine_ends h
  obtain ⟨hgrown, hmade, ⟨code, hcode, haims, hcount⟩, hloop, htargets⟩ := hbody hin
  rw [Array.toList_push, Array.toList_push, List.append_assoc, List.append_assoc] at hcode
  have hjump : ∀ q ∈ ending.toList, q.op.isJump = false := by
    intro q hq
    rcases hending.mem q (Array.mem_toList_iff.mp hq) with rfl | rfl <;> rfl
  refine ⟨hgrown, hmade, ⟨{ op := .label, result := .text ("FUNC_" ++ label) }
    :: { op := .enter, arg1 := Emit.sizeOperand d frame } :: (code ++ ending.toList), ?_, ?_,
      ?_⟩, hloop, htargets⟩
  · exact Emit.toList_modify_opening _ hcode
  · refine List.forall_mem_cons.mpr ⟨⟨fun _ => .inr ⟨label, rfl⟩, nofun⟩, ?_⟩
    refine List.forall_mem_cons.mpr ⟨.of_isJump rfl,
      List.forall_mem_append.mpr ⟨fun q hq => ?_, fun q hq => ?_⟩⟩
    · exact ⟨(haims q hq).marks, (haims q hq).jumps⟩
    · exact .of_isJump (hjump q hq)
  · have hnone : Quad.marks ending.toList = [] :=
      List.filterMap_eq_nil_iff.mpr fun q hq =>
        Quad.marked?_of_op (Op.jumps_of_isJump (hjump q hq)).1
    exact hcount.append (.quiet (c := d) hnone rfl) hgrown (Nat.le_refl _)

/-! ### Whole programs -/

theorem exprStable : ExprStable Expr.Formed Resolved :=
  .of_silent refl (fun _ _ _ => trans) (fun _ _ => of_silent)
    (fun _ _ => Keeps.modify fun _ => same rfl rfl rfl) quad
    (fun hok p hp _ _ _ => quad _ (Op.isJump_of_isPlain (Level.isPlain _ _ (hok p hp))))
    fun test constant left right htest =>
      shortCircuit test constant left right (by rintro rfl; cases htest)

/-- Every part of a program marks the labels that it makes, each once, and jumps to them or to
targets at hand. -/
theorem stable : Stable Expr.Formed Use.Formed Resolved where
  toExprStable := exprStable
  sound _ hu := hu
  warn _ _ := Keeps.modify fun _ => same rfl rfl rfl
  aside _ _ := same rfl rfl rfl
  layout := exprStable.layout fun _ _ => Keeps.modify fun _ => same rfl rfl rfl
  declare := exprStable.declare fun _ _ => same rfl rfl rfl
  modifyFunction _ _ _ := Keeps.modify fun _ => same rfl rfl rfl
  modifyClass _ _ _ := Keeps.modify fun _ => same rfl rfl rfl
  assignName line x e he := exprStable.toCodeStable.assignName (fun _ _ => same rfl rfl rfl)
    (fun _ _ => same rfl rfl rfl) line x (exprStable.expr e he)
  scope _ _ _ h := h.around (same rfl rfl rfl) (same rfl rfl rfl)
  loops _ _ h := h.around (same rfl rfl rfl) (same rfl rfl rfl)
  inClass _ _ _ h := h.around (same rfl rfl rfl) (same rfl rfl rfl)
  ifElse := ifElse
  whileLoop := whileLoop
  forLoop := forLoop
  breakLoop := leaveTo (.inl rfl)
  continueLoop := leaveTo (.inr rfl)
  switch := switchCode
  routine name frame label result? _ := routine name frame label result?

end Resolved

end

/-! ## Jumps out of loops -/

variable {b : Build}

theorem unreachable_ends {line : Option Nat} {what : String} {dead : Bool} {c : Build}
    (h : Ends (Check.unreachable line what) b dead c) : c = { b with warnings := c.warnings } := by
  unfold Check.unreachable at h
  rw [ends_get_bind] at h
  split at h
  · obtain ⟨_, b₁, hwarn, hpure⟩ := ends_bind.mp h
    obtain ⟨_, rfl⟩ := ends_pure.mp hpure
    rw [ends_modify.mp hwarn]
  · obtain ⟨_, rfl⟩ := ends_pure.mp h
    rfl

/-- A jump that is accepted stands in a loop, and goes to the target at hand if there is one. -/
theorem loopJump_ends {line : Nat} {word : String} {target : Loop → Operand} {c : Build}
    (h : Ends (loopJump line word (Emit.leaveTo target)) b () c) (hclean : c.errors = #[]) :
      b.loops.inside = true ∧
      (b.loop? = none ∧ c = { b with warnings := c.warnings, unreachable := true } ∨
        ∃ l, b.loop? = some l ∧
        c = { b with
          quads := b.quads.push { op := .goto, result := target l }
          warnings := c.warnings, unreachable := true }) := by
  obtain ⟨_, b₁, hdead, h⟩ := ends_bind.mp h
  rw [unreachable_ends hdead, ends_get_bind] at h
  dsimp only at h
  split at h
  · obtain ⟨_, b₂, herror, hcut⟩ := ends_bind.mp h
    rw [ends_modify.mp hcut, ends_modify.mp herror] at hclean
    exact absurd hclean Array.push_ne_empty
  · rename_i hinside
    refine ⟨by simpa using hinside, ?_⟩
    rw [Build.isClean, ends_read_bind] at h
    split at h
    · obtain ⟨_, b₂, hleave, hcut⟩ := ends_bind.mp h
      obtain rfl := ends_modify.mp hcut
      rcases Emit.leaveTo_ends hleave with ⟨hnone, rfl⟩ | ⟨l, hl, rfl⟩
      · exact .inl ⟨hnone, rfl⟩
      · exact .inr ⟨l, hl, rfl⟩
    · rename_i hdirty
      obtain rfl := ends_modify.mp h
      exact absurd (Array.isEmpty_iff.mpr hclean) hdirty

/-- A numbered label of a program that is read from the start is marked in one place. -/
theorem label_place_unique {p : Program} (hp : ∀ u ∈ (Part.program p).uses, u.Formed)
    (h : Ends (program p) {} () b) {k i j : Nat} {q r : Quad} (hi : b.quads[i]? = some q)
    (hj : b.quads[j]? = some r) (hq : q.marked? = some k) (hr : r.marked? = some k) : i = j := by
  obtain ⟨-, -, ⟨code, hcode, -, hcount⟩, -, -⟩ := Resolved.stable.statements p hp h
  have hcode : b.quads.toList = code := hcode
  have hnodup : (Quad.marks code).Nodup := by
    refine List.nodup_iff_count_le_one.mpr fun k => ?_
    have hk := hcount k
    rw [List.count_nil] at hk
    split at hk <;> omega
  have hpairs := List.pairwise_iff_getElem.mp (List.pairwise_filterMap.mp hnodup)
  rw [← Array.getElem?_toList, hcode] at hi hj
  obtain ⟨hilt, rfl⟩ := List.getElem?_eq_some_iff.mp hi
  obtain ⟨hjlt, rfl⟩ := List.getElem?_eq_some_iff.mp hj
  rcases Nat.lt_trichotomy i j with hlt | heq | hlt
  · exact absurd rfl (hpairs i j hilt hjlt hlt k hq k hr)
  · exact heq
  · exact absurd rfl (hpairs j i hjlt hilt hlt k hr k hq)

end Compile

end Scriptc
