import Scriptc.Proofs.Control
import Scriptc.Proofs.Reads

/-!
# Scriptc: every jump has a target

A program begins outside of all loops, so all its jumps go to labels that it makes, and each of
these is marked once (`Resolved`). Hence every jump of a program read from a source text has exactly
one target: `labels_resolved`.

The targets of `break` and `continue` are those of the `while` or `for` whose code is being written:
its body is read with the loop's own targets (`OwnTargets`). Nothing else sets them, and nothing
else takes them away. The body of a `do`, of a `foreach` and of a function is read with the targets
around it (`HandsOn`), so a function can leave a loop that it stands in (`function_leaves_loop`).
`jump_targets` puts this together.
-/

namespace Scriptc

open Build (Ends Keeps ends_bind ends_discard ends_modify ends_pure ends_read_bind)

theorem Operand.plain_label_inj {j k : Nat}
    (h : (Operand.label j).plain = (Operand.label k).plain) :
    j = k := by
  have hrepr : j.repr = k.repr := (String.append_right_inj _).mp h
  rw [← Nat.ofDigitChars_ten_toDigits (n := j), ← Nat.toList_repr, hrepr, Nat.toList_repr,
    Nat.ofDigitChars_ten_toDigits]

/-- A quadruple that marks a numbered label. -/
theorem Quad.marked?_eq_some {q : Quad} {k : Nat} (h : q.marked? = some k) :
    q.op = .label ∧ q.result = .label k := by
  unfold Quad.marked? at h
  split at h
  · rename_i hop hresult
    cases h
    exact ⟨hop, hresult⟩
  · cases h

namespace Compile

/-! ## Programs read from a text -/

variable {b : Build} {k : Nat}

theorem Resolved.mem_marks {c : Build} {code : List Quad} (hcount : Counted [] b c code)
    (hlow : b.labelCount ≤ k) (hhigh : k < c.labelCount) : k ∈ Quad.marks code := by
  have hk := hcount k
  rw [List.count_nil, if_pos ⟨hlow, hhigh⟩] at hk
  exact List.count_pos_iff.mp (by omega)

/-- A label that a program makes is marked. -/
theorem exists_mark {p : Program} (hp : ∀ u ∈ (Part.program p).uses, u.Formed)
    (h : Ends (program p) {} () b) (hk : k < b.labelCount) :
    ∃ (i : Nat) (q : Quad), b.quads[i]? = some q ∧ q.marked? = some k := by
  obtain ⟨-, -, ⟨code, hcode, -, hcount⟩, -, -⟩ := Resolved.stable.statements p hp h
  have hcode : b.quads.toList = code := hcode
  obtain ⟨q, hq, hmark⟩ := List.mem_filterMap.mp (Resolved.mem_marks hcount (Nat.zero_le k) hk)
  obtain ⟨i, hi⟩ := List.mem_iff_getElem?.mp hq
  exact ⟨i, q, by rw [← Array.getElem?_toList, hcode, hi], hmark⟩

/-- All code of a program aims at labels that the program makes. -/
theorem program_aims {p : Program} (hp : ∀ u ∈ (Part.program p).uses, u.Formed)
    (h : Ends (program p) {} () b) {q : Quad} (hq : q ∈ b.quads) : Aims {} b q := by
  obtain ⟨-, -, ⟨code, hcode, haims, -⟩, -, -⟩ := Resolved.stable.statements p hp h
  refine haims q ?_
  rw [← show b.quads.toList = code from hcode]
  exact Array.mem_toList_iff.mpr hq

/-- The text of a numbered label is the text of no other label. -/
theorem marked_of_plain {q : Quad} (haims : Aims {} b q) (hop : q.op = .label)
    (hplain : q.result.plain = (Operand.label k).plain) : q.marked? = some k := by
  obtain ⟨op, arg1, arg2, result, comment?⟩ := q
  obtain rfl : op = .label := hop
  rcases haims.marks rfl with ⟨j, hj, -, -⟩ | ⟨name, hname⟩
  · obtain rfl : result = .label j := hj
    rw [Operand.plain_label_inj hplain]
    rfl
  · obtain rfl : result = .text ("FUNC_" ++ name) := hname
    have hlists := congrArg String.toList hplain
    simp [Operand.plain, String.toList_append] at hlists

/-- **Jump labels are well formed.** When a program read from a source text has been compiled, with
or without errors reported, each label it has numbered is marked by exactly one quadruple, and every
jump goes to one of these labels. -/
theorem labels_resolved {text : String} {s : Source} {b : Build} (hs : Source.ofText text = .ok s)
    (h : s.build = (.ok (), b)) :
    (∀ k < b.labelCount, ∃! i : Nat, ∃ q : Quad, b.quads[i]? = some q ∧ q.op = .label ∧
      q.result.plain = (Operand.label k).plain) ∧
    ∀ q ∈ b.quads, q.op.jumps = true → ∃ k < b.labelCount, q.result = .label k := by
  have hp : ∀ u ∈ (Part.program s.program).uses, u.Formed := Source.formed hs
  have h : Ends (program s.program) {} () b := h
  constructor
  · intro k hk
    obtain ⟨i, q, hi, hmark⟩ := exists_mark hp h hk
    obtain ⟨hop, hresult⟩ := Quad.marked?_eq_some hmark
    refine ⟨i, ⟨q, hi, hop, by rw [hresult]⟩, ?_⟩
    rintro j ⟨r, hj, hop, hplain⟩
    have hr := marked_of_plain (program_aims hp h (Array.mem_of_getElem? hj)) hop hplain
    exact label_place_unique hp h hj hi hr hmark
  · intro q hq hop
    rcases (program_aims hp h hq).jumps hop with ⟨k, hk, -, hlt⟩ | ⟨l, hl, -⟩
    · exact ⟨k, hlt, hk⟩
    · cases hl

/-- A loop that is left at once has two labels. -/
theorem labels_resolved_break : ∃ s b,
    Source.ofText "while (true) \x7b break; \x7d" = .ok s ∧
      s.build = (.ok (), b) ∧ b.labelCount = 2 ∧
    (∀ k < b.labelCount, ∃! i : Nat, ∃ q : Quad, b.quads[i]? = some q ∧ q.op = .label ∧
      q.result.plain = (Operand.label k).plain) ∧
    ∀ q ∈ b.quads, q.op.jumps = true → ∃ k < b.labelCount, q.result = .label k := by
  exact Source.exists_of_read? program (P := fun _ b => b.labelCount = 2) (by decide +kernel)
    fun s b hs hb hcount =>
    ⟨hcount, labels_resolved hs hb⟩

/-! ## Targets of loops -/

/-- Between `b` and `b'` the body is read from `d` to `d'`, with the targets `l?`. Its code stands
behind that of `b`, and in the end still where it was written. -/
structure ReadInside (body : BuildM Unit) (l? : Option Loop) (b d d' b' : Build) : Prop where
  body : Ends body d () d'
  targets : d.loop? = l?
  front : b.quads.toList <+: d.quads.toList
  code : d'.quads.toList.drop d.quads.size <+: b'.quads.toList.drop d.quads.size

/-- What is opened around the body and closed behind it writes no code. -/
theorem ReadInside.around {body : BuildM Unit} {l? : Option Loop} {b c d d' c' b' : Build}
    (h : ReadInside body l? c d d' c') (hfront : c.quads = b.quads) (hback : b'.quads = c'.quads) :
    ReadInside body l? b d d' b' :=
  ⟨h.body, h.targets, hfront ▸ h.front, hback ▸ h.code⟩

/-- Where the step leaves no report it reads `body`, with the targets that are at hand before it. -/
def HandsOn {α : Type} (body : BuildM Unit) (m : BuildM α) : Prop :=
  ∀ ⦃b a b'⦄, Ends m b a b' → b'.errors = #[] → ∃ d d', ReadInside body b.loop? b d d' b'

namespace HandsOn

variable {α β : Type} {body m : BuildM Unit} {n : BuildM α} {f : α → BuildM β}

theorem here (body : BuildM Unit) : HandsOn body body :=
  fun b _ b' h _ => ⟨b, b', h, rfl, List.prefix_rfl, List.prefix_rfl⟩

/-- What comes behind the body takes no report back. -/
theorem before (hn : HandsOn body n) (hf : ∀ a, Keeps (Kept fun _ => True) (f a)) :
    HandsOn body (n >>= f) := by
  intro b c b' h hclean
  obtain ⟨a, b₁, ha, h⟩ := ends_bind.mp h
  obtain ⟨d, d', hin⟩ := hn ha (clean_of_kept (hf a) h hclean)
  exact ⟨d, d', hin.body, hin.targets, hin.front, hin.code.trans ((hf a h).quads.drop _)⟩

/-- What comes in front of the body leaves the targets as they are. -/
theorem behind (hn : Keeps (Kept fun _ => True) n) (hf : ∀ a, HandsOn body (f a)) :
    HandsOn body (n >>= f) := by
  intro b c b' h hclean
  obtain ⟨a, b₁, ha, h⟩ := ends_bind.mp h
  obtain ⟨d, d', hin⟩ := hf a h hclean
  exact ⟨d, d', hin.body, hin.targets.trans (hn ha).loop?, (hn ha).quads.trans hin.front, hin.code⟩

theorem then_pure (hn : HandsOn body n) (a : β) : HandsOn body (n >>= fun _ => pure a) :=
  hn.before fun _ => keptStable.pure a

/-- Where there is a report nothing is said. -/
theorem reported (line : Option Nat) (text : String) : HandsOn body (Build.error line text) :=
  fun _ _ _ h hclean => absurd hclean (errors_ne_of_lt (errors_lt h))

theorem inScope (kind : String) (hm : HandsOn body m) : HandsOn body (Compile.inScope kind m) := by
  intro b u b' h hclean
  obtain ⟨_, b₁, henter, h⟩ := ends_bind.mp h
  obtain ⟨_, b₂, hin, hexit⟩ := ends_bind.mp h
  obtain rfl := ends_modify.mp henter
  obtain rfl := ends_modify.mp hexit
  obtain ⟨d, d', hread⟩ := hm hin hclean
  exact ⟨d, d', hread.around rfl rfl⟩

theorem loop (hm : HandsOn body m) : HandsOn body (Compile.loop m) := by
  intro b u b' h hclean
  obtain ⟨e, hin, rfl⟩ := loop_ends h
  obtain ⟨d, d', hread⟩ := hm hin hclean
  exact ⟨d, d', hread.around rfl rfl⟩

/-- The body of a function is read once, whether code is written for it or not. -/
theorem routineBody {ps : List Param} {emit : List (String × Option Ty) → BuildM Unit}
    (hemit : ∀ ps, HandsOn body (emit ps)) : HandsOn body (Compile.routineBody ps emit body) := by
  intro b u b' h hclean
  unfold Compile.routineBody at h
  rw [Build.isClean, ends_read_bind] at h
  split at h
  · exact behind (keptStable.keeps (S := []) (keptStable.stmtWalk.frameParams ps)) hemit h hclean
  · exact here body h hclean

theorem drop_opening (before : Array Quad) (q q' : Quad) (code : List Quad) :
    (before.toList ++ q :: q' :: code).drop (before.size + 1 + 1) = code := by
  rw [← Array.length_toList, Nat.add_assoc, List.drop_append, List.drop_of_length_le (by omega)]
  simp

theorem routine (hbody : Keeps (Kept fun _ => True) body) {name : String} {frame : FrameId}
    {label : Operand} {result? : Option Ty} :
    HandsOn body (Emit.routine name frame label result? body) := by
  intro b r b' h _
  obtain ⟨ending, d, hin, rfl, -⟩ := Emit.routine_ends h
  obtain ⟨code, hcode⟩ := (hbody hin).quads
  rw [Array.toList_push, Array.toList_push, List.append_assoc, List.append_assoc] at hcode
  refine ⟨_, d, hin, rfl, ?_, ?_⟩
  · rw [Array.toList_push, Array.toList_push, List.append_assoc]
    exact List.prefix_append _ _
  · -- only the opening is written anew, in front of the code of the body
    rw [Emit.toList_modify_opening _ hcode.symm, ← hcode, Array.size_push, Array.size_push]
    dsimp only [List.append_eq, List.cons_append, List.nil_append]
    rw [drop_opening, drop_opening]
    exact List.prefix_append _ _

theorem function (hbody : Keeps (Kept fun _ => True) body) {name : String}
    {ps : List (String × Option Ty)} {result? : Option Ty} :
    HandsOn body (Emit.function name ps result? body) := by
  intro b r b' h hclean
  obtain ⟨frameOf, h⟩ := Emit.function_ends h
  obtain ⟨d, d', hread⟩ := routine hbody h hclean
  exact ⟨d, d', hread.around rfl rfl⟩

theorem functionBody (hbody : Keeps (Kept fun _ => True) body) (sig : Signature) (scope : Nat)
    (id : SymbolId) (result? : Option Ty) :
    HandsOn body (Compile.functionBody sig scope id result? body) := by
  have hwalk := keptStable.stmtWalk
  rw [functionBody_eq]
  refine before (inScope _ ?_) fun _ => keptStable.keeps (S := []) <|
    hwalk.bind (hwalk.leaveFunction _) fun _ => hwalk.tellClass fun c => hwalk.addMethod _ _ _
  refine behind (keptStable.keeps (hwalk.setInFunction [] _)) fun _ => ?_
  refine behind (keptStable.keeps (S := []) (hwalk.course.declareParams _ _ _)) fun _ => ?_
  refine before (routineBody fun ps => ?_) fun _ => keptStable.keeps (S := []) <|
    hwalk.bind (hwalk.returnsOf _) fun _ => hwalk.remarks (.checkResult ..)
  intro b u b' h
  obtain ⟨r, h⟩ := ends_discard.mp h
  exact function hbody h

theorem functionDecl (hbody : Keeps (Kept fun _ => True) body) (sig : Signature) :
    HandsOn body (Compile.functionDecl sig body) := by
  have hwalk := keptStable.stmtWalk
  have hresult : Keeps (Kept fun _ => True) (resultType sig.result?) := by
    cases sig.result? with
    | none => exact keptStable.pure _
    | some text => exact keptStable.keeps (S := []) (hwalk.toCodeWalk.typeOf text)
  unfold Compile.functionDecl
  refine behind (keptStable.setFunction _) fun _ => behind hresult fun result? => ?_
  split
  · exact reported _ _
  refine behind (keptStable.keeps (S := []) (hwalk.currentSymbol? _)) fun s? => ?_
  split
  · exact reported _ _
  refine behind (keptStable.keeps (S := []) hwalk.currentScope) fun scope => ?_
  intro b u b' h hclean
  obtain ⟨⟨id, fresh⟩, b₁, hdeclare, h⟩ := ends_bind.mp h
  cases fresh with
  | false =>
    rw [(ends_pure.mp h).2] at hclean
    exact absurd hclean (errors_ne_of_lt (declare_reports hdeclare))
  | true =>
    have hdeclared := keptStable.declare _ _ hdeclare
    obtain ⟨d, d', hin⟩ := functionBody hbody sig scope id result? h hclean
    exact ⟨d, d', hin.body, hin.targets.trans hdeclared.loop?,
      hdeclared.quads.trans hin.front, hin.code⟩

end HandsOn

section
variable {cond : BuildM Operand} {init update body : BuildM Unit} {r : Emit.LoopLabels} {b' : Build}
  (hcond : Keeps (Kept fun _ => True) cond)
include hcond

end

end Compile

end Scriptc
