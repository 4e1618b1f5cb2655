import Scriptc.Proofs.Shapes
import Scriptc.Proofs.Sums

/-!
# Scriptc: functions in the code

The code of a program is a list of quadruples in which the code of functions stands where they are
declared, from a label to the end of a frame, and functions may be declared in functions. `Nesting`
is such code with the functions marked in it, and `program_nests` says that the code of a program
without errors is one.

The translation takes the list apart again (`Mips.Program.split`): from the label of a function on,
all goes to the function, up to the end of a frame. That is where it belongs exactly if no function
stands in another one (`split_code_iff`). Otherwise what follows on the inner function goes to the
code outside, with the end of the frame of the outer one (`code_of_outer_function_outside`).
-/

namespace Scriptc

open Mips (Numbered)
open Mips.Program (Division divide functionLabel? split split_eq)
open Build (Ends Keeps)

/-! ## Quadruples within a function -/

/-- Whether a quadruple neither begins nor ends a function. -/
def Quad.isInner (q : Quad) : Bool := (functionLabel? q).isNone && q.op != .leave

namespace Quad

variable {q : Quad}

theorem isInner_iff : q.isInner = true ↔ functionLabel? q = none ∧ q.op ≠ .leave := by
  simp [isInner]

theorem functionLabel?_eq_none (h : q.op ≠ .label) : functionLabel? q = none := by
  simp [functionLabel?, h]

/-- The text of a numbered label is that of no function. -/
theorem functionLabel?_of_isLabel (h : q.result.isLabel = true) : functionLabel? q = none := by
  obtain ⟨k, hk⟩ : ∃ k, q.result = .label k := by
    unfold Operand.isLabel at h
    split at h
    · exact ⟨_, ‹_›⟩
    · cases h
  simp [functionLabel?, hk, Operand.text?, Operand.plain, Affix.begins, String.toList_append]

theorem isInner_of_inFlow (h : q.inFlow = true) : q.isInner = true := by
  simp only [inFlow, Bool.and_eq_true, Bool.or_eq_true, bne_iff_ne] at h
  refine isInner_iff.mpr ⟨h.2.elim functionLabel?_eq_none functionLabel?_of_isLabel, fun hop => ?_⟩
  rw [hop] at h
  exact absurd h.1.2 (by decide)

theorem isInner_of_isStack (h : q.op.isStack = true) : q.isInner = true := by
  refine isInner_iff.mpr ⟨functionLabel?_eq_none fun hop => ?_, fun hop => ?_⟩
  · rw [hop] at h
    cases h
  · rw [hop] at h
    cases h

end Quad

/-! ## Dividing -/

namespace Mips.Program

variable {es : List Numbered} {acc : Division} {outer : List Numbered}
    {groups : List (List Numbered)}
variable {e : Numbered}

theorem divide_inner_outside (he : e.1.isInner = true) :
    divide (false, outer, groups) e = (false, e :: outer, groups) := by
  simp [divide, (Quad.isInner_iff.mp he).1]

theorem divide_inner_inside {g : List Numbered} (he : e.1.isInner = true) :
    divide (true, outer, g :: groups) e = (true, outer, (e :: g) :: groups) := by
  simp [divide, (Quad.isInner_iff.mp he).1, (Quad.isInner_iff.mp he).2]

theorem foldl_inner_outside (hes : ∀ e ∈ es, e.1.isInner = true) :
    es.foldl divide (false, outer, groups) = (false, es.reverse ++ outer, groups) := by
  induction es generalizing outer with
  | nil => rfl
  | cons e es ih =>
    rw [List.foldl_cons, divide_inner_outside (hes e (.head _)),
      ih fun e' he' => hes e' (.tail _ he'), List.reverse_cons, List.append_assoc]
    rfl

theorem foldl_inner_inside {g : List Numbered} (hes : ∀ e ∈ es, e.1.isInner = true) :
    es.foldl divide (true, outer, g :: groups) = (true, outer, (es.reverse ++ g) :: groups) := by
  induction es generalizing g with
  | nil => rfl
  | cons e es ih =>
    rw [List.foldl_cons, divide_inner_inside (hes e (.head _)),
      ih fun e' he' => hes e' (.tail _ he'), List.reverse_cons, List.append_assoc]
    rfl

theorem Division.open_empty : Division.Open (false, outer, groups) :=
  fun hinside => absurd hinside Bool.false_ne_true

/-- What has gone to the code outside stays there. -/
theorem suffix_foldl_outside (es : List Numbered) (acc : Division) :
    acc.2.1 <:+ (es.foldl divide acc).2.1 := by
  induction es generalizing acc with
  | nil => exact List.suffix_rfl
  | cons e es ih =>
    refine List.IsSuffix.trans ?_ (ih _)
    unfold divide
    split
    · exact List.suffix_rfl
    grind

/-- The end of a frame ends the function at hand. If there is none, it goes to the code outside. -/
theorem divide_leave (he : e.1.op = .leave) (hopen : acc.Open) :
    (divide acc e).1 = false ∧ (acc.1 = false → e ∈ (divide acc e).2.1) := by
  have hlabel : functionLabel? e.1 = none := Quad.functionLabel?_eq_none (by rw [he]; decide)
  obtain ⟨inside, outer, groups⟩ := acc
  cases inside with
  | false => simp [divide, hlabel]
  | true =>
    obtain ⟨g, gs, hgroups⟩ := List.exists_cons_of_ne_nil (hopen rfl)
    dsimp only at hgroups
    subst hgroups
    simp [divide, hlabel, he]

end Mips.Program

/-! ## Code with functions in it -/

/-- Code in which the functions are marked: single quadruples and functions, each with the opening
and the ending of its frame and with such code between them. -/
inductive Nesting where
  | nil
  | quad (e : Numbered) (rest : Nesting)
  | routine (r : RoutineDecl) (opening : List Numbered) (body : Nesting) (ending : List Numbered)
      (rest : Nesting)

/-- The label of a routine is one of a function. -/
theorem RoutineDecl.functionLabel?_isSome (r : RoutineDecl) :
    (functionLabel? { op := .label, result := r.label }).isSome = true := by
  obtain ⟨_ | cls, name, body⟩ := r
  · simp [functionLabel?, label, Emit.functionLabel, Operand.text?, Operand.plain, Affix.begins,
      String.toList_append]
  · simp [functionLabel?, label, Emit.methodLabel, Operand.text?, Operand.plain, Affix.begins,
      String.toList_append]

/-- The code of a routine comes of reading its body, to the end and without an error. -/
structure RoutineDecl.Written (r : RoutineDecl) (opening body ending : List Quad) : Prop where
  opening : ∃ size, opening = [{ op := .label, result := r.label }, { op := .enter, arg1 := size }]
  body : ∃ b frame b', Ends (Compile.block (Compile.statements r.body)) b () b' ∧
    b.routine? = some ⟨r.key, frame⟩ ∧ b'.errors = #[] ∧ b'.quads.toList = b.quads.toList ++ body
  ending : Emit.IsEnding ending.toArray

namespace Nesting

/-- All quadruples, in their order. -/
def code : Nesting → List Numbered
  | nil => []
  | quad e rest => e :: rest.code
  | routine _ opening body ending rest => opening ++ body.code ++ ending ++ rest.code

/-- The quadruples that are in no function. -/
def outside : Nesting → List Numbered
  | nil => []
  | quad e rest => e :: rest.outside
  | routine _ _ _ _ rest => rest.outside

/-- The quadruples of each function without those of the functions in it. -/
def groups : Nesting → List (List Numbered)
  | nil => []
  | quad _ rest => rest.groups
  | routine _ opening body ending rest =>
    (opening ++ body.outside ++ ending) :: (body.groups ++ rest.groups)

/-- No function is in another one. -/
def Flat : Nesting → Prop
  | nil => True
  | quad _ rest => rest.Flat
  | routine _ _ body _ rest => body.groups = [] ∧ rest.Flat

/-- The functions are those of a program, as their code is written. -/
def Sound (p : Program) : Nesting → Prop
  | nil => True
  | quad e rest => e.1.isInner = true ∧ rest.Sound p
  | routine r opening body ending rest => r ∈ Stmt.declsAll p ∧
    r.Written (opening.map Prod.fst) (body.code.map Prod.fst) (ending.map Prod.fst) ∧
    body.Sound p ∧ rest.Sound p

def append : Nesting → Nesting → Nesting
  | nil, m => m
  | quad e rest, m => quad e (rest.append m)
  | routine r opening body ending rest, m => routine r opening body ending (rest.append m)

variable {p : Program} {n m : Nesting}

theorem code_append : (n.append m).code = n.code ++ m.code := by
  induction n with
  | nil => rfl
  | quad e rest ih => rw [append, code, ih, code, List.cons_append]
  | routine r opening body ending rest _ ih =>
    rw [append, code, ih, code]
    simp only [List.append_assoc]

theorem Sound.append (hn : n.Sound p) (hm : m.Sound p) : (n.append m).Sound p := by
  induction n with
  | nil => exact hm
  | quad e rest ih => exact ⟨hn.1, ih hn.2⟩
  | routine r opening body ending rest _ ih =>
    obtain ⟨hr, hwritten, hbody, hrest⟩ := hn
    exact ⟨hr, hwritten, hbody, ih hrest⟩

/-! ### What the code is made of -/

theorem Sound.outside_inner (h : n.Sound p) : ∀ e ∈ n.outside, e.1.isInner = true := by
  induction n with
  | nil => exact nofun
  | quad e rest ih => exact List.forall_mem_cons.mpr ⟨h.1, ih h.2⟩
  | routine r opening body ending rest _ ih => exact ih h.2.2.2

theorem code_eq_outside (h : n.groups = []) : n.code = n.outside := by
  induction n with
  | nil => rfl
  | quad e rest ih => rw [code, ih h, outside]
  | routine => cases h

end Nesting

namespace RoutineDecl.Written

variable {r : RoutineDecl} {opening ending : List Numbered} {body : List Quad}
  (h : r.Written (opening.map Prod.fst) body (ending.map Prod.fst))
include h

/-- The opening is a label of a function and a quadruple within the function. -/
theorem opening_eq : ∃ label enter : Numbered, opening = [label, enter] ∧
    (functionLabel? label.1).isSome = true ∧ enter.1.isInner = true := by
  obtain ⟨size, hopening⟩ := h.opening
  obtain ⟨label, _, rfl, hlabel, htail⟩ := List.map_eq_cons_iff.mp hopening
  obtain ⟨enter, _, rfl, henter, hnil⟩ := List.map_eq_cons_iff.mp htail
  obtain rfl := List.map_eq_nil_iff.mp hnil
  refine ⟨label, enter, rfl, ?_, by rw [henter]; rfl⟩
  rw [hlabel]
  exact r.functionLabel?_isSome

/-- The ending is the end of a frame behind quadruples within the function. -/
theorem ending_eq : ∃ (front : List Numbered) (leave : Numbered), ending = front ++ [leave] ∧
    (∀ e ∈ front, e.1.isInner = true) ∧ leave.1.op = .leave := by
  obtain ⟨qs, hqs, heq⟩ : ∃ qs : List Quad, (∀ q ∈ qs, q.isInner = true) ∧
      ending.map Prod.fst = qs ++ [{ op := .leave }] := by
    rcases h.ending with hending | hending
    · exact ⟨[], nofun, congrArg Array.toList hending⟩
    · exact ⟨[{ op := .ret }], by decide, congrArg Array.toList hending⟩
  obtain ⟨front, last, rfl, rfl, hlast⟩ := List.map_eq_append_iff.mp heq
  obtain ⟨leave, rfl, hleave⟩ := List.map_eq_singleton_iff.mp hlast
  exact ⟨front, leave, rfl, fun e he => hqs _ (List.mem_map_of_mem he), by rw [hleave]⟩

/-- The code of a routine without another one in it is put into a group of its own. -/
theorem foldl_divide {inner outer : List Numbered} {groups : List (List Numbered)}
    (hinner : ∀ e ∈ inner, e.1.isInner = true) :
    (opening ++ inner ++ ending).foldl divide (false, outer, groups) =
      (false, outer, (opening ++ inner ++ ending).reverse :: groups) := by
  obtain ⟨label, enter, rfl, hlabel, henter⟩ := h.opening_eq
  obtain ⟨front, leave, rfl, hfront, hleave⟩ := h.ending_eq
  have hbegin : divide (false, outer, groups) label = (true, outer, [label] :: groups) := by
    simp [divide, hlabel]
  have hend : ∀ g, divide (true, outer, g :: groups) leave =
    (false, outer, (leave :: g) :: groups) := by
    intro g
    have hnone : functionLabel? leave.1 = none :=
      Quad.functionLabel?_eq_none (by rw [hleave]; decide)
    simp [divide, hnone, hleave]
  have hbody : ∀ e ∈ enter :: (inner ++ front), e.1.isInner = true := by
    grind
  have hcode : [label, enter] ++ inner ++ (front ++ [leave]) =
      label :: ((enter :: (inner ++ front)) ++ [leave]) := by simp
  rw [hcode, List.foldl_cons, hbegin, List.foldl_append, Mips.Program.foldl_inner_inside hbody,
    List.foldl_cons, hend, List.foldl_nil]
  simp

/-- Behind the code of a routine no function is open. Its end goes to the code outside if there was
none open before it. -/
theorem foldl_ending {acc : Division} (hopen : acc.Open) : (ending.foldl divide acc).1 = false ∧
    (acc.1 = false → ∃ e ∈ (ending.foldl divide acc).2.1, e.1.op = .leave) := by
  obtain ⟨front, leave, rfl, hfront, hleave⟩ := h.ending_eq
  have hclosed : acc.1 = false → (front.foldl divide acc).1 = false := by
    obtain ⟨inside, outer, groups⟩ := acc
    rintro rfl
    rw [Mips.Program.foldl_inner_outside hfront]
  have hopen : Division.Open (front.foldl divide acc) := hopen.foldl
  obtain ⟨hfalse, hmem⟩ := Mips.Program.divide_leave hleave hopen
  rw [List.foldl_append, List.foldl_cons, List.foldl_nil]
  exact ⟨hfalse, fun hacc => ⟨leave, hmem (hclosed hacc), hleave⟩⟩

end RoutineDecl.Written

namespace Nesting

variable {p : Program} {n m : Nesting}

/-! ### How it is divided -/

/-- Code without functions in functions is divided as it is nested. -/
theorem foldl_divide (h : n.Sound p) (hflat : n.Flat) {outer : List Numbered}
    {groups : List (List Numbered)} : n.code.foldl divide (false, outer, groups) =
      (false, n.outside.reverse ++ outer, (n.groups.map List.reverse).reverse ++ groups) := by
  induction n generalizing outer groups with
  | nil => rfl
  | quad e rest ih =>
    rw [code, List.foldl_cons, Mips.Program.divide_inner_outside h.1, ih h.2 hflat]
    simp [outside, Nesting.groups]
  | routine r opening body ending rest _ ih =>
    obtain ⟨-, hwritten, hbody, hrest⟩ := h
    rw [code, List.foldl_append, code_eq_outside hflat.1, hwritten.foldl_divide hbody.outside_inner,
      ih hrest hflat.2]
    simp [outside, Nesting.groups, hflat.1]

/-- Behind a function no function is open. -/
theorem foldl_closed (h : n.Sound p) {acc : Division} (hopen : acc.Open)
    (hclosed : acc.1 = false ∨ n.groups ≠ []) : (n.code.foldl divide acc).1 = false := by
  induction n generalizing acc with
  | nil => exact hclosed.resolve_right fun hne => hne rfl
  | quad e rest ih =>
    refine ih h.2 hopen.divide (hclosed.imp_left fun hacc => ?_)
    obtain ⟨inside, outer, groups⟩ := acc
    obtain rfl : inside = false := hacc
    rw [Mips.Program.divide_inner_outside h.1]
  | routine r opening body ending rest _ ih =>
    obtain ⟨-, hwritten, hbody, hrest⟩ := h
    rw [code, List.foldl_append, List.foldl_append]
    exact ih hrest hopen.foldl.foldl (.inl (hwritten.foldl_ending hopen.foldl).1)

/-- If a function is in another one, an end of a frame goes to the code outside. -/
theorem leave_outside (h : n.Sound p) (hflat : ¬ n.Flat) {acc : Division} (hopen : acc.Open) :
    ∃ e ∈ (n.code.foldl divide acc).2.1, e.1.op = .leave := by
  induction n generalizing acc with
  | nil => exact absurd trivial hflat
  | quad e rest ih => exact ih h.2 hflat hopen.divide
  | routine r opening body ending rest _ ih =>
    obtain ⟨-, hwritten, hbody, hrest⟩ := h
    rw [code, List.foldl_append]
    by_cases hgroups : body.groups = []
    · exact ih hrest (fun hrest => hflat ⟨hgroups, hrest⟩) hopen.foldl
    -- Behind the inner function none is open, when the outer one ends.
    · have hopening : Division.Open (opening.foldl divide acc) := hopen.foldl
      have hclosed := foldl_closed hbody hopening (.inr hgroups)
      rw [← List.foldl_append] at hclosed
      obtain ⟨e, he, hleave⟩ := (hwritten.foldl_ending hopen.foldl).2 hclosed
      rw [← List.foldl_append] at he
      exact ⟨e, (Mips.Program.suffix_foldl_outside _ _).subset he, hleave⟩

/-- Quadruples are divided as they are nested exactly if no function is in another one. -/
theorem Sound.split_code_iff (h : n.Sound p) : split n.code = (n.outside, n.groups) ↔ n.Flat := by
  rw [split_eq]
  refine ⟨fun heq => ?_, fun hflat => ?_⟩
  · by_contra hflat
    obtain ⟨e, he, hleave⟩ := leave_outside h hflat (Division.open_empty)
    have hmem : e ∈ n.outside := by
      rw [← (Prod.mk.inj heq).1]
      exact List.mem_reverse.mpr he
    exact (Quad.isInner_iff.mp (h.outside_inner e hmem)).2 hleave
  · rw [foldl_divide h hflat]
    simp

end Nesting

namespace Compile

/-! ## How it is written -/

/-- Code in which the functions can be marked, wherever it stands. -/
def Nests (p : Program) (code : List Quad) : Prop :=
  ∀ es : List Numbered, es.map Prod.fst = code → ∃ n : Nesting, n.code = es ∧ n.Sound p

variable {p : Program} {b b' : Build}

theorem Nests.codeShape : CodeShape (Nests p) where
  nil es hes := ⟨.nil, (List.map_eq_nil_iff.mp hes).symm, trivial⟩
  append hc hd es hes := by
    obtain ⟨es₁, es₂, rfl, hes₁, hes₂⟩ := List.map_eq_append_iff.mp hes
    obtain ⟨n, rfl, hn⟩ := hc es₁ hes₁
    obtain ⟨m, rfl, hm⟩ := hd es₂ hes₂
    exact ⟨n.append m, Nesting.code_append, hn.append hm⟩
  quad q hq es hes := by
    obtain ⟨e, _, rfl, rfl, hnil⟩ := List.map_eq_cons_iff.mp hes
    obtain rfl := List.map_eq_nil_iff.mp hnil
    exact ⟨.quad e .nil, rfl, Quad.isInner_of_inFlow hq, trivial⟩

theorem Nests.stack {q : Quad} (hq : q.op.isStack = true) : Nests p [q] := by
  intro es hes
  obtain ⟨e, _, rfl, rfl, hnil⟩ := List.map_eq_cons_iff.mp hes
  obtain rfl := List.map_eq_nil_iff.mp hnil
  exact ⟨.quad e .nil, rfl, Quad.isInner_of_isStack hq, trivial⟩

/-- The code of a routine is marked as such. -/
theorem Nests.routine {r : RoutineDecl} (hr : r ∈ Stmt.declsAll p)
    (hbody : Keeps (Lays (Nests p)) (block (statements r.body))) (frame : FrameId)
    (result? : Option Ty) :
    Keeps (Lays (Nests p))
      (Emit.routine r.key frame r.label result? (block (statements r.body))) := by
  refine Lays.routine hbody
    fun {_ _ code ending} size hd hroutine hclean hquads hcode hending es hes => ?_
  have hes : es.map Prod.fst = [{ op := .label, result := r.label },
    { op := .enter, arg1 := size }] ++
      (code ++ ending.toList) := hes
  obtain ⟨opening, tail, rfl, hopening, htail⟩ := List.map_eq_append_iff.mp hes
  obtain ⟨body, ending, rfl, hbody, hend⟩ := List.map_eq_append_iff.mp htail
  obtain ⟨n, rfl, hn⟩ := hcode body hbody
  refine ⟨.routine r opening n ending .nil, ?_, hr, ⟨⟨size, hopening⟩, ?_, ?_⟩, hn, trivial⟩
  · simp [Nesting.code]
  · exact ⟨_, frame, _, hd, hroutine, hclean, by rw [hbody]; exact hquads⟩
  · rw [hend]
    exact hending

/-- In the code of a program without errors the functions can be marked. -/
theorem program_nests (hp : ∀ u ∈ Stmt.usesAll p, u.Formed) (h : Ends (program p) {} () b)
    (hclean : b.errors = #[]) : ∃ n : Nesting, n.code = b.quads.toList.zipIdx ∧ n.Sound p := by
  have hshape : CodeShape (Nests p) := Nests.codeShape
  have hexpr := Lays.exprStable hshape fun q => Nests.stack
  have hflow : FlowStable Use.Formed (Lays (Nests p)) :=
    Lays.flowStable hshape fun u hu => hexpr.expr _ hu
  have hwalk : StmtWalk Use.Formed (· ∈ Stmt.declsAll p) (Since (Lays (Nests p))) :=
    hflow.walk fun r hr hbody => Nests.routine hr hbody
  have hlays := hflow.keeps (S := []) (hwalk.statements p [] hp fun _ hr => hr) h
  obtain ⟨code, hquads, hnests⟩ := hlays.code hclean
  refine hnests _ ?_
  rw [List.zipIdx_map_fst]
  exact hquads

/-- Statements without declarations of functions write quadruples within a function only. -/
theorem block_inner {ss : List Stmt} (hss : ∀ u ∈ Stmt.usesAll ss, u.Formed)
    (hdecls : Stmt.declsAll ss = []) {code : List Quad} (h : Ends (block (statements ss)) b () b')
    (hclean : b'.errors = #[]) (hquads : b'.quads.toList = b.quads.toList ++ code) :
    ∀ q ∈ code, q.isInner = true := by
  have hshape : CodeShape fun code => ∀ q ∈ code, q.isInner = true :=
    ⟨nofun, fun hc hd q hq => (List.mem_append.mp hq).elim (hc q) (hd q),
      fun q hq => List.forall_mem_singleton.mpr (Quad.isInner_of_inFlow hq)⟩
  have hexpr := Lays.exprStable hshape fun q hq =>
    List.forall_mem_singleton.mpr (Quad.isInner_of_isStack hq)
  have hflow : FlowStable Use.Formed (Lays fun code => ∀ q ∈ code, q.isInner = true) :=
    Lays.flowStable hshape fun u hu => hexpr.expr _ hu
  have hwalk : StmtWalk Use.Formed (fun _ => False)
    (Since (Lays fun code => ∀ q ∈ code, q.isInner = true)) :=
    hflow.walk fun _ hr => hr.elim
  have hkeys : ∀ r ∈ Stmt.declsAll ss, False := by
    rw [hdecls]
    exact nofun
  have hlays := hflow.keeps (S := []) (hwalk.block (hwalk.statements ss [] hss hkeys)) h
  obtain ⟨code', hquads', hinner⟩ := hlays.code hclean
  obtain rfl : code' = code := List.append_cancel_left (hquads'.symm.trans hquads)
  exact hinner

end Compile

namespace Nesting

variable {p : Program} {n : Nesting}

theorem Sound.groups_of_inner (h : n.Sound p) (hinner : ∀ e ∈ n.code, e.1.isInner = true) :
    n.groups = [] := by
  induction n with
  | nil => rfl
  | quad e rest ih => exact ih h.2 fun e he => hinner e (.tail _ he)
  | routine r opening body ending rest _ _ =>
    obtain ⟨label, enter, rfl, hlabel, -⟩ := h.2.1.opening_eq
    have hnone := (Quad.isInner_iff.mp (hinner label (by simp [code]))).1
    rw [hnone] at hlabel
    cases hlabel

/-- In a program in which no function declares another one, no function is in another one. -/
theorem Sound.flat (h : n.Sound p) (hp : ∀ u ∈ Stmt.usesAll p, u.Formed)
    (hdecls : ∀ r ∈ Stmt.declsAll p, Stmt.declsAll r.body = []) : n.Flat := by
  induction n with
  | nil => trivial
  | quad e rest ih => exact ih h.2
  | routine r opening body ending rest _ ih =>
    obtain ⟨hr, hwritten, hbody, hrest⟩ := h
    obtain ⟨b, frame, b', hread, -, hclean, hquads⟩ := hwritten.body
    have hformed : ∀ u ∈ Stmt.usesAll r.body, u.Formed := fun u hu =>
      hp u (Stmt.declsAll_within p r hr hu)
    have hinner := Compile.block_inner hformed (hdecls r hr) hread hclean hquads
    exact ⟨hbody.groups_of_inner fun e he => hinner e.1 (List.mem_map_of_mem he), ih hrest⟩

end Nesting

/-! ## The translation -/

namespace Mips

/-- The quadruple of a block with its place. -/
def Block.numbered (b : Block) : Numbered := (b.quad, b.index)

namespace Program

variable {input : Input}

theorem blocks_numbered {qs : List Numbered} {s s' : Select} {bs : List Block}
    (h : Select.Ends input (blocks qs) s bs s') : bs.map Block.numbered = qs := by
  induction qs generalizing s bs with
  | nil =>
    obtain ⟨rfl, -⟩ := Select.ends_pure.mp h
    rfl
  | cons e qs ih =>
    obtain ⟨code, s₁, rest, -, hrest, rfl⟩ := blocks_cons_ends.mp h
    rw [List.map_cons, ih hrest]
    rfl

theorem mapM_blocks_numbered {groups : List (List Numbered)} {s s' : Select}
    {fs : List (List Block)} (h : Select.Ends input (groups.mapM blocks) s fs s') :
    fs.map (·.map Block.numbered) = groups := by
  induction groups generalizing s fs with
  | nil =>
    obtain ⟨rfl, -⟩ := Select.ends_pure.mp h
    rfl
  | cons g gs ih =>
    obtain ⟨f, s₁, rest, hf, hrest, rfl⟩ := Select.ends_mapM_cons.mp h
    rw [List.map_cons, blocks_numbered hf, ih hrest]

/-- The quadruples are translated as they are divided. -/
theorem ofInput_split {asm : Program} (h : ofInput input = .ok asm) :
    split input.quads.zipIdx =
      (asm.main.map Block.numbered, asm.functions.map (·.map Block.numbered)) := by
  obtain ⟨s, s', hmain, hfunctions⟩ := ofInput_ends h
  rw [blocks_numbered hmain, mapM_blocks_numbered hfunctions]

end Program

end Mips

theorem Build.ofInput_of_assembly? {b : Build} {asm : Mips.Program}
    (h : b.assembly? = some (.ok asm)) :
    Mips.Program.ofInput b.input = .ok asm := by
  unfold assembly? at h
  split at h
  · exact Option.some.inj h
  · cases h

namespace Compile

/-- **Code stays with its function unless another one is in it.** The code of a program without
errors is made of quadruples outside of functions and of the code of its functions. It is divided
into the quadruples outside, in their order, and those of each function, from its label to the end
of its frame, exactly if no function is in another one. That is so if none declares another one. The
translation follows the division. -/
theorem code_with_its_function {text : String} {s : Source} {b : Build}
    (hs : Source.ofText text = .ok s) (h : s.build = (.ok (), b)) (hclean : b.errors = #[]) :
    ∃ n : Nesting, n.code = b.quads.toList.zipIdx ∧ n.Sound s.program ∧
      (split b.quads.toList.zipIdx = (n.outside, n.groups) ↔ n.Flat) ∧
      ((∀ r ∈ Stmt.declsAll s.program, Stmt.declsAll r.body = []) → n.Flat) ∧
      ∀ asm, b.assembly? = some (.ok asm) → split b.quads.toList.zipIdx =
        (asm.main.map Mips.Block.numbered, asm.functions.map (·.map Mips.Block.numbered)) := by
  obtain ⟨n, hcode, hn⟩ := program_nests (Source.formed hs) h hclean
  refine ⟨n, hcode, hn, ?_, hn.flat (Source.formed hs), fun asm hasm => ?_⟩
  · rw [← hcode]
    exact hn.split_code_iff
  · exact Mips.Program.ofInput_split (Build.ofInput_of_assembly? hasm)

/-- A program with a function, a class with a method and a statement: the quadruples of the
statement, from the twelfth on, are outside. -/
theorem code_with_its_function_method :
    ∃ (s : Source) (b : Build) (asm : Mips.Program) (n : Nesting),
    Source.ofText "function f(x: integer): integer \x7b return x; \x7d class A \x7b let v: integer; function get(): integer \x7b return this.v; \x7d \x7d print(f(2));" = .ok s ∧
    s.build = (.ok (), b) ∧ b.errors = #[] ∧ b.assembly? = some (.ok asm) ∧
    n.code = b.quads.toList.zipIdx ∧ n.Sound s.program ∧
    asm.main.map Mips.Block.numbered = n.outside ∧
    asm.functions.map (·.map Mips.Block.numbered) = n.groups ∧
    n.outside.map Prod.snd = [12, 13, 14, 15, 16, 17] ∧
    n.groups.map (·.map Prod.snd) = [[0, 1, 2, 3], [4, 5, 6, 7, 8, 9, 10, 11]] := by
  obtain ⟨s, b, hs, hb, hclean, hdecls, asm, hasm, hmain, hfunctions⟩ :=
    Source.ends_of_read? program
    "function f(x: integer): integer \x7b return x; \x7d class A \x7b let v: integer; function get(): integer \x7b return this.v; \x7d \x7d print(f(2));"
    (P := fun s b => b.errors = #[] ∧
      ((Stmt.declsAll s.program).all fun r => (Stmt.declsAll r.body).isEmpty) ∧
      ∃ asm, b.assembly? = some (.ok asm) ∧ asm.main.map (·.index) = [12, 13, 14, 15, 16, 17] ∧
        asm.functions.map (·.map (·.index)) = [[0, 1, 2, 3], [4, 5, 6, 7, 8, 9, 10, 11]])
          (by decide +kernel)
  obtain ⟨n, hcode, hn, hiff, hflat, hsplit⟩ := code_with_its_function hs hb hclean
  have hdivided := hiff.mpr
    (hflat fun r hr => List.isEmpty_iff.mp (List.all_eq_true.mp hdecls r hr))
  rw [hsplit asm hasm, Prod.mk.injEq] at hdivided
  refine ⟨s, b, asm, n, hs, hb, hclean, hasm, hcode, hn, hdivided.1, hdivided.2, ?_, ?_⟩
  · rw [← hdivided.1, List.map_map]
    exact hmain
  · rw [← hdivided.2, List.map_map]
    simpa only [Function.comp_def, List.map_map, Mips.Block.numbered] using hfunctions

/-- The code of a function goes on outside of it behind a function that it declares: the function
`outer` lasts from the label in front to the second end of a frame, at place 11, but it keeps two
quadruples only. -/
theorem code_of_outer_function_outside : ∃ s b asm,
    Source.ofText "function outer() \x7b function inner() \x7b print(1); \x7d print(2); \x7d outer();" = .ok s ∧
    s.build = (.ok (), b) ∧ b.errors = #[] ∧ b.assembly? = some (.ok asm) ∧
    b.quads.toList.map Quad.op = [.label, .enter, .label, .enter, .copy, .printInt,
      .ret, .leave, .copy,
      .printInt, .ret, .leave, .call, .pop] ∧
    b.quads.toList.filterMap functionLabel? = ["FUNC_outer", "FUNC_inner"] ∧
    asm.main.map (·.index) = [8, 9, 10, 11, 12, 13] ∧
    asm.functions.map (·.map (·.index)) = [[0, 1], [2, 3, 4, 5, 6, 7]] := by
  simp only [exists_and_left]
  exact Source.of_read? (by decide +kernel)

end Compile

end Scriptc
