import Scriptc.Proofs.Resolution
import Scriptc.Proofs.Slots

/-!
# Scriptc: the calling convention

`Spoken p code` says of what the code of a program consists: quadruples of the flow, the code of
expressions with the calls that stand in them, and the code of functions. Since a call takes from
the stack what it has put there, no words are on it at any quadruple that is not one of a call
(`Spoken.level`).

A function finds its arguments in its frame because both sides count alike. The symbol of a function
and its frame have the same parameters (`names_frameParams`), a parameter has its place by the
number of those before it (`WritesRoutine.offset`), and there the argument of that number lies when
the function begins (`Call.run_pushes`).
-/

namespace Scriptc

open Build (Ends Keeps ends_bind ends_pure ends_modify)

/-! ## Words on the stack -/

/-- No words are on the stack behind the code, and none at any of its quadruples but those of
calls. -/
@[grind cases] structure StackLevel (code : List Quad) : Prop where
  behind : pushedWords code = 0
  within : ∀ before q after, code = before ++ q :: after → q.op.isStack = false →
    pushedWords before = 0

namespace StackLevel

variable {c d : List Quad}

theorem nil : StackLevel [] :=
  ⟨rfl, fun _ _ _ h => by simp at h⟩

theorem append (hc : StackLevel c) (hd : StackLevel d) : StackLevel (c ++ d) := by
  refine ⟨by rw [pushedWords_append, hc.behind, hd.behind,
    Int.add_zero], fun before q after h hq => ?_⟩
  rcases List.append_eq_append_iff.mp h with ⟨rest, rfl, hrest⟩ | ⟨rest, rfl, hrest⟩
  · rw [pushedWords_append, hc.behind, hd.within _ _ _ hrest hq, Int.add_zero]
  · cases rest with
    | nil =>
      grind
    | cons r rest =>
      grind

theorem single {q : Quad} (hq : q.op.isStack = false) : StackLevel [q] := by
  refine ⟨by simp [pushedWords, Quad.words_of_not_isStack hq], fun before q' after h _ => ?_⟩
  cases before with
  | nil => rfl
  | cons _ before => simp at h

theorem of_forall (h : ∀ q ∈ c, q.op.isStack = false) : StackLevel c := by
  induction c with
  | nil => exact nil
  | cons q c ih =>
    obtain ⟨hq, hc⟩ := List.forall_mem_cons.mp h
    exact (single hq).append (ih hc)

/-- Of a call only the end is asked for. -/
theorem call (c : Call) : StackLevel c.code := by
  refine ⟨c.words_code, fun before q after h hq => ?_⟩
  have hmem : q ∈ c.code := h ▸ List.mem_append_right _ ((.head _) ..)
  rw [(Call.mem_code hmem).1] at hq
  cases hq

theorem of_hasCalls {T : SymbolTable} {ss : List Site} (h : HasCalls T ss c) : StackLevel c := by
  induction h with
  | nil => exact nil
  | quad hq _ ih => exact (single (Quad.isStack_of_inFlow hq)).append ih
  | text _ ih => exact (call _).append ih
  | call _ _ ih => exact (call _).append ih
  | bare _ _ _ _ ih => exact ih

end StackLevel

theorem Frame.names_addParams (f : Frame) (ps : List (String × Option Ty)) :
    (f.addParams ps).params.map FrameEntry.name = f.params.map FrameEntry.name ++
    ps.map Prod.fst := by
  have hnamed := congrArg (List.map Prod.fst) (f.named_addParams ps).1
  rwa [List.map_append, List.map_map, List.map_map] at hnamed

namespace Compile

variable {b b' : Build} {id : SymbolId} {f : Function} {ps : List Param}

/-! ## The code of a program -/

/-- Code that consists of quadruples of the flow, of the code of expressions of the program with the
calls that stand in them, and of the code of functions of the program. -/
inductive Spoken (p : Program) : List Quad → Prop where
  | nil : Spoken p []
  | append {c d : List Quad} : Spoken p c → Spoken p d → Spoken p (c ++ d)
  | quad {q : Quad} (hq : q.inFlow = true) : Spoken p [q]
  | expr {u : Use} {b b' : Build} {type? : Option Ty} {code : List Quad} (hu : u ∈ Stmt.usesAll p)
      (h : Ends (expr u.expr) b type? b') (hclean : b'.errors = #[])
      (hcode : b'.quads.toList = b.quads.toList ++ code)
        (hcalls : HasCalls b.table u.expr.sites code) :
      Spoken p code
  | routine {r : RoutineDecl} {size : Operand} {body : List Quad} {ending : Array Quad}
      (hr : r ∈ Stmt.declsAll p) (hbody : Spoken p body) (hending : Emit.IsEnding ending) :
      Spoken p ({ op := .label, result := r.label } :: { op := .enter, arg1 := size } ::
        (body ++ ending.toList))

namespace Spoken

variable {p : Program}

theorem codeShape : CodeShape (Spoken p) := ⟨.nil, .append, fun _ => .quad⟩

theorem level {code : List Quad} (h : Spoken p code) : StackLevel code := by
  induction h with
  | nil => exact .nil
  | append _ _ hc hd => exact hc.append hd
  | quad hq => exact .single (Quad.isStack_of_inFlow hq)
  | expr _ _ _ _ hcalls => exact .of_hasCalls hcalls
  | @routine r size body ending _ _ hending hbody =>
    have hopening : StackLevel [({ op := .label, result := r.label } : Quad),
      { op := .enter, arg1 := size }] :=
      .of_forall (by simp [Op.isStack])
    refine hopening.append (hbody.append (.of_forall fun q hq => ?_))
    rcases hending.mem q (Array.mem_toList_iff.mp hq) with rfl | rfl <;> rfl

end Spoken

/-- The code of a program without errors consists of the code of its expressions and functions. -/
theorem program_spoken {p : Program} (hp : ∀ u ∈ Stmt.usesAll p, u.Formed)
    (h : Ends (program p) {} () b) (hclean : b.errors = #[]) : Spoken p b.quads.toList := by
  have hvalue : ∀ u, u ∈ Stmt.usesAll p → Keeps (Lays (Spoken p)) (expr u.expr) := by
    intro u hu b type? b' hend
    obtain ⟨-, hlays, -⟩ := expr_makes u.expr (hp u hu) rfl hend
    refine ⟨hlays.errors, fun hclean => ?_⟩
    obtain ⟨code, hcode, hcalls⟩ := hlays.code hclean
    exact ⟨code, hcode, .expr hu hend hclean hcode hcalls⟩
  have hflow : FlowStable (· ∈ Stmt.usesAll p) (Lays (Spoken p)) :=
    Lays.flowStable Spoken.codeShape hvalue
  have hwalk : StmtWalk (· ∈ Stmt.usesAll p) (· ∈ Stmt.declsAll p) (Since (Lays (Spoken p))) :=
    hflow.walk fun r hr hbody frame result? =>
      Lays.routine hbody fun size _ _ _ _ hcode hending => .routine hr hcode hending
  have hlays := hflow.keeps (S := []) (hwalk.statements p [] (fun _ hu => hu) fun _ hr => hr) h
  obtain ⟨code, hcode, hspoken⟩ := hlays.code hclean
  rw [hcode]
  exact hspoken

/-! ## Parameters -/

/-- The function that a symbol stands for. -/
def functionAt? (b : Build) (id : SymbolId) : Option Function :=
  (b.table.symbol? id).bind Symbol.asFunction?

theorem functionAt?_modifyFunction {g : Function → Function} {u : Unit}
    (h : Ends (modifyFunction id g) b u b') (hf : functionAt? b id = some f) :
    functionAt? b' id = some (g f) := by
  obtain rfl := ends_modify.mp h
  obtain ⟨s, hs, hbody⟩ := Option.bind_eq_some_iff.mp hf
  have hsymbol : b.table.symbols[id]? = some s := hs
  unfold Symbol.asFunction? at hbody
  split at hbody
  · rename_i hfunction
    cases hbody
    simp [functionAt?, SymbolTable.symbol?, SymbolTable.modifySymbol, Array.getElem?_modify,
      hsymbol, hfunction,
      Symbol.asFunction?]
  · cases hbody

/-- A declaration leaves the symbols alone that there are. -/
theorem functionAt?_declare {line : Nat} {s : Symbol} {r : SymbolId × Bool}
    (h : Ends (declare line s) b r b') (hf : functionAt? b id = some f) :
    functionAt? b' id = some f := by
  obtain ⟨s', hs', hbody⟩ := Option.bind_eq_some_iff.mp hf
  have hkeep := SymbolTable.symbol?_keep (s := s) hs'
  have hother : id ≠ (b.table.keep s).1 := Nat.ne_of_lt (Array.getElem?_eq_some_iff.mp hs').1
  rcases declare_cases h with ⟨t, ht, -, rfl⟩ | ⟨_, _, -, -, rfl⟩
  · rw [functionAt?, SymbolTable.symbol?_declare ht hother, hkeep]
    exact hbody
  · rw [functionAt?, hkeep]
    exact hbody

/-- The names of a table are as before when a type has been read. -/
theorem table_typeOf? {text? : Option String} {t? : Option Ty}
    (h : Ends (typeOf? text?) b t? b') : b'.table = b.table :=
  (Quiet.exprStable.keeps (S := []) (Quiet.exprStable.codeWalk.typeOf? text?) h).table

theorem names_declareParams {scope : Nat}
    (h : Ends (declareParams id scope ps) b () b') (hf : functionAt? b id = some f) :
    ∃ f', functionAt? b' id = some f' ∧ f'.params.map Prod.fst = f.params.map Prod.fst ++
      ps.map Param.name := by
  induction ps generalizing b f with
  | nil =>
    obtain ⟨-, rfl⟩ := ends_pure.mp h
    exact ⟨f, hf, by simp⟩
  | cons p ps ih =>
    obtain ⟨t?, b₁, htype, h⟩ := ends_bind.mp h
    obtain ⟨_, b₂, hmodify, h⟩ := ends_bind.mp h
    obtain ⟨r, b₃, hdeclare, h⟩ := ends_bind.mp h
    -- The symbol takes the parameter before the name is declared.
    rw [functionAt?, ← table_typeOf? htype] at hf
    have hf := functionAt?_declare hdeclare (functionAt?_modifyFunction hmodify hf)
    grind

theorem names_frameParams {qs : List (String × Option Ty)} (h : Ends (frameParams ps) b qs b') :
    b'.table = b.table ∧ qs.map Prod.fst = ps.map Param.name := by
  induction ps generalizing b qs with
  | nil =>
    obtain ⟨rfl, rfl⟩ := ends_pure.mp h
    exact ⟨rfl, rfl⟩
  | cons p ps ih =>
    rw [frameParams, List.mapM_cons] at h
    obtain ⟨q, b₁, hq, h⟩ := ends_bind.mp h
    obtain ⟨rest, b₂, hrest, h⟩ := ends_bind.mp h
    obtain ⟨rfl, rfl⟩ := ends_pure.mp h
    obtain ⟨t?, b₃, htype, hq⟩ := ends_bind.mp hq
    obtain ⟨rfl, rfl⟩ := ends_pure.mp hq
    obtain ⟨htable, hnames⟩ := ih hrest
    exact ⟨htable.trans (table_typeOf? htype), by simp [hnames]⟩

/-- The frame of a function and that of a method name the parameters that the symbol has. -/
theorem names_frame {scope : Nat} {qs : List (String × Option Ty)} {c d : Build}
    (hdeclare : Ends (declareParams id scope ps) b () c) (hframe : Ends (frameParams ps) c qs d)
    (hf : functionAt? b id = some f) (hnone : f.params = []) :
    ∃ f', functionAt? d id = some f' ∧ ∀ key,
      (Frame.addParams { function := key } qs).params.map FrameEntry.name = f'.params.map Prod.fst ∧
      (Frame.addParams (.addParam { function := key } Emit.thisParam none)
        qs).params.map FrameEntry.name =
        Emit.thisParam :: f'.params.map Prod.fst := by
  obtain ⟨f', hf', hparams⟩ := names_declareParams hdeclare hf
  obtain ⟨htable, hnames⟩ := names_frameParams hframe
  refine ⟨f', by rw [functionAt?, htable]; exact hf', fun key => ?_⟩
  rw [hparams, hnone, ← hnames]
  simp [Frame.names_addParams, Frame.addParam]

/-- A parameter has its place by the number of those before it. -/
theorem WritesRoutine.offset {body : BuildM Unit} {f₀ : Frame} {step : BuildM Emit.RoutineCode}
    (h : WritesRoutine body f₀ step) {j : Nat} {e : FrameEntry} (he : f₀.params[j]? = some e) :
    e.offset = 4 * j := by
  refine h.laid.offset j e ?_
  rw [List.getElem?_append_left (List.getElem?_eq_some_iff.mp he).1]
  exact he

/-- **Calls keep the convention.** The code of a program without errors consists of the code of its
expressions and functions, and whenever an expression is read, its code has one call for each that
stands in it, of as many words as the function it resolves to has parameters, and one more for the
object of a method. At every quadruple that is not one of a call there are no words on the stack.
Where a function begins, each argument lies on the stack where the frame has the parameter of its
number, and the frame has the parameters that the symbol has. -/
theorem calls_keep_convention {text : String} {s : Source} {b : Build}
    (hs : Source.ofText text = .ok s) (h : s.build = (.ok (), b)) (hclean : b.errors = #[]) :
    Spoken s.program b.quads.toList ∧
    (∀ before q after, b.quads.toList = before ++ q :: after → q.op.isStack = false →
      pushedWords before = 0) ∧
    (∀ body f₀ step, WritesRoutine body f₀ step →
      ∀ (c : Call) (value : Operand → Int) (stack : Stack Int) j e a, f₀.params[j]? = some e →
        c.args[j]? = some a → e.offset = 4 * j ∧
        (stack.run value (Call.pushes c.args)).word
          ((stack.run value (Call.pushes c.args)).top + e.offset) = value a.1) ∧
    ∀ id scope ps qs b₀ b₁ b₂ f, Ends (declareParams id scope ps) b₀ () b₁ →
      Ends (frameParams ps) b₁ qs b₂ →
      functionAt? b₀ id = some f → f.params = [] →
      ∃ f', functionAt? b₂ id = some f' ∧ ∀ key,
        (Frame.addParams { function := key } qs).params.map FrameEntry.name =
          f'.params.map Prod.fst ∧
        (Frame.addParams (.addParam { function := key } Emit.thisParam none)
          qs).params.map FrameEntry.name =
          Emit.thisParam :: f'.params.map Prod.fst := by
  have hspoken := program_spoken (Source.formed hs) h hclean
  refine ⟨hspoken, hspoken.level.within, fun body f₀ step hstep c value stack j e a he ha => ?_, ?_⟩
  -- Arguments are pushed from the last to the first, so the first one is on top.
  · have hoffset := hstep.offset he
    refine ⟨hoffset, ?_⟩
    rw [hoffset, Int.natCast_mul]
    exact Call.run_pushes value stack j a ha
  · exact fun id scope ps qs b₀ b₁ b₂ f hdeclare hframe hf hnone =>
      names_frame hdeclare hframe hf hnone

/-- A program with calls of a constructor, a function and a method, which are seen in the code
behind the functions. At its last quadruple, which prints, the stack is empty. -/
theorem calls_keep_convention_method : ∃ s b,
    Source.ofText "function f(x: integer): integer \x7b return x; \x7d class C \x7b let v: integer; function constructor(a: integer) \x7b this.v = a; \x7d function plus(d: integer): integer \x7b return this.v + d; \x7d \x7d let c: C = new C(3); print(c.plus(f(2)));" = .ok s ∧
    s.build = (.ok (), b) ∧ b.errors = #[] ∧ Spoken s.program b.quads.toList ∧
    (b.quads.toList.drop 20).map Quad.op = [.copy, .push, .push, .call, .adjust, .pop,
      .copy, .copy, .push,
      .call, .adjust, .pop, .push, .push, .call, .adjust, .pop, .printInt] ∧
    pushedWords (b.quads.toList.take 37) = 0 := by
  refine Source.exists_of_read? program (P := fun _ b => b.errors = #[] ∧
    (b.quads.toList.drop 20).map Quad.op = [.copy, .push, .push, .call, .adjust, .pop,
      .copy, .copy, .push,
      .call, .adjust, .pop, .push, .push, .call, .adjust, .pop, .printInt] ∧
    (b.quads.toList.drop 37).map Quad.op = [.printInt]) (by decide +kernel)
    fun s b hs hb htest => ?_
  obtain ⟨hclean, hops, hlast⟩ := htest
  obtain ⟨hspoken, hlevel, -, -⟩ := calls_keep_convention hs hb hclean
  obtain ⟨q, hq, hop⟩ := List.map_eq_singleton_iff.mp hlast
  refine ⟨hclean, hspoken, hops, hlevel _ q [] ?_ (by rw [hop]; rfl)⟩
  rw [← hq, List.take_append_drop]

/-- The call `f(1)` that stands once in this program, as the argument of `new`, is made twice. -/
theorem argument_of_new_called_twice : ∃ s b,
    Source.ofText "function f(x: integer): integer \x7b return x; \x7d class C \x7b let v: integer; function constructor(a: integer) \x7b this.v = a; \x7d \x7d let c: C = new C(f(1));" = .ok s ∧
    s.build = (.ok (), b) ∧ b.errors = #[] ∧
    ((b.quads.toList.filter (·.op == .call)).map Quad.result) =
      [.text "FUNC_f", .text "FUNC_f", .text "FUNC_constructor (C)"] ∧
    (b.quads.toList.drop 11).map Quad.op = [.push, .call, .adjust, .pop, .push, .call,
      .adjust, .pop, .copy,
      .push, .push, .call, .adjust, .pop, .copy] :=
  Source.ends_of_read? program _ (by decide +kernel)

end Compile

end Scriptc
