import Scriptc.Proofs.Diagnostics

/-!
# Scriptc: chains of operators and parentheses

A chain `a op b op c` is read from the left. `Expr.nest` writes its parentheses out, `((a op b) op
c)`. For sums, products and the logical operators both are the same to the reader: the type so far
is the left type of the next operator. For comparisons it is not: there the next operator looks at
the type of the operand before it, so a chain of comparisons may pass although the same chain with
parentheses does not.
-/

namespace Scriptc

open Build (Ends ends_bind ends_pure)

/-- A chain with all its parentheses. -/
def Expr.nest (level : Level) : Expr → List (String × Expr) → Expr
  | first, [] => first
  | first, (op, e) :: rest => nest level (.group first.line (.chain level first [(op, e)])) rest

namespace Compile

variable {level : Level} {b b' c c' : Build}

/-- What is read behind the first operand where all parentheses are written out: each operator
begins a chain of its own. -/
def nested (level : Level) (line : Nat) (type? : Option Ty) :
    List (String × Expr) → BuildM (Option Ty)
  | [] => return type?
  | (op, e) :: rest => do
    let c ← Chain.start level type?
    let d ← c.step level line op e.line (← expr e)
    nested level line d.result? rest

theorem expr_nest (level : Level) (rest : List (String × Expr)) (first : Expr) :
    expr (first.nest level rest) = expr first >>= (nested level first.line · rest) := by
  induction rest generalizing first with
  | nil => exact (bind_pure _).symm
  | cons r rest ih =>
    obtain ⟨op, e⟩ := r
    rw [Expr.nest, ih]
    simp only [expr, chain, nested, Expr.line, bind_assoc, pure_bind]

/-! ## Levels that pass on the type so far -/

/-- The next operator looks at the type of the chain so far. -/
def PassesOn : Level → Prop
  | .equality | .relational => False
  | .or | .and | .additive | .multiplicative => True

theorem left_step (hlevel : PassesOn level) {line at_ : Nat} {op : String} {r? : Option Ty}
    {ch d : Chain} (hend : Ends (ch.step level line op at_ r?) b d c) : d.left? = d.result? := by
  have hlast (t : Ty) (v : Operand) (code : BuildM Operand) :
    Build.Gives (fun d : Chain => d.left? = d.result?) (do
      let w ← if t == .error then pure v else code
      return (⟨some t, some t, w⟩ : Chain)) := by
    dsimp only
    split
    · exact .pure rfl
    · exact .after fun _ => .pure rfl
  have hgives : Build.Gives (fun d : Chain => d.left? = d.result?)
    (ch.step level line op at_ r?) := by
    refine .after fun v => ?_
    cases level with
    | equality | relational => exact hlevel.elim
    | additive => exact .after fun _ => .after fun t => hlast t ch.value (ch.sum op r? v)
    | multiplicative => exact .after fun t => hlast t ch.value (Emit.arithmetic ch.value v op)
    | and | or => exact .after fun t => hlast t ch.value (Emit.logical ch.value v _)
  exact hgives hend

/-! ## Both forms side by side -/

theorem writes_start (level : Level) (type? : Option Ty) :
    Scriptc.Writes (fun ch => ch.left? = type? ∧ ch.result? = type? ∧ ch.value.Given)
      (Chain.start level type?) := by
  unfold Chain.start
  refine (Scriptc.Writes.read fun _ hb =>
    hb.value : Scriptc.Writes Operand.Given value).bind fun v hv => ?_
  dsimp only
  split
  · exact (Scriptc.Writes.use v).seq (.pure ⟨rfl, rfl, hv⟩)
  · exact .pure ⟨rfl, rfl, hv⟩

theorem closed_eq : Reading.Closed Eq := fun _ _ m h => congrArg (·.push m) h

/-- Both forms of a chain make the same reports and have the same type, although a sum that is
nested may use other temporaries. -/
theorem from_nested (hlevel : PassesOn level) (line : Nat) (rest : List (String × Expr))
    (hrest : Expr.AllRest Expr.Formed rest) {ch : Chain} (hleft : ch.left? = ch.result?)
    (hgiven : ch.value.Given) (h : (reading Eq fun _ => True).Agree b b') :
    (reading Eq fun _ => True).From Eq b b' (chain level line ch rest)
    (nested level line ch.result? rest) := by
  induction rest generalizing ch b b' with
  | nil => exact .pure rfl h
  | cons r rest ih =>
    obtain ⟨op, e⟩ := r
    unfold chain nested
    refine Reading.right (writes_start level _) (fun ch' c' hch' hc => ?_) h
    obtain ⟨hleft', hresult', hgiven'⟩ := hch'
    refine (Reading.twin_expr closed_eq (Reading.ok_of_formed hrest.1) hc).bind
      fun t? t?' d d' _ _ ht hd => ?_
    obtain rfl : t? = t?' := ht
    have hagree : (reading Eq fun _ => True).ChainsAgree ch ch' :=
      ⟨hleft'.trans hleft.symm, hresult', hgiven, hgiven'⟩
    refine ((Reading.exprSteps closed_eq).chainStep level line hagree op e.line t? hd).bind ?_
    intro ch₁ ch₁' f f' hstep _ hch₁ hf
    rw [hch₁.result]
    exact ih hrest.2 (left_step hlevel hstep) hch₁.value.1 hf

/-! ## Chains with and without parentheses -/

/-- A sum, a product or a chain of logical operators has the same type, and makes the same reports
and declarations, with and without parentheses. -/
theorem chain_as_nested (hlevel : PassesOn level) {first : Expr} {rest : List (String × Expr)}
    {t? t?' : Option Ty} (hfirst : first.All Expr.Formed) (hrest : Expr.AllRest Expr.Formed rest)
    (hsound : b.table.Sound) (hb : b.Valued) (hend : Ends (expr (.chain level first rest)) b t? c)
    (hend' : Ends (expr (first.nest level rest)) b t?' c') :
    t?' = t? ∧ c'.errors = c.errors ∧ c'.warnings = c.warnings ∧ c'.table = c.table := by
  rw [expr_nest] at hend'
  rw [expr] at hend
  have hstart : (reading Eq fun _ => True).Agree b b := Reading.agree_errors hsound hb rfl
  have hread : (reading Eq fun _ => True).From Eq b b
      (expr first >>= fun t? => Chain.start level t? >>= (chain level first.line · rest))
      (expr first >>= (nested level first.line · rest)) := by
    refine (Reading.twin_expr closed_eq (Reading.ok_of_formed hfirst) hstart).bind
      fun t t' d d' _ _ ht hd => ?_
    obtain rfl : t = t' := ht
    refine Reading.left (writes_start level t) (fun ch e hch he => ?_) hd
    obtain ⟨hleft, hresult, hgiven⟩ := hch
    rw [← hresult]
    exact from_nested hlevel first.line rest hrest (hleft.trans hresult.symm) hgiven he
  obtain ⟨htype, hagree⟩ := hread.ends hend hend'
  exact ⟨htype.symm, hagree.reports.symm, hagree.warnings,
    hagree.table_eq (Reading.base closed_eq) trivial⟩

/-- The first operand of `1 + "s" - 2`. -/
def mixedFirst : Expr := .literal 1 (.plain "1")

/-- What follows it in `1 + "s" - 2`, of which the last operator is wrong. -/
def mixedRest : List (String × Expr) :=
  [("+", .literal 1 (.plain "\"s\"")), ("-", .literal 1 (.plain "2"))]

/-- The wrong operator is reported once, in both forms. -/
theorem chain_as_nested_difference : ∃ t? c c',
    Ends (expr (.chain .additive mixedFirst mixedRest)) { value := .temp 0 } t? c ∧
    Ends (expr (mixedFirst.nest .additive mixedRest)) { value := .temp 0 } t? c' ∧
    c.errors = #["Error semántico. Línea 1: Operación '-' requiere operandos integer, got string y integer"] ∧
    c'.errors = c.errors := by
  have hrest : Expr.AllRest Expr.Formed mixedRest := by
    have hconstant : IsConstant ['"', 's', '"'] := .inr ⟨['s'], rfl⟩
    exact ⟨hconstant, (.inl (by decide) : IsConstant ['2']), trivial⟩
  obtain ⟨t?, c, hc, herrors⟩ :
    ∃ t? c, Ends (expr (.chain .additive mixedFirst mixedRest)) { value := .temp 0 } t? c ∧
      c.errors = #["Error semántico. Línea 1: Operación '-' requiere operandos integer, got string y integer"] := by
    decide +kernel
  obtain ⟨t?', c', hc', -⟩ :
    ∃ t? c, Ends (expr (mixedFirst.nest .additive mixedRest)) { value := .temp 0 } t? c ∧ True := by
    decide +kernel
  have hone : mixedFirst.All Expr.Formed := (.inl (by decide) : IsConstant ['1'])
  have hlevel : PassesOn .additive := trivial
  obtain ⟨rfl, hsame, -⟩ :=
    chain_as_nested hlevel hone hrest SymbolTable.Sound.start valued_start hc hc'
  exact ⟨t?', c, c', hc, hc', herrors, hsame⟩

end Compile

end Scriptc
