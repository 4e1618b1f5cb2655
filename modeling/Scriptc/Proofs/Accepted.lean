import Scriptc.Proofs.Execution
import Scriptc.Proofs.Reads
import Scriptc.Proofs.Resolution

/-!
# Scriptc: what is accepted

What holds of the calls of a program without reports: arguments are compared with the parameters of
functions and constructors, and counted for methods (`accepted_arguments`). Programs that are
accepted and should not be are in `argument_of_method_not_asked`,
`object_of_class_error_not_printed` and `member_in_expression_not_stored`.
-/

namespace Scriptc

namespace Compile

open Build (Ends Keeps ends_bind ends_ofExcept_bind ends_pure ends_read_bind)

open Emit (Silent)

variable {b b' : Build} {types : List (Option Ty)}

/-! ## Expressions -/

/-- The expressions were read without a report, each with the type that is told. -/
def AllAccepted (rs : List Read) : Prop :=
  ∀ r ∈ rs, r.expr.All Expr.Formed ∧ ∃ c d, Ends (expr r.expr) c r.type? d ∧ d.errors = #[]

theorem AllAccepted.nil : AllAccepted [] := nofun

theorem AllAccepted.readWalk : ReadWalk fun rs _ _ => AllAccepted rs where
  append h h' r hr := (List.mem_append.mp hr).elim (h r) (h' r)
  unread _ _ _ _ _ := .nil
  same _ _ _ _ _ _ := .nil
  quad _ _ := .nil
  enter _ := .nil
  exit := .nil
  retype _ _ _ := .nil
  expr he hend hclean r hr := by
    grind
  routine hend := by
    obtain ⟨ending, d, hin, rfl, -⟩ := Emit.routine_ends hend
    exact ⟨_, d, hin, rfl, rfl, fun _ h => h⟩

/-- Where nothing is reported, all expressions are read, in one of the sequences of the program. -/
theorem source_read {text : String} {s : Source} (hs : Source.ofText text = .ok s)
    (h : Ends (program s.program) {} () b) (hclean : b.errors = #[]) :
    ∃ rs ∈ Stmt.readsAll s.program, AllAccepted rs :=
  (AllAccepted.readWalk.statements s.program (Source.formed hs) h).2 hclean

/-! ## Arguments -/

/-- There are as many arguments as parameters, and each can be assigned. What could not be typed is
not asked. -/
def Suits (params : List (String × Option Ty)) (types : List (Option Ty)) : Prop :=
  List.Forall₂ (fun p type? => (type? == some Ty.error) = true ∨ ∃ t, type? = some t ∧
    t.canAssignTo p.2 = true)
    params types

theorem arguments_suit {line : Option Nat} {say : Nat → String → String → String}
    {params : List (String × Option Ty)} (hlength : types.length = params.length) {i : Nat}
    {u : Unit} (h : Ends (Check.arguments line say i params types) b u b')
    (hclean : b'.errors = #[]) :
    Suits params types := by
  induction params generalizing types i b with
  | nil =>
    rw [List.length_eq_zero_iff.mp hlength]
    exact .nil
  | cons p params ih =>
    obtain _ | ⟨type?, types⟩ := types
    · cases hlength
    have hquiet : Keeps Quiet (Check.arguments line say (i + 1) params types) :=
      Quiet.exprStable.keeps (S := []) (Quiet.exprStable.walk.argumentTypes _ _ _ _ _)
    have hrest {b : Build} (h : Ends (Check.arguments line say (i + 1) params types) b u b') :
      Suits params types :=
      ih (Nat.succ.inj hlength) h
    rw [Check.arguments] at h
    split at h
    · cases type? with
      | none =>
        obtain ⟨_, _, hask, -⟩ := ends_bind.mp h
        exact absurd hask Build.ends_throw
      | some t =>
        rw [Check.assignable, pure_bind] at h
        split at h
        · obtain ⟨_, _, h⟩ := ends_ofExcept_bind.mp h
          obtain ⟨_, _, h⟩ := ends_ofExcept_bind.mp h
          obtain ⟨_, b₁, herror, h⟩ := ends_bind.mp h
          exact absurd ((hquiet h).clean hclean) (not_clean_of_error herror)
        · rename_i hfits
          exact .cons (.inr ⟨t, rfl, by simpa using hfits⟩) (hrest h)
    · rename_i herror
      exact .cons (.inl (by simpa [bne] using herror)) (hrest h)

/-- What waits for its arguments takes them. Those of a method are only counted. -/
def Pending.Takes : Pending → List (Option Ty) → Prop
  | .function _ f, types => Suits f.params types
  | .method _ _ _ _ f, types => types.length = f.params.length
  | .nothing, _ => False

/-- A call is written while there is no report. -/
theorem clean_of_answer {code : BuildM Operand} {x t : Target} (h : Ends (do
    if ← Build.isClean then Emit.setValue (← code)
    return x) b t b') (hclean : b'.errors = #[]) : b.errors = #[] := by
  rw [Build.isClean, ends_read_bind] at h
  split at h
  · rename_i hempty
    exact Array.isEmpty_iff.mp hempty
  · obtain ⟨rfl, rfl⟩ := ends_pure.mp h
    exact hclean

theorem apply_takes {line : Nat} {t r : Target} {operands : List Operand}
    (h : Ends (apply line t types operands) b r b') (hclean : b'.errors = #[]) :
    t.pending.Takes types := by
  unfold apply at h
  split at h
  · rename_i n f hpending
    rw [hpending]
    dsimp only at h
    split at h
    · obtain ⟨_, b₁, herror, h⟩ := ends_bind.mp h
      exact absurd (clean_of_answer h hclean) (not_clean_of_error herror)
    · rename_i hlength
      obtain ⟨_, b₁, hargs, h⟩ := ends_bind.mp h
      exact arguments_suit (not_not.mp hlength) hargs (clean_of_answer h hclean)
  · rename_i hpending
    rw [hpending]
    dsimp only at h
    split at h
    · obtain ⟨_, b₁, herror, h⟩ := ends_bind.mp h
      exact absurd (clean_of_answer h hclean) (not_clean_of_error herror)
    · rename_i hlength
      exact not_not.mp hlength
  · exact not_reported h hclean

/-- A constructor takes its arguments, and a class without one is given none. -/
def CtorTakes (ctor? : Option Function) (types : List (Option Ty)) : Prop :=
  (∀ f, ctor? = some f → Suits f.params types) ∧ (ctor? = none → types = [])

theorem checkNew_takes {line : Nat} {cls : String} {ctor? : Option Function} {u : Unit}
    (h : Ends (checkNew line cls ctor? types) b u b') (hclean : b'.errors = #[]) :
    CtorTakes ctor? types := by
  unfold checkNew at h
  split at h
  · rename_i f
    refine ⟨fun g hg => ?_, nofun⟩
    cases hg
    split at h
    · exact absurd hclean (not_clean_of_error h)
    · rename_i hlength
      exact arguments_suit (not_not.mp hlength) h hclean
  · refine ⟨nofun, fun _ => ?_⟩
    cases types with
    | nil => rfl
    | cons t ts => exact absurd hclean (not_clean_of_error h)

/-- **Arguments of a program that is accepted.** All its expressions are read without a report.
Where that is so of a call, the function takes the types that are found for its arguments, and where
it is so of `new`, the constructor does; of a method there are as many. -/
theorem accepted_arguments {text : String} {s : Source} (hs : Source.ofText text = .ok s)
    (h : Ends (program s.program) {} () b) (hclean : b.errors = #[]) :
    (∃ rs ∈ Stmt.readsAll s.program, AllAccepted rs) ∧
    (∀ line isThis t at_ args rest c type? d,
      Ends (suffixes line isThis t (.call at_ args :: rest)) c type? d →
      d.errors = #[] → ∃ p c', Ends (arguments args) c p c' ∧ t.pending.Takes p.1) ∧
    ∀ line cls args text c t? d, Ends (atom (.new line cls args text)) c t? d → d.errors = #[] →
      ∃ s k p c', c.table.lookupSymbol? cls = some s ∧ s.asClass? = some k ∧
        Ends (arguments args) c p c' ∧
        CtorTakes (c.table.constructor? k) p.1 := by
  refine ⟨source_read hs h hclean, ?_, ?_⟩
  · intro line isThis t at_ args rest c type? d h hclean
    rw [suffixes] at h
    simp only [ends_bind] at h
    obtain ⟨p, c', hargs, t', c₂, happly, h⟩ := h
    have hquiet := Quiet.exprStable.suffixes line isThis t' rest
      (Suffix.allIn_of_forall (fun _ => trivial) rest) h
    exact ⟨p, c', hargs, apply_takes happly (hquiet.clean hclean)⟩
  · intro line cls args text c t? d h hclean
    rcases new_ends h with ⟨-, -, hlt⟩ | ⟨s, k, t, p, q, c₁, c₂, c₃, hs, hk, -, hp, hcheck, hq, ht⟩
    · exact absurd hclean (errors_ne_of_lt hlt)
    have hquiet := (Quiet.arguments args hq).trans
      (Quiet.exprStable.keeps
        (Quiet.exprStable.walk.construct cls (c.table.constructor? k) fun _ ho => ho) ht)
    exact ⟨s, k, p, c₁, hs, hk, hp, checkNew_takes hcheck (hquiet.clean hclean)⟩

/-- A function is given a number for its parameter, and a class without a constructor nothing. -/
theorem accepted_arguments_integer : ∃ s b,
    Source.ofText "class A \x7b\x7d function f(x: integer): integer \x7b return x; \x7d f(1); new A();" = .ok s ∧
    Ends (program s.program) {} () b ∧ b.errors = #[] ∧ (∃ q ∈ b.quads, q.op = .call) ∧
    (∃ rs ∈ Stmt.readsAll s.program, AllAccepted rs) ∧
    (∃ p c, Ends (arguments [.literal 1 (.plain "1")]) b p c ∧ Suits [("x", some .integer)] p.1) ∧
    ∃ s k p c, b.table.lookupSymbol? "A" = some s ∧ s.asClass? = some k ∧
      Ends (arguments []) b p c ∧
      CtorTakes (b.table.constructor? k) p.1 := by
  let f : Function := { result? := some .integer, params := [("x", some .integer)] }
  refine Source.exists_of_read? program (P := fun _ b => b.errors = #[] ∧
    (∃ q ∈ b.quads, q.op = .call) ∧
    (∃ t? c, Ends (suffixes 1 false { pending := .function "f" f }
      [.call 1 [.literal 1 (.plain "1")]]) b t? c ∧ c.errors = #[]) ∧
    ∃ t? c, Ends (atom (.new 1 "A" [] "newA()")) b t? c ∧ c.errors = #[])
    (by decide +kernel) fun s b hs hb htest => ?_
  obtain ⟨hclean, hquad, ⟨_, _, hcall, hcall'⟩, _, _, hnew, hnew'⟩ := htest
  obtain ⟨hread, hcalls, hnews⟩ := accepted_arguments hs hb hclean
  exact ⟨hclean, hquad, hread, hcalls _ _ _ _ _ _ _ _ _ hcall hcall',
    hnews _ _ _ _ _ _ _ hnew hnew'⟩

/-- A method of a number is called with a string, and nothing is reported. -/
theorem argument_of_method_not_asked : ∃ s b, Source.ofText
      "class A \x7b function m(x: integer): integer \x7b return x; \x7d \x7d let a: A = new A(); print(a.m(\"s\"));" =
        .ok s ∧ Ends (program s.program) {} () b ∧ b.errors = #[] ∧
    (((b.table.member? "A" "m").bind b.table.symbol?).bind Symbol.asFunction?).map
      (fun f => f.params.map fun p => Ty.string.canAssignTo p.2) = some [false] :=
  Source.ends_of_read? program _ (by decide +kernel)

/-! ## What could not be typed -/

/-- An object of a class called `error` is not printed, and nothing is reported. -/
theorem object_of_class_error_not_printed : ∃ s b,
    Source.ofText "class error \x7b\x7d print(new error());" = .ok s ∧
      Ends (program s.program) {} () b ∧
    b.errors = #[] ∧ ∀ q ∈ b.quads, q.op ≠ .printInt ∧ q.op ≠ .printStr :=
  Source.ends_of_read? program _ (by decide +kernel)

/-! ## Assignments -/

/-- The member `p.v` is not written to: the only value that is stored in this program is that of
`p`. -/
theorem member_in_expression_not_stored : ∃ s b,
    Source.ofText "class P \x7b let v: integer; \x7d let p: P = new P(); (p.v = 3);" = .ok s ∧
    Ends (program s.program) {} () b ∧ b.errors = #[] ∧ ∀ q ∈ b.quads, q.op ≠ .store :=
  Source.ends_of_read? program _ (by decide +kernel)

end Compile

end Scriptc
