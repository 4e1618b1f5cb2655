import Scriptc.Proofs.Control

/-!
# Scriptc: structured programs keep their meaning

A structured program that is accepted and the code that is written for it do the same
(`core_preserved`): the program ends exactly when the machine does, and then with the same output
and the same values in all variables; and whether they end or not, the machine prints what the
program prints.

The code of the whole program is one `Whole`: its labels are marked once, because the operators of
structured programs are no jumps (`core_uses`), and its variables have addresses of their own.
-/

namespace Scriptc.Compile

open Build (Ends)
open Scriptc.Core (Finishes World execAll)
open Machine (Config Halts Steps)

/-! ## Labels -/

mutual

/-- The operators and constants of structured programs are those of the language. -/
theorem core_formed : ∀ e : Expr, e.isCore = true → e.All Expr.Formed
  | .chain level first rest, he => by
    obtain ⟨hfirst, hrest⟩ := Bool.and_eq_true_iff.mp he
    have hrest := core_restFormed level rest hrest
    exact ⟨hrest.operators, core_formed first hfirst, hrest.operands⟩
  | .not _ e, he => ⟨trivial, core_formed e he⟩
  | .group _ e, he => ⟨trivial, core_formed e he⟩
  | .literal _ (.bool _), _ => trivial
  | .literal _ (.plain _), he => .inl he
  | .access (.mk (.name _ _) []), _ => ⟨trivial, trivial, trivial⟩

theorem core_restFormed (level : Level) : ∀ rest : List (String × Expr),
    Expr.restIsCore level rest = true → Expr.RestFormed level rest
  | [], _ => ⟨nofun, trivial⟩
  | (op, e) :: rest, hrest => by
    obtain ⟨hfirst, hrest⟩ := Bool.and_eq_true_iff.mp hrest
    obtain ⟨hop, he⟩ := Bool.and_eq_true_iff.mp hfirst
    have hrest := core_restFormed level rest hrest
    refine ⟨List.forall_mem_cons.mpr ⟨List.contains_iff_mem.mp hop, hrest.operators⟩,
      ?_, hrest.operands⟩
    exact core_formed e he

end

theorem core_init_uses (init : LoopInit) (h : init.isCore = true) :
    ∀ u ∈ init.uses, u.Formed := by
  rcases init with _ | ⟨_, _, _, _ | e⟩ | ⟨_, x, e⟩ | _
  · exact nofun
  · exact nofun
  · intro u hu
    obtain rfl := List.mem_singleton.mp hu
    exact core_formed e (Bool.and_eq_true_iff.mp h).2
  · intro u hu
    obtain rfl := List.mem_singleton.mp hu
    exact core_formed e h
  · cases h

theorem core_update_uses {u? : Option Expr} (h : Expr.isUpdate u? = true) :
    ∀ u ∈ u?.toList.map Use.value, u.Formed := by
  unfold Expr.isUpdate at h
  split at h
  · exact nofun
  · rename_i e
    intro u hu
    obtain rfl := List.mem_singleton.mp hu
    exact ⟨trivial, trivial, trivial, core_formed e h⟩
  · cases h

mutual

/-- The expressions of structured programs are formed of the language. -/
theorem core_uses : ∀ s : Stmt, s.isCore = true → ∀ u ∈ s.uses, u.Formed
  | .declare d, hs => core_init_uses (.declare d) hs
  | .constant d, hs => by
    intro u hu
    obtain rfl := List.mem_singleton.mp hu
    exact core_formed d.value (Bool.and_eq_true_iff.mp hs).2
  | .assign a, hs => core_init_uses (.assign a) hs
  | .print _ e, hs => by
    intro u hu
    obtain rfl := List.mem_singleton.mp hu
    exact core_formed e hs
  | .block _ body, hs => core_usesAll body hs
  | .breakLoop _, _ => nofun
  | .continueLoop _, _ => nofun
  | .ifElse _ c yes none, hs => by
    obtain ⟨hc, hyes⟩ := Bool.and_eq_true_iff.mp hs
    refine List.forall_mem_cons.mpr ⟨core_formed c hc, core_usesAll yes hyes⟩
  | .ifElse _ c yes (some no), hs => by
    obtain ⟨hfirst, hno⟩ := Bool.and_eq_true_iff.mp hs
    obtain ⟨hc, hyes⟩ := Bool.and_eq_true_iff.mp hfirst
    exact List.forall_mem_append.mpr
      ⟨List.forall_mem_cons.mpr ⟨core_formed c hc, core_usesAll yes hyes⟩, core_usesAll no hno⟩
  | .whileLoop _ c body, hs => by
    obtain ⟨hc, hbody⟩ := Bool.and_eq_true_iff.mp hs
    exact List.forall_mem_cons.mpr ⟨core_formed c hc, core_usesAll body hbody⟩
  | .forLoop _ init (some c) u? body, hs => by
    obtain ⟨hfirst, hbody⟩ := Bool.and_eq_true_iff.mp hs
    obtain ⟨hfirst, hu⟩ := Bool.and_eq_true_iff.mp hfirst
    obtain ⟨hinit, hc⟩ := Bool.and_eq_true_iff.mp hfirst
    refine List.forall_mem_append.mpr ⟨List.forall_mem_append.mpr
      ⟨List.forall_mem_append.mpr ⟨core_init_uses init hinit, ?_⟩, core_update_uses hu⟩,
        core_usesAll body hbody⟩
    exact List.forall_mem_singleton.mpr (core_formed c hc)
  | .switch _ subject cs none, hs => by
    obtain ⟨he, hcs⟩ := Bool.and_eq_true_iff.mp hs
    exact List.forall_mem_cons.mpr ⟨core_formed subject he, core_caseUses cs hcs⟩
  | .switch _ subject cs (some default_), hs => by
    obtain ⟨hfirst, hdefault⟩ := Bool.and_eq_true_iff.mp hs
    obtain ⟨he, hcs⟩ := Bool.and_eq_true_iff.mp hfirst
    exact List.forall_mem_append.mpr
      ⟨List.forall_mem_cons.mpr ⟨core_formed subject he, core_caseUses cs hcs⟩,
      core_usesAll default_ hdefault⟩

theorem core_usesAll : ∀ ss : List Stmt, Stmt.allCore ss = true → ∀ u ∈ Stmt.usesAll ss, u.Formed
  | [], _ => nofun
  | s :: ss, hss => by
    obtain ⟨hs, hrest⟩ := Bool.and_eq_true_iff.mp hss
    exact List.forall_mem_append.mpr ⟨core_uses s hs, core_usesAll ss hrest⟩

theorem core_caseUses : ∀ cs : List Case, Case.allCore cs = true → ∀ u ∈ Case.usesAll cs, u.Formed
  | [], _ => nofun
  | .mk e body :: rest, hcs => by
    obtain ⟨hfirst, hrest⟩ := Bool.and_eq_true_iff.mp hcs
    obtain ⟨he, hbody⟩ := Bool.and_eq_true_iff.mp hfirst
    exact List.forall_mem_append.mpr
      ⟨List.forall_mem_cons.mpr ⟨core_formed e he, core_usesAll body hbody⟩,
        core_caseUses rest hrest⟩

end

/-! ## Runs -/

/-- Before anything has been read. -/
theorem ready_start : Ready {} where
  function := rfl
  routine? := rfl
  inClass? := rfl
  symbols _ _ h := by cases h
  scopes := .start
  temps := ⟨.nil, nofun⟩
  places := ⟨by decide, nofun, nofun⟩
  loop h := absurd h (by simp [Loops.Any])

/-- The machine and the program are in the same state: the same has been printed, and every variable
of the program has an address that holds its value. -/
def SameState (p : Program) (b : Build) (c : Config) (w : World) : Prop :=
  c.output = w.output ∧
    ∀ x ∈ Stmt.declaredAll p, ∃ n : Nat, b.storage.slot? x = some (.address n) ∧
      c.words n = w.store x

section
variable {A : Arith} {p : Program} {b : Build} (hcore : Stmt.allCore p = true)
  (h : Ends (program p) {} () b) (hclean : b.errors = #[])
include hcore h hclean

/-- However many rounds its loops are given, the machine comes as far as the program: to the end
with the same state, or at least as many steps on with the same output. -/
theorem program_run (fuel : Nat) : ∃ n c, Steps A b.quads n {} c ∧
    ((∃ w, execAll A fuel p {} = (.normal, w) ∧ c.pc = b.quads.size ∧ SameState p b c w) ∨
      ∃ w, execAll A fuel p {} = (.timeout, w) ∧ c.output = w.output ∧ fuel ≤ n) := by
  have hexec := (statements_codes (A := A) p hcore).executes h hclean ready_start
  let P : Whole := ⟨b.quads, b.storage, label_place_unique (core_usesAll p hcore) h,
    (hexec.onward.ready ready_start).places⟩
  have hrun := hexec.run P fuel ⟨List.prefix_rfl, fun _ _ hs => hs⟩ nofun
  obtain ⟨n, c, hsteps, hout⟩ := hrun {} {} rfl ⟨fun _ _ _ => rfl, rfl⟩
  refine ⟨n, c, hsteps, ?_⟩
  rcases hw : execAll A fuel p {} with ⟨signal, w⟩
  rw [hw] at hout
  cases signal with
  | normal =>
    obtain ⟨hagrees, hpc⟩ := hout
    refine .inl ⟨w, rfl, hpc, hagrees.output, fun x hx => ?_⟩
    obtain ⟨a, ha⟩ := hexec.declared x hx
    exact ⟨a, ha, hagrees.shows x a ha⟩
  | breaks =>
    obtain ⟨_, _, hloop, _⟩ := hout
    cases hloop
  | continues =>
    obtain ⟨_, _, hloop, _⟩ := hout
    cases hloop
  | timeout => exact .inr ⟨w, rfl, hout⟩

/-- A structured program that is accepted and its code do the same. Where one of them ends so does
the other, and then the same has been printed and all variables have the same values. In any case
the machine prints, step by step, what the program prints, round by round. -/
theorem core_preserved :
    (∀ w, Finishes A p w → ∃ c, Halts A b.quads c ∧ SameState p b c w) ∧
    (∀ c, Halts A b.quads c → ∃ w, Finishes A p w ∧ SameState p b c w) ∧
    ∀ out, (∃ fuel, out <+: (execAll A fuel p {}).2.output) ↔
      ∃ n c, Steps A b.quads n {} c ∧ out <+: c.output := by
  refine ⟨?_, ?_, fun out => ⟨?_, ?_⟩⟩
  · rintro w ⟨fuel, hw⟩
    obtain ⟨n, c, hsteps, ⟨w', hw', hpc, hsame⟩ | ⟨w', hw', _⟩⟩ :=
      program_run (A := A) hcore h hclean fuel
    · obtain rfl := (Prod.mk.inj (hw.symm.trans hw')).2
      exact ⟨c, ⟨⟨n, hsteps⟩, hpc⟩, hsame⟩
    · cases (Prod.mk.inj (hw.symm.trans hw')).1
  · rintro c ⟨⟨m, hm⟩, hpc⟩
    -- With more rounds than the machine takes steps, the program cannot be out of rounds.
    obtain ⟨n, c', hsteps, ⟨w, hw, hpc', hsame⟩ | ⟨w, _, _, hle⟩⟩ :=
      program_run (A := A) hcore h hclean (m + 1)
    · obtain rfl : m = n :=
        Nat.le_antisymm (hsteps.le_of_halted hpc' hm) (hm.le_of_halted hpc hsteps)
      obtain rfl := hm.det hsteps
      exact ⟨w, ⟨_, hw⟩, hsame⟩
    · have hlt := hm.le_of_halted hpc hsteps
      omega
  · rintro ⟨fuel, hout⟩
    obtain ⟨n, c, hsteps, ⟨w, hw, _, hsame⟩ | ⟨w, hw, houtput, _⟩⟩ :=
      program_run (A := A) hcore h hclean fuel
    · rw [hw] at hout
      exact ⟨n, c, hsteps, hsame.1 ▸ hout⟩
    · rw [hw] at hout
      exact ⟨n, c, hsteps, houtput ▸ hout⟩
  · rintro ⟨m, c, hm, hout⟩
    obtain ⟨n, c', hsteps, ⟨w, hw, hpc, hsame⟩ | ⟨w, hw, houtput, hle⟩⟩ :=
      program_run (A := A) hcore h hclean m
    · have hle := hsteps.le_of_halted hpc hm
      refine ⟨m, hout.trans ?_⟩
      rw [hw, ← hsame.1]
      exact hm.output_le hsteps hle
    · refine ⟨m, hout.trans ?_⟩
      rw [hw, ← houtput]
      exact hm.output_le hsteps hle

end

/-- Arithmetic on whole numbers. -/
def wholeNumbers : Arith := ⟨(· + ·), (· - ·), (· * ·), Int.tdiv, Int.tmod⟩

/-- Counts to 3 and prints all numbers on the way but 2. -/
def countToThree : Program :=
  let x : Expr := .access (.mk (.name 1 "x") [])
  let number (n : String) : Expr := .literal 1 (.plain n)
  [.declare ⟨1, "x", none, some (number "0")⟩,
   .whileLoop 2 (.chain .relational x [("<", number "3")])
    [.assign (.toName 3 "x" (.chain .additive x [("+", number "1")])),
     .ifElse 4 (.chain .equality x [("==", number "2")]) [.continueLoop 4] none,
     .print 5 x]]

/-- The code of a loop with a `continue` prints two numbers and leaves 3 in the place of the
variable. -/
theorem core_preserved_countToThree : ∃ b, Ends (program countToThree) {} () b ∧ b.errors = #[] ∧
    ∃ c, Halts wholeNumbers b.quads c ∧ c.output = [1, 3] ∧
      ∃ n : Nat, b.storage.slot? "x" = some (.address n) ∧ c.words n = 3 := by
  obtain ⟨b, hends, hclean⟩ : ∃ b, Ends (program countToThree) {} () b ∧
    b.errors = #[] := by decide +kernel
  have hfinishes : Finishes wholeNumbers countToThree
    (execAll wholeNumbers 4 countToThree {}).2 := ⟨4, rfl⟩
  obtain ⟨c, hhalts, houtput, hstore⟩ := (core_preserved rfl hends hclean).1 _ hfinishes
  obtain ⟨n, hslot, hword⟩ := hstore "x" List.mem_cons_self
  exact ⟨b, hends, hclean, c, hhalts, houtput, n, hslot, hword⟩

end Scriptc.Compile
