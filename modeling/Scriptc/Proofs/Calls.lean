import Mathlib.Algebra.BigOperators.Group.List.Basic
import Mathlib.Algebra.Ring.Int.Defs
import Scriptc.Proofs.Tracking

/-!
# Scriptc: the code of calls

A call pushes its arguments from the last to the first, goes to a label, drops the arguments and
takes the result: `Call.code`. On a stack that grows downward the arguments lie in their order from
the top on when the function begins (`Call.run_pushes`), and behind the call the top is where it was
(`Call.words_code`).
-/

namespace Scriptc

open Build (Ends ends_bind ends_get_bind ends_pure)

/-! ## Calls -/

/-- A call: where it goes, its arguments in their order, each with the remark on its quadruple, and
where the result is put. -/
structure Call where
  label : Operand
  remark? : Option String := none
  args : List (Operand × Option String)
  result : Operand

namespace Call

/-- Pushes arguments from the last to the first. -/
def pushes (args : List (Operand × Option String)) : List Quad :=
  args.reverse.map fun a => { op := .push, arg1 := a.1, comment? := a.2 }

/-- Drops words from the stack. -/
def drop (n : Nat) : List Quad :=
  if n = 0 then []
  else
    [{ op := .adjust, arg1 := .text "SP", arg2 := .text (toString (4 * n)), result := .text "SP" }]

def code (c : Call) : List Quad :=
  pushes c.args ++ { op := .call, result := c.label, comment? := c.remark? } ::
    (drop c.args.length ++ [{ op := .pop, result := c.result }])

/-- A call of a function. -/
def function (name : String) (args : List Operand) (result : Operand) : Call where
  label := Emit.functionLabel name
  args := args.map (·, none)
  result := result

/-- A call of a method of the object `this`, which is the first argument. -/
def method (this : Operand) (cls name : String) (args : List Operand) (result : Operand) :
    Call where
  label := Emit.methodLabel cls name
  remark? := some ("Call " ++ cls ++ "." ++ name)
  args := (this, some "Push __this (será FP[0])") :: args.map (·, none)
  result := result

end Call

/-! ## The stack -/

theorem Decimal.read?_toString (n : Nat) : Decimal.read? (toString n).toList = some n := by
  have hlist : (toString n).toList = Nat.toDigits 10 n := by
    rw [Nat.toString_eq_repr, Nat.toList_repr]
  have hdigits : (Nat.toDigits 10 n).all Char.isDigit = true :=
    List.all_eq_true.mpr fun c hc => Nat.isDigit_of_mem_toDigits (by decide) (by decide) hc
  have hvalue : Decimal.value (Nat.toDigits 10 n) = n := by
    rw [Decimal.value, ← Nat.ofDigitChars_eq_foldl, Nat.ofDigitChars_ten_toDigits]
  rw [hlist, Decimal.read?, hdigits, hvalue]
  simp [Nat.toDigits_ne_nil]

/-- How many words a quadruple pushes; one that drops words pushes less than none. -/
def Quad.words (q : Quad) : Int :=
  match q.op, q.arg2 with
  | .push, _ => 1
  | .adjust, .text s => -(((Decimal.read? s.toList).getD 0 / 4 : Nat) : Int)
  | _, _ => 0

/-- How many words are on the stack behind code that finds none there. -/
def pushedWords (code : List Quad) : Int := (code.map Quad.words).sum

theorem pushedWords_append (c d : List Quad) :
    pushedWords (c ++ d) = pushedWords c + pushedWords d := by
  simp [pushedWords]

theorem Quad.words_of_not_isStack {q : Quad} (h : q.op.isStack = false) : q.words = 0 := by
  unfold Quad.words
  split
  · rename_i hop
    rw [hop] at h
    cases h
  · rename_i hop _
    rw [hop] at h
    cases h
  · rfl

theorem Quad.isStack_of_inFlow {q : Quad} (h : q.inFlow = true) : q.op.isStack = false := by
  simp only [Quad.inFlow, Bool.and_eq_true, Bool.not_eq_true'] at h
  exact h.1.1

/-- A stack that grows downward: the address of its top, and what is at each address. -/
structure Stack (α : Type) where
  top : Int
  word : Int → α

namespace Stack

variable {α : Type} (value : Operand → α)

/-- What a quadruple does to the stack, where `value` says what operands hold. -/
def step (s : Stack α) (q : Quad) : Stack α where
  top := s.top - 4 * q.words
  word a := if q.op = .push ∧ a = s.top - 4 then value q.arg1 else s.word a

def run (s : Stack α) (code : List Quad) : Stack α := code.foldl (step value) s

end Stack

namespace Call

variable {args : List (Operand × Option String)} {α : Type} (value : Operand → α)

theorem pushes_cons (a : Operand × Option String) :
    pushes (a :: args) = pushes args ++ [{ op := .push, arg1 := a.1, comment? := a.2 }] := by
  simp [pushes]

theorem words_pushes : pushedWords (pushes args) = args.length := by
  induction args with
  | nil => rfl
  | cons a args ih =>
    rw [pushes_cons, pushedWords_append, ih, List.length_cons]
    rfl

theorem words_drop (n : Nat) : pushedWords (drop n) = -(n : Int) := by
  unfold drop
  split
  · subst n
    rfl
  · simp only [pushedWords, List.map_cons, List.map_nil, List.sum_singleton, Quad.words,
      Decimal.read?_toString, Option.getD_some]
    omega

/-- Of what the code of a call consists. -/
theorem mem_code {c : Call} {q : Quad} (h : q ∈ c.code) :
    q.op.isStack = true ∧ (q.op = .call → q.result = c.label) := by
  simp only [code, pushes, drop, List.mem_append, List.mem_map, List.mem_cons] at h
  rcases h with ⟨a, -, rfl⟩ | rfl | h | rfl | h
  · exact ⟨rfl, nofun⟩
  · exact ⟨rfl, fun _ => rfl⟩
  · split at h
    · cases h
    · obtain rfl := List.mem_singleton.mp h
      exact ⟨rfl, nofun⟩
  · exact ⟨rfl, nofun⟩
  · cases h

/-- Behind a call the stack is as high as before. -/
theorem words_code (c : Call) : pushedWords c.code = 0 := by
  have hcall : pushedWords [{ op := .call, result := c.label, comment? := c.remark? }] = 0 := rfl
  have hpop : pushedWords [{ op := .pop, result := c.result }] = 0 := rfl
  rw [code, pushedWords_append, words_pushes, ← List.singleton_append, pushedWords_append,
    pushedWords_append, words_drop, hcall, hpop]
  omega

/-- Pushed arguments lie in their order from the top on. -/
theorem run_pushes (s : Stack α) (j : Nat) (a : Operand × Option String) (h : args[j]? = some a) :
    (s.run value (pushes args)).word ((s.run value (pushes args)).top + 4 * j) = value a.1 := by
  induction args generalizing j with
  | nil => cases h
  | cons b args ih =>
    have hrun : s.run value (pushes (b :: args)) =
        (s.run value (pushes args)).step value { op := .push, arg1 := b.1, comment? := b.2 } := by
      rw [pushes_cons, Stack.run, List.foldl_append]
      rfl
    rw [hrun]
    cases j with
    | zero =>
      obtain rfl : b = a := Option.some.inj h
      simp [Stack.step, Quad.words]
    | succ j =>
      -- The argument in front lies below those that were pushed before.
      have hrest := ih j h
      simp only [Stack.step, Quad.words]
      rw [if_neg (by omega), ← hrest]
      congr 1
      omega

end Call

/-! ## How calls are written -/

namespace Emit

/-- Code has been written, nothing has been reported and the names are as before. -/
structure Extends (b b' : Build) (code : List Quad) : Prop where
  table : b'.table = b.table
  errors : b'.errors = b.errors
  quads : b'.quads.toList = b.quads.toList ++ code

namespace Extends

variable {b c d : Build} {code code' : List Quad} {t : Operand} {args : List Operand}

theorem of_silent (h : Silent b c) :
    Extends b c [] := ⟨h.table, h.errors, by rw [h.quads, List.append_nil]⟩

theorem trans (h : Extends b c code) (h' : Extends c d code') : Extends b d (code ++ code') :=
  ⟨h'.table.trans h.table, h'.errors.trans h.errors, by rw [h'.quads, h.quads, List.append_assoc]⟩

theorem silent_trans (h : Silent b c) (h' : Extends c d code) :
    Extends b d code := (of_silent h).trans h'

theorem trans_silent (h : Extends b c code) (h' : Silent c d) : Extends b d code := by
  have hwhole := h.trans (of_silent h')
  rwa [List.append_nil] at hwhole

theorem quad {q : Quad} {u : Unit} (h : Ends (Emit.quad q) b u c) : Extends b c [q] := by
  obtain rfl := ends_quad.mp h
  exact ⟨rfl, rfl, Array.toList_push⟩

theorem pushAll {u : PUnit}
    (h : Ends (args.forM fun a => Emit.quad { op := .push, arg1 := a }) b u c) :
    Extends b c (args.map fun a => { op := .push, arg1 := a }) := by
  induction args generalizing b with
  | nil =>
    obtain ⟨-, rfl⟩ := ends_pure.mp h
    exact of_silent (Silent.refl _)
  | cons a args ih =>
    obtain ⟨_, b₁, hquad, hrest⟩ := ends_bind.mp h
    exact (quad hquad).trans (ih hrest)

/-- A step that may be left out, in front of others. -/
theorem maybe {α β : Type} {a : β} {p : Prop} [Decidable p] {m : BuildM α} {k : BuildM β}
    (code : List Quad) (hm : p → ∀ u c, Ends m b u c → Extends b c code) (hnone : ¬p → code = [])
    (h : Ends (if p then m >>= fun _ => k else k) b a d) :
    ∃ c, Extends b c code ∧ Ends k c a d := by
  split at h
  · rename_i hp
    obtain ⟨u, c, hend, h⟩ := ends_bind.mp h
    exact ⟨c, hm hp u c hend, h⟩
  · rename_i hp
    exact ⟨b, hnone hp ▸ of_silent (.refl b), h⟩

/-- The arguments are dropped and the result is taken. -/
theorem takeResult {n : Nat} (h : Ends (Emit.takeResult n) b t c) :
    Extends b c (Call.drop n ++ [{ op := .pop, result := t }]) := by
  unfold Emit.takeResult at h
  have hadjust : n ≠ 0 → Call.drop n = _ := fun hn => if_neg hn
  obtain ⟨b₁, hdrop, h⟩ := maybe (Call.drop n) (fun hn _ _ hend => hadjust hn ▸ quad hend)
    (fun hn => if_pos (not_not.mp hn)) h
  simp only [ends_bind, ends_pure] at h
  obtain ⟨t', b₂, htemp, _, b₃, hpop, _, b₄, hset, rfl, rfl⟩ := h
  exact hdrop.trans ((silent_trans (Silent.newTemp htemp) (quad hpop)).trans_silent
    (Silent.setValue _ hset))

theorem call {name : String} (h : Ends (Emit.call name args) b t c) :
    Extends b c (Call.function name args t).code := by
  unfold Emit.call at h
  rw [ends_get_bind] at h
  obtain ⟨b₁, hframe, h⟩ :=
    maybe [] (fun _ _ _ hend => of_silent (Silent.newFrame name hend)) (fun _ => rfl) h
  simp only [ends_bind] at h
  obtain ⟨_, b₂, hpush, _, b₃, hcall, h⟩ := h
  have hcode := hframe.trans ((pushAll hpush).trans ((quad hcall).trans (takeResult h)))
  simpa [Call.code, Call.pushes, Call.function, Function.comp_def] using hcode

theorem callMethod {this : Operand} {cls name : String}
    (h : Ends (Emit.callMethod this cls name args) b t c) :
    Extends b c (Call.method this cls name args t).code := by
  unfold Emit.callMethod at h
  dsimp only at h
  rw [ends_get_bind, ← bind_assoc] at h
  obtain ⟨b₁, hframe, h⟩ := maybe [] (fun _ _ _ hend => of_silent <|
    Build.Keeps.bind (fun _ _ _ => .trans) (Silent.newFrame _) (fun _ => Silent.modifyFrame _ _)
      hend) (fun _ => rfl) h
  simp only [ends_bind] at h
  obtain ⟨_, b₂, hsay₁, _, b₃, hsay₂, _, b₄, hsay₃, _, b₅, hpush, _, b₆, hthis,
    _, b₇, hcall, h⟩ := h
  have hsaid := ((Silent.say _ hsay₁).trans (Silent.say _ hsay₂)).trans (Silent.say _ hsay₃)
  have hcode := hframe.trans (silent_trans hsaid
    ((pushAll hpush).trans ((quad hthis).trans ((quad hcall).trans (takeResult h)))))
  simpa [Call.code, Call.pushes, Call.method, Function.comp_def] using hcode

end Extends

end Emit

end Scriptc
