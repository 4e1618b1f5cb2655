import Scriptc.Compile.Part
import Scriptc.Proofs.Step

/-!
# Scriptc: the walk over expressions

What reading an expression keeps, from what its elementary steps keep. A property of the state is
often one of the operands at hand too: that a temporary has been handed out, or that a place lies in
the frame of the function being written. So properties here are families `I i S` of conditions on
the state, where `S` holds the operands that the steps so far have given.

* `Build.Yields I S out step`: from a state with `I i S` the step leads to one with `I i` of `S` and
  of the operands `out a` in its value `a`. `Build.Carries I S step` is the case without operands.
* `Compile.CodeWalk I` collects the elementary steps of the walk over expressions (a report, a
  temporary, a quadruple, a place in storage). A quadruple is written of operands in `S` and of
  fixed ones only, and it neither jumps nor touches the stack.
* `Compile.ExprWalk ok I` adds the calls, which are steps as a whole. From it `ExprWalk.expr`
  derives, by one induction over the syntax, that reading any expression carries `I`.

Operators and constants are written by the texts that the source has for them, so what is asked of
them is asked of the subexpressions that they occur in: `Expr.All` and the condition `ok`. A jump
with its target is no elementary step, because a property may speak of both: `Emit.shortCircuit` is
a step as a whole.
-/

namespace Scriptc

open Build (Ends ends_bind ends_get ends_get_bind ends_pure ends_throw)
variable {ok ok' : Expr → Prop} {op : Op}

/-- Whether an operation marks or takes a jump target. -/
def Op.isJump : Op → Bool
  | .label | .goto | .ifTrue | .ifFalse => true
  | _ => false

/-- Whether an operation belongs to a call. -/
def Op.isStack : Op → Bool
  | .push | .call | .adjust | .pop => true
  | _ => false

/-- Whether an operation opens or closes the frame of a function. -/
def Op.isFrame : Op → Bool
  | .enter | .leave => true
  | _ => false

/-- Whether an operation computes, stores, prints or returns, and does nothing else. -/
def Op.isPlain (op : Op) : Bool := !op.isJump && !op.isStack && !op.isFrame

/-- Whether an operation jumps by the outcome of a test. -/
def Op.isTest : Op → Bool
  | .ifTrue | .ifFalse => true
  | _ => false

/-- There are two ways to test a condition. -/
theorem Op.eq_of_isTest (h : op.isTest = true) : op = .ifTrue ∨ op = .ifFalse := by
  cases op <;> simp_all [Op.isTest]

/-- Plain quadruples and those of the stack leave the flow as it is. -/
theorem Op.isJump_of_isPlain (h : op.isPlain = true) : op.isJump = false := by
  cases op <;> simp_all [Op.isPlain, Op.isJump]

theorem Op.isJump_of_isStack (h : op.isStack = true) : op.isJump = false := by
  cases op <;> simp_all [Op.isStack, Op.isJump]

/-- Operands that say the same in every state. -/
def Operand.isFixed : Operand → Bool
  | .none | .text _ | .int _ => true
  | _ => false

@[simp] theorem Operand.isFixed_none : isFixed .none = true := rfl

@[simp] theorem Operand.isFixed_text (s : String) : isFixed (.text s) = true := rfl

@[simp] theorem Operand.isFixed_int (n : Int) : isFixed (.int n) = true := rfl

def Quad.operands (q : Quad) : List Operand := [q.arg1, q.arg2, q.result]

mutual

/-- The condition holds of an expression and of all expressions in it. -/
def Expr.All (ok : Expr → Prop) : Expr → Prop
  | .assign (.mk a ss) v => ok (.assign (.mk a ss) v) ∧ a.All ok ∧ Suffix.AllIn ok ss ∧ v.All ok
  | .ternary c yes no => ok (.ternary c yes no) ∧ c.All ok ∧ yes.All ok ∧ no.All ok
  | .chain level first rest => ok (.chain level first rest) ∧ first.All ok ∧ Expr.AllRest ok rest
  | .not line e => ok (.not line e) ∧ e.All ok
  | .negate line e => ok (.negate line e) ∧ e.All ok
  | .group line e => ok (.group line e) ∧ e.All ok
  | .literal line l => ok (.literal line l)
  | .array line es => ok (.array line es) ∧ Expr.AllIn ok es
  | .access (.mk a ss) => ok (.access (.mk a ss)) ∧ a.All ok ∧ Suffix.AllIn ok ss

def Expr.AllRest (ok : Expr → Prop) : List (String × Expr) → Prop
  | [] => True
  | (_, e) :: rest => e.All ok ∧ Expr.AllRest ok rest

def Expr.AllIn (ok : Expr → Prop) : List Expr → Prop
  | [] => True
  | e :: es => e.All ok ∧ Expr.AllIn ok es

def Atom.All (ok : Expr → Prop) : Atom → Prop
  | .name _ _ | .this _ => True
  | .new _ _ args _ => Expr.AllIn ok args

def Suffix.AllIn (ok : Expr → Prop) : List Suffix → Prop
  | [] => True
  | .call _ args :: rest => Expr.AllIn ok args ∧ Suffix.AllIn ok rest
  | .index _ e :: rest => e.All ok ∧ Suffix.AllIn ok rest
  | .member _ _ :: rest => Suffix.AllIn ok rest

end

mutual

/-- What holds of every expression holds of all parts of one. -/
theorem Expr.all_of_forall (h : ∀ e, ok e) : ∀ e : Expr, e.All ok
  | .assign (.mk a ss) v =>
    ⟨h _, Atom.all_of_forall h a, Suffix.allIn_of_forall h ss, Expr.all_of_forall h v⟩
  | .ternary c yes no =>
    ⟨h _, Expr.all_of_forall h c, Expr.all_of_forall h yes, Expr.all_of_forall h no⟩
  | .chain _ first rest => ⟨h _, Expr.all_of_forall h first, Expr.allRest_of_forall h rest⟩
  | .not _ e => ⟨h _, Expr.all_of_forall h e⟩
  | .negate _ e => ⟨h _, Expr.all_of_forall h e⟩
  | .group _ e => ⟨h _, Expr.all_of_forall h e⟩
  | .literal _ _ => h _
  | .array _ es => ⟨h _, Expr.allIn_of_forall h es⟩
  | .access (.mk a ss) => ⟨h _, Atom.all_of_forall h a, Suffix.allIn_of_forall h ss⟩

/-- The same of the operands of a chain. -/
theorem Expr.allRest_of_forall (h : ∀ e, ok e) :
    ∀ rest : List (String × Expr), Expr.AllRest ok rest
  | [] => trivial
  | (_, e) :: rest => ⟨Expr.all_of_forall h e, Expr.allRest_of_forall h rest⟩

/-- The same of a list of expressions. -/
theorem Expr.allIn_of_forall (h : ∀ e, ok e) : ∀ es : List Expr, Expr.AllIn ok es
  | [] => trivial
  | e :: es => ⟨Expr.all_of_forall h e, Expr.allIn_of_forall h es⟩

/-- The same of an atom. -/
theorem Atom.all_of_forall (h : ∀ e, ok e) : ∀ a : Atom, a.All ok
  | .name _ _ => trivial
  | .this _ => trivial
  | .new _ _ args _ => Expr.allIn_of_forall h args

/-- The same of suffixes. -/
theorem Suffix.allIn_of_forall (h : ∀ e, ok e) :
    ∀ ss : List Suffix, Suffix.AllIn ok ss
  | [] => trivial
  | .call _ args :: rest => ⟨Expr.allIn_of_forall h args, Suffix.allIn_of_forall h rest⟩
  | .index _ e :: rest => ⟨Expr.all_of_forall h e, Suffix.allIn_of_forall h rest⟩
  | .member _ _ :: rest => Suffix.allIn_of_forall h rest

end

mutual

/-- What is asked of the parts can be weakened. -/
theorem Expr.All.mono (h : ∀ e, ok e → ok' e) : ∀ e : Expr, e.All ok → e.All ok'
  | .assign (.mk a ss) v, ⟨he, ha, hss, hv⟩ =>
    ⟨h _ he, Atom.All.mono h a ha, Suffix.AllIn.mono h ss hss, Expr.All.mono h v hv⟩
  | .ternary c yes no, ⟨he, hc, hyes, hno⟩ =>
    ⟨h _ he, Expr.All.mono h c hc, Expr.All.mono h yes hyes, Expr.All.mono h no hno⟩
  | .chain _ first rest, ⟨he, hfirst, hrest⟩ =>
    ⟨h _ he, Expr.All.mono h first hfirst, Expr.AllRest.mono h rest hrest⟩
  | .not _ e, ⟨he, hin⟩ => ⟨h _ he, Expr.All.mono h e hin⟩
  | .negate _ e, ⟨he, hin⟩ => ⟨h _ he, Expr.All.mono h e hin⟩
  | .group _ e, ⟨he, hin⟩ => ⟨h _ he, Expr.All.mono h e hin⟩
  | .literal _ _, he => h _ he
  | .array _ es, ⟨he, hes⟩ => ⟨h _ he, Expr.AllIn.mono h es hes⟩
  | .access (.mk a ss), ⟨he, ha, hss⟩ => ⟨h _ he, Atom.All.mono h a ha, Suffix.AllIn.mono h ss hss⟩

/-- Also in the operands of a chain. -/
theorem Expr.AllRest.mono (h : ∀ e, ok e → ok' e) :
    ∀ rest : List (String × Expr), Expr.AllRest ok rest → Expr.AllRest ok' rest
  | [], _ => trivial
  | (_, e) :: rest, ⟨he, hrest⟩ => ⟨Expr.All.mono h e he, Expr.AllRest.mono h rest hrest⟩

/-- Also in a list. -/
theorem Expr.AllIn.mono (h : ∀ e, ok e → ok' e) :
    ∀ es : List Expr, Expr.AllIn ok es → Expr.AllIn ok' es
  | [], _ => trivial
  | e :: es, ⟨he, hes⟩ => ⟨Expr.All.mono h e he, Expr.AllIn.mono h es hes⟩

/-- Also in an atom. -/
theorem Atom.All.mono (h : ∀ e, ok e → ok' e) : ∀ a : Atom, a.All ok → a.All ok'
  | .name _ _, _ => trivial
  | .this _, _ => trivial
  | .new _ _ args _, hargs => Expr.AllIn.mono h args hargs

/-- Also in suffixes. -/
theorem Suffix.AllIn.mono (h : ∀ e, ok e → ok' e) :
    ∀ ss : List Suffix, Suffix.AllIn ok ss → Suffix.AllIn ok' ss
  | [], _ => trivial
  | .call _ args :: rest, ⟨hargs, hrest⟩ =>
    ⟨Expr.AllIn.mono h args hargs, Suffix.AllIn.mono h rest hrest⟩
  | .index _ e :: rest, ⟨he, hrest⟩ => ⟨Expr.All.mono h e he, Suffix.AllIn.mono h rest hrest⟩
  | .member _ _ :: rest, hrest => Suffix.AllIn.mono h rest hrest

end

namespace Build

variable {ι α β : Type} {I : ι → List Operand → Build → Prop} {S : List Operand}

/-- From a state with `I` of the operands `S` the step leads to one with `I` of `S` and of the
operands that it gives. -/
def Yields (I : ι → List Operand → Build → Prop) (S : List Operand) (out : α → List Operand)
    (step : BuildM α) : Prop :=
  ∀ ⦃i b a b'⦄, I i S b → Ends step b a b' → I i (out a ++ S) b'

/-- The step leads from states with `I` to such states. -/
abbrev Carries (I : ι → List Operand → Build → Prop) (S : List Operand) (step : BuildM α) : Prop :=
  Yields I S (fun _ => []) step

/-- A fault is no end. -/
theorem Yields.throw {out : α → List Operand} (e : Fault) : Yields I S out (throw e : BuildM α) :=
  fun _ _ _ _ _ h => absurd h ends_throw

/-- A change of the state that `I` allows. -/
theorem Carries.modify {f : Build → Build} (h : ∀ i b, I i S b → I i S (f b)) :
    Carries I S (modify f : BuildM PUnit) := by
  intro i b u b' hb hend
  rw [ends_modify.mp hend]
  exact h i b hb

theorem Carries.get : Carries I S (get : BuildM Build) := by
  intro i b c b' hb hend
  rw [(ends_get.mp hend).2]
  exact hb

theorem Carries.ofExcept (r : Except Fault α) : Carries I S (Build.ofExcept r) := by
  intro i b a b' hb hend
  rw [(ends_ofExcept.mp hend).2]
  exact hb

section
variable {out : α → List Operand} {out' : β → List Operand}
  (weaken : ∀ {i S T b}, S ⊆ T → I i T b → I i S b)
include weaken

theorem Yields.give {a : α} (ha : ∀ o ∈ out a, o ∈ S) : Yields I S out (pure a) := by
  intro i b c b' hb hend
  grind

/-- What a step has given is at hand for the next one, which may ask where that came from. -/
theorem Yields.bind_given {m : BuildM α} {f : α → BuildM β} (hm : Yields I S out m)
    (hf : ∀ {i b a b'}, I i S b → Ends m b a b' → Yields I (out a ++ S) out' (f a)) :
    Yields I S out' (m >>= f) := by
  intro i b c b' hb hend
  obtain ⟨a, b₁, h₁, h₂⟩ := ends_bind.mp hend
  refine weaken (fun o ho => ?_) (hf hb h₁ (hm hb h₁) h₂)
  rcases List.mem_append.mp ho with ho | ho
  · exact List.mem_append_left _ ho
  · exact List.mem_append_right _ (List.mem_append_right _ ho)

/-- What a step has given is at hand for the next one. -/
theorem Yields.bind {m : BuildM α} {f : α → BuildM β} (hm : Yields I S out m)
    (hf : ∀ a, Yields I (out a ++ S) out' (f a)) : Yields I S out' (m >>= f) :=
  .bind_given (I := I) weaken hm fun _ _ => hf _

end

theorem Yields.get_bind {out : β → List Operand} {f : Build → BuildM β}
    (h : ∀ i b c b', I i S b → Ends (f b) b c b' → I i (out c ++ S) b') :
    Yields I S out (get >>= f) :=
  fun _ _ _ _ hb hend => h _ _ _ _ hb (ends_get_bind.mp hend)

end Build

namespace Check

/-- Steps that do nothing but report. -/
@[grind intro]
inductive Remarks : {α : Type} → BuildM α → Prop where
  | pure {α : Type} (a : α) : Remarks (Pure.pure a)
  | ofExcept {α : Type} (r : Except Fault α) : Remarks (Build.ofExcept r)
  | error (line : Option Nat) (text : String) : Remarks (Build.error line text)
  | bind {α β : Type} {m : BuildM α} {f : α → BuildM β} (hm : Remarks m) (hf : ∀ a, Remarks (f a)) :
    Remarks (m >>= f)

namespace Remarks

variable {α : Type}

/-- Remarks about each element are remarks. -/
@[grind ←] theorem forM {xs : List α} {f : α → BuildM PUnit} (hf : ∀ x, Remarks (f x)) :
    Remarks (xs.forM f) := by
  induction xs with
  | nil => exact .pure _
  | cons x xs ih => exact .bind (hf x) fun _ => ih

@[grind ←] theorem typeName (type? : Option Ty) : Remarks (Check.typeName type?) := .ofExcept _

/-- Types are compared without a word; the caller reports. -/
@[grind ←] theorem assignable (source target : Option Ty) :
    Remarks (Check.assignable source target) := by
  cases source with
  | none => exact .ofExcept (.error _)
  | some t => exact .pure _

@[grind ←] theorem wrong? (t : Option Ty) (wanted : Ty) : Remarks (Check.wrong? t wanted) := by
  unfold Check.wrong?
  grind

/-- A value of a wrong type is reported. -/
theorem unlessAssignable (line : Option Nat) (value? target? : Option Ty) : Remarks (do
      if value? != some .error && !(← Check.assignable value? target?) then
        Build.error line ("No se puede asignar " ++ (← Check.typeName value?) ++ " a "
          ++ (← Check.typeName target?))) := by
  grind

@[grind ←] theorem additive (left right : Option Ty) (op : String) (line : Option Nat) :
    Remarks (Check.additive left right op line) := by
  unfold Check.additive
  grind

@[grind ←] theorem arithmetic (left right : Option Ty) (line : Option Nat) :
    Remarks (Check.arithmetic left right line) := by
  unfold Check.arithmetic
  grind

@[grind ←] theorem logical (left right : Option Ty) (line : Option Nat) :
    Remarks (Check.logical left right line) := by
  unfold Check.logical
  grind

@[grind ←] theorem comparison (left right : Option Ty) (op : String) (line : Option Nat) :
    Remarks (Check.comparison left right op line) := by
  unfold Check.comparison
  grind

@[grind ←] theorem relational (left right : Option Ty) (op : String) (line : Option Nat) :
    Remarks (Check.relational left right op line) := by
  unfold Check.relational
  grind

@[grind ←] theorem checkInitial (line : Nat) (init? : Option Ty) (final : Ty) :
    Remarks (Compile.checkInitial line init? final) := by
  unfold Compile.checkInitial
  grind

@[grind ←] theorem checkReturns (line : Nat) (what name : String) (result? : Option Ty)
    (returns : List (Option Ty)) :
    Remarks (Compile.checkReturns line what name result? returns) := by
  unfold Compile.checkReturns
  grind

@[grind ←] theorem checkVoid (line : Nat) (text : String) (returns : List (Option Ty)) :
    Remarks (Compile.checkVoid line text returns) := by
  unfold Compile.checkVoid
  grind

@[grind ←] theorem checkResult (line : Nat) (what kind name : String) (result? : Option Ty)
    (returns : List (Option Ty)) :
    Remarks (Compile.checkResult line what kind name result? returns) := by
  unfold Compile.checkResult
  grind

@[grind ←] theorem checkCondition (at_ : Nat) (what : String) (type? : Option Ty) :
    Remarks (Compile.checkCondition at_ what type?) := by
  unfold Compile.checkCondition
  grind

@[grind ←] theorem checkReturned (line : Nat) (hasValue : Bool) (type? result? : Option Ty) :
    Remarks (Compile.checkReturned line hasValue type? result?) := by
  unfold Compile.checkReturned
  grind

end Remarks

end Check

open Build (Yields Carries)

namespace Compile

variable {ι α β : Type} {m : BuildM α} {f : α → BuildM β} {t : Target}

/-- The operands that an access in progress holds. -/
def Target.operands (t : Target) : List Operand :=
  match t.pending with
  | .method _ this _ _ _ => [this]
  | _ => []

def Chain.operands (c : Chain) : List Operand := [c.value]

/-- The quadruple of an operator may be written of operands at hand. -/
def Applies (I : ι → List Operand → Build → Prop) (op : String) : Prop :=
  ∀ S, ∀ left ∈ S, ∀ right ∈ S, ∀ result ∈ S,
    Carries I S (Emit.quad { op := .ofText op, arg1 := left, arg2 := right, result := result })

/-- The operand with a given text may be taken as one at hand. -/
def Spells (I : ι → List Operand → Build → Prop) (text : String) : Prop :=
  ∀ i S b, I i S b → I i (.ofText text :: S) b

/-- An operand at hand may be turned into a string. -/
def Converts (I : ι → List Operand → Build → Prop) : Prop :=
  ∀ S, ∀ v ∈ S, Yields I S ([·]) (Emit.callToString v)

/-- The quadruples of a call may be written of operands at hand. -/
def Stacks (I : ι → List Operand → Build → Prop) : Prop :=
  ∀ S q, q.op.isStack = true → (∀ o ∈ q.operands, o ∈ S ∨ o.isFixed = true) →
    Carries I S (Emit.quad q)

/-- The elementary steps of reading an expression, calls and objects apart, carry `I`. -/
structure CodeWalk (I : ι → List Operand → Build → Prop) : Prop where
  weaken : ∀ {i S T b}, S ⊆ T → I i T b → I i S b
  -- Operands that the state holds.
  value : ∀ {i S b}, I i S b → I i (b.value :: S) b
  lastTemp : ∀ {i S b}, I i S b → I i (b.lastTemp :: S) b
  routineSlot : ∀ {i S b r name n}, b.routine? = some r →
    (b.frames.getD r.frame default).offset? name = some n → I i S b → I i (.frame n :: S) b
  -- Operands that are made of others or of texts.
  absent : ∀ {i S b}, I i S b → I i (.none :: S) b
  cells : ∀ {i S b vs}, (∀ v ∈ vs, v ∈ S) → I i S b → I i (.cells vs :: S) b
  ofCells : ∀ {i S b vs}, .cells vs ∈ S → I i S b → I i (vs ++ S) b
  undefined : ∀ {i S b} name, I i S b → I i (.text ("UNDEFINED_" ++ name) :: S) b
  keyword : ∀ text ∈ ["null", "true", "false"], Spells I text
  stringLabel : ∀ S literal, Yields I S (fun l => [.ofText l]) (Emit.stringLabel literal)
  -- Steps.
  error : ∀ S line text, Carries I S (Build.error line text)
  say : ∀ S line, Carries I S (Build.say line)
  newTemp : ∀ S, Yields I S ([·]) Emit.newTemp
  use : ∀ S, ∀ o ∈ S, Carries I S (Emit.use o)
  release : ∀ S, ∀ o ∈ S, Carries I S (Emit.release o)
  setValue : ∀ S, ∀ o ∈ S, Carries I S (Emit.setValue o)
  setLastTemp : ∀ S, ∀ o ∈ S, Carries I S (Emit.setLastTemp o)
  quad : ∀ S q, q.op.isPlain = true → (∀ o ∈ q.operands, o ∈ S ∨ o.isFixed = true) →
    Carries I S (Emit.quad q)
  shortCircuit : ∀ S test constant, ∀ left ∈ S, ∀ right ∈ S, test.isTest = true →
    Yields I S ([·]) (Emit.shortCircuit test constant left right)
  allocGlobal : ∀ {i S b o b' name s size}, b.table.lookupSymbol? name = some s →
    Ty.sizeOf? s.type? = .ok size → I i S b →
    Ends (Emit.allocate (·.allocGlobal name size)) b o b' → I i (o :: S) b'
  allocArray : ∀ {i S b o b' name s size}, b.table.lookupSymbol? name = some s →
    Ty.sizeOf? s.type? = .ok size → I i S b →
    Ends (Emit.allocate (·.allocArray name Emit.arrayCapacity size)) b o b' → I i (o :: S) b'
  frameSlot : ∀ {i S b o b'} id name type?, b.frame? = some id → I i S b →
    Ends (Emit.frameSlot id name type?) b o b' → I i (o :: S) b'
  newFrame : ∀ S function, Carries I S (Emit.newFrame function)
  newMethodFrame : ∀ S key, Carries I S (do
    let frame ← Emit.newFrame key
    Emit.modifyFrame frame (·.addParam Emit.thisParam none))
  loadThis : ∀ S, Yields I S ([·]) Emit.loadThis

/-- The elementary steps of reading an expression carry `I`. -/
structure ExprWalk (ok : Expr → Prop) (I : ι → List Operand → Build → Prop) :
    Prop extends CodeWalk I where
  literal : ∀ {line text}, ok (.literal line (.plain text)) → Spells I text
  operator : ∀ {level first rest}, ok (.chain level first rest) → ∀ p ∈ rest, Applies I p.1
  newObject : ∀ S cls, Yields I S ([·]) (Emit.newObject cls)
  call : ∀ {S} name {args}, (∀ a ∈ args, a ∈ S) → Yields I S ([·]) (Emit.call name args)
  callMethod : ∀ {S this}, this ∈ S → ∀ cls method {args}, (∀ a ∈ args, a ∈ S) →
    Yields I S ([·]) (Emit.callMethod this cls method args)

namespace CodeWalk

variable {I : ι → List Operand → Build → Prop} {S : List Operand}
  {out : α → List Operand} {out' : β → List Operand} {base : Operand}

section
variable (h : CodeWalk I) {op : String} {left right value index : Operand} {a : α}
include h

/-! ### Sequences -/

/-- A result may hold operands at hand. -/
theorem give (ha : ∀ o ∈ out a, o ∈ S) : Yields I S out (Pure.pure a) :=
  .give (I := I) h.weaken ha

/-- A result without operands asks for nothing. -/
theorem pure (a : α) : Carries I S (Pure.pure a : BuildM α) := h.give nofun

theorem giveOperand {o : Operand} (ho : o ∈ S) : Yields I S ([·]) (Pure.pure o) :=
  h.give (by simpa using ho)

/-- The next step may use the operands that the last one has given. -/
theorem bind (hm : Yields I S out m)
    (hf : ∀ a, Yields I (out a ++ S) out' (f a)) : Yields I S out' (m >>= f) :=
  .bind (I := I) h.weaken hm hf

/-- The operands that a step gives may be forgotten. -/
theorem forget (hm : Yields I S out m) : Carries I S m :=
  fun _ _ _ _ hb hend => h.weaken (List.subset_append_right _ _) (hm hb hend)

theorem map {g : α → β} (hm : Yields I S (fun a => out' (g a)) m) :
    Yields I S out' (g <$> m) := by
  rw [map_eq_pure_bind]
  exact h.bind hm fun a => h.give fun o ho => List.mem_append_left _ ho

/-- A step that goes on from the results of one of two steps. -/
theorem ite_bind {c : Prop} [Decidable c] {m n : BuildM α}
    (hm : Yields I S out m) (hn : Yields I S out n) (hf : ∀ a, Yields I (out a ++ S) out' (f a)) :
    Yields I S out' (if c then m >>= f else n >>= f) := by
  split
  · exact h.bind hm hf
  · exact h.bind hn hf

/-- A step that may be left out, in front of others. -/
theorem when_bind {c : Prop} [Decidable c] {k : BuildM β} (hm : Carries I S m)
    (hk : Yields I S out' k) :
    Yields I S out' (if c then m >>= fun _ => k else k) := by
  split
  · exact h.bind hm fun _ => hk
  · exact hk

/-- Looking at the state changes nothing. -/
theorem read (f : Build → α) : Carries I S (do return f (← MonadState.get) : BuildM α) :=
  h.bind Carries.get fun b => h.pure (f b)

theorem lookup? (name : String) : Carries I S (Build.lookup? name) := h.read _

theorem isClean : Carries I S Build.isClean := h.read _

/-- The value at hand is an operand at hand. -/
theorem valueAtHand : Yields I S ([·]) Compile.value := by
  intro i b v b' hb hend
  obtain ⟨rfl, rfl⟩ := Build.ends_read.mp hend
  exact h.value hb

theorem frameAt (id : FrameId) : Carries I S (Emit.frameAt id) := h.read _

/-! ### Places and temporaries -/

/-- A place is made in storage or in the frame, for a name that has none. -/
theorem place (name : String) : Yields I S ([·]) (Emit.place name) := by
  refine Yields.get_bind fun i b o b' hb hend => ?_
  split at hend
  · obtain ⟨rfl, rfl⟩ := ends_pure.mp hend
    exact h.undefined name hb
  · rename_i s hs
    split at hend
    · obtain ⟨size, hsize, hend⟩ := Build.ends_ofExcept_bind.mp hend
      split at hend
      · exact h.allocArray hs hsize hb hend
      · exact h.allocGlobal hs hsize hb hend
    · split at hend
      · exact h.frameSlot _ _ _ ‹_› hb hend
      · obtain ⟨size, hsize, hend⟩ := Build.ends_ofExcept_bind.mp hend
        exact h.allocGlobal hs hsize hb hend

/-- The operand of a place in the frame, if there is one. -/
def slotOf (n? : Option Nat) : List Operand := n?.toList.map Operand.frame

/-- An offset in the frame stands for the operand that it makes. -/
theorem routineOffset? (name : String) : Yields I S slotOf (Emit.routineOffset? name) := by
  refine Yields.get_bind fun i b n? b' hb hend => ?_
  split at hend
  · obtain ⟨rfl, rfl⟩ := ends_pure.mp hend
    exact hb
  · rename_i r hr
    obtain ⟨f, b₁, hf, hend⟩ := ends_bind.mp hend
    obtain ⟨rfl, rfl⟩ := Build.ends_read.mp hf
    obtain ⟨rfl, rfl⟩ := ends_pure.mp hend
    cases hn : (b'.frames.getD r.frame default).offset? name with
    | none => exact hb
    | some n => exact h.routineSlot hr hn hb

/-- A parameter is found in the frame before the name is looked up. -/
theorem variableValue (name : String) : Yields I S ([·]) (Emit.variableValue name) := by
  unfold Emit.variableValue
  have hset : ∀ (T : List Operand) (o : Operand), o ∈ T → Yields I T ([·]) (do
      Emit.setValue o
      return o : BuildM Operand) := fun T o ho =>
    h.bind (h.setValue T o ho) fun _ => h.give (by simpa using ho)
  refine h.bind (h.routineOffset? name) fun n? => ?_
  split
  · rename_i n
    refine h.bind (h.giveOperand (o := .frame n) ?_) fun o => hset _ o ?_
    · simp [slotOf]
    · simp
  · exact h.bind (h.place name) fun o => hset _ o (by simp)

/-- One quadruple into a new temporary, which becomes the value at hand. -/
theorem copyTo {op : Op} (hop : op.isPlain = true) {a : Operand} (ha : a ∈ S ∨ a.isFixed = true) :
    Yields I S ([·]) (do
      let t ← Emit.newTemp
      Emit.quad { op := op, arg1 := a, result := t }
      Emit.setValue t
      return t) := by
  refine h.bind (h.newTemp S) fun t => h.bind (h.quad _ _ hop ?_) fun _ => ?_
  · intro o ho
    simp only [Quad.operands, List.mem_cons, List.not_mem_nil, or_false] at ho
    rcases ho with rfl | rfl | rfl
    · exact ha.imp_left (List.mem_cons_of_mem _)
    · exact .inr rfl
    · exact .inl (.head _)
  · exact h.bind (h.setValue _ t (by simp)) fun _ => h.give (by simp)

theorem placeValue (name : String) : Yields I S ([·]) (Emit.placeValue name) :=
  h.bind (h.place name) fun a => h.copyTo rfl (.inl (by simp))

/-- The last temporary is taken again if the expression does not need it. -/
theorem lastOrNew : Yields I S ([·]) Emit.lastOrNew := by
  refine Yields.get_bind fun i b t b' hb hend => ?_
  split at hend
  · obtain ⟨rfl, rfl⟩ := ends_pure.mp hend
    exact h.lastTemp hb
  · exact h.newTemp S hb hend

/-- The result of an operator is the value at hand. -/
theorem finish {t : Operand} (ht : t ∈ S) : Yields I S ([·]) (Emit.finish t) :=
  h.bind (h.setValue S t ht) fun _ => h.bind (h.setLastTemp _ t (by simpa using ht)) fun _ =>
    h.give (by simpa using ht)

/-! ### Operators -/

theorem arithmetic (hl : left ∈ S) (hr : right ∈ S)
    (hop : Applies I op) : Yields I S ([·]) (Emit.arithmetic left right op) := by
  unfold Emit.arithmetic
  refine h.bind (h.use S left hl) fun _ => h.bind (h.use _ right (by simpa using hr)) fun _ => ?_
  refine h.bind (Carries.ofExcept _) fun _ => h.bind (Carries.ofExcept _) fun _ => ?_
  refine h.bind (h.newTemp _) fun t => h.bind (hop _ _ ?_ _ ?_ _ ?_) fun _ => h.finish ?_
  · simp [hl]
  · simp [hr]
  · simp
  · simp

theorem comparison (hl : left ∈ S) (hr : right ∈ S)
    (hop : Applies I op) : Yields I S ([·]) (Emit.comparison left right op) := by
  unfold Emit.comparison
  refine h.bind (h.use S left hl) fun _ => h.bind (h.use _ right (by simpa using hr)) fun _ => ?_
  refine h.bind (h.newTemp _) fun t => h.bind (hop _ _ ?_ _ ?_ _ ?_) fun _ => ?_
  · simp [hl]
  · simp [hr]
  · simp
  · refine h.bind (h.finish (t := t) (by simp)) fun _ => ?_
    exact h.bind (Carries.ofExcept _) fun _ => h.bind (Carries.ofExcept _) fun _ => h.give (by simp)

/-- A sign or a negation is a plain quadruple with one operand. -/
theorem unaryCode {operand : Operand} (ho : operand ∈ S)
    (hop : (Op.ofText op).isPlain = true) : Yields I S ([·]) (Emit.unary operand op) := by
  unfold Emit.unary
  refine h.bind (h.use S operand ho) fun _ => h.bind h.lastOrNew fun t => ?_
  refine h.bind (h.quad _ _ hop ?_) fun _ => h.finish (by simp)
  simp [Quad.operands, ho]

theorem logicalNot {operand : Operand} (ho : operand ∈ S) :
    Yields I S ([·]) (Emit.logicalNot operand) := by
  unfold Emit.logicalNot
  refine h.bind (h.use S operand ho) fun _ => h.bind (h.newTemp _) fun t => ?_
  refine h.bind (h.quad _ _ rfl ?_) fun _ => h.finish (by simp)
  simp [Quad.operands, ho]

/-- Both operands are there before the first of them is tested. -/
theorem logicalCode (hl : left ∈ S) (hr : right ∈ S) (level : Level) :
    Yields I S ([·]) (Emit.logical left right (if level = .and then "&&" else "||")) := by
  unfold Emit.logical
  refine h.bind (h.use S left hl) fun _ => h.bind (h.use _ right (by simpa using hr)) fun _ => ?_
  by_cases hlevel : level = .and
  · rw [if_pos hlevel]
    exact h.shortCircuit _ _ _ _ (by simpa using hl) _ (by simpa using hr) rfl
  · rw [if_neg hlevel]
    exact h.shortCircuit _ _ _ _ (by simpa using hl) _ (by simpa using hr) rfl

theorem assign {target : Operand} (ht : target ∈ S) (hv : value ∈ S) :
    Yields I S ([·]) (Emit.assign target value) := by
  unfold Emit.assign
  refine h.bind (Carries.ofExcept _) fun isTemp => h.bind (h.quad _ _ rfl ?_) fun _ => ?_
  · simp [Quad.operands, ht, hv]
  · split
    · exact h.bind (h.release _ value (by simpa using hv)) fun _ => h.give (by simpa using ht)
    · exact h.give (by simpa using ht)

/-- A constant is an operand itself where a value is read as it stands, and is loaded otherwise. -/
theorem constant {text : String} (htext : Spells I text) :
    Yields I S ([·]) (Emit.constant text) := by
  have hlabel : Yields I S ([·]) (Operand.ofText <$> Emit.stringLabel text) :=
    h.map (h.stringLabel S text)
  have htaken : Yields I S ([·]) (Pure.pure (Operand.ofText text)) := by
    intro i b o b' hb hend
    obtain ⟨rfl, rfl⟩ := ends_pure.mp hend
    exact htext i S _ hb
  unfold Emit.constant
  refine h.ite_bind hlabel htaken fun o => h.bind Carries.get fun b => ?_
  split
  · exact h.bind (h.setValue _ o (by simp)) fun _ => h.give (by simp)
  · exact h.copyTo rfl (.inl (by simp))

/-! ### Calls, elements and members -/

theorem forM {xs : List α} {f : α → BuildM PUnit} (hf : ∀ x ∈ xs, Carries I S (f x)) :
    Carries I S (xs.forM f) := by
  induction xs with
  | nil => exact h.pure _
  | cons x xs ih =>
    exact h.bind (hf x (.head _)) fun _ => ih fun y hy => hf y (.tail _ hy)

/-- The result is popped into a temporary after the arguments are dropped. -/
theorem takeResult (hstack : Stacks I) (n : Nat) : Yields I S ([·]) (Emit.takeResult n) := by
  unfold Emit.takeResult
  refine h.when_bind (hstack _ _ rfl (by simp [Quad.operands])) ?_
  refine h.bind (h.newTemp S) fun t => h.bind (hstack _ _ rfl (by simp [Quad.operands])) fun _ => ?_
  exact h.bind (h.setValue _ t (by simp)) fun _ => h.give (by simp)

/-- Arguments are pushed from the last to the first. -/
theorem pushAll (hstack : Stacks I) {args : List Operand} (hargs : ∀ a ∈ args, a ∈ S) :
    Carries I S (args.reverse.forM fun a => Emit.quad { op := .push, arg1 := a }) := by
  refine h.forM fun a ha => hstack _ _ rfl ?_
  simp [Quad.operands, hargs a (List.mem_reverse.mp ha)]

theorem callOf (hstack : Stacks I) (name : String) {args : List Operand}
    (hargs : ∀ a ∈ args, a ∈ S) :
    Yields I S ([·]) (Emit.call name args) := by
  unfold Emit.call
  refine h.bind Carries.get fun b => h.when_bind (h.newFrame _ name) ?_
  refine h.bind (h.pushAll hstack hargs) fun _ => h.bind (hstack _ _ rfl ?_) fun _ =>
    h.takeResult hstack _
  simp [Quad.operands, Emit.functionLabel]

/-- The object is pushed last, as the first parameter. -/
theorem callMethodOf (hstack : Stacks I) {this : Operand} (hthis : this ∈ S) (cls method : String)
    {args : List Operand} (hargs : ∀ a ∈ args, a ∈ S) :
    Yields I S ([·]) (Emit.callMethod this cls method args) := by
  unfold Emit.callMethod
  refine h.bind Carries.get fun b => ?_
  dsimp only
  rw [← bind_assoc]
  refine h.when_bind (h.newMethodFrame _ _) ?_
  refine h.bind (h.say _ _) fun _ => h.bind (h.say _ _) fun _ => h.bind (h.say _ _) fun _ => ?_
  refine h.bind (h.pushAll hstack hargs) fun _ => h.bind (hstack _ _ rfl ?_) fun _ => ?_
  · simp [Quad.operands, hthis]
  · refine h.bind (hstack _ _ rfl ?_) fun _ => h.takeResult hstack _
    simp [Quad.operands, Emit.methodLabel]

/-- Addresses are computed of operands at hand and of fixed ones. -/
theorem compute {op : Op} (hop : op.isPlain = true) {a b : Operand} (ha : a ∈ S ∨ a.isFixed = true)
    (hb : b ∈ S ∨ b.isFixed = true) : Yields I S ([·]) (Emit.compute op a b) := by
  refine h.bind (h.newTemp S) fun t => h.bind (h.quad _ _ hop ?_) fun _ => h.give (by simp)
  intro o ho
  simp only [Quad.operands, List.mem_cons, List.not_mem_nil, or_false] at ho
  rcases ho with rfl | rfl | rfl
  · exact ha.imp_left (List.mem_cons_of_mem _)
  · exact hb.imp_left (List.mem_cons_of_mem _)
  · exact .inl (.head _)

theorem elementAddress (hbase : base ∈ S) (hindex : index ∈ S) (size : Int) :
    Yields I S ([·]) (Emit.elementAddress base index size) :=
  h.bind (h.compute rfl (.inl hindex) (.inr rfl)) fun _ =>
    h.compute rfl (.inl (by simp [hbase])) (.inl (by simp))

theorem loadElement (hbase : base ∈ S) (hindex : index ∈ S) (size : Int) :
    Yields I S ([·]) (Emit.loadElement base index size) :=
  h.bind (h.elementAddress hbase hindex size) fun _ => h.copyTo rfl (.inl (by simp))

theorem elementSize (name : String) : Carries I S (Emit.elementSize name) := by
  unfold Emit.elementSize
  refine h.bind (h.lookup? name) fun s => ?_
  split
  · exact h.pure _
  · exact h.pure _

theorem storeElement (hbase : base ∈ S) (hindex : index ∈ S) (hvalue : value ∈ S) (size : Int) :
    Yields I S ([·]) (Emit.storeElement base index value size) := by
  refine h.bind (h.elementAddress hbase hindex size) fun a => h.bind (h.quad _ _ rfl ?_) fun _ => ?_
  · simp [Quad.operands, hvalue]
  · exact h.give (by simp)

theorem storeToArray (name : String) (hindex : index ∈ S)
    (hvalue : value ∈ S) : Yields I S ([·]) (Emit.storeToArray name index value) :=
  h.bind (h.placeValue name) fun _ => h.bind (h.elementSize name) fun size =>
    h.storeElement (by simp) (by simp [hindex]) (by simp [hvalue]) size

/-- An element is read through the address of the array. -/
theorem loadFromArray (name : String) (hindex : index ∈ S) :
    Yields I S ([·]) (Emit.loadFromArray name index) :=
  h.bind (h.placeValue name) fun _ => h.bind (h.elementSize name) fun size =>
    h.loadElement (by simp) (by simp [hindex]) size

theorem memberAddress (hbase : base ∈ S) (cls member : String) :
    Yields I S ([·]) (Emit.memberAddress base cls member) := by
  unfold Emit.memberAddress
  split
  · exact Yields.throw _
  · refine h.bind Carries.get fun b => ?_
    split
    · exact Yields.throw _
    · split
      · exact Yields.throw _
      · refine h.bind (h.newTemp _) fun t => h.bind (h.quad _ _ rfl ?_) fun _ => h.give (by simp)
        simp [Quad.operands, hbase]

/-- A check that writes nothing. -/
theorem requireMember (base : Operand) (cls member : String) :
    Carries I S (Emit.requireMember base cls member) := by
  unfold Emit.requireMember
  split
  · exact Yields.throw _
  · refine h.bind Carries.get fun b => ?_
    split
    · exact Yields.throw _
    · exact h.pure _

theorem loadMember (hbase : base ∈ S) (cls member : String) :
    Yields I S ([·]) (Emit.loadMember base cls member) := by
  unfold Emit.loadMember
  refine h.bind (h.requireMember base cls member) fun _ => ?_
  refine h.bind (h.memberAddress (by simpa using hbase) cls member) fun a => ?_
  refine h.bind (h.newTemp _) fun t => h.bind (h.quad _ _ rfl ?_) fun _ => ?_
  · simp [Quad.operands]
  · exact h.bind (h.setValue _ t (by simp)) fun _ => h.give (by simp)

theorem storeMember (hbase : base ∈ S) (cls member : String)
    (hvalue : value ∈ S) : Yields I S ([·]) (Emit.storeMember base cls member value) := by
  unfold Emit.storeMember
  refine h.bind (h.requireMember base cls member) fun _ => ?_
  refine h.bind (h.memberAddress (by simpa using hbase) cls member) fun a => ?_
  refine h.bind (h.quad _ _ rfl ?_) fun _ => h.give (by simp)
  simp [Quad.operands, hvalue]

/-! ### Rules on types -/

/-- By induction on how the remarks are put together. -/
theorem remarks (hm : Check.Remarks m) : Carries I S m := by
  induction hm with
  | pure a => exact h.pure a
  | ofExcept r => exact Carries.ofExcept r
  | error line text => exact h.error _ _ _
  | bind _ _ hm hf => exact h.bind hm hf

/-- A report and the answer that goes with it. -/
theorem reportGiving (line : Option Nat) (text : String) (ha : ∀ o ∈ out a, o ∈ S) :
    Yields I S out (do Build.error line text; return a : BuildM α) :=
  h.bind (h.error _ line text) fun _ => h.give ha

theorem report (line : Option Nat) (text : String) (a : α) :
    Carries I S (do Build.error line text; return a : BuildM α) :=
  h.reportGiving line text nofun

/-- One remark for each argument that does not fit, by induction on the parameters. -/
theorem argumentTypes (line : Option Nat) (say : Nat → String → String → String)
    (params : List (String × Option Ty)) (args : List (Option Ty)) (i : Nat) :
    Carries I S (Check.arguments line say i params args) := by
  induction params generalizing args i with
  | nil => exact h.pure _
  | cons p ps ih =>
    cases args with
    | nil => exact h.pure _
    | cons a as =>
      unfold Check.arguments
      split
      · refine h.bind (h.remarks (.assignable a p.2)) fun ok => ?_
        split
        · refine h.bind (Carries.ofExcept _) fun _ => h.bind (Carries.ofExcept _) fun _ => ?_
          exact h.bind (h.error _ _ _) fun _ => ih as (i + 1)
        · exact ih as (i + 1)
      · exact ih as (i + 1)

/-! ### Chains -/

theorem chainStart (level : Level) (type? : Option Ty) :
    Yields I S Chain.operands (Chain.start level type?) := by
  unfold Chain.start
  refine h.bind h.valueAtHand fun v => ?_
  split
  · exact h.bind (h.use _ v (by simp)) fun _ => h.give (by simp [Chain.operands])
  · exact h.give (by simp [Chain.operands])

/-- A number next to a string is turned into one before they are joined. -/
theorem chainSum (htext : Converts I) {c : Chain} (hc : c.value ∈ S) (hop : Applies I op)
    (right? : Option Ty) {v : Operand} (hv : v ∈ S) : Yields I S ([·]) (c.sum op right? v) := by
  unfold Chain.sum
  split
  · refine h.bind (htext _ _ hc) fun _ => ?_
    exact h.arithmetic (by simp) (by simp [hv]) hop
  · split
    · refine h.bind (htext _ _ hv) fun _ => ?_
      exact h.arithmetic (by simp [hc]) (by simp) hop
    · exact h.arithmetic hc hv hop

/-- Code for an operator is written unless its operands are of a wrong type. -/
theorem unlessError {left? result? : Option Ty} {t : Ty} {v : Operand} (hv : v ∈ S)
    {code : BuildM Operand} (hcode : Yields I S ([·]) code) :
    Yields I S Chain.operands (do
      let w ← if t == .error then Pure.pure v else code
      return ⟨left?, result?, w⟩ : BuildM Chain) := by
  dsimp only
  split
  · exact h.bind (h.giveOperand hv) fun w => h.give (by simp [Chain.operands])
  · exact h.bind hcode fun w => h.give (by simp [Chain.operands])

/-- A step along a chain: the value so far, the operator, and the operand that was just read. -/
theorem chainStep (htext : Converts I) (level : Level) (line : Nat) {c : Chain} (hc : c.value ∈ S)
    (hop : Applies I op) (at_ : Nat) (right? : Option Ty) :
    Yields I S Chain.operands (c.step level line op at_ right?) := by
  unfold Chain.step
  refine h.bind h.valueAtHand fun v => ?_
  have hc : c.value ∈ [v] ++ S := by simp [hc]
  have hv : v ∈ [v] ++ S := by simp
  cases level with
  | additive =>
    refine h.bind (h.use _ v hv) fun _ => h.bind (h.remarks (.additive ..)) fun t => ?_
    exact h.unlessError hc (h.chainSum htext hc hop right? hv)
  | multiplicative =>
    exact h.bind (h.remarks (.arithmetic ..)) fun t => h.unlessError hc (h.arithmetic hc hv hop)
  | equality =>
    exact h.bind (h.remarks (.comparison ..)) fun t => h.unlessError hc (h.comparison hc hv hop)
  | relational =>
    exact h.bind (h.remarks (.relational ..)) fun t => h.unlessError hc (h.comparison hc hv hop)
  | and =>
    exact h.bind (h.remarks (.logical ..)) fun t => h.unlessError hc (h.logicalCode hc hv .and)
  | or =>
    exact h.bind (h.remarks (.logical ..)) fun t => h.unlessError hc (h.logicalCode hc hv .or)

/-! ### Constants, names and accesses -/

theorem literalValue {l : Literal} (hl : ∀ text, l = .plain text → Spells I text) :
    Carries I S (Compile.literal l) := by
  unfold Compile.literal
  split
  · exact h.bind (h.constant (h.keyword _ (by simp))) fun _ => h.pure _
  · refine h.bind (h.constant (h.keyword _ ?_)) fun _ => h.pure _
    split <;> simp
  · exact h.bind (h.constant (hl _ rfl)) fun _ => h.pure _

theorem unary (line : Nat) (sign kind : String) (wanted : Ty) (operand? : Option Ty)
    {code : Operand → BuildM Operand} (hcode : ∀ T, ∀ o ∈ T, Yields I T ([·]) (code o)) :
    Carries I S (Compile.unary line sign kind wanted operand? code) := by
  unfold Compile.unary
  refine h.bind (h.remarks (.wrong? ..)) fun found? => ?_
  split
  · exact h.report _ _ _
  · split
    · refine h.bind h.valueAtHand fun v => h.bind (hcode _ v (by simp)) fun _ => h.pure _
    · exact h.pure _

theorem typeOf (text : String) : Carries I S (Compile.typeOf text) := by
  unfold Compile.typeOf
  refine h.bind (Carries.ofExcept _) fun t => ?_
  split
  · exact h.pure _
  · refine h.bind (h.lookup? text) fun s => ?_
    split
    · exact h.pure _
    · exact h.pure _

theorem typeOf? (text? : Option String) : Carries I S (Compile.typeOf? text?) := by
  cases text? with
  | none => exact h.pure _
  | some text => exact h.typeOf text

theorem class? (name : String) : Carries I S (Compile.class? name) := by
  unfold Compile.class?
  refine h.bind (h.lookup? name) fun s => ?_
  split
  · exact h.pure _
  · exact h.pure _

/-- The operand that a piece of code gives becomes the value at hand. -/
theorem setValueOf {code : BuildM Operand} (hcode : Yields I S ([·]) code)
    (ha : ∀ o ∈ out a, o ∈ S) :
    Yields I S out (do
      Emit.setValue (← code)
      return a : BuildM α) :=
  h.bind hcode fun o => h.bind (h.setValue _ o (by simp)) fun _ =>
    h.give fun o ho => List.mem_append_right _ (List.mem_append_right _ (ha o ho))

/-- Code that is written only while no error has been reported. -/
theorem whenClean {m n : BuildM α} (hm : Yields I S out m) (hn : Yields I S out n) :
    Yields I S out (do if ← Build.isClean then m else n : BuildM α) := by
  refine h.bind h.isClean fun clean => ?_
  split
  · exact hm
  · exact hn

end

/-- The operands that the beginning of an access holds. -/
def targetOf (t? : Option Target) : List Operand := t?.toList.flatMap Target.operands

@[simp] theorem targetOf_none : targetOf none = [] := rfl

@[simp] theorem targetOf_some (t : Target) : targetOf (some t) = t.operands := by
  simp [targetOf]

@[simp] theorem operands_typed (t? : Option Ty) : ({ type? := t? } : Target).operands = [] := rfl

@[simp] theorem operands_failed : failed.operands = [] := rfl

section
variable (h : CodeWalk I)
include h

/-- A name gives its value, and the name of a function waits for arguments. -/
theorem name (line : Nat) (id : String) : Yields I S targetOf (Compile.name line id) := by
  unfold Compile.name
  refine h.bind (h.lookup? id) fun s => ?_
  split
  · exact h.reportGiving _ _ (by simp)
  · split
    · split
      · exact h.setValueOf (h.placeValue id) (by simp)
      · exact h.setValueOf (h.variableValue id) (by simp)
    · exact h.give (by simp [Target.operands])
    · exact h.reportGiving _ _ (by simp)
    · exact h.reportGiving _ _ (by simp)

/-- `this` is a value only in a class. -/
theorem this (line : Nat) : Yields I S targetOf (Compile.this line) := by
  unfold Compile.this
  refine h.bind Carries.get fun b => ?_
  split
  · exact h.reportGiving _ _ (by simp)
  · exact h.setValueOf (h.loadThis _) (by simp)

theorem checkNew (line : Nat) (cls : String) (ctor? : Option Function) (args : List (Option Ty)) :
    Carries I S (Compile.checkNew line cls ctor? args) := by
  unfold Compile.checkNew
  split
  · split
    · exact h.error _ _ _
    · exact h.argumentTypes _ _ _ _ _
  · split
    · exact h.error _ _ _
    · exact h.pure _

/-- A method that is not called at once is reported. -/
theorem settle (ht : ∀ o ∈ t.operands, o ∈ S) :
    Yields I S Target.operands (Compile.settle t) := by
  unfold Compile.settle
  split
  · exact h.reportGiving _ _ (by simp)
  · exact h.give ht

theorem element (at_ : Nat) (e : Ty) (hbase : base ∈ S) (index? : Option Ty) :
    Yields I S Target.operands (Compile.element at_ e base index?) := by
  unfold Compile.element
  refine h.bind h.valueAtHand fun index => h.bind (h.remarks (.wrong? ..)) fun found? => ?_
  dsimp only
  split
  · exact h.reportGiving _ _ (by simp)
  · refine h.bind (h.loadElement (by simp [hbase]) (by simp) _) fun _ => h.give (by simp)

/-- A member is an attribute, which is loaded, or a method, which waits. -/
theorem member (line : Nat) (isThis : Bool) (t : Target) (id : String) :
    Yields I S Target.operands (Compile.member line isThis t id) := by
  unfold Compile.member
  refine h.ite_bind (h.loadThis S) h.valueAtHand fun object => ?_
  dsimp only
  split
  · exact h.reportGiving _ _ (by simp)
  · rcases t with ⟨_ | ty, pending⟩
    · rw [pure_bind]
      exact h.reportGiving _ _ (by simp)
    · refine h.bind (h.class? ty.name) fun cls? => ?_
      split
      · exact h.reportGiving _ _ (by simp)
      · refine h.bind Carries.get fun b => ?_
        split
        · exact h.bind (h.loadMember (by simp) _ _) fun _ => h.give (by simp)
        · exact h.give (by simp [Target.operands])
        · exact h.reportGiving _ _ (by simp)

/-- A function that is not called is no value. -/
theorem conclude (line : Nat) (ht : ∀ o ∈ t.operands, o ∈ S) :
    Carries I S (Compile.conclude line t) := by
  unfold Compile.conclude
  refine h.bind (h.settle ht) fun t => ?_
  split
  · exact h.report _ _ _
  · exact h.pure _
  · exact h.pure _

/-! ### Assignments as expressions -/

theorem assignable? (line : Nat) (id : String) : Carries I S (Compile.assignable? line id) := by
  unfold Compile.assignable?
  refine h.bind (h.lookup? id) fun s => ?_
  split
  · exact h.report _ _ _
  · split
    · split
      · exact h.report _ _ _
      · exact h.pure _
    · exact Yields.throw _

theorem arrayNamed (line : Nat) (id : String) : Carries I S (Compile.arrayNamed line id) := by
  unfold Compile.arrayNamed
  refine h.bind (h.lookup? id) fun s => ?_
  split
  · exact h.report _ _ _
  · split
    · exact h.pure _
    · exact h.report _ _ _

/-- An index that is no integer is reported and gives no operand. -/
theorem indexOperand? (line : Nat) (index? : Option Ty) :
    Yields I S Option.toList (Compile.indexOperand? line index?) := by
  unfold Compile.indexOperand?
  refine h.bind (h.remarks (.wrong? ..)) fun found? => ?_
  split
  · exact h.reportGiving _ _ (by simp)
  · exact h.bind h.valueAtHand fun _ => h.give (by simp)

theorem storeName (line : Nat) (id : String) (v : Variable) (value? : Option Ty) :
    Carries I S (Compile.storeName line id v value?) := by
  unfold Compile.storeName
  refine h.bind h.valueAtHand fun operand => h.bind (h.remarks (.assignable ..)) fun allowed => ?_
  split
  · exact h.bind (Carries.ofExcept _) fun _ => h.bind (Carries.ofExcept _) fun _ => h.report _ _ _
  · refine h.whenClean ?_ (h.pure _)
    exact h.bind (h.place id) fun a => h.bind (h.assign (by simp) (by simp)) fun _ => h.pure _

theorem storeIndexed (line : Nat) (id : String) (e : Ty) {index : Operand} (hindex : index ∈ S)
    (value? : Option Ty) : Carries I S (Compile.storeIndexed line id e index value?) := by
  unfold Compile.storeIndexed
  refine h.bind h.valueAtHand fun operand => h.bind (h.remarks (.assignable ..)) fun allowed => ?_
  split
  · exact h.bind (Carries.ofExcept _) fun _ => h.report _ _ _
  · refine h.whenClean ?_ (h.pure _)
    exact h.bind (h.storeToArray id (by simp [hindex]) (by simp)) fun _ => h.pure _

/-- A name and an element are stored to, and any other target is only read. -/
theorem assignTo (a : Atom) (ss : List Suffix) {readIndex readTarget readValue : BuildM (Option Ty)}
    (hindex : ∀ T, Carries I T readIndex) (htarget : ∀ T, Carries I T readTarget)
    (hvalue : ∀ T, Carries I T readValue) :
    Carries I S (Compile.assignTo a ss readIndex readTarget readValue) := by
  unfold Compile.assignTo
  split
  · refine h.bind (h.assignable? _ _) fun x? => ?_
    split
    · exact h.pure _
    · exact h.bind (hvalue _) fun t => h.storeName _ _ _ t
  · split
    · refine h.bind (h.arrayNamed _ _) fun e? => ?_
      split
      · exact h.pure _
      · refine h.bind (hindex _) fun t => h.bind (h.indexOperand? _ t) fun i? => ?_
        split
        · exact h.pure _
        · exact h.bind (hvalue _) fun t => h.storeIndexed _ _ _ (by simp) t
    · exact h.bind (htarget _) fun _ => hvalue _

/-- An access reads its atom, and what follows goes on from there. -/
theorem follow {start : BuildM (Option Target)} {rest : Target → BuildM (Option Ty)}
    (hstart : Yields I S targetOf start)
    (hrest : ∀ T t, (∀ o ∈ t.operands, o ∈ T) → Carries I T (rest t)) :
    Carries I S (Compile.follow start rest) := by
  unfold Compile.follow
  refine h.bind hstart fun t? => ?_
  split
  · exact h.pure _
  · exact hrest _ _ fun o ho => List.mem_append_left _ (by simpa using ho)

end

/-- Calls carry what each of their quadruples does. -/
theorem exprWalk (h : CodeWalk I) (hstack : Stacks I)
    (hobject : ∀ S cls, Yields I S ([·]) (Emit.newObject cls))
    (hliteral : ∀ {line text}, ok (.literal line (.plain text)) → Spells I text)
    (hoperator : ∀ {level first rest}, ok (.chain level first rest) → ∀ p ∈ rest, Applies I p.1) :
    ExprWalk ok I where
  toCodeWalk := h
  literal := hliteral
  operator := hoperator
  newObject := hobject
  call := h.callOf hstack
  callMethod := h.callMethodOf hstack

end CodeWalk

namespace ExprWalk

open CodeWalk (targetOf)

variable {ok : Expr → Prop} {I : ι → List Operand → Build → Prop} {S : List Operand}
  {out : α → List Operand} {out' : β → List Operand} (h : ExprWalk ok I)
include h

theorem pure (a : α) : Carries I S (Pure.pure a : BuildM α) := h.toCodeWalk.pure a

theorem bind (hm : Yields I S out m)
    (hf : ∀ a, Yields I (out a ++ S) out' (f a)) : Yields I S out' (m >>= f) :=
  h.toCodeWalk.bind hm hf

theorem converts : Converts I := fun _ _ hv => h.call _ (by simpa using hv)

/-- An object is made, and then its constructor is called with it. -/
theorem construct (cls : String) (ctor? : Option Function) {args : List Operand}
    (hargs : ∀ a ∈ args, a ∈ S) :
    Yields I S Target.operands (Compile.construct cls ctor? args) := by
  unfold Compile.construct
  refine h.bind (h.newObject S cls) fun object => h.bind h.isClean fun clean => ?_
  split
  · refine h.bind (h.callMethod (by simp) _ _ (fun a ha => by simp [hargs a ha])) fun _ => ?_
    exact h.bind (h.setValue _ object (by simp)) fun _ => h.give (by simp)
  · exact h.bind (h.setValue _ object (by simp)) fun _ => h.give (by simp)

/-- A call is written if the arguments fit, and reported on otherwise. -/
theorem apply (line : Nat) (ht : ∀ o ∈ t.operands, o ∈ S) (types : List (Option Ty))
    {operands : List Operand} (hargs : ∀ o ∈ operands, o ∈ S) :
    Yields I S Target.operands (Compile.apply line t types operands) := by
  unfold Compile.apply
  split
  · refine h.ite_bind (h.error _ _ _) (h.argumentTypes _ _ _ _ _) fun _ => ?_
    exact h.whenClean (h.setValueOf (h.call _ hargs) (by simp)) (h.give (by simp))
  · rename_i line' this cls n f hpending
    have hthis : this ∈ S := ht this (by simp [Target.operands, hpending])
    refine h.when_bind (h.error _ _ _) ?_
    exact h.whenClean (h.setValueOf (h.callMethod hthis _ _ hargs) (by simp)) (h.give (by simp))
  · exact h.reportGiving _ _ (by simp)

/-! ### The walk -/

mutual

/-- Reading an expression carries what its steps carry. -/
theorem expr : ∀ (e : Expr) (S : List Operand), e.All ok → Carries I S (Compile.expr e)
  | .assign (.mk a ss) v, S, ⟨_, ha, hss, hv⟩ => by
    unfold Compile.expr
    exact h.assignTo a ss (fun T => firstIndex ss T hss)
      (fun T => h.follow (atom a T ha) fun T t ht => suffixes _ _ t ss T ht hss)
        fun T => expr v T hv
  | .ternary c yes no, S, ⟨_, hc, hyes, hno⟩ => by
    unfold Compile.expr
    exact h.bind (expr c S hc) fun _ => h.bind (expr yes _ hyes) fun _ => expr no _ hno
  | .chain level first rest, S, ⟨hok, hfirst, hrest⟩ => by
    unfold Compile.expr
    refine h.bind (expr first S hfirst) fun t => h.bind (h.chainStart level t) fun c => ?_
    exact chain level _ c rest _ (by simp [Chain.operands]) (h.operator hok) hrest
  | .not line e, S, ⟨_, he⟩ => by
    unfold Compile.expr
    exact h.bind (expr e S he) fun t => h.unary _ _ _ _ t fun _ _ ho => h.logicalNot ho
  | .negate line e, S, ⟨_, he⟩ => by
    unfold Compile.expr
    refine h.bind (expr e S he) fun t => h.unary _ _ _ _ t fun _ _ ho => ?_
    exact h.unaryCode ho (by decide)
  | .literal _ l, S, hok => by
    unfold Compile.expr
    refine h.literalValue fun text hl => ?_
    subst hl
    exact h.literal hok
  | .array _ [], S, _ => by
    unfold Compile.expr
    exact h.pure _
  | .array line (e :: es), S, ⟨_, he, hes⟩ => by
    unfold Compile.expr
    refine h.bind (expr e S he) fun t => h.bind h.valueAtHand fun v => ?_
    exact elements line t [v] es _ (by simp) hes
  | .group _ e, S, ⟨_, he⟩ => by
    unfold Compile.expr
    exact expr e S he
  | .access (.mk a ss), S, ⟨_, ha, hss⟩ => by
    unfold Compile.expr
    exact h.follow (atom a S ha) fun T t ht => suffixes _ _ t ss T ht hss

/-- By induction on the operands; the value of the chain stays at hand. -/
theorem chain (level : Level) (line : Nat) (c : Chain) : ∀ (rest : List (String × Expr))
    (S : List Operand), c.value ∈ S → (∀ p ∈ rest, Applies I p.1) → Expr.AllRest ok rest →
      Carries I S (Compile.chain level line c rest)
  | [], S, _, _, _ => by
    rw [Compile.chain]
    exact h.pure _
  | (op, e) :: rest, S, hc, hops, ⟨he, hrest⟩ => by
    rw [Compile.chain]
    refine h.bind (expr e S he) fun t => ?_
    refine h.bind (h.chainStep h.converts level line hc (hops _ (.head _)) e.line t) fun c' => ?_
    exact chain level line c' rest _ (by simp [Chain.operands])
      (fun p hp => hops p (.tail _ hp)) hrest

/-- The cells that were read before stay at hand. -/
theorem elements (line : Nat) (first? : Option Ty) (cells : List Operand) : ∀ (es : List Expr)
    (S : List Operand), (∀ v ∈ cells, v ∈ S) → Expr.AllIn ok es →
      Carries I S (Compile.elements line first? cells es)
  | [], S, hcells, _ => by
    unfold Compile.elements
    -- The cells are one operand from here on.
    intro i b t b' hb hend
    obtain ⟨_, b₁, hset, hend⟩ := ends_bind.mp hend
    have hb₁ := h.weaken (List.subset_cons_self _ _)
      (h.setValue _ (.cells cells) (.head _) (h.cells hcells hb) hset)
    grind
  | e :: es, S, hcells, ⟨he, hes⟩ => by
    unfold Compile.elements
    refine h.bind (expr e S he) fun t => h.bind h.valueAtHand fun v => ?_
    split
    · exact h.bind (Carries.ofExcept _) fun _ => h.bind (Carries.ofExcept _) fun _ => h.report _ _ _
    · refine elements line first? (cells ++ [v]) es _ (fun w hw => ?_) hes
      grind

/-- The operand of an argument stays at hand while the later ones are read. -/
theorem arguments : ∀ (es : List Expr) (S : List Operand), Expr.AllIn ok es →
    Yields I S Prod.snd (Compile.arguments es)
  | [], S, _ => by
    rw [Compile.arguments]
    exact h.give (by simp)
  | e :: es, S, ⟨he, hes⟩ => by
    rw [Compile.arguments]
    refine h.bind (expr e S he) fun t => h.bind h.valueAtHand fun v => ?_
    refine h.bind (arguments es _ hes) fun p => h.give fun o ho => ?_
    grind

/-- The arguments of `new` are read twice, once to be checked. -/
theorem atom : ∀ (a : Atom) (S : List Operand), a.All ok → Yields I S targetOf (Compile.atom a)
  | .name line id, S, _ => by
    rw [Compile.atom]
    exact h.name line id
  | .this line, S, _ => by
    rw [Compile.atom]
    exact h.this line
  | .new line cls args _, S, hargs => by
    rw [Compile.atom]
    refine h.bind (h.class? cls) fun c? => ?_
    split
    · exact h.reportGiving _ _ (by simp)
    · refine h.bind (h.read _) fun ctor? =>
        h.bind (h.forget (arguments args _ hargs)) fun types => ?_
      refine h.bind (h.checkNew _ _ _ _) fun _ => h.bind (arguments args _ hargs) fun operands => ?_
      refine h.bind (h.construct _ _ fun _ ho => List.mem_append_left _ ho) fun t =>
        h.give fun o ho => ?_
      exact List.mem_append_left _ (by simpa using ho)

/-- By induction on the suffixes; the target is at hand for each of them. -/
theorem suffixes (line : Nat) (isThis : Bool) (t : Target) :
    ∀ (ss : List Suffix) (S : List Operand),
    (∀ o ∈ t.operands, o ∈ S) → Suffix.AllIn ok ss → Carries I S (Compile.suffixes line isThis t ss)
  | [], S, ht, _ => by
    rw [Compile.suffixes]
    exact h.conclude line ht
  | .call at_ args :: rest, S, ht, ⟨hargs, hrest⟩ => by
    rw [Compile.suffixes]
    refine h.bind (arguments args S hargs) fun p => ?_
    refine h.bind (h.apply at_ (fun o ho => ?_) p.1 fun _ ho =>
      List.mem_append_left _ ho) fun t' => ?_
    · exact List.mem_append_right _ (ht o ho)
    · exact suffixes line isThis t' rest _ (fun _ ho => List.mem_append_left _ ho) hrest
  | .index at_ e :: rest, S, ht, ⟨he, hrest⟩ => by
    rw [Compile.suffixes]
    refine h.bind (h.settle ht) fun t' => ?_
    split
    · refine h.bind h.valueAtHand fun base => h.bind (expr e _ he) fun index? => ?_
      refine h.bind (h.element _ _ (by simp) _) fun t'' => ?_
      exact suffixes line isThis t'' rest _ (fun _ ho => List.mem_append_left _ ho) hrest
    · refine h.bind (h.error _ _ _) fun _ => ?_
      exact suffixes line isThis failed rest _ (by simp) hrest
  | .member at_ id :: rest, S, ht, hrest => by
    rw [Compile.suffixes]
    refine h.bind (h.settle ht) fun t' => h.bind (h.member at_ isThis t' id) fun t'' => ?_
    exact suffixes line isThis t'' rest _ (fun _ ho => List.mem_append_left _ ho) hrest

/-- The first index of an assignment to an element. -/
theorem firstIndex : ∀ (ss : List Suffix) (S : List Operand), Suffix.AllIn ok ss →
    Carries I S (Compile.firstIndex ss)
  | [], S, _ => by
    rw [Compile.firstIndex]
    exact h.pure _
  | .index _ e :: _, S, ⟨he, _⟩ => by
    rw [Compile.firstIndex]
    exact expr e S he
  | .call _ _ :: rest, S, ⟨_, hrest⟩ => by
    rw [Compile.firstIndex]
    exact firstIndex rest S hrest
  | .member _ _ :: rest, S, hrest => by
    rw [Compile.firstIndex]
    exact firstIndex rest S hrest

end

end ExprWalk

end Compile

end Scriptc
