import Scriptc.Proofs.ExprWalk

/-!
# Scriptc: what reading an expression keeps

`Compile.CodeStable R` says that the elementary steps of the walk over expressions, calls and
objects apart, keep the relation `R` between states, whatever the operands are; `Compile.ExprStable
ok R` says so of the quadruples of calls and of objects too. Then reading any expression keeps `R`
(`ExprStable.expr`), and so do the parts of the reading: they are instances of the walk
(`ExprStable.walk`) with `R` from a fixed state as the property.

What holds of the quadruples of operators is asked of the expressions that they occur in: `ok` is
the condition on them.
-/

namespace Scriptc

open Build (Ends Keeps Yields)

namespace Compile

/-- The elementary steps of reading an expression, calls and objects apart, keep `R`. -/
structure CodeStable (R : Build → Build → Prop) : Prop where
  refl : ∀ b, R b b
  trans : ∀ b c d, R b c → R c d → R b d
  error : ∀ line text, Keeps R (Build.error line text)
  say : ∀ line, Keeps R (Build.say line)
  newTemp : Keeps R Emit.newTemp
  use : ∀ o, Keeps R (Emit.use o)
  release : ∀ o, Keeps R (Emit.release o)
  setValue : ∀ o, Keeps R (Emit.setValue o)
  setLastTemp : ∀ o, Keeps R (Emit.setLastTemp o)
  quad : ∀ q, q.op.isPlain = true → Keeps R (Emit.quad q)
  shortCircuit : ∀ test constant left right,
    test.isTest = true → Keeps R (Emit.shortCircuit test constant left right)
  allocGlobal : ∀ {b o b' name s size}, b.table.lookupSymbol? name = some s →
    Ty.sizeOf? s.type? = .ok size → Ends (Emit.allocate (·.allocGlobal name size)) b o b' → R b b'
  allocArray : ∀ {b o b' name s size}, b.table.lookupSymbol? name = some s →
    Ty.sizeOf? s.type? = .ok size →
    Ends (Emit.allocate (·.allocArray name Emit.arrayCapacity size)) b o b' → R b b'
  frameSlot : ∀ id name type?, Keeps R (Emit.frameSlot id name type?)
  newFrame : ∀ function, Keeps R (Emit.newFrame function)
  modifyFrame : ∀ id f, Keeps R (Emit.modifyFrame id f)
  stringLabel : ∀ literal, Keeps R (Emit.stringLabel literal)

/-- The elementary steps of reading an expression keep `R`. -/
structure ExprStable (ok : Expr → Prop) (R : Build → Build → Prop) : Prop extends CodeStable R where
  stack : ∀ q, q.op.isStack = true → Keeps R (Emit.quad q)
  newObject : ∀ cls, Keeps R (Emit.newObject cls)
  operator : ∀ {level first rest}, ok (.chain level first rest) → ∀ p ∈ rest, ∀ left right result,
    Keeps R (Emit.quad { op := .ofText p.1, arg1 := left, arg2 := right, result := result })

namespace ExprStable

variable {ok : Expr → Prop} {R : Build → Build → Prop} {α β : Type}

section
variable (h : ExprStable ok R)
include h

/-- What follows from two relations that are kept is kept too. -/
theorem imp {R' S : Build → Build → Prop} (h' : ExprStable ok R') (refl : ∀ b, S b b)
    (trans : ∀ b c d, S b c → S c d → S b d) (himp : ∀ b b', R b b' → R' b b' → S b b') :
    ExprStable ok S where
  refl := refl
  trans := trans
  error _ _ := (h.error _ _).imp (h'.error _ _) himp
  say _ := (h.say _).imp (h'.say _) himp
  newTemp := h.newTemp.imp h'.newTemp himp
  use _ := (h.use _).imp (h'.use _) himp
  release _ := (h.release _).imp (h'.release _) himp
  setValue _ := (h.setValue _).imp (h'.setValue _) himp
  setLastTemp _ := (h.setLastTemp _).imp (h'.setLastTemp _) himp
  quad _ hq := (h.quad _ hq).imp (h'.quad _ hq) himp
  stack _ hq := (h.stack _ hq).imp (h'.stack _ hq) himp
  operator hok p hp _ _ _ := (h.operator hok p hp _ _ _).imp (h'.operator hok p hp _ _ _) himp
  shortCircuit _ _ _ _ htest :=
    (h.shortCircuit _ _ _ _ htest).imp (h'.shortCircuit _ _ _ _ htest) himp
  allocGlobal hs hsize hend := himp _ _ (h.allocGlobal hs hsize hend) (h'.allocGlobal hs hsize hend)
  allocArray hs hsize hend := himp _ _ (h.allocArray hs hsize hend) (h'.allocArray hs hsize hend)
  frameSlot _ _ _ := (h.frameSlot _ _ _).imp (h'.frameSlot _ _ _) himp
  newFrame _ := (h.newFrame _).imp (h'.newFrame _) himp
  modifyFrame _ _ := (h.modifyFrame _ _).imp (h'.modifyFrame _ _) himp
  stringLabel _ := (h.stringLabel _).imp (h'.stringLabel _) himp
  newObject _ := (h.newObject _).imp (h'.newObject _) himp

/-- A weaker relation is kept too. -/
theorem mono {S : Build → Build → Prop} (refl : ∀ b, S b b)
    (trans : ∀ b c d, S b c → S c d → S b d) (himp : ∀ b b', R b b' → S b b') : ExprStable ok S :=
  h.imp h refl trans fun b b' hb _ => himp b b' hb

end

end ExprStable

/-- A relation from a fixed state, as a property of states and of no operands. -/
def Since (R : Build → Build → Prop) (start : Build) (_ : List Operand) (b : Build) : Prop :=
  R start b

namespace CodeStable

variable {R : Build → Build → Prop} {α β : Type} {S : List Operand} {out : α → List Operand}
  {m : BuildM α} (h : CodeStable R)
include h

theorem yields (hm : Keeps R m) : Yields (Since R) S out m :=
  fun _ _ _ _ hb hend => h.trans _ _ _ hb (hm hend)

theorem keeps (hm : Yields (Since R) S out m) : Keeps R m := fun b _ _ hend => hm (h.refl b) hend

theorem codeWalk : CodeWalk (Since R) where
  weaken _ hb := hb
  value hb := hb
  lastTemp hb := hb
  routineSlot _ _ hb := hb
  absent hb := hb
  cells _ hb := hb
  ofCells _ hb := hb
  undefined _ hb := hb
  keyword _ _ _ _ _ hb := hb
  stringLabel _ _ := h.yields (h.stringLabel _)
  error _ _ _ := h.yields (h.error _ _)
  say _ _ := h.yields (h.say _)
  newTemp _ := h.yields h.newTemp
  use _ _ _ := h.yields (h.use _)
  release _ _ _ := h.yields (h.release _)
  setValue _ _ _ := h.yields (h.setValue _)
  setLastTemp _ _ _ := h.yields (h.setLastTemp _)
  quad _ _ hop _ := h.yields (h.quad _ hop)
  shortCircuit _ _ _ _ _ _ _ htest := h.yields (h.shortCircuit _ _ _ _ htest)
  allocGlobal hs hsize hb hend := h.trans _ _ _ hb (h.allocGlobal hs hsize hend)
  allocArray hs hsize hb hend := h.trans _ _ _ hb (h.allocArray hs hsize hend)
  frameSlot _ _ _ _ hb hend := h.trans _ _ _ hb (h.frameSlot _ _ _ hend)
  newFrame _ _ := h.yields (h.newFrame _)
  newMethodFrame _ _ := h.yields (Keeps.bind h.trans (h.newFrame _) fun _ => h.modifyFrame _ _)
  loadThis _ := h.yields <| Keeps.bind h.trans h.newTemp fun _ =>
    Keeps.bind h.trans (h.quad _ rfl) fun _ => Keeps.bind h.trans (h.use _) fun _ =>
      Keeps.pure h.refl _

theorem pure (a : α) : Keeps R (Pure.pure a : BuildM α) := Keeps.pure h.refl a

theorem bind {f : α → BuildM β} (hm : Keeps R m) (hf : ∀ a, Keeps R (f a)) : Keeps R (m >>= f) :=
  Keeps.bind h.trans hm hf

end CodeStable

namespace ExprStable

variable {ok : Expr → Prop} {R : Build → Build → Prop} {α : Type} {S : List Operand}

section
variable (h : ExprStable ok R)
include h

theorem walk : ExprWalk ok (Since R) :=
  h.codeWalk.exprWalk (fun _ _ hop _ => h.yields (h.stack _ hop))
    (fun _ _ => h.yields (h.newObject _))
    (fun _ _ _ _ hb => hb)
    fun hok p hp _ _ _ _ _ _ _ => h.yields (h.operator hok p hp _ _ _)

/-! ### The parts of the reading -/

theorem value : Keeps R Compile.value := h.keeps (S := []) h.walk.valueAtHand

theorem logicalNot (operand : Operand) : Keeps R (Emit.logicalNot operand) :=
  h.keeps (h.walk.logicalNot (List.mem_singleton_self operand))

theorem unary (line : Nat) (sign kind : String) (wanted : Ty) (operand? : Option Ty)
    {code : Operand → BuildM Operand} (hcode : ∀ o, Keeps R (code o)) :
    Keeps R (Compile.unary line sign kind wanted operand? code) :=
  h.keeps (S := []) (h.walk.unary _ _ _ _ _ fun _ o _ => h.yields (hcode o))

theorem chainStart (level : Level) (type? : Option Ty) : Keeps R (Chain.start level type?) :=
  h.keeps (S := []) (h.walk.chainStart level type?)

theorem chainStep (level : Level) (line : Nat) (c : Chain) {op : String}
    (hop : ∀ left right result,
      Keeps R (Emit.quad { op := .ofText op, arg1 := left, arg2 := right, result := result }))
    (at_ : Nat) (right? : Option Ty) : Keeps R (c.step level line op at_ right?) :=
  h.keeps (h.walk.chainStep h.walk.converts level line (List.mem_singleton_self c.value)
    (fun _ _ _ _ _ _ _ => h.yields (hop _ _ _)) at_ right?)

theorem conclude (line : Nat) (t : Target) : Keeps R (Compile.conclude line t) :=
  h.keeps (h.walk.conclude line fun _ ho => ho)

theorem assignable? (line : Nat) (id : String) : Keeps R (Compile.assignable? line id) :=
  h.keeps (S := []) (h.walk.assignable? line id)

theorem follow {start : BuildM (Option Target)} {rest : Target → BuildM (Option Ty)}
    (hstart : Keeps R start) (hrest : ∀ t, Keeps R (rest t)) :
    Keeps R (Compile.follow start rest) :=
  h.keeps (S := []) (h.walk.follow (h.yields hstart) fun _ t _ => h.yields (hrest t))

/-- Reading an expression keeps what its steps keep. -/
theorem expr (e : Expr) (he : e.All ok) : Keeps R (Compile.expr e) := h.keeps (h.walk.expr e [] he)

theorem chain (level : Level) (line : Nat) (c : Chain) {rest : List (String × Expr)}
    (hops : ∀ p ∈ rest, ∀ left right result,
      Keeps R (Emit.quad { op := .ofText p.1, arg1 := left, arg2 := right, result := result }))
    (hrest : Expr.AllRest ok rest) : Keeps R (Compile.chain level line c rest) :=
  h.keeps (h.walk.chain level line c rest _ (List.mem_singleton_self c.value)
    (fun p hp _ _ _ _ _ _ _ => h.yields (hops p hp _ _ _)) hrest)

theorem atom (a : Atom) (ha : a.All ok) : Keeps R (Compile.atom a) := h.keeps (h.walk.atom a [] ha)

theorem suffixes (line : Nat) (isThis : Bool) (t : Target) (ss : List Suffix)
    (hss : Suffix.AllIn ok ss) : Keeps R (Compile.suffixes line isThis t ss) :=
  h.keeps (h.walk.suffixes line isThis t ss _ (fun _ ho => ho) hss)

end

end ExprStable

end Compile

end Scriptc
