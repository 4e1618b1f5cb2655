import Mathlib.Computability.Language
import Scriptc.Proofs.Walk

/-!
# Scriptc: the order of reading

`Stmt.reads` are the sequences in which the expressions of a statement may be read, each with the
type that is found for it, as a language over `Read`. It is one sequence of expressions, but for the
types and for a switch: where the subject is of the type of what could not be typed, its cases are
passed over. Such a subject need not have been reported, since a class that is called `error` is
taken for that type.

`Compile.Course` asks of a judgement on steps and languages that it holds of the elementary steps of
statements, where reading an expression is one step. Then it holds of every statement and its
sequences (`Course.statement`), by induction on statements, cases and members. What a walk carries
is such a judgement, for which the sequences do not matter: `StmtWalk.statement`, and for any part
of a program `Walk.part`.
-/

namespace Scriptc

open Build (Yields Carries ends_pure isClean)

/-! ## Sequences -/

/-- An expression that was read, and the type that was found. -/
structure Read where
  expr : Expr
  type? : Option Ty

namespace Expr

/-- The expression is read, whatever its type is. -/
def read (e : Expr) : Language Read := {rs | ∃ t?, rs = [⟨e, t?⟩]}

theorem mem_read (e : Expr) (t? : Option Ty) : [⟨e, t?⟩] ∈ e.read := ⟨t?, rfl⟩

/-- The expression is read and is of the type of what could not be typed. -/
def readFailing (e : Expr) : Language Read :=
  {rs | ∃ t?, rs = [⟨e, t?⟩] ∧ (t? == some .error) = true}

/-- The expression is read if there is one. -/
def readOf (e? : Option Expr) : Language Read := e?.elim 1 read

end Expr

def Assignment.reads : Assignment → Language Read
  | toName _ _ e => e.read
  | toMember base _ v => v.read * base.read

def LoopInit.reads : LoopInit → Language Read
  | nothing => 1
  | declare d => Expr.readOf d.init?
  | assign a => a.reads

mutual

/-- The sequences in which the expressions of a statement may be read. -/
def Stmt.reads : Stmt → Language Read
  | .declare d => Expr.readOf d.init?
  | .constant d => d.value.read
  | .assign a => a.reads
  | .function _ body | .block _ body => Stmt.readsAll body
  | .classDecl _ _ _ members => Member.fieldReads members * Member.methodReads members
  | .expr e | .print _ e => e.read
  | .ifElse _ c yes none => c.read * Stmt.readsAll yes
  | .ifElse _ c yes (some no) => c.read * (Stmt.readsAll yes * Stmt.readsAll no)
  | .whileLoop _ c body | .doWhile _ body c | .forEach _ _ c body => c.read * Stmt.readsAll body
  | .forLoop _ init c? u? body =>
    init.reads * (Expr.readOf c? * (Stmt.readsAll body * Expr.readOf u?))
  | .tryCatch _ body handler => Stmt.readsAll body * Stmt.readsAll handler
  | .switch _ subject cs none =>
    subject.readFailing + subject.read * (Case.valueReads cs * Case.bodyReads cs)
  | .switch _ subject cs (some body) =>
    subject.readFailing + subject.read *
      (Case.valueReads cs * (Case.bodyReads cs * Stmt.readsAll body))
  | .breakLoop _ | .continueLoop _ => 1
  | .returnValue _ value? => Expr.readOf value?

def Stmt.readsAll : List Stmt → Language Read
  | [] => 1
  | s :: ss => s.reads * Stmt.readsAll ss

/-- The values of all cases are read before their bodies. -/
def Case.valueReads : List Case → Language Read
  | [] => 1
  | .mk e _ :: rest => e.read * Case.valueReads rest

def Case.bodyReads : List Case → Language Read
  | [] => 1
  | .mk _ body :: rest => Stmt.readsAll body * Case.bodyReads rest

/-- The fields of a class are read before its methods. -/
def Member.fieldReads : List Member → Language Read
  | [] => 1
  | .field d :: rest => Expr.readOf d.init? * Member.fieldReads rest
  | .constant d :: rest => d.value.read * Member.fieldReads rest
  | .method _ _ :: rest => Member.fieldReads rest

def Member.methodReads : List Member → Language Read
  | [] => 1
  | .method _ body :: rest => Stmt.readsAll body * Member.methodReads rest
  | .field _ :: rest | .constant _ :: rest => Member.methodReads rest

end

namespace Compile

variable {e : Expr} {body : BuildM Unit} {cs : List Case} {α : Type}

/-! ## The parts of a switch -/

/-- The cases of a switch, each with the operand of its value and the reading of its body. -/
def caseCodes : List Operand → List Case → List (Operand × BuildM Unit)
  | _, [] => []
  | values, .mk _ body :: rest =>
    (values.headD .none, statements body) :: caseCodes values.tail rest

/-- The cases of a switch are their codes, one after the other. -/
theorem cases_eq (subject done : Operand) (values : List Operand) (cs : List Case) :
    Compile.cases subject done values cs =
      (caseCodes values cs).forM fun c => Emit.switchCase subject c.1 done c.2 := by
  induction cs generalizing values with
  | nil => rfl
  | cons c cs ih =>
    obtain ⟨e, body⟩ := c
    rw [Compile.cases, ih values.tail]
    rfl

/-- A value that a case is compared with is at hand, or none. -/
theorem caseCodes_operands {S values : List Operand} (hvalues : ∀ v ∈ values, v ∈ S) :
    ∀ c ∈ caseCodes values cs, c.1 ∈ S ∨ c.1.isFixed = true := by
  induction cs generalizing values with
  | nil => exact nofun
  | cons c cs ih =>
    obtain ⟨e, body⟩ := c
    intro c hc
    rcases List.mem_cons.mp hc with rfl | hc
    · cases values with
      | nil => exact .inr rfl
      | cons v vs => exact .inl (hvalues v (.head _))
    · exact ih (fun v hv => hvalues v (List.mem_of_mem_tail hv)) c hc

/-- What a switch does with its cases once the type of its subject is known. -/
def switchBody (t : Ty) (cs : List Case) (default? : Option (BuildM Unit)) : BuildM Unit := do
  if ← isClean then
    let v ← Compile.value
    let values ← Compile.caseValues (some t) cs
    Emit.switchCode v (Compile.caseCodes values cs) default?
  else
    Compile.caseBodies cs
    default?.getD (pure ())

/-- A switch without a default, and what follows it. -/
theorem switchBody_none (t : Ty) (cs : List Case) (k : BuildM α) :
    (switchBody t cs none >>= fun _ => k) = (do
      if ← isClean then
        let v ← value
        let values ← caseValues (some t) cs
        let done ← Emit.newLabel
        cases v done values cs
        Emit.mark done
        k
      else
        caseBodies cs
        k) := by
  unfold switchBody Emit.switchCode
  rw [bind_assoc]
  congr 1
  funext clean
  cases clean
  · simp
  · simp [cases_eq]

/-- A switch with a default, and what follows it. -/
theorem switchBody_some (t : Ty) (cs : List Case) (default_ : BuildM Unit) (k : BuildM α) :
    (switchBody t cs (some default_) >>= fun _ => k) = (do
      if ← isClean then
        let v ← value
        let values ← caseValues (some t) cs
        let done ← Emit.newLabel
        cases v done values cs
        Emit.mark (← Emit.newLabel)
        default_
        Emit.mark done
        k
      else
        caseBodies cs
        default_
        k) := by
  unfold switchBody Emit.switchCode
  rw [bind_assoc]
  congr 1
  funext clean
  cases clean
  · simp
  · simp [cases_eq]

/-! ## Judgements on steps -/

/-- The step carries whatever the steps of statements carry, and reads no expression. -/
abbrev Still {α : Type} (S : List Operand) (out : α → List Operand) (m : BuildM α) : Prop :=
  ∀ {ι : Type} {I : ι → List Operand → Build → Prop},
    StmtWalk (fun _ => False) (fun _ => False) I → Yields I S out m

/-- The bodies of cases, with the sequences of all of them. -/
inductive Bodies
    (J : ∀ {α : Type}, Language Read → List Operand → (α → List Operand) → BuildM α → Prop)
    (S : List Operand) : Language Read → List (Operand × BuildM Unit) → Prop where
  | nil : Bodies @J S 1 []
  | cons {W V : Language Read} {c : Operand × BuildM Unit} {cs : List (Operand × BuildM Unit)}
      (hc : J W S (fun _ => []) c.2) (hcs : Bodies @J S V cs) : Bodies @J S (W * V) (c :: cs)

/-- `J W S out m` is said of steps that read one of the sequences of `W`, where the operands `S` are
at hand, and give the operands `out`. It holds of the elementary steps of statements. -/
structure Course (allow : Use → Prop) (key : RoutineDecl → Prop) (found : Ty → Prop)
    (J : ∀ {α : Type}, Language Read → List Operand → (α → List Operand) → BuildM α → Prop) :
    Prop where
  null : found .null
  void : found .void
  element : ∀ {t dims}, found (.array t dims) → found t
  still : ∀ {α : Type} {S} {out : α → List Operand} {m}, Still S out m → J 1 S out m
  bind : ∀ {α β : Type} {W V S} {out : α → List Operand} {out' : β → List Operand} {m f},
    J W S out m →
    (∀ a, J V (out a ++ S) out' (f a)) → J (W * V) S out' (m >>= f)
  -- Where there are reports nothing is asked of what has been read.
  whenClean : ∀ {α : Type} {W V S} {out : α → List Operand} {m n}, J W S out m → J V S out n →
    J W S out (do if ← isClean then m else n)
  error_bind : ∀ {α : Type} {W V S} {out : α → List Operand} {m line text}, J V S out m →
    J W S out (Build.error line text >>= fun _ => m)
  read_bind : ∀ {β : Type} {W S e} {V : Option Ty → Language Read} {out : β → List Operand} {f},
    allow (.value e) →
    (∀ t?, (∀ t ∈ t?, found t) → J (V t?) S out (f t?)) → (∀ t?, ∀ rs ∈ V t?, ⟨e, t?⟩ :: rs ∈ W) →
    J W S out (Compile.expr e >>= f)
  typeOf_bind : ∀ {β : Type} {W S text} {out : β → List Operand} {f},
    (∀ t?, (∀ t ∈ t?, found t) → J W S out (f t?)) → J W S out (typeOf text >>= f)
  declare_bind : ∀ {β : Type} {W V S line s} {out : β → List Operand} {f}, s.asClass? = none →
    (∀ t ∈ s.type?, found t) → (∀ id, J W S out (f (id, true))) →
    (∀ id, J V S out (f (id, false))) →
    J W S out (Compile.declare line s >>= f)
  declareClass_bind : ∀ {β : Type} {W V S line name parent?} {out : β → List Operand} {f},
    (∀ id, J W S out (f (id, true))) → (∀ id, J V S out (f (id, false))) →
    J W S out (Compile.declareClass line name parent? >>= f)
  assignName : ∀ {S line x e}, allow (.assign x e) →
    J e.read S (fun _ => []) (Compile.assignName line x e)
  setFunction : ∀ {S name ss}, key { name := name, body := ss } →
    J 1 S (fun _ => []) (Emit.setFunction name)
  scope : ∀ {W S kind body}, J W S (fun _ => []) body →
    J W S (fun _ => []) (Compile.inScope kind body)
  loop : ∀ {W S body}, J W S (fun _ => []) body → J W S (fun _ => []) (Compile.loop body)
  classBody : ∀ {W V S id fields methods}, J W S (fun _ => []) (fields id) →
    J V S (fun _ => []) (methods id) →
    J (W * V) S (fun _ => []) (Compile.classBody id fields methods)
  ifElse : ∀ {W V S c yes no}, c ∈ S → J W S (fun _ => []) yes → J V S (fun _ => []) no →
    J (W * V) S (fun _ => []) (Emit.ifElse c yes no)
  whileLoop : ∀ {W V S c body}, J W S ([·]) c → J V S (fun _ => []) body →
    J (W * V) S (fun _ => []) (Emit.whileLoop c body)
  forLoop : ∀ {W₁ W₂ W₃ W₄ S init c update body}, J W₁ S (fun _ => []) init → J W₂ S ([·]) c →
    J W₃ S (fun _ => []) body → J W₄ S (fun _ => []) update →
    J (W₁ * (W₂ * (W₃ * W₄))) S (fun _ => []) (Emit.forLoop init c update body)
  switch : ∀ {W V S subject cases default?}, subject ∈ S →
    (∀ c ∈ cases, c.1 ∈ S ∨ c.1.isFixed = true) →
    Bodies @J S W cases → J V S (fun _ => []) (default?.getD (pure ())) →
    J (W * V) S (fun _ => []) (Emit.switchCode subject cases default?)
  function : ∀ {W S name ps result? ss}, key { name := name, body := ss } →
    J W S (fun _ => []) (Compile.block (Compile.statements ss)) →
    J W S (fun _ => []) (Emit.function name ps result? (Compile.block (Compile.statements ss)))
  method : ∀ {W S cls name ps result? ss}, key { cls? := some cls, name := name, body := ss } →
    J W S (fun _ => []) (Compile.block (Compile.statements ss)) →
    J W S (fun _ => []) (Emit.method cls name ps result? (Compile.block (Compile.statements ss)))

/-- What is done in the scope of a function, and behind it. -/
theorem functionBody_eq (sig : Signature) (scope : Nat) (id : SymbolId) (result? : Option Ty)
    (body : BuildM Unit) :
    functionBody sig scope id result? body = (do
      inScope "function" do
        modify fun b => { b with inFunction? := some id }
        declareParams id scope sig.params
        routineBody sig.params (fun ps => discard <| Emit.function sig.name ps result? body) body
        checkResult sig.line "función" "Función" sig.name result? (← returnsOf id)
      modify fun b => { b with inFunction? := none, frame? := none }
      tellClass (addMethod · sig.name id)) := by
  simp only [functionBody, inScope, bind_assoc]

/-- The body of a method as a sequence of steps. -/
theorem methodBody_eq (cls : String) (sig : Signature) (id : SymbolId) (result? : Option Ty)
    (check : List (Option Ty) → BuildM Unit) (body : BuildM Unit) :
    methodBody cls sig id result? check body = (do
      inScope "function" do
        modify fun b => { b with inFunction? := some id }
        declareParams id (← currentScope) sig.params
        routineBody sig.params (fun ps => discard <| Emit.method cls sig.name ps result? body) body
        check (← returnsOf id)
      modify fun b => { b with inFunction? := none }) := by
  simp only [methodBody, inScope, bind_assoc]

namespace Course

variable {α β : Type} {allow : Use → Prop} {key : RoutineDecl → Prop} {found : Ty → Prop}
  {J : ∀ {α : Type}, Language Read → List Operand → (α → List Operand) → BuildM α → Prop}
  {W V : Language Read}
  {S : List Operand} {out : α → List Operand} {out' : β → List Operand}
  {m : BuildM α} {f : α → BuildM β}
  (h : Course allow key found @J)
include h

/-! ### Sequences -/

theorem pure (a : α) : J 1 S (fun _ => []) (Pure.pure a : BuildM α) := h.still fun hw => hw.pure a

omit h in
theorem only (hm : J (W * 1) S out m) : J W S out m := by
  rwa [mul_one] at hm

/-- A step that reads nothing, and then one that does. -/
theorem first_bind (hm : J 1 S out m) (hf : ∀ a, J W (out a ++ S) out' (f a)) :
    J W S out' (m >>= f) := by
  have hwhole := h.bind hm hf
  rwa [one_mul] at hwhole

/-- Any walk carries a step that reads nothing. -/
theorem still_bind (hm : Still S out m) (hf : ∀ a, J W (out a ++ S) out' (f a)) :
    J W S out' (m >>= f) :=
  h.first_bind (h.still hm) hf

theorem bind_still (hm : J W S out m)
    (hf : ∀ {ι : Type} {I : ι → List Operand → Build → Prop},
      StmtWalk (fun _ => False) (fun _ => False) I →
      ∀ a, Yields I (out a ++ S) out' (f a)) : J W S out' (m >>= f) :=
  only (h.bind hm fun a => h.still fun hw => hf hw a)

/-- What a step has given may be forgotten. -/
theorem then_pure (hm : J W S out m) (b : β) : J W S (fun _ => []) (m >>= fun _ => Pure.pure b) :=
  h.bind_still hm fun hw _ => hw.pure b

theorem discard (hm : J W S out m) : J W S (fun _ => []) (discard m) := by
  show J W S _ ((fun _ => ()) <$> m)
  rw [map_eq_pure_bind]
  exact h.then_pure hm ()

theorem get_bind {f : Build → BuildM β} (hf : ∀ b, J W S out' (f b)) : J W S out' (get >>= f) :=
  h.still_bind (fun _ => Carries.get) hf

theorem error (line : Option Nat) (text : String) :
    J W S (fun _ => []) (Build.error line text) := by
  rw [← bind_pure_unit (x := Build.error line text)]
  exact h.error_bind (h.pure ())

/-! ### Expressions -/

/-- An expression is read, and the rest is read in the state behind it. -/
theorem value_bind {f : Option Ty → BuildM β} (he : allow (.value e))
    (hf : ∀ t?, (∀ t ∈ t?, found t) → J W S out' (f t?)) :
    J (e.read * W) S out' (Compile.expr e >>= f) :=
  h.read_bind (V := fun _ => W) he hf fun t? _ hrs => Language.append_mem_mul (e.mem_read t?) hrs

theorem value (he : allow (.value e)) : J e.read S (fun _ => []) (Compile.expr e) := by
  have hread := h.value_bind (S := S) he fun t? _ => h.pure t?
  rwa [bind_pure, mul_one] at hread

/-- So is the first value of a variable. -/
theorem direct_bind {f : Option Ty → BuildM β} (he : allow (.value e))
    (hf : ∀ t?, (∀ t ∈ t?, found t) → J W S out' (f t?)) :
    J (e.read * W) S out' (Compile.direct e >>= f) := by
  unfold Compile.direct
  simp only [bind_assoc, pure_bind]
  refine h.still_bind (fun hw => hw.setDirect _ true) fun _ => h.value_bind he fun t? ht => ?_
  exact h.still_bind (fun hw => hw.setDirect _ false) fun _ => hf t? ht

/-- A condition is read once, whatever its type. -/
theorem condition (what : String) (he : allow (.value e)) :
    J e.read S ([·]) (Compile.condition what e) := by
  unfold Compile.condition
  refine only (h.value_bind he fun t _ => h.still fun hw => ?_)
  exact hw.bind (hw.remarks (.checkCondition ..)) fun _ => hw.toCodeWalk.valueAtHand

/-! ### Declarations of variables -/

/-- A type that is written is found among the classes. -/
theorem typeOf?_bind {text? : Option String} {f : Option Ty → BuildM β}
    (hf : ∀ t?, (∀ t ∈ t?, found t) → J W S out' (f t?)) :
    J W S out' (Compile.typeOf? text? >>= f) := by
  cases text? with
  | none => exact hf none nofun
  | some text => exact h.typeOf_bind hf

/-- A declaration that goes on in the same way if the name is taken. -/
theorem declare_then {line : Nat} {s : Symbol} {f : SymbolId × Bool → BuildM β}
    (hclass : s.asClass? = none) (hs : ∀ t ∈ s.type?, found t) (hf : ∀ p, J W S out' (f p)) :
    J W S out' (Compile.declare line s >>= f) :=
  h.declare_bind hclass hs (fun id => hf (id, true)) fun id => hf (id, false)

theorem initialType_bind {init? : Option Expr} {f : Option Ty → BuildM β}
    (hinit : ∀ e ∈ init?, allow (.value e)) (hf : ∀ t?, (∀ t ∈ t?, found t) → J 1 S out' (f t?)) :
    J (Expr.readOf init?) S out' (Compile.initialType init? >>= f) := by
  cases init? with
  | none => exact hf none nofun
  | some e => exact only (h.direct_bind (hinit e rfl) hf)

/-- A variable that is declared may become an attribute of the class at hand. -/
theorem addVariable (d : VarDecl) {v : Variable} (hv : ∀ t ∈ v.type?, found t) :
    J 1 S (fun _ => []) (Compile.addVariable d v) := by
  unfold Compile.addVariable
  refine h.still_bind (fun hw => hw.currentScope) fun scope => h.declare_then rfl hv fun p =>
    h.still fun hw => ?_
  have hrest := hw.bind (S := S) (hw.tellClass fun c => hw.addAttribute c d.name p.1)
    fun _ => hw.endExpression _
  refine hw.bind hw.toCodeWalk.isClean fun clean => ?_
  dsimp only
  split
  · exact hw.bind (hw.initialise d.name) fun _ => hrest
  · exact hrest

/-- The value is read before the name is declared. -/
theorem variableDecl (d : VarDecl) (hd : ∀ u ∈ d.uses, allow u) :
    J (Expr.readOf d.init?) S (fun _ => []) (Compile.variableDecl d) := by
  have hinit : ∀ e ∈ d.init?, allow (.value e) :=
    fun e he => hd _ (List.mem_map_of_mem (Option.mem_toList.mpr he))
  unfold Compile.variableDecl
  refine h.still_bind (fun hw => hw.currentSymbol? d.name) fun s? => ?_
  split
  · exact h.error _ _
  · refine h.typeOf?_bind fun declared? hdeclared => h.initialType_bind hinit fun init? hread => ?_
    refine h.still_bind (fun hw => hw.remarks (.checkInitial ..)) fun _ =>
      h.addVariable d fun t ht => ?_
    -- The variable has the type that is declared, else that of its first value.
    cases ht
    cases declared? with
    | some t => exact hdeclared t rfl
    | none =>
      cases init? with
      | some t => exact hread t rfl
      | none => exact h.null

theorem constantDecl (d : ConstDecl) (hd : allow (.value d.value)) :
    J d.value.read S (fun _ => []) (Compile.constantDecl d) := by
  unfold Compile.constantDecl
  refine h.still_bind (fun hw => hw.currentSymbol? d.name) fun s? => ?_
  split
  · exact h.error _ _
  · refine h.typeOf?_bind fun declared? hdeclared => only (h.direct_bind hd fun value? hread => ?_)
    dsimp only
    split
    · unfold Compile.addConstant
      refine h.still_bind (fun hw => hw.currentScope) fun scope =>
        h.declare_then rfl (fun t ht => ?_) fun _ =>
        h.still fun hw => hw.bind (hw.toCodeWalk.storeValue d.name) fun _ => hw.endExpression _
      exact (Option.or_eq_some_iff.mp ht).elim (hdeclared t) fun ht => hread t ht.2
    · exact h.still_bind (fun _ => Carries.ofExcept _) fun _ => h.error _ _

/-! ### Assignments -/

/-- The value of an assignment to a member is read first. -/
theorem assignMember {base v : Expr} (member : String) (hbase : allow (.value base))
    (hv : allow (.value v)) :
    J (v.read * base.read) S (fun _ => []) (Compile.assignMember base member v) := by
  unfold Compile.assignMember
  refine h.value_bind hv fun value? _ =>
    h.still_bind (fun hw => hw.toCodeWalk.valueAtHand) fun operand => ?_
  refine h.still_bind (fun hw => hw.use _ operand (by simp)) fun _ =>
    only (h.value_bind hbase fun base? _ => ?_)
  refine h.still fun hw => ?_
  have hcode := hw.toCodeWalk
  refine hw.bind hcode.valueAtHand fun object => ?_
  split
  · exact hw.pure _
  · cases base? with
    | none =>
      dsimp only
      rw [pure_bind]
      exact hcode.report _ _ _
    | some t =>
      refine hw.bind (hcode.class? t.name) fun cls? => ?_
      dsimp only
      split
      · exact hcode.report _ _ _
      · refine hw.bind Carries.get fun b => ?_
        split
        · exact hcode.report _ _ _
        · split
          · exact hcode.report _ _ _
          · refine hw.bind (hcode.remarks (.assignable ..)) fun allowed => ?_
            split
            · refine hw.bind (Carries.ofExcept _) fun _ => ?_
              exact hw.bind (Carries.ofExcept _) fun _ => hcode.report _ _ _
            · refine hcode.whenClean ?_ (hw.pure _)
              exact hw.bind (hcode.storeMember (by simp) _ _ (by simp)) fun _ => hw.pure _

theorem assignment (a : Assignment) (ha : ∀ u ∈ a.uses, allow u) :
    J a.reads S (fun _ => []) (Compile.assignment a) := by
  cases a with
  | toName line x e => exact h.assignName (ha _ (.head _))
  | toMember base member v =>
    exact h.assignMember member (ha _ (.head _)) (ha _ (.tail _ (.head _)))

/-! ### Functions -/

/-- By induction on the parameters; nothing is read for them. -/
theorem declareParams (id : SymbolId) (scope : Nat) (ps : List Param) :
    J 1 S (fun _ => []) (Compile.declareParams id scope ps) := by
  induction ps with
  | nil => exact h.pure ()
  | cons p ps ih =>
    unfold Compile.declareParams
    refine h.typeOf?_bind fun t? ht =>
      h.still_bind (fun hw => hw.modifyFunction _ _ _ fun _ => rfl) fun _ => ?_
    refine h.declare_then rfl (fun t htype => ?_) fun _ => ih
    cases htype
    cases t? with
    | some t => exact ht t rfl
    | none => exact h.void

/-- The body is read whether or not its code is written. -/
theorem routineBody (ps : List Param) {emit : List (String × Option Ty) → BuildM Unit}
    (hemit : ∀ ps, J W S (fun _ => []) (emit ps)) (hbody : J W S (fun _ => []) body) :
    J W S (fun _ => []) (Compile.routineBody ps emit body) :=
  h.whenClean (h.still_bind (fun hw => hw.frameParams ps) hemit) hbody

theorem resultType_bind {result? : Option String} {f : Option Ty → BuildM β}
    (hf : ∀ t?, (∀ t ∈ t?, found t) → J W S out' (f t?)) :
    J W S out' (Compile.resultType result? >>= f) := by
  cases result? with
  | none =>
    refine hf (some .void) fun t ht => ?_
    cases ht
    exact h.void
  | some text => exact h.typeOf_bind hf

section
variable {ss : List Stmt} (hbody : J W S (fun _ => []) (Compile.block (Compile.statements ss)))
include hbody

theorem functionBody (sig : Signature) (scope : Nat) (id : SymbolId) (result? : Option Ty)
    (hkey : key { name := sig.name, body := ss }) :
    J W S (fun _ => [])
      (Compile.functionBody sig scope id result? (Compile.block (Compile.statements ss))) := by
  rw [functionBody_eq]
  refine h.bind_still (h.scope ?_) fun hw _ => hw.bind (hw.leaveFunction _) fun _ =>
    hw.tellClass fun c =>
    hw.addMethod _ _ _
  refine h.still_bind (fun hw => hw.setInFunction _ _) fun _ => ?_
  refine h.first_bind (h.declareParams _ _ _) fun _ => ?_
  refine h.bind_still
    (h.routineBody _ (fun ps => h.discard (h.function hkey hbody)) hbody) fun hw _ => ?_
  exact hw.bind (hw.returnsOf _) fun _ => hw.remarks (.checkResult ..)

/-- A function whose name is taken is not read. -/
theorem functionDecl (sig : Signature) (hkey : key { name := sig.name, body := ss }) :
    J W S (fun _ => []) (Compile.functionDecl sig (Compile.block (Compile.statements ss))) := by
  unfold Compile.functionDecl
  refine h.first_bind (h.setFunction hkey) fun _ => h.resultType_bind fun result? hresult => ?_
  split
  · exact h.error _ _
  · refine h.still_bind (fun hw => hw.currentSymbol? _) fun s? => ?_
    split
    · exact h.error _ _
    · refine h.still_bind (fun hw => hw.currentScope) fun scope => ?_
      exact h.declare_bind rfl hresult
        (fun id => h.functionBody hbody sig scope id result? hkey) fun _ => h.pure ()

/-! ### Classes -/

theorem methodBody (cls : String) (sig : Signature) (id : SymbolId) (result? : Option Ty)
    {check : List (Option Ty) → BuildM Unit}
    (hkey : key { cls? := some cls, name := sig.name, body := ss })
    (hcheck : ∀ ts, Check.Remarks (check ts)) :
    J W S (fun _ => [])
      (Compile.methodBody cls sig id result? check (Compile.block (Compile.statements ss))) := by
  rw [methodBody_eq]
  refine h.bind_still (h.scope ?_) fun hw _ => hw.setInFunction _ _
  refine h.still_bind (fun hw => hw.setInFunction _ _) fun _ =>
    h.still_bind (fun hw => hw.currentScope) fun scope => ?_
  refine h.first_bind (h.declareParams _ _ _) fun _ => ?_
  refine h.bind_still
    (h.routineBody _ (fun ps => h.discard (h.method hkey hbody)) hbody) fun hw _ => ?_
  exact hw.bind (hw.returnsOf _) fun ts => hw.remarks (hcheck ts)

theorem constructorDecl (cls : String) (clsId : SymbolId) (sig : Signature)
    (hkey : key { cls? := some cls, name := sig.name, body := ss }) :
    J W S (fun _ => [])
      (Compile.constructorDecl cls clsId sig (Compile.block (Compile.statements ss))) := by
  have hreport {p : Prop} [Decidable p] {m : BuildM Unit} {line text} (hm : J W S (fun _ => []) m) :
      J W S (fun _ => []) (if p then Build.error line text >>= fun _ => m else m) := by
    split
    · exact h.error_bind hm
    · exact hm
  refine hreport (h.get_bind fun b => h.still_bind (fun hw => hw.addMethod _ _ _) fun _ => ?_)
  refine h.still_bind (fun hw => hw.currentScope) fun scope =>
    h.declare_then rfl (fun t ht => ?_) fun _ => ?_
  · cases ht
    exact h.void
  exact h.methodBody hbody _ _ _ _ hkey fun _ => .checkVoid ..

theorem methodDecl (cls : String) (clsId : SymbolId) (sig : Signature)
    (hkey : key { cls? := some cls, name := sig.name, body := ss }) :
    J W S (fun _ => [])
      (Compile.methodDecl cls clsId sig (Compile.block (Compile.statements ss))) := by
  unfold Compile.methodDecl
  refine h.resultType_bind fun result? hresult => ?_
  split
  · exact h.error _ _
  · refine h.get_bind fun b => h.still_bind (fun hw => hw.addMethod _ _ _) fun _ => ?_
    refine h.still_bind (fun hw => hw.currentScope) fun scope => ?_
    exact h.declare_bind rfl hresult (fun _ => h.methodBody hbody _ _ _ _ hkey fun _ =>
      .checkResult ..) fun _ => h.pure ()

end

/-- Nor is such a class. -/
theorem classDecl (line : Nat) (name : String) (parent? : Option String)
    {fields methods : SymbolId → BuildM Unit} (hfields : ∀ id, J W S (fun _ => []) (fields id))
    (hmethods : ∀ id, J V S (fun _ => []) (methods id)) :
    J (W * V) S (fun _ => []) (Compile.classDecl line name parent? fields methods) := by
  unfold Compile.classDecl
  refine h.still_bind (fun hw => hw.currentSymbol? _) fun s? => ?_
  split
  · exact h.error _ _
  · have hclass : J (W * V) S (fun _ => []) (Compile.declareClass line name parent? >>= fun p =>
        if p.2 = true then Compile.classBody p.1 fields methods else Pure.pure ()) :=
      h.declareClass_bind (fun id => h.classBody (hfields id) (hmethods id)) fun _ => h.pure ()
    simp only [Compile.declareClass, bind_assoc] at hclass
    exact hclass

/-! ### Statements -/

theorem reachable (hbody : J W S (fun _ => []) body) :
    J W S (fun _ => []) (Compile.reachable body) := by
  unfold Compile.reachable
  refine h.get_bind fun b => h.still_bind (fun hw => hw.setUnreachable _ _) fun _ => ?_
  exact h.bind_still hbody fun hw _ => hw.setUnreachable _ _

theorem block (hbody : J W S (fun _ => []) body) : J W S (fun _ => []) (Compile.block body) := by
  unfold Compile.block
  refine h.get_bind fun b => ?_
  split
  · exact h.reachable hbody
  · exact h.scope (h.reachable hbody)

/-- `return` reads its value, if it has one. -/
theorem returnedType_bind {value? : Option Expr} {f : Option Ty → BuildM β}
    (hvalue : ∀ e ∈ value?, allow (.value e)) (hf : ∀ t?, J 1 S out' (f t?)) :
    J (Expr.readOf value?) S out' (Compile.returnedType value? >>= f) := by
  cases value? with
  | none => exact hf (some .void)
  | some e => exact only (h.value_bind (hvalue e rfl) fun t? _ => hf t?)

theorem returnStmt (line : Nat) {value? : Option Expr} (hvalue : ∀ e ∈ value?, allow (.value e)) :
    J (Expr.readOf value?) S (fun _ => []) (Compile.returnStmt line value?) := by
  unfold Compile.returnStmt
  refine h.still_bind (fun hw => hw.unreachable _ _) fun _ => h.get_bind fun b => ?_
  split
  · exact h.error_bind (h.pure none)
  · refine h.returnedType_bind hvalue fun t => h.still fun hw =>
      hw.bind (hw.remarks (.checkReturned ..)) fun _ => ?_
    have hcut (T) := hw.bind (hw.setUnreachable T true) fun _ => hw.pure t
    refine hw.bind (hw.modifyFunction _ _ _ fun _ => rfl) fun _ =>
      hw.toCodeWalk.whenClean ?_ (hcut _)
    refine hw.bind hw.toCodeWalk.valueAtHand fun v => hw.bind (hw.returnValue ?_) fun _ => hcut _
    split
    · exact .inl (by simp)
    · exact .inr rfl

theorem printStmt (line : Nat) (he : allow (.value e)) :
    J e.read S (fun _ => []) (Compile.printStmt line e) := by
  unfold Compile.printStmt
  refine only (h.value_bind he fun t _ => h.still fun hw => ?_)
  have hcode := hw.toCodeWalk
  split
  · exact hw.pure _
  · split
    · exact hw.bind (Carries.ofExcept _) fun _ => hcode.report _ _ _
    · exact hcode.whenClean (hw.bind hcode.valueAtHand fun v => hw.print (by simp) t) (hw.pure _)

theorem loopInit (init : LoopInit) (hinit : ∀ u ∈ init.uses, allow u) :
    J init.reads S (fun _ => []) (Compile.loopInit init) := by
  cases init with
  | nothing => exact h.pure ()
  | declare d => exact h.variableDecl d hinit
  | assign a => exact h.discard (h.assignment a hinit)

theorem loopCondition (c? : Option Expr) (hc : ∀ e ∈ c?, allow (.value e)) :
    J (Expr.readOf c?) S ([·]) (Compile.loopCondition c?) := by
  cases c? with
  | none =>
    refine h.still fun hw i b o b' hb hend => ?_
    obtain ⟨rfl, rfl⟩ := ends_pure.mp hend
    exact hw.absent hb
  | some e => exact h.condition _ (hc e rfl)

theorem loopUpdate (u? : Option Expr) (hu : ∀ e ∈ u?, allow (.value e)) :
    J (Expr.readOf u?) S (fun _ => []) (Compile.loopUpdate u?) := by
  cases u? with
  | none => exact h.pure ()
  | some e => exact h.discard (h.value (hu e rfl))

theorem loopVariable (line at_ : Nat) (name : String) {items? : Option Ty}
    (hitems : ∀ t ∈ items?, found t) :
    J 1 S (fun _ => []) (Compile.loopVariable line at_ name items?) := by
  unfold Compile.loopVariable
  split
  · refine h.still_bind (fun hw => hw.currentScope) fun scope => ?_
    rename_i t dims
    have hdeclare : J 1 S (fun _ => [])
      (Compile.declare line ⟨name, scope, .variable { type? := some t }⟩) := by
      rw [← bind_pure (Compile.declare _ _)]
      exact h.declare_then rfl (fun u hu => by cases hu; exact h.element (hitems _ rfl)) h.pure
    exact h.discard hdeclare
  · split
    · exact h.still_bind (fun _ => Carries.ofExcept _) fun _ => h.error _ _
    · exact h.pure _

/-- A subject of which nothing is known is reported, unless it is of the type of what could not be
typed. -/
theorem subject_bind {f : Option Ty → BuildM β} (he : allow (.value e))
    (hnone : J 1 S out' (f none)) (hsome : ∀ t, J W S out' (f (some t))) :
    J (e.readFailing + e.read * W) S out' (Compile.subjectType e >>= f) := by
  unfold Compile.subjectType
  rw [bind_assoc]
  refine h.read_bind (V := fun t? => if t? == some .error then 1 else W) he (fun t? _ => ?_)
    fun t? rs hrs => ?_
  · split
    · rwa [pure_bind]
    · split
      · rw [bind_assoc]
        refine h.still_bind (fun _ => Carries.ofExcept _) fun _ => ?_
        rw [bind_assoc]
        exact h.error_bind hnone
      · cases t? with
        | none => rename_i hknown; exact absurd rfl hknown
        | some t => exact hsome t
  · rw [Language.mem_add]
    split at hrs
    · rename_i hfailing
      rw [Language.mem_one] at hrs
      exact .inl ⟨t?, by rw [hrs], hfailing⟩
    · exact .inr (Language.append_mem_mul (e.mem_read t?) hrs)

/-- A case of another type than the subject is reported, and its value is read all the same. -/
theorem caseValue (subject? : Option Ty) (he : allow (.value e)) :
    J e.read S ([·]) (Compile.caseValue subject? e) := by
  unfold Compile.caseValue
  refine only (h.value_bind he fun t _ => h.still fun hw => ?_)
  dsimp only
  split
  · refine hw.bind (Carries.ofExcept _) fun _ => hw.bind (Carries.ofExcept _) fun _ => ?_
    exact hw.bind (hw.error _ _ _) fun _ => hw.toCodeWalk.valueAtHand
  · exact hw.toCodeWalk.valueAtHand

/-- The values of all cases are read before the first body. -/
theorem caseValues (subject? : Option Ty) (hcs : ∀ u ∈ Case.usesAll cs, allow u) :
    J (Case.valueReads cs) S id (Compile.caseValues subject? cs) := by
  unfold Compile.caseValues
  induction cs generalizing S with
  | nil =>
    rw [List.mapM_nil, Case.valueReads]
    exact h.still fun hw => hw.toCodeWalk.give (by simp)
  | cons c cs ih =>
    obtain ⟨e, body⟩ := c
    rw [List.mapM_cons, Case.valueReads]
    obtain ⟨he, hcs⟩ := List.forall_mem_append.mp hcs
    refine h.bind (h.caseValue subject? (he _ (.head _))) fun v => ?_
    refine h.bind_still (ih hcs) fun hw vs => hw.toCodeWalk.give fun o ho => ?_
    grind

/-- The bodies of the cases are read in any case. -/
theorem caseBodies {values : List Operand} (hcs : ∀ u ∈ Case.usesAll cs, allow u)
    (hbodies : Bodies @J S W (caseCodes values cs)) :
    ∃ V, J V S (fun _ => []) (Compile.caseBodies cs) := by
  induction cs generalizing values W with
  | nil => exact ⟨1, h.pure ()⟩
  | cons c cs ih =>
    obtain ⟨e, body⟩ := c
    obtain ⟨he, hcs⟩ := List.forall_mem_append.mp hcs
    rw [Compile.caseBodies]
    cases hbodies with
    | cons hbody hrest =>
      obtain ⟨V, hV⟩ := ih hcs hrest
      exact ⟨_, h.bind (h.discard (h.value (he _ (.head _)))) fun _ => h.bind hbody fun _ => hV⟩

/-- The default comes behind the cases. -/
theorem switchBody (t : Ty) (default? : Option (BuildM Unit)) (hcs : ∀ u ∈ Case.usesAll cs, allow u)
    (hbodies : ∀ values T, Bodies @J T W (caseCodes values cs))
    (hdefault : ∀ T, J V T (fun _ => []) (default?.getD (Pure.pure ()))) :
    J (Case.valueReads cs * (W * V)) S (fun _ => []) (Compile.switchBody t cs default?) := by
  obtain ⟨V', hother⟩ := h.caseBodies hcs (hbodies [] S)
  refine h.whenClean (h.still_bind (fun hw => hw.toCodeWalk.valueAtHand) fun v => ?_)
    (h.bind hother fun _ => hdefault _)
  refine h.bind (h.caseValues _ hcs) fun values =>
    h.switch (by simp) ?_ (hbodies values _) (hdefault _)
  exact caseCodes_operands fun v hv => List.mem_append_left _ hv

-- A theorem of the block may use the hypothesis only through the others.
set_option linter.unusedSectionVars false in
mutual

/-- What holds of the steps of a statement holds of the statement. -/
theorem statement : ∀ (s : Stmt) (S : List Operand), (∀ u ∈ s.uses, allow u) →
    (∀ k ∈ s.decls, key k) → J s.reads S (fun _ => []) (Compile.statement s)
  | .declare d, S, hs, _ => by
    rw [Compile.statement, Stmt.reads]
    exact h.then_pure (h.variableDecl d hs) _
  | .constant d, S, hs, _ => by
    rw [Compile.statement, Stmt.reads]
    exact h.then_pure (h.constantDecl d (hs _ (.head _))) _
  | .assign a, S, hs, _ => by
    rw [Compile.statement, Stmt.reads]
    exact h.assignment a hs
  | .function sig body, S, hs, hkeys => by
    rw [Compile.statement, Stmt.reads]
    obtain ⟨hkey, hkeys⟩ := List.forall_mem_cons.mp hkeys
    exact h.then_pure (h.functionDecl (h.block (statements body S hs hkeys)) sig hkey) _
  | .classDecl line name parent? members, S, hs, hkeys => by
    rw [Compile.statement, Stmt.reads]
    exact h.then_pure (h.classDecl line name parent? (fun id => fields id members S hs)
      fun id => methods name id members S hs hkeys) _
  | .expr e, S, hs, _ => by
    rw [Compile.statement, Stmt.reads]
    exact h.then_pure (h.discard (h.value (hs _ (.head _)))) _
  | .print line e, S, hs, _ => by
    rw [Compile.statement, Stmt.reads]
    exact h.then_pure (h.printStmt line (hs _ (.head _))) _
  | .block _ body, S, hs, hkeys => by
    rw [Compile.statement, Stmt.reads]
    exact h.then_pure (h.block (statements body S hs hkeys)) _
  | .ifElse _ c yes none, S, hs, hkeys => by
    rw [Compile.statement, Stmt.reads]
    obtain ⟨hc, hs⟩ := List.forall_mem_cons.mp hs
    have hyes (T) := h.block (statements yes T hs hkeys)
    refine h.bind (h.condition _ hc) fun v => h.whenClean ?_ (h.then_pure (hyes _) _)
    exact h.then_pure (h.discard (only (h.ifElse (by simp) (hyes _) (h.pure ())))) _
  | .ifElse _ c yes (some no), S, hs, hkeys => by
    rw [Compile.statement, Stmt.reads]
    obtain ⟨hc, hs⟩ := List.forall_mem_cons.mp hs
    obtain ⟨hs, hs'⟩ := List.forall_mem_append.mp hs
    obtain ⟨hkeys, hkeys'⟩ := List.forall_mem_append.mp hkeys
    have hyes (T) := h.block (statements yes T hs hkeys)
    have hno (T) := h.block (statements no T hs' hkeys')
    refine h.bind (h.condition _ hc) fun v =>
      h.whenClean ?_ (h.bind (hyes _) fun _ => h.then_pure (hno _) _)
    exact h.then_pure (h.discard (h.ifElse (by simp) (hyes _) (hno _))) _
  | .whileLoop _ c body, S, hs, hkeys => by
    rw [Compile.statement, Stmt.reads]
    obtain ⟨hc, hs⟩ := List.forall_mem_cons.mp hs
    have hbody (T) := h.block (statements body T hs hkeys)
    have hc := h.condition (S := S) "while" hc
    have hother := h.bind (h.discard hc) fun _ => hbody _
    exact h.then_pure (h.loop (h.whenClean (h.discard (h.whileLoop hc (hbody _))) hother)) _
  | .doWhile _ body c, S, hs, hkeys => by
    rw [Compile.statement, Stmt.reads]
    obtain ⟨hc, hs⟩ := List.forall_mem_cons.mp hs
    exact h.bind (h.discard (h.condition (S := S) "do-while" hc)) fun _ =>
      h.then_pure (h.loop (h.block (statements body _ hs hkeys))) _
  | .forLoop _ init c? u? body, S, hs, hkeys => by
    rw [Compile.statement, Stmt.reads]
    obtain ⟨hs, hss⟩ := List.forall_mem_append.mp hs
    have hinit := h.loopInit (S := S) init fun u hu => hs u (by simp [hu])
    have hc := h.loopCondition (S := S) c? fun e he => hs _ (by simp [Option.mem_def.mp he])
    have hu (T) := h.loopUpdate (S := T) u? fun e he => hs _ (by simp [Option.mem_def.mp he])
    have hbody (T) := h.block (statements body T hss hkeys)
    have hother := h.bind hinit fun _ => h.bind (h.discard hc) fun _ =>
      h.bind (hu _) fun _ => hbody _
    exact h.then_pure (h.scope
      (h.loop (h.whenClean (h.discard (h.forLoop hinit hc (hbody _) (hu _))) hother))) _
  | .forEach line name items body, S, hs, hkeys => by
    rw [Compile.statement, Stmt.reads]
    obtain ⟨hitems, hs⟩ := List.forall_mem_cons.mp hs
    refine h.then_pure (h.loop (h.scope (h.value_bind hitems fun t? ht => ?_))) _
    exact h.first_bind (h.loopVariable _ _ _ ht) fun _ => h.block (statements body _ hs hkeys)
  | .tryCatch _ body handler, S, hs, hkeys => by
    rw [Compile.statement, Stmt.reads]
    obtain ⟨hs, hs'⟩ := List.forall_mem_append.mp hs
    obtain ⟨hkeys, hkeys'⟩ := List.forall_mem_append.mp hkeys
    exact h.bind (h.block (statements body S hs hkeys)) fun _ =>
      h.then_pure (h.block (statements handler _ hs' hkeys')) _
  | .switch _ subject cs none, S, hs, hkeys => by
    rw [Compile.statement, Stmt.reads]
    obtain ⟨hsubject, hcs⟩ := List.forall_mem_cons.mp hs
    refine h.subject_bind hsubject (h.pure _) fun t => ?_
    have hbody := h.switchBody (S := S) t none hcs (fun values T => cases values cs T hcs hkeys)
      fun T => h.pure ()
    have hwhole := h.then_pure hbody (none : Option Ty)
    rw [switchBody_none, mul_one] at hwhole
    exact hwhole
  | .switch _ subject cs (some body), S, hs, hkeys => by
    rw [Compile.statement, Stmt.reads]
    obtain ⟨hsubject, hs⟩ := List.forall_mem_cons.mp hs
    obtain ⟨hcs, hs⟩ := List.forall_mem_append.mp hs
    obtain ⟨hcases, hkeys⟩ := List.forall_mem_append.mp hkeys
    refine h.subject_bind hsubject (h.pure _) fun t => ?_
    have hbody := h.switchBody (S := S) t (some (Compile.statements body)) hcs
      (fun values T => cases values cs T hcs hcases) fun T => statements body T hs hkeys
    have hwhole := h.then_pure hbody (none : Option Ty)
    rw [switchBody_some] at hwhole
    exact hwhole
  | .breakLoop line, S, _, _ => by
    rw [Compile.statement, Stmt.reads]
    exact h.then_pure (h.still fun hw => hw.loopJump line "break" hw.breakLoop) _
  | .continueLoop line, S, _, _ => by
    rw [Compile.statement, Stmt.reads]
    exact h.then_pure (h.still fun hw => hw.loopJump line "continue" hw.continueLoop) _
  | .returnValue line value?, S, hs, _ => by
    rw [Compile.statement, Stmt.reads]
    exact h.returnStmt line fun e he => hs _ (by simpa [Stmt.uses] using he)

/-- By induction on the sequence; the lemmas above are the cases of a statement. -/
theorem statements : ∀ (ss : List Stmt) (S : List Operand), (∀ u ∈ Stmt.usesAll ss, allow u) →
    (∀ k ∈ Stmt.declsAll ss, key k) → J (Stmt.readsAll ss) S (fun _ => []) (Compile.statements ss)
  | [], S, _, _ => by
    rw [Compile.statements, Stmt.readsAll]
    exact h.pure _
  | s :: ss, S, hss, hkeys => by
    rw [Compile.statements, Stmt.readsAll]
    obtain ⟨hs, hss⟩ := List.forall_mem_append.mp hss
    obtain ⟨hkey, hkeys⟩ := List.forall_mem_append.mp hkeys
    exact h.still_bind (fun hw => hw.unreachable _ _) fun _ =>
      h.bind (statement s _ hs hkey) fun _ => statements ss _ hss hkeys

/-- By induction on the cases, each with the code of its body. -/
theorem cases :
    ∀ (values : List Operand) (cs : List Case) (S : List Operand),
      (∀ u ∈ Case.usesAll cs, allow u) →
    (∀ k ∈ Case.declsAll cs, key k) → Bodies @J S (Case.bodyReads cs) (caseCodes values cs)
  | _, [], S, _, _ => .nil
  | values, .mk e body :: rest, S, hcs, hkeys => by
    obtain ⟨hs, hcs⟩ := List.forall_mem_append.mp hcs
    obtain ⟨hkey, hkeys⟩ := List.forall_mem_append.mp hkeys
    exact .cons (statements body S (List.forall_mem_cons.mp hs).2 hkey)
      (cases values.tail rest S hcs hkeys)

/-- Methods are passed over. -/
theorem fields (cls : SymbolId) :
    ∀ (ms : List Member) (S : List Operand), (∀ u ∈ Member.usesAll ms, allow u) →
    J (Member.fieldReads ms) S (fun _ => []) (Compile.fields cls ms)
  | [], S, _ => by
    rw [Compile.fields, Member.fieldReads]
    exact h.pure _
  | .field d :: rest, S, hms => by
    rw [Compile.fields, Member.fieldReads]
    obtain ⟨hd, hms⟩ := List.forall_mem_append.mp hms
    exact h.bind (h.variableDecl d hd) fun _ =>
      h.still_bind (fun hw => hw.attributeOf cls d.name) fun _ => fields cls rest _ hms
  | .constant d :: rest, S, hms => by
    rw [Compile.fields, Member.fieldReads]
    obtain ⟨hd, hms⟩ := List.forall_mem_cons.mp hms
    exact h.bind (h.constantDecl d hd) fun _ =>
      h.still_bind (fun hw => hw.attributeOf cls d.name) fun _ => fields cls rest _ hms
  | .method _ _ :: rest, S, hms => by
    rw [Compile.fields, Member.fieldReads]
    exact fields cls rest S (List.forall_mem_append.mp hms).2

/-- Fields are passed over. -/
theorem methods (name : String) (cls : SymbolId) : ∀ (ms : List Member) (S : List Operand),
    (∀ u ∈ Member.usesAll ms, allow u) → (∀ k ∈ Member.declsAll name ms, key k) →
      J (Member.methodReads ms) S (fun _ => []) (Compile.methods name cls ms)
  | [], S, _, _ => by
    rw [Compile.methods, Member.methodReads]
    exact h.pure _
  | .method sig body :: rest, S, hms, hkeys => by
    rw [Compile.methods, Member.methodReads]
    obtain ⟨hs, hms⟩ := List.forall_mem_append.mp hms
    obtain ⟨hbody, hkeys⟩ := List.forall_mem_append.mp hkeys
    obtain ⟨hkey, hbody⟩ := List.forall_mem_cons.mp hbody
    have hbody := h.block (statements body S hs hbody)
    dsimp only
    split
    · exact h.bind (h.constructorDecl hbody name cls sig hkey) fun _ =>
        methods name cls rest _ hms hkeys
    · exact h.bind (h.methodDecl hbody name cls sig hkey) fun _ => methods name cls rest _ hms hkeys
  | .field _ :: rest, S, hms, hkeys => by
    rw [Compile.methods, Member.methodReads]
    exact methods name cls rest S (List.forall_mem_append.mp hms).2 hkeys
  | .constant _ :: rest, S, hms, hkeys => by
    rw [Compile.methods, Member.methodReads]
    exact methods name cls rest S (List.forall_mem_cons.mp hms).2 hkeys

end

end Course

/-- Bodies that are carried one by one are carried in sequence. -/
theorem Bodies.carries {ι : Type} {I : ι → List Operand → Build → Prop} {S : List Operand}
    {W : Language Read} {cs : List (Operand × BuildM Unit)}
    (h : Bodies (fun _ S out m => Yields I S out m) S W cs) :
    ∀ c ∈ cs, Carries I S c.2 := by
  induction h with
  | nil => exact nofun
  | cons hc _ ih => exact List.forall_mem_cons.mpr ⟨hc, ih⟩

/-! ## Walks -/

variable {ι : Type} {ok : Expr → Prop} {I : ι → List Operand → Build → Prop} {S : List Operand}

namespace StmtWalk

variable {allow : Use → Prop} {key : RoutineDecl → Prop} (h : StmtWalk allow key I)
include h

/-- What a walk carries does not depend on the order in which expressions are read. -/
theorem course : Course allow key (Found allow I) fun _ S out m => Yields I S out m where
  null := .null
  void := .void
  element := .element
  still hm := hm h.bare
  bind := h.bind
  whenClean := h.toCodeWalk.whenClean
  error_bind hm := h.bind (h.error _ _ _) fun _ => hm
  read_bind he hf _ := h.bind_given (h.valueOf he) fun hb hread => hf _ fun _ ht =>
    .read hb he (ht ▸ hread)
  typeOf_bind hf := h.bind_given (h.toCodeWalk.typeOf _) fun _ hread => hf _ fun _ ht =>
    .written (ht ▸ hread)
  declare_bind hclass hs htrue hfalse := h.bind (h.declare _ _ _ hclass hs) fun p => by
    obtain ⟨id, _ | _⟩ := p
    · exact hfalse id
    · exact htrue id
  declareClass_bind htrue hfalse := h.bind (h.declareClass _ _ _ _) fun p => by
    obtain ⟨id, _ | _⟩ := p
    · exact hfalse id
    · exact htrue id
  assignName := h.assignName _ _ _ _
  setFunction := h.setFunction _ _ _
  scope := h.inScope _
  loop := h.loop
  classBody := h.classBody _
  ifElse hc := h.ifElse _ _ hc _ _
  whileLoop := h.whileLoop _ _ _
  forLoop hinit hc hbody hupdate := h.forLoop _ _ _ _ _ hinit hc hupdate hbody
  switch hsubject hcases hbodies hdefault := h.switch _ _ hsubject _ _
    (fun c hc => ⟨hcases c hc, hbodies.carries c hc⟩) fun d hd => by
      subst hd
      exact hdefault
  function := h.function _ _ _ _ _
  method := h.method _ _ _ _ _ _

theorem block (hbody : Carries I S body) : Carries I S (Compile.block body) :=
  h.course.block (W := 1) hbody

/-- Reading a statement carries what its steps carry. -/
theorem statement (s : Stmt) (S : List Operand) (hs : ∀ u ∈ s.uses, allow u)
    (hkeys : ∀ k ∈ s.decls, key k) :
    Carries I S (Compile.statement s) :=
  h.course.statement s S hs hkeys

theorem statements (ss : List Stmt) (S : List Operand) (hss : ∀ u ∈ Stmt.usesAll ss, allow u)
    (hkeys : ∀ k ∈ Stmt.declsAll ss, key k) : Carries I S (Compile.statements ss) :=
  h.course.statements ss S hss hkeys

theorem caseBodies (cs : List Case) (S : List Operand) (hcs : ∀ u ∈ Case.usesAll cs, allow u)
    (hkeys : ∀ k ∈ Case.declsAll cs, key k) : Carries I S (Compile.caseBodies cs) :=
  have ⟨_, hbodies⟩ := h.course.caseBodies hcs (h.course.cases [] cs S hcs hkeys)
  hbodies

end StmtWalk

namespace Walk

variable {allow : Use → Prop} {key : String → Prop} (h : Walk ok allow key I) {es : List Expr}
include h

theorem statement (s : Stmt) (S : List Operand) (hs : ∀ u ∈ s.uses, allow u)
    (hkeys : ∀ k ∈ s.routines, key k) : Carries I S (Compile.statement s) :=
  h.toStmtWalk.statement s S hs fun _ hk => hkeys _ (s.map_decls ▸ List.mem_map_of_mem hk)

theorem statements (ss : List Stmt) (S : List Operand) (hss : ∀ u ∈ Stmt.usesAll ss, allow u)
    (hkeys : ∀ k ∈ Stmt.routinesAll ss, key k) : Carries I S (Compile.statements ss) :=
  h.toStmtWalk.statements ss S hss fun _ hk =>
    hkeys _ (Stmt.map_declsAll ss ▸ List.mem_map_of_mem hk)

/-! ### Parts of a program -/

theorem loneName (line : Nat) (id : String) : Carries I S (Compile.loneName line id) := by
  unfold Compile.loneName
  refine h.bind (h.toExprWalk.lookup? id) fun s? => ?_
  split
  · exact h.toExprWalk.report _ _ _
  · dsimp only
    split
    · exact h.bind (h.discard (h.toExprWalk.variableValue id)) fun _ => h.pure _
    · exact h.pure _

theorem presentOperands (hes : ∀ e ∈ es, allow (.value e)) :
    Yields I S Prod.snd (Compile.presentOperands es) := by
  induction es generalizing S with
  | nil => exact h.toExprWalk.give (by simp)
  | cons e es ih =>
    unfold Compile.presentOperands
    refine h.bind (h.valueOf (hes e (.head _))) fun t => ?_
    refine h.bind h.toExprWalk.valueAtHand fun v => ?_
    refine h.bind (ih fun e he => hes e (.tail _ he)) fun p => ?_
    refine h.toExprWalk.give fun o ho => ?_
    grind

theorem loneCall (line : Nat) (id : String) {args : List Expr}
    (hargs : ∀ e ∈ args, allow (.value e)) : Carries I S (Compile.loneCall line id args) := by
  have hw := h.toExprWalk
  unfold Compile.loneCall
  refine h.bind (hw.lookup? id) fun s? => ?_
  split
  · exact hw.report _ _ _
  · split
    · exact hw.report _ _ _
    · refine h.bind (h.presentOperands hargs) fun p => ?_
      dsimp only
      split
      · exact hw.report _ _ _
      · refine h.bind (hw.argumentTypes _ _ _ _ _) fun _ => ?_
        refine hw.whenClean (hw.setValueOf (hw.call id ?_) (by simp)) (h.pure _)
        exact fun a ha => by simp [ha]

theorem loneIndex (line : Nat) (id : String) (he : allow (.value e)) :
    Carries I S (Compile.loneIndex line id e) := by
  have hw := h.toExprWalk
  unfold Compile.loneIndex
  refine h.bind (hw.arrayNamed _ _) fun el? => ?_
  split
  · exact h.pure _
  · refine h.bind (h.valueOf he) fun t => h.bind (hw.indexOperand? _ t) fun i? => ?_
    split
    · exact h.pure _
    · exact hw.whenClean (hw.setValueOf (hw.loadFromArray id (by simp)) (by simp)) (h.pure _)

theorem lastOf (hes : ∀ e ∈ es, allow (.value e)) (type? : Option Ty) :
    Carries I S (Compile.lastOf type? es) := by
  induction es generalizing type? with
  | nil => exact h.pure _
  | cons e es ih =>
    unfold Compile.lastOf
    refine h.bind (h.valueOf (hes e (.head _))) fun t => ?_
    exact ih (fun e he => hes e (.tail _ he)) t

theorem allIn (hes : ∀ e ∈ es, allow (.value e)) : Expr.AllIn ok es := by
  induction es with
  | nil => trivial
  | cons e es ih =>
    exact ⟨h.sound _ (hes e (.head _)), ih fun e he => hes e (.tail _ he)⟩

/-- Reading any part of a program carries what the elementary steps carry. -/
theorem part (p : Part) (hp : ∀ u ∈ p.uses, allow u) (hkeys : ∀ k ∈ p.routines, key k) :
    Carries I S (Compile.part p) := by
  have hall : ∀ {es : List Expr}, (∀ u ∈ es.map Use.value, allow u) → ∀ e ∈ es, allow (.value e) :=
    fun hes e he => hes _ (List.mem_map_of_mem he)
  cases p with
  | expr e => exact h.valueOf (hp _ (.head _))
  | item s => exact h.bind (h.unreachable _ _) fun _ => h.statement s S hp hkeys
  | stmt s => exact h.statement s S hp hkeys
  | program p => exact h.bind (h.statements p S hp hkeys) fun _ => h.pure _
  | name line id => exact h.loneName line id
  | this line =>
    exact h.bind (h.toExprWalk.forget (h.toExprWalk.this line)) fun _ => h.pure _
  | new es =>
    exact h.bind (h.discard (h.toExprWalk.arguments es S (h.allIn (hall hp)))) fun _ => h.pure _
  | call line id es => exact h.loneCall line id (hall hp)
  | index line id e => exact h.loneIndex line id (hp _ (.head _))
  | arguments es => exact h.lastOf (hall hp) none
  | nothing => exact h.pure _

end Walk

end Compile

end Scriptc
