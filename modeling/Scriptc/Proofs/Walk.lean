import Scriptc.Proofs.ExprWalk

/-!
# Scriptc: the steps of statements

The continuation of `ExprWalk` to statements: `Compile.StmtWalk` adds the elementary steps of
statements and declarations, where reading an expression is one step. `Compile.Walk` is the case
where what carries `I` through an expression are its own elementary steps. That reading a whole
statement carries `I` is shown in `Course`.

* What is opened and closed again (a scope, a loop, a class) is not two steps that carry `I` but one
  law about the states around it: `Brackets`.
* Labels are made, targeted and marked by one statement, so the forms of control flow are steps as a
  whole that carry `I` if their parts do. So are functions and methods, whose frames are made,
  filled and left.
* `Stmt.uses` lists the expressions of a statement and what it does with them, and `Stmt.decls` the
  functions and methods that it declares (`Stmt.routines` their names); `allow` and `key` are the
  conditions on them.
-/

namespace Scriptc

open Build (Ends Yields Carries ends_bind ends_get ends_modify)

/-- An expression in a statement: read for its value, or assigned to a name. -/
inductive Use where
  | value (e : Expr)
  | assign (name : String) (e : Expr)

namespace Use

def expr : Use → Expr
  | value e | assign _ e => e

end Use

def VarDecl.uses (d : VarDecl) : List Use := d.init?.toList.map .value

def Assignment.uses : Assignment → List Use
  | toName _ x e => [.assign x e]
  | toMember base _ e => [.value base, .value e]

def LoopInit.uses : LoopInit → List Use
  | nothing => []
  | declare d => d.uses
  | assign a => a.uses

mutual

/-- The expressions of a statement, those of the statements in it included. -/
def Stmt.uses : Stmt → List Use
  | .declare d => d.uses
  | .constant d => [.value d.value]
  | .assign a => a.uses
  | .function _ body | .block _ body => Stmt.usesAll body
  | .classDecl _ _ _ members => Member.usesAll members
  | .expr e | .print _ e => [.value e]
  | .ifElse _ c yes none => .value c :: Stmt.usesAll yes
  | .ifElse _ c yes (some no) => .value c :: Stmt.usesAll yes ++ Stmt.usesAll no
  | .whileLoop _ c body | .doWhile _ body c | .forEach _ _ c body => .value c :: Stmt.usesAll body
  | .forLoop _ init c? u? body =>
    init.uses ++ c?.toList.map .value ++ u?.toList.map .value ++ Stmt.usesAll body
  | .tryCatch _ body handler => Stmt.usesAll body ++ Stmt.usesAll handler
  | .switch _ subject cs none => .value subject :: Case.usesAll cs
  | .switch _ subject cs (some body) => .value subject :: Case.usesAll cs ++ Stmt.usesAll body
  | .breakLoop _ | .continueLoop _ => []
  | .returnValue _ value? => value?.toList.map .value

def Stmt.usesAll : List Stmt → List Use
  | [] => []
  | s :: ss => s.uses ++ Stmt.usesAll ss

def Case.usesAll : List Case → List Use
  | [] => []
  | .mk e body :: rest => .value e :: Stmt.usesAll body ++ Case.usesAll rest

def Member.usesAll : List Member → List Use
  | [] => []
  | .method _ body :: rest => Stmt.usesAll body ++ Member.usesAll rest
  | .field d :: rest => d.uses ++ Member.usesAll rest
  | .constant d :: rest => .value d.value :: Member.usesAll rest

end

mutual

/-- The functions and methods that a statement declares, those of the statements in it included, by
the names under which their temporaries are counted. -/
def Stmt.routines : Stmt → List String
  | .function sig body => sig.name :: Stmt.routinesAll body
  | .classDecl _ name _ members => Member.routinesAll name members
  | .block _ body | .ifElse _ _ body none | .whileLoop _ _ body | .doWhile _ body _
  | .forLoop _ _ _ _ body | .forEach _ _ _ body => Stmt.routinesAll body
  | .ifElse _ _ yes (some no) => Stmt.routinesAll yes ++ Stmt.routinesAll no
  | .tryCatch _ body handler => Stmt.routinesAll body ++ Stmt.routinesAll handler
  | .switch _ _ cs none => Case.routinesAll cs
  | .switch _ _ cs (some body) => Case.routinesAll cs ++ Stmt.routinesAll body
  | .declare _ | .constant _ | .assign _ | .expr _ | .print _ _ | .breakLoop _ | .continueLoop _
  | .returnValue _ _ => []

def Stmt.routinesAll : List Stmt → List String
  | [] => []
  | s :: ss => s.routines ++ Stmt.routinesAll ss

def Case.routinesAll : List Case → List String
  | [] => []
  | .mk _ body :: rest => Stmt.routinesAll body ++ Case.routinesAll rest

def Member.routinesAll (cls : String) : List Member → List String
  | [] => []
  | .method sig body :: rest =>
    Emit.methodKey cls sig.name :: Stmt.routinesAll body ++ Member.routinesAll cls rest
  | .field _ :: rest | .constant _ :: rest => Member.routinesAll cls rest

end

/-- A function, or a method of a class, with its body. -/
structure RoutineDecl where
  cls? : Option String := none
  name : String
  body : List Stmt

namespace RoutineDecl

/-- The name under which its frame and temporaries are kept. -/
def key (r : RoutineDecl) : String := r.cls?.elim r.name (Emit.methodKey · r.name)

/-- The label of its code. -/
def label (r : RoutineDecl) : Operand :=
  r.cls?.elim (Emit.functionLabel r.name) (Emit.methodLabel · r.name)

end RoutineDecl

mutual

/-- The functions and methods that a statement declares, those of the statements in it included. -/
def Stmt.decls : Stmt → List RoutineDecl
  | .function sig body => { name := sig.name, body := body } :: Stmt.declsAll body
  | .classDecl _ name _ members => Member.declsAll name members
  | .block _ body | .ifElse _ _ body none | .whileLoop _ _ body | .doWhile _ body _
  | .forLoop _ _ _ _ body | .forEach _ _ _ body => Stmt.declsAll body
  | .ifElse _ _ yes (some no) => Stmt.declsAll yes ++ Stmt.declsAll no
  | .tryCatch _ body handler => Stmt.declsAll body ++ Stmt.declsAll handler
  | .switch _ _ cs none => Case.declsAll cs
  | .switch _ _ cs (some body) => Case.declsAll cs ++ Stmt.declsAll body
  | .declare _ | .constant _ | .assign _ | .expr _ | .print _ _ | .breakLoop _ | .continueLoop _
  | .returnValue _ _ => []

def Stmt.declsAll : List Stmt → List RoutineDecl
  | [] => []
  | s :: ss => s.decls ++ Stmt.declsAll ss

def Case.declsAll : List Case → List RoutineDecl
  | [] => []
  | .mk _ body :: rest => Stmt.declsAll body ++ Case.declsAll rest

def Member.declsAll (cls : String) : List Member → List RoutineDecl
  | [] => []
  | .method sig body :: rest =>
    { cls? := some cls, name := sig.name, body := body } :: Stmt.declsAll body ++
    Member.declsAll cls rest
  | .field _ :: rest | .constant _ :: rest => Member.declsAll cls rest

end

mutual

/-- Functions and methods are named by their keys, in the order in which they are declared. -/
theorem Stmt.map_decls : ∀ s : Stmt, s.decls.map RoutineDecl.key = s.routines
  | .function sig body => by
    simp [Stmt.decls, Stmt.routines, Stmt.map_declsAll body, RoutineDecl.key]
  | .classDecl _ name _ members => by
    simp [Stmt.decls, Stmt.routines, Member.map_declsAll name members]
  | .block _ body | .ifElse _ _ body none | .whileLoop _ _ body | .doWhile _ body _
  | .forLoop _ _ _ _ body | .forEach _ _ _ body => by
    simp [Stmt.decls, Stmt.routines, Stmt.map_declsAll body]
  | .ifElse _ _ yes (some no) => by
    simp [Stmt.decls, Stmt.routines, Stmt.map_declsAll yes, Stmt.map_declsAll no]
  | .tryCatch _ body handler => by
    simp [Stmt.decls, Stmt.routines, Stmt.map_declsAll body, Stmt.map_declsAll handler]
  | .switch _ _ cs none => by simp [Stmt.decls, Stmt.routines, Case.map_declsAll cs]
  | .switch _ _ cs (some body) => by
    simp [Stmt.decls, Stmt.routines, Case.map_declsAll cs, Stmt.map_declsAll body]
  | .declare _ | .constant _ | .assign _ | .expr _ | .print _ _ | .breakLoop _ | .continueLoop _
  | .returnValue _ _ => rfl

theorem Stmt.map_declsAll :
    ∀ ss : List Stmt, (Stmt.declsAll ss).map RoutineDecl.key = Stmt.routinesAll ss
  | [] => rfl
  | s :: ss => by simp [Stmt.declsAll, Stmt.routinesAll, Stmt.map_decls s, Stmt.map_declsAll ss]

theorem Case.map_declsAll :
    ∀ cs : List Case, (Case.declsAll cs).map RoutineDecl.key = Case.routinesAll cs
  | [] => rfl
  | .mk _ body :: rest => by
    simp [Case.declsAll, Case.routinesAll, Stmt.map_declsAll body, Case.map_declsAll rest]

theorem Member.map_declsAll (cls : String) :
    ∀ ms : List Member, (Member.declsAll cls ms).map RoutineDecl.key = Member.routinesAll cls ms
  | [] => rfl
  | .method sig body :: rest => by
    simp [Member.declsAll, Member.routinesAll, Stmt.map_declsAll body, Member.map_declsAll cls rest,
      RoutineDecl.key]
  | .field _ :: rest | .constant _ :: rest => by
    simp [Member.declsAll, Member.routinesAll, Member.map_declsAll cls rest]

end

/-- What stands in the bodies of the functions is among the expressions. -/
def RoutineDecl.Within (rs : List RoutineDecl) (us : List Use) : Prop :=
  ∀ r ∈ rs, Stmt.usesAll r.body ⊆ us

namespace RoutineDecl.Within

variable {rs rs' : List RoutineDecl} {us v : List Use}

/-- No function, no use. -/
theorem nil : Within [] us := nofun

theorem right (h : Within rs us) : Within rs (v ++ us) :=
  fun r hr => List.subset_append_of_subset_right _ (h r hr)

theorem append (h : Within rs us) (h' : Within rs' v) : Within (rs ++ rs') (us ++ v) :=
  List.forall_mem_append.mpr ⟨fun r hr => List.subset_append_of_subset_left _ (h r hr), h'.right⟩

/-- The uses of a body are among those of the statement around it. -/
theorem cons {r : RoutineDecl} (hr : Stmt.usesAll r.body ⊆ us) (h : Within rs us) :
    Within (r :: rs) us :=
  List.forall_mem_cons.mpr ⟨hr, h⟩

end RoutineDecl.Within

open RoutineDecl (Within)

mutual

/-- What stands in the body of a function stands in the statement that declares it. -/
theorem Stmt.decls_within : ∀ s : Stmt, Within s.decls s.uses
  | .function _ body => .cons (List.Subset.refl _) (Stmt.declsAll_within body)
  | .classDecl _ name _ members => Member.declsAll_within name members
  | .block _ body => Stmt.declsAll_within body
  | .ifElse _ _ body none | .whileLoop _ _ body | .doWhile _ body _ | .forEach _ _ _ body =>
    .right (v := [_]) (Stmt.declsAll_within body)
  | .forLoop _ _ _ _ body => .right (Stmt.declsAll_within body)
  | .ifElse _ _ yes (some no) =>
    .right (v := [_]) (.append (Stmt.declsAll_within yes) (Stmt.declsAll_within no))
  | .tryCatch _ body handler => .append (Stmt.declsAll_within body) (Stmt.declsAll_within handler)
  | .switch _ _ cs none => .right (v := [_]) (Case.declsAll_within cs)
  | .switch _ _ cs (some body) =>
    .right (v := [_]) (.append (Case.declsAll_within cs) (Stmt.declsAll_within body))
  | .declare _ | .constant _ | .assign _ | .expr _ | .print _ _ | .breakLoop _ | .continueLoop _
  | .returnValue _ _ => .nil

/-- What the functions of a program use the program uses. -/
theorem Stmt.declsAll_within : ∀ ss : List Stmt, Within (Stmt.declsAll ss) (Stmt.usesAll ss)
  | [] => .nil
  | s :: ss => .append (Stmt.decls_within s) (Stmt.declsAll_within ss)

theorem Case.declsAll_within : ∀ cs : List Case, Within (Case.declsAll cs) (Case.usesAll cs)
  | [] => .nil
  | .mk _ body :: rest =>
    .right (v := [_]) (.append (Stmt.declsAll_within body) (Case.declsAll_within rest))

theorem Member.declsAll_within (cls : String) :
    ∀ ms : List Member, Within (Member.declsAll cls ms) (Member.usesAll ms)
  | [] => .nil
  | .method _ body :: rest =>
    .cons (List.subset_append_left _ _)
      (.append (Stmt.declsAll_within body) (Member.declsAll_within cls rest))
  | .field _ :: rest => .right (Member.declsAll_within cls rest)
  | .constant _ :: rest => .right (v := [_]) (Member.declsAll_within cls rest)

end

def Part.uses : Part → List Use
  | expr e | index _ _ e => [.value e]
  | item s | stmt s => s.uses
  | program p => Stmt.usesAll p
  | name _ _ | this _ | nothing => []
  | new es | call _ _ es | arguments es => es.map .value

/-- The code of a switch whose subject and values have been read. -/
def Emit.switchCode (subject : Operand) (cases : List (Operand × BuildM Unit))
    (default? : Option (BuildM Unit)) : BuildM Unit := do
  let done ← Emit.newLabel
  cases.forM fun c => Emit.switchCase subject c.1 done c.2
  match default? with
  | none => Emit.mark done
  | some body =>
    Emit.mark (← Emit.newLabel)
    body
    Emit.mark done

def Part.routines : Part → List String
  | item s | stmt s => s.routines
  | program p => Stmt.routinesAll p
  | expr _ | index _ _ _ | name _ _ | this _ | nothing | new _ | call _ _ _ | arguments _ => []

/-- A key that is in a table stays in it. -/
theorem Assoc.contains_put {κ ν : Type} [DecidableEq κ] {t : Assoc κ ν} {x y : κ} {w : ν}
    (h : t.contains y = true) : (t.put x w).contains y = true := by
  by_cases hy : y = x
  · subst hy
    rw [Assoc.contains, Assoc.get?_put_self]
    rfl
  · rwa [Assoc.contains, Assoc.get?_put_of_ne t w hy]

/-- A class keeps its parent and its methods, and may get more members. -/
structure Class.Extends (k k' : Class) : Prop where
  parent? : k'.parent? = k.parent?
  methods : ∀ m, k.methods.contains m = true → k'.methods.contains m = true

namespace Compile

variable {ι α β : Type} {ok : Expr → Prop} {I : ι → List Operand → Build → Prop} {S : List Operand}
  {out : α → List Operand} {out' : β → List Operand}

/-- Declares a class under the parent that is found for it. -/
def declareClass (line : Nat) (name : String) (parent? : Option String) :
    BuildM (SymbolId × Bool) := do
  let parentId? ← parentOf line parent?
  declare line ⟨name, ← currentScope, .classDecl { parent? := parentId? }⟩

namespace CodeWalk

variable (h : CodeWalk I)
include h

theorem storeValue (name : String) : Carries I S (Compile.storeValue name) := by
  unfold Compile.storeValue
  refine h.whenClean ?_ (h.pure _)
  refine h.bind h.valueAtHand fun v => h.bind (h.place name) fun a => ?_
  exact h.bind (h.assign (by simp) (by simp)) fun _ => h.pure _

theorem sayFrame (cls method : String) (f : Frame) : Carries I S (Emit.sayFrame cls method f) := by
  unfold Emit.sayFrame
  refine h.bind (h.say _ _) fun _ => h.bind (h.say _ _) fun _ => ?_
  exact h.bind (h.forM fun _ _ => h.say _ _) fun _ => h.say _ _

/-- The type of a variable is set, and nothing else is written. -/
theorem fixType (htable : ∀ i S b t, I i S b → I i S { b with table := t }) (line : Nat)
    (x : String) (v : Variable) (value? : Option Ty) :
    Carries I S (Compile.fixType line x v value?) := by
  unfold Compile.fixType
  split
  · refine h.bind Carries.get fun b => ?_
    split
    · exact Carries.modify fun i b hb => htable i _ b _ hb
    · exact h.pure _
  · exact h.remarks (.unlessAssignable ..)

/-- An assignment carries what has nothing to do with names and their types. -/
theorem assignName (hdirect : ∀ S on, Carries I S (Emit.setDirect on))
    (hend : ∀ S, Carries I S Emit.endExpression)
    (htable : ∀ i S b t, I i S b → I i S { b with table := t }) (line : Nat) (x : String) (e : Expr)
    (he : ∀ T, Carries I T (Compile.expr e)) : Carries I S (Compile.assignName line x e) := by
  unfold Compile.assignName
  refine h.bind (h.assignable? _ _) fun v? => ?_
  split
  · exact h.pure _
  · unfold Compile.direct
    refine h.bind (h.bind (hdirect _ true) fun _ => h.bind (he _) fun t =>
      h.bind (hdirect _ false) fun _ => h.pure t) fun value? => ?_
    refine h.bind (h.fixType htable _ _ _ _) fun _ => h.bind (h.storeValue x) fun _ => ?_
    exact h.bind (hend _) fun _ => h.pure _

/-- So does a declaration. -/
theorem declare (htable : ∀ i S b t, I i S b → I i S { b with table := t }) (line : Nat)
    (s : Symbol) :
    Carries I S (Compile.declare line s) := by
  unfold Compile.declare
  refine h.bind Carries.get fun b => ?_
  dsimp only
  split
  · exact h.bind (Carries.modify fun i b hb => htable i _ b _ hb) fun _ => h.pure _
  · exact h.bind (Carries.modify fun i b hb => htable i _ b _ hb) fun _ => h.report _ _ _

/-- A parent that is unknown is reported. -/
theorem parentOf (line : Nat) (parent? : Option String) :
    Carries I S (Compile.parentOf line parent?) := by
  cases parent? with
  | none => exact h.pure _
  | some p =>
    unfold Compile.parentOf
    refine h.bind (h.class? p) fun c? => ?_
    split
    · exact h.read _
    · exact h.report _ _ _

/-- A class is declared as any other name, once its parent is known. -/
theorem declareClass (hdeclare : ∀ line s, s.type? = none → Carries I S (Compile.declare line s))
    (line : Nat) (name : String) (parent? : Option String) :
    Carries I S (Compile.declareClass line name parent?) :=
  h.bind (h.parentOf line parent?) fun _ => h.bind (h.read _) fun _ => hdeclare _ _ rfl

/-- The layout of a class is made once those of its parents are. -/
theorem layout
    (hlayout : ∀ S cls l, Carries I S (modify fun b => { b with layouts := b.layouts.put cls l }))
    (id : SymbolId) : Carries I S (Emit.layout id) := by
  have hput : ∀ (cls : String) (l : Option Layout → Build → Layout) (parent? : Option Layout),
      Carries I S (do
        let b ← get
        modify fun b' => { b' with layouts := b'.layouts.put cls (l parent? b) }
        return some (l parent? b)) := fun _ _ _ =>
    h.bind Carries.get fun b => h.bind (hlayout _ _ _) fun _ => h.pure _
  induction id using Nat.strongRecOn with
  | ind id ih =>
    rw [Emit.layout]
    refine h.bind Carries.get fun b => ?_
    split
    · exact h.pure _
    · split
      · exact h.pure _
      · refine h.bind Carries.get fun b => ?_
        split
        · exact h.pure _
        · split
          · exact Yields.throw _
          · split
            · exact h.bind (h.pure none) (hput _ _)
            · split
              · exact h.bind (ih _ ‹_›) (hput _ _)
              · exact h.bind (h.pure none) (hput _ _)

/-- One store for each cell, by induction on the cells. -/
theorem storeAll {address : Operand} (ha : address ∈ S) {vs : List Operand} (hvs : ∀ v ∈ vs, v ∈ S)
    (i : Nat) : Carries I S (Emit.storeAll address i vs) := by
  induction vs generalizing i S with
  | nil => exact h.pure _
  | cons v vs ih =>
    unfold Emit.storeAll
    refine h.bind (h.newTemp S) fun index => h.bind (h.quad _ _ rfl ?_) fun _ => ?_
    · simp [Quad.operands]
    refine h.bind (h.compute rfl (.inl (by simp)) (.inr rfl)) fun offset => ?_
    refine h.bind (h.compute rfl (.inl (by simp [ha])) (.inl (by simp))) fun a => ?_
    refine h.bind (h.quad _ _ rfl ?_) fun _ => ih (by simp [ha]) (fun w hw => ?_) (i + 1)
    · simp [Quad.operands, hvs v List.mem_cons_self]
    · simp [hvs w (.tail _ hw)]

theorem initialise (name : String) : Carries I S (Compile.initialise name) := by
  unfold Compile.initialise
  refine h.bind h.valueAtHand fun v => ?_
  split
  · rename_i vs
    -- The cells of an array are stored one by one.
    intro i b u b' hb hend
    have hcells : I i (vs ++ ([.cells vs] ++ S)) b :=
      h.ofCells (List.mem_append_left _ (by simp)) hb
    have hstore : Carries I (vs ++ ([.cells vs] ++ S)) (do
        Emit.storeAll (← Emit.place name) 0 vs) :=
      h.bind (h.place name) fun a => h.storeAll (by simp) (fun v hv => by simp [hv]) 0
    exact h.weaken (List.subset_append_right _ _) (hstore hcells hend)
  · refine h.bind (h.place name) fun a => ?_
    exact h.bind (h.assign (by simp) (by simp)) fun _ => h.pure _

end CodeWalk

/-- An assignment from the steps for its value and for the name. -/
theorem ExprWalk.assignName (h : ExprWalk ok I) (hdirect : ∀ S on, Carries I S (Emit.setDirect on))
    (hend : ∀ S, Carries I S Emit.endExpression)
    (htable : ∀ i S b t, I i S b → I i S { b with table := t }) (line : Nat) (x : String) (e : Expr)
    (he : e.All ok) : Carries I S (Compile.assignName line x e) :=
  h.toCodeWalk.assignName hdirect hend htable line x e fun T => h.expr e T he

/-- What is opened and closed again around steps that carry `I`: after the opening some condition of
the family holds, and the closing leads back to the one before. -/
def Brackets (I : ι → List Operand → Build → Prop) (opens : Build → Build)
    (closes : Build → Build → Build) : Prop :=
  ∀ ⦃i S b⦄, I i S b → ∃ j, I j S (opens b) ∧ ∀ b', I j S b' → I i S (closes b b')

/-- The types that a reading comes to: those that are written, those of the expressions that are
read where `I` holds, and their elements. -/
inductive Found (allow : Use → Prop) (I : ι → List Operand → Build → Prop) : Ty → Prop where
  | null : Found allow I .null
  | void : Found allow I .void
  | written {text : String} {b b' : Build} {t : Ty} (h : Ends (typeOf text) b (some t) b') :
      Found allow I t
  | read {i : ι} {S : List Operand} {b b' : Build} {e : Expr} {t : Ty} (hb : I i S b)
      (he : allow (.value e))
      (h : Ends (Compile.expr e) b (some t) b') : Found allow I t
  | element {t : Ty} {dims : List Int} (h : Found allow I (.array t dims)) : Found allow I t

/-- More may be allowed. -/
theorem Found.mono {allow allow' : Use → Prop} (himp : ∀ u, allow u → allow' u) {t : Ty}
    (h : Found allow I t) :
    Found allow' I t := by
  induction h with
  | null => exact .null
  | void => exact .void
  | written h => exact .written h
  | read hb he h => exact .read hb (himp _ he) h
  | element _ ih => exact .element ih

/-- The elementary steps of reading a statement carry `I`. -/
structure StmtWalk (allow : Use → Prop) (key : RoutineDecl → Prop)
    (I : ι → List Operand → Build → Prop) : Prop extends CodeWalk I where
  valueOf : ∀ {S e}, allow (.value e) → Carries I S (Compile.expr e)
  warn : ∀ S line text, Carries I S (Build.warn line text)
  endExpression : ∀ S, Carries I S Emit.endExpression
  setDirect : ∀ S on, Carries I S (Emit.setDirect on)
  setFunction : ∀ S name ss, key { name := name, body := ss } → Carries I S (Emit.setFunction name)
  setUnreachable : ∀ S on, Carries I S (modify fun b => { b with unreachable := on })
  setInFunction : ∀ S f?, Carries I S (modify fun b => { b with inFunction? := f? })
  leaveFunction : ∀ S, Carries I S (modify fun b => { b with inFunction? := none, frame? := none })
  layout : ∀ S id, Carries I S (Emit.layout id)
  declare : ∀ S line s, s.asClass? = none → (∀ t, s.type? = some t → Found allow I t) →
    Carries I S (Compile.declare line s)
  declareClass : ∀ S line name parent?, Carries I S (Compile.declareClass line name parent?)
  modifyFunction : ∀ S id f, (∀ g, (f g).result? = g.result?) →
    Carries I S (Compile.modifyFunction id f)
  modifyClass : ∀ S id f, (∀ k : Class, k.Extends (f k)) → Carries I S (Compile.modifyClass id f)
  assignName : ∀ S line x e, allow (.assign x e) → Carries I S (Compile.assignName line x e)
  scope : ∀ kind, Brackets I (fun b => { b with table := b.table.enter kind })
    fun _ b' => { b' with table := b'.table.exit.2 }
  loops : Brackets I (fun b => { b with loops := b.loops.enter })
    fun b b' => { b' with loops := b'.loops.leave b.loops }
  inClass : ∀ id, Brackets I (fun b => { b with inClass? := some id })
    fun b b' => { b' with inClass? := b.inClass? }
  ifElse : ∀ S, ∀ c ∈ S, ∀ yes no, Carries I S yes → Carries I S no →
    Carries I S (Emit.ifElse c yes no)
  whileLoop : ∀ S c body, Yields I S ([·]) c → Carries I S body →
    Carries I S (Emit.whileLoop c body)
  forLoop : ∀ S init c update body, Carries I S init → Yields I S ([·]) c → Carries I S update →
    Carries I S body → Carries I S (Emit.forLoop init c update body)
  breakLoop : ∀ S, Carries I S Emit.breakLoop
  continueLoop : ∀ S, Carries I S Emit.continueLoop
  switch : ∀ S, ∀ subject ∈ S,
    ∀ (cases : List (Operand × BuildM Unit)) (default? : Option (BuildM Unit)),
    (∀ c ∈ cases, (c.1 ∈ S ∨ c.1.isFixed = true) ∧ Carries I S c.2) →
      (∀ d, default? = some d → Carries I S d) →
        Carries I S (Emit.switchCode subject cases default?)
  function : ∀ S name ps result? ss, key { name := name, body := ss } →
    Carries I S (Compile.block (Compile.statements ss)) →
    Carries I S (Emit.function name ps result? (Compile.block (Compile.statements ss)))
  method : ∀ S cls name ps result? ss, key { cls? := some cls, name := name, body := ss } →
    Carries I S (Compile.block (Compile.statements ss)) →
    Carries I S (Emit.method cls name ps result? (Compile.block (Compile.statements ss)))

/-- The elementary steps of reading statements and expressions carry `I`, whatever the bodies of
functions are. -/
structure Walk (ok : Expr → Prop) (allow : Use → Prop) (key : String → Prop)
    (I : ι → List Operand → Build → Prop) : Prop
    extends ExprWalk ok I, StmtWalk allow (fun r => key r.key) I where
  sound : ∀ u, allow u → u.expr.All ok
  valueOf := fun he => toExprWalk.expr _ _ (sound _ he)

namespace StmtWalk

variable {allow : Use → Prop} {key : RoutineDecl → Prop} (h : StmtWalk allow key I)
variable {m : BuildM α} {body : BuildM Unit}
include h

/-- Where no expression is read and no function declared. -/
theorem bare : StmtWalk (fun _ => False) (fun _ => False) I :=
  { h with
    valueOf := fun he => he.elim
    setFunction := fun _ _ _ hk => hk.elim
    declare := fun S line s hclass hs => h.declare S line s hclass fun t ht =>
      (hs t ht).mono fun _ hu => hu.elim
    assignName := fun _ _ _ _ hu => hu.elim
    function := fun _ _ _ _ _ hk => hk.elim
    method := fun _ _ _ _ _ _ hk => hk.elim }

/-! ### Sequences -/

theorem pure (a : α) : Carries I S (pure a : BuildM α) := h.toCodeWalk.pure a

theorem bind {f : α → BuildM β} (hm : Yields I S out m)
    (hf : ∀ a, Yields I (out a ++ S) out' (f a)) : Yields I S out' (m >>= f) :=
  h.toCodeWalk.bind hm hf

/-- The next step may ask where the state came from. -/
theorem bind_given {f : α → BuildM β} (hm : Yields I S out m)
    (hf : ∀ {i b a b'}, I i S b → Ends m b a b' → Yields I (out a ++ S) out' (f a)) :
    Yields I S out' (m >>= f) :=
  .bind_given (I := I) h.weaken hm hf

theorem discard (hm : Yields I S out m) : Carries I S (discard m) :=
  h.toCodeWalk.map (h.toCodeWalk.forget hm)

/-! ### Declarations of variables -/

theorem currentSymbol? (name : String) : Carries I S (Compile.currentSymbol? name) :=
  h.toCodeWalk.read _

theorem currentScope : Carries I S Compile.currentScope := h.toCodeWalk.read _

theorem addAttribute (cls : SymbolId) (name : String) (id : SymbolId) :
    Carries I S (Compile.addAttribute cls name id) :=
  h.modifyClass _ _ _ fun _ => ⟨rfl, fun _ hm => hm⟩

theorem addMethod (cls : SymbolId) (name : String) (id : SymbolId) :
    Carries I S (Compile.addMethod cls name id) :=
  h.modifyClass _ _ _ fun _ => ⟨rfl, fun _ hm => Assoc.contains_put hm⟩

/-- Outside of a class there is nothing to tell. -/
theorem tellClass {tell : SymbolId → BuildM Unit} (htell : ∀ c, Carries I S (tell c)) :
    Carries I S (Compile.tellClass tell) := by
  unfold Compile.tellClass
  refine h.bind Carries.get fun b => ?_
  split
  · exact htell _
  · exact h.pure _

/-! ### Functions -/

theorem frameParams (ps : List Param) : Carries I S (Compile.frameParams ps) := by
  unfold Compile.frameParams
  induction ps with
  | nil =>
    rw [List.mapM_nil]
    exact h.pure _
  | cons p ps ih =>
    rw [List.mapM_cons]
    refine h.bind (h.bind (h.toCodeWalk.typeOf? _) fun _ => h.pure _) fun _ => ?_
    exact h.bind ih fun _ => h.pure _

theorem returnsOf (id : SymbolId) : Carries I S (Compile.returnsOf id) := h.toCodeWalk.read _

/-! ### Classes -/

theorem attributeOf (cls : SymbolId) (name : String) :
    Carries I S (Compile.attributeOf cls name) := by
  unfold Compile.attributeOf
  refine h.bind Carries.get fun b => ?_
  dsimp only
  split
  · split
    · exact h.addAttribute _ _ _
    · exact h.pure _
  · exact h.pure _

/-- Fields, the layout, and methods. -/
theorem classBody (id : SymbolId) {fields methods : SymbolId → BuildM Unit}
    (hfields : Carries I S (fields id)) (hmethods : Carries I S (methods id)) :
    Carries I S (Compile.classBody id fields methods) := by
  intro i b u b' hb hend
  simp only [Compile.classBody, ends_bind] at hend
  obtain ⟨_, b₁, henter, outer, b₂, houter, _, b₃, hin, _, b₄, hread, _, b₅, hlayout, _, b₆,
    hcode, _, b₇, hexit,
    hleave⟩ := hend
  obtain ⟨j, hopen, hclose⟩ := h.scope "class" hb
  obtain ⟨k, hinto, hout⟩ := h.inClass id hopen
  obtain rfl := ends_modify.mp henter
  obtain ⟨rfl, rfl⟩ := ends_get.mp houter
  obtain rfl := ends_modify.mp hin
  have h₄ : I k S b₄ := hfields hinto hread
  have h₆ : I k S b₆ := hmethods (h.layout S id h₄ hlayout) hcode
  obtain rfl := ends_modify.mp hexit
  obtain rfl := ends_modify.mp hleave
  -- The class is left after its scope, but the two touch different parts of the state.
  exact hclose _ (hout _ h₆)

/-! ### Statements -/

/-- Code behind a jump is warned of, and read. -/
theorem unreachable (line : Option Nat) (what : String) :
    Carries I S (Check.unreachable line what) := by
  unfold Check.unreachable
  refine h.bind Carries.get fun b => ?_
  split
  · exact h.bind (h.warn _ _ _) fun _ => h.pure _
  · exact h.pure _

omit h in
/-- Steps between an opening and its closing. -/
theorem bracketed {opens : Build → Build} {closes : Build → Build → Build}
    (hbrackets : Brackets I opens closes) (hbody : Carries I S body) :
    Carries I S (do let b ← get; modify opens; body; modify (closes b)) := by
  intro i b u b' hb hend
  rw [Build.ends_get_bind] at hend
  obtain ⟨_, b₁, hopen, hend⟩ := ends_bind.mp hend
  obtain ⟨_, b₂, hin, hclose⟩ := ends_bind.mp hend
  obtain rfl := ends_modify.mp hopen
  obtain rfl := ends_modify.mp hclose
  obtain ⟨j, hopened, hclosed⟩ := hbrackets hb
  exact hclosed _ (hbody hopened hin)

/-- A scope is left also if its body has reported. -/
theorem inScope (kind : String) (hbody : Carries I S body) :
    Carries I S (Compile.inScope kind body) :=
  bracketed (h.scope kind) hbody

theorem loop (hbody : Carries I S body) : Carries I S (Compile.loop body) := bracketed h.loops hbody

/-- A jump out of a loop that is none is reported. -/
theorem loopJump (line : Nat) (word : String) {code : BuildM Operand}
    (hcode : ∀ T, Carries I T code) :
    Carries I S (Compile.loopJump line word code) := by
  unfold Compile.loopJump
  have hcut : ∀ T, Carries I T Compile.cutOff := fun T => h.setUnreachable T true
  refine h.bind (h.unreachable _ _) fun _ => h.bind Carries.get fun b => ?_
  dsimp only
  split
  · exact h.bind (h.error _ _ _) fun _ => hcut _
  · exact h.toCodeWalk.whenClean (h.bind (hcode _) fun _ => hcut _) (hcut _)

theorem returnValue {v : Operand} (hv : v ∈ S ∨ v.isFixed = true) :
    Carries I S (Emit.returnValue v) := by
  unfold Emit.returnValue
  refine h.bind Carries.get fun b => ?_
  split
  · exact h.pure _
  · refine h.bind (h.quad _ _ rfl ?_) fun _ => h.pure _
    split <;> simp [Quad.operands, hv]

theorem print {v : Operand} (hv : v ∈ S) (type? : Option Ty) :
    Carries I S (Emit.print v type?) := by
  have hquad : ∀ T (op : Op) (remark : String), op.isPlain = true → v ∈ T →
      Carries I T (Emit.quad { op := op, arg1 := v, comment? := some remark }) := by
    intro T op remark hop hv
    exact h.quad _ _ hop (by simp [Quad.operands, hv])
  unfold Emit.print
  dsimp only
  split
  · exact hquad _ _ _ rfl hv
  · split
    · exact hquad _ _ _ rfl hv
    · split
      · exact hquad _ _ _ rfl hv
      · exact h.bind (Carries.ofExcept _) fun _ => hquad _ _ _ rfl hv

end StmtWalk

end Compile

end Scriptc
