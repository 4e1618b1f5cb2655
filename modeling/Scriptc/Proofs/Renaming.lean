import Mathlib.Data.List.Forall2
import Scriptc.Proofs.Scopes

/-!
# Scriptc: other names for variables

`Renaming` gives other names to variables and to members, and `Stmt.rename` writes a statement with
them. The names of functions, classes and types stay. `SymbolTable.rename` does the same with a
table of names: looking up, declaring, and opening and leaving scopes go with it if no two variables
get one name.

`Stmt.items` lists what stands in a statement and in the statements in it: expressions, names that
are declared, types that are written.
-/

namespace Scriptc

structure Renaming where
  var : String → String
  member : String → String

namespace Renaming

/-- The renaming that leaves all names. -/
def identity : Renaming := ⟨fun x => x, fun x => x⟩

@[simp] theorem var_identity (x : String) : identity.var x = x := rfl

@[simp] theorem member_identity (x : String) : identity.member x = x := rfl

end Renaming

/-! ## Programs -/

mutual

def Expr.rename (r : Renaming) : Expr → Expr
  | .assign (.mk a ss) v => .assign (.mk (a.rename r) (Suffix.renameAll r ss)) (v.rename r)
  | .ternary c yes no => .ternary (c.rename r) (yes.rename r) (no.rename r)
  | .chain level first rest => .chain level (first.rename r) (Expr.renameRest r rest)
  | .not line e => .not line (e.rename r)
  | .negate line e => .negate line (e.rename r)
  | .literal line l => .literal line l
  | .array line es => .array line (Expr.renameAll r es)
  | .group line e => .group line (e.rename r)
  | .access (.mk a ss) => .access (.mk (a.rename r) (Suffix.renameAll r ss))

def Expr.renameRest (r : Renaming) : List (String × Expr) → List (String × Expr)
  | [] => []
  | (op, e) :: rest => (op, e.rename r) :: Expr.renameRest r rest

def Expr.renameAll (r : Renaming) : List Expr → List Expr
  | [] => []
  | e :: es => e.rename r :: Expr.renameAll r es

def Atom.rename (r : Renaming) : Atom → Atom
  | .name line id => .name line (r.var id)
  | .new line cls args text => .new line cls (Expr.renameAll r args) text
  | .this line => .this line

def Suffix.renameAll (r : Renaming) : List Suffix → List Suffix
  | [] => []
  | .call line args :: rest => .call line (Expr.renameAll r args) :: Suffix.renameAll r rest
  | .index line e :: rest => .index line (e.rename r) :: Suffix.renameAll r rest
  | .member line id :: rest => .member line (r.member id) :: Suffix.renameAll r rest

end

def VarDecl.rename (r : Renaming) (d : VarDecl) : VarDecl :=
  { d with name := r.var d.name, init? := d.init?.map (Expr.rename r) }

def ConstDecl.rename (r : Renaming) (d : ConstDecl) : ConstDecl :=
  { d with name := r.var d.name, value := d.value.rename r }

def Param.rename (r : Renaming) (p : Param) : Param := { p with name := r.var p.name }

def Signature.rename (r : Renaming) (s : Signature) : Signature :=
  { s with params := s.params.map (Param.rename r) }

def Assignment.rename (r : Renaming) : Assignment → Assignment
  | toName line x e => toName line (r.var x) (e.rename r)
  | toMember base member v => toMember (base.rename r) (r.member member) (v.rename r)

def LoopInit.rename (r : Renaming) : LoopInit → LoopInit
  | nothing => nothing
  | declare d => declare (d.rename r)
  | assign a => assign (a.rename r)

mutual

def Stmt.rename (r : Renaming) : Stmt → Stmt
  | .declare d => .declare (d.rename r)
  | .constant d => .constant (d.rename r)
  | .assign a => .assign (a.rename r)
  | .function sig body => .function (sig.rename r) (Stmt.renameAll r body)
  | .classDecl line name parent? ms => .classDecl line name parent? (Member.renameAll r ms)
  | .expr e => .expr (e.rename r)
  | .print line e => .print line (e.rename r)
  | .block line body => .block line (Stmt.renameAll r body)
  | .ifElse line c yes none => .ifElse line (c.rename r) (Stmt.renameAll r yes) none
  | .ifElse line c yes (some no) =>
    .ifElse line (c.rename r) (Stmt.renameAll r yes) (some (Stmt.renameAll r no))
  | .whileLoop line c body => .whileLoop line (c.rename r) (Stmt.renameAll r body)
  | .doWhile line body c => .doWhile line (Stmt.renameAll r body) (c.rename r)
  | .forLoop line init c? u? body =>
    .forLoop line (init.rename r) (c?.map (Expr.rename r)) (u?.map (Expr.rename r))
      (Stmt.renameAll r body)
  | .forEach line x items body => .forEach line (r.var x) (items.rename r) (Stmt.renameAll r body)
  | .tryCatch line body handler => .tryCatch line (Stmt.renameAll r body) (Stmt.renameAll r handler)
  | .switch line e cs none => .switch line (e.rename r) (Case.renameAll r cs) none
  | .switch line e cs (some body) =>
    .switch line (e.rename r) (Case.renameAll r cs) (some (Stmt.renameAll r body))
  | .breakLoop line => .breakLoop line
  | .continueLoop line => .continueLoop line
  | .returnValue line e? => .returnValue line (e?.map (Expr.rename r))

def Stmt.renameAll (r : Renaming) : List Stmt → List Stmt
  | [] => []
  | s :: ss => s.rename r :: Stmt.renameAll r ss

def Case.renameAll (r : Renaming) : List Case → List Case
  | [] => []
  | .mk e body :: rest => .mk (e.rename r) (Stmt.renameAll r body) :: Case.renameAll r rest

def Member.renameAll (r : Renaming) : List Member → List Member
  | [] => []
  | .method sig body :: rest =>
    .method (sig.rename r) (Stmt.renameAll r body) :: Member.renameAll r rest
  | .field d :: rest => .field (d.rename r) :: Member.renameAll r rest
  | .constant d :: rest => .constant (d.rename r) :: Member.renameAll r rest

end

/-- A renaming moves nothing to another line. -/
theorem Atom.line_rename (r : Renaming) (a : Atom) : (a.rename r).line = a.line := by
  cases a <;> rfl

/-- Names do not move expressions to other lines. -/
theorem Expr.line_rename (r : Renaming) : ∀ e : Expr, (e.rename r).line = e.line
  | .assign (.mk a _) _ => Atom.line_rename r a
  | .ternary c _ _ => Expr.line_rename r c
  | .chain _ e _ => Expr.line_rename r e
  | .not _ _ | .negate _ _ | .literal _ _ | .array _ _ | .group _ _ => rfl
  | .access (.mk a _) => Atom.line_rename r a

theorem Stmt.line_rename (r : Renaming) (s : Stmt) : (s.rename r).line = s.line := by
  cases s with
  | assign a =>
    cases a with
    | toName line x e => rfl
    | toMember base member v => exact Expr.line_rename r base
  | expr e => exact Expr.line_rename r e
  | ifElse line c yes no? => cases no? <;> rfl
  | switch line e cs default? => cases default? <;> rfl
  | _ => rfl

mutual

/-- The identity changes no expression. -/
theorem Expr.rename_identity : ∀ e : Expr, e.rename .identity = e
  | .assign (.mk a ss) v => by
    simp [Expr.rename, Atom.rename_identity a, Suffix.renameAll_identity ss, Expr.rename_identity v]
  | .ternary c yes no => by
    simp [Expr.rename, Expr.rename_identity c, Expr.rename_identity yes, Expr.rename_identity no]
  | .chain level first rest => by
    simp [Expr.rename, Expr.rename_identity first, Expr.renameRest_identity rest]
  | .not _ e | .negate _ e | .group _ e => by simp [Expr.rename, Expr.rename_identity e]
  | .literal _ _ => by simp [Expr.rename]
  | .array _ es => by simp [Expr.rename, Expr.renameAll_identity es]
  | .access (.mk a ss) => by
    simp [Expr.rename, Atom.rename_identity a, Suffix.renameAll_identity ss]

/-- Nor the operators and operands of a chain. -/
theorem Expr.renameRest_identity :
    ∀ rest : List (String × Expr), Expr.renameRest .identity rest = rest
  | [] => rfl
  | (op, e) :: rest => by
    simp [Expr.renameRest, Expr.rename_identity e, Expr.renameRest_identity rest]

/-- Nor the expressions of a list. -/
theorem Expr.renameAll_identity : ∀ es : List Expr, Expr.renameAll .identity es = es
  | [] => rfl
  | e :: es => by simp [Expr.renameAll, Expr.rename_identity e, Expr.renameAll_identity es]

/-- Nor an atom. -/
theorem Atom.rename_identity : ∀ a : Atom, a.rename .identity = a
  | .name _ _ | .this _ => by simp [Atom.rename]
  | .new _ _ args _ => by simp [Atom.rename, Expr.renameAll_identity args]

/-- Nor suffixes. -/
theorem Suffix.renameAll_identity : ∀ ss : List Suffix, Suffix.renameAll .identity ss = ss
  | [] => rfl
  | .call line args :: rest => by
    simp [Suffix.renameAll, Expr.renameAll_identity args, Suffix.renameAll_identity rest]
  | .index line e :: rest => by
    simp [Suffix.renameAll, Expr.rename_identity e, Suffix.renameAll_identity rest]
  | .member line id :: rest => by simp [Suffix.renameAll, Suffix.renameAll_identity rest]

end

/-- As an equation of functions, for the expressions under a `map`. -/
@[simp] theorem Expr.rename_identity_eq :
    Expr.rename .identity = fun e => e := funext Expr.rename_identity

@[simp] theorem VarDecl.rename_identity (d : VarDecl) :
    d.rename .identity = d := by simp [VarDecl.rename]

@[simp] theorem ConstDecl.rename_identity (d : ConstDecl) :
    d.rename .identity = d := by simp [ConstDecl.rename]

@[simp] theorem Signature.rename_identity (s : Signature) : s.rename .identity = s := by
  have hparam : Param.rename .identity = fun p => p := rfl
  simp [Signature.rename, hparam]

@[simp] theorem Assignment.rename_identity (a : Assignment) : a.rename .identity = a := by
  cases a <;> simp [Assignment.rename]

@[simp] theorem LoopInit.rename_identity (i : LoopInit) : i.rename .identity = i := by
  cases i <;> simp [LoopInit.rename]

mutual

/-- The identity changes no statement. -/
theorem Stmt.rename_identity : ∀ s : Stmt, s.rename .identity = s
  | .function sig body => by simp [Stmt.rename, Stmt.renameAll_identity body]
  | .classDecl line name parent? ms => by simp [Stmt.rename, Member.renameAll_identity ms]
  | .block line body | .whileLoop line c body | .doWhile line body c | .forLoop line init c? u? body
  | .forEach line x items body | .ifElse line c body none => by
    simp [Stmt.rename, Stmt.renameAll_identity body]
  | .ifElse line c yes (some no) => by
    simp [Stmt.rename, Stmt.renameAll_identity yes, Stmt.renameAll_identity no]
  | .tryCatch line body handler => by
    simp [Stmt.rename, Stmt.renameAll_identity body, Stmt.renameAll_identity handler]
  | .switch line e cs none => by simp [Stmt.rename, Case.renameAll_identity cs]
  | .switch line e cs (some body) => by
    simp [Stmt.rename, Case.renameAll_identity cs, Stmt.renameAll_identity body]
  | .declare d | .constant d | .assign a | .expr e | .print line e | .breakLoop
      line | .continueLoop line
  | .returnValue line e? => by simp [Stmt.rename]

theorem Stmt.renameAll_identity : ∀ ss : List Stmt, Stmt.renameAll .identity ss = ss
  | [] => rfl
  | s :: ss => by simp [Stmt.renameAll, Stmt.rename_identity s, Stmt.renameAll_identity ss]

/-- Nor the cases of a switch. -/
theorem Case.renameAll_identity : ∀ cs : List Case, Case.renameAll .identity cs = cs
  | [] => rfl
  | .mk e body :: rest => by
    simp [Case.renameAll, Stmt.renameAll_identity body, Case.renameAll_identity rest]

/-- Nor the members of a class. -/
theorem Member.renameAll_identity : ∀ ms : List Member, Member.renameAll .identity ms = ms
  | [] => rfl
  | .method sig body :: rest => by
    simp [Member.renameAll, Stmt.renameAll_identity body, Member.renameAll_identity rest]
  | .field _ :: rest | .constant _ :: rest => by
    simp [Member.renameAll, Member.renameAll_identity rest]

end

/-! ## What stands in a statement -/

inductive Item where
  /-- An expression that is read for its value. -/
  | value (e : Expr)
  /-- The last part of a counting loop, or the value of a case: read at another time if there are
  reports. -/
  | aside (e : Expr)
  /-- A variable that is declared or assigned to. -/
  | var (x : String)
  | function (name : String)
  /-- A type that is written. -/
  | type (text : String)
  | classDecl (name : String)

def VarDecl.items (d : VarDecl) : List Item :=
  .var d.name :: (d.type?.toList.map .type ++ d.init?.toList.map .value)

def ConstDecl.items (d : ConstDecl) : List Item :=
  .var d.name :: .value d.value :: d.type?.toList.map .type

def Assignment.items : Assignment → List Item
  | toName _ x e => [.var x, .value e]
  | toMember base _ v => [.value base, .value v]

def LoopInit.items : LoopInit → List Item
  | nothing => []
  | declare d => d.items
  | assign a => a.items

def Param.items (p : Param) : List Item := .var p.name :: p.type?.toList.map .type

def Signature.items (s : Signature) : List Item :=
  .function s.name :: (s.params.flatMap Param.items ++ s.result?.toList.map .type)

mutual

/-- The items of a statement, those of the statements in it included. -/
def Stmt.items : Stmt → List Item
  | .declare d => d.items
  | .constant d => d.items
  | .assign a => a.items
  | .function sig body => sig.items ++ Stmt.itemsAll body
  | .classDecl _ name _ ms => .classDecl name :: Member.itemsAll ms
  | .expr e => [.value e]
  | .print _ e => [.value e]
  | .block _ body => Stmt.itemsAll body
  | .ifElse _ c yes none => .value c :: Stmt.itemsAll yes
  | .ifElse _ c yes (some no) => .value c :: (Stmt.itemsAll yes ++ Stmt.itemsAll no)
  | .whileLoop _ c body => .value c :: Stmt.itemsAll body
  | .doWhile _ body c => .value c :: Stmt.itemsAll body
  | .forLoop _ init c? u? body =>
    init.items ++ (c?.toList.map .value ++ (u?.toList.map .aside ++ Stmt.itemsAll body))
  | .forEach _ x items body => .var x :: .value items :: Stmt.itemsAll body
  | .tryCatch _ body handler => Stmt.itemsAll body ++ Stmt.itemsAll handler
  | .switch _ e cs none => .value e :: Case.itemsAll cs
  | .switch _ e cs (some body) => .value e :: (Case.itemsAll cs ++ Stmt.itemsAll body)
  | .breakLoop _ => []
  | .continueLoop _ => []
  | .returnValue _ e? => e?.toList.map .value

def Stmt.itemsAll : List Stmt → List Item
  | [] => []
  | s :: ss => s.items ++ Stmt.itemsAll ss

def Case.itemsAll : List Case → List Item
  | [] => []
  | .mk e body :: rest => .aside e :: (Stmt.itemsAll body ++ Case.itemsAll rest)

def Member.itemsAll : List Member → List Item
  | [] => []
  | .method sig body :: rest => sig.items ++ (Stmt.itemsAll body ++ Member.itemsAll rest)
  | .field d :: rest => d.items ++ Member.itemsAll rest
  | .constant d :: rest => d.items ++ Member.itemsAll rest

end

/-! ## Names in a statement -/

mutual

/-- The names of variables and functions that an expression uses. -/
def Expr.names : Expr → List String
  | .assign (.mk a ss) v => a.names ++ (Suffix.namesAll ss ++ v.names)
  | .ternary c yes no => c.names ++ (yes.names ++ no.names)
  | .chain _ first rest => first.names ++ Expr.namesRest rest
  | .not _ e | .negate _ e | .group _ e => e.names
  | .literal _ _ => []
  | .array _ es => Expr.namesAll es
  | .access (.mk a ss) => a.names ++ Suffix.namesAll ss

def Expr.namesRest : List (String × Expr) → List String
  | [] => []
  | (_, e) :: rest => e.names ++ Expr.namesRest rest

def Expr.namesAll : List Expr → List String
  | [] => []
  | e :: es => e.names ++ Expr.namesAll es

def Atom.names : Atom → List String
  | .name _ x => [x]
  | .new _ _ args _ => Expr.namesAll args
  | .this _ => []

def Suffix.namesAll : List Suffix → List String
  | [] => []
  | .call _ args :: rest => Expr.namesAll args ++ Suffix.namesAll rest
  | .index _ e :: rest => e.names ++ Suffix.namesAll rest
  | .member _ _ :: rest => Suffix.namesAll rest

end

def Item.names : Item → List String
  | value e | aside e => e.names
  | var x | function x => [x]
  | type _ | classDecl _ => []

/-- The names of variables and functions in a program. -/
def Program.names (p : Program) : List String := (Stmt.itemsAll p).flatMap Item.names

section

variable {r r' : Renaming} (hmember : r'.member = r.member)
include hmember

-- A theorem of the block may use the hypothesis only through the others.
set_option linter.unusedSectionVars false in
mutual

/-- Only the names that an expression uses count. -/
theorem Expr.rename_congr :
    ∀ e : Expr, (∀ x ∈ e.names, r'.var x = r.var x) → e.rename r' = e.rename r
  | .assign (.mk a ss) v, h => by
    rw [Expr.names, List.forall_mem_append, List.forall_mem_append] at h
    rw [Expr.rename, Expr.rename, Atom.rename_congr a h.1, Suffix.rename_congr ss h.2.1,
      Expr.rename_congr v h.2.2]
  | .ternary c yes no, h => by
    rw [Expr.names, List.forall_mem_append, List.forall_mem_append] at h
    rw [Expr.rename, Expr.rename, Expr.rename_congr c h.1, Expr.rename_congr yes h.2.1,
      Expr.rename_congr no h.2.2]
  | .chain level first rest, h => by
    rw [Expr.names, List.forall_mem_append] at h
    rw [Expr.rename, Expr.rename, Expr.rename_congr first h.1, Expr.renameRest_congr rest h.2]
  | .not _ e, h | .negate _ e, h | .group _ e, h => by
    rw [Expr.rename, Expr.rename, Expr.rename_congr e h]
  | .literal _ _, _ => by rw [Expr.rename, Expr.rename]
  | .array line es, h => by rw [Expr.rename, Expr.rename, Expr.renameAll_congr es h]
  | .access (.mk a ss), h => by
    rw [Expr.names, List.forall_mem_append] at h
    rw [Expr.rename, Expr.rename, Atom.rename_congr a h.1, Suffix.rename_congr ss h.2]

/-- So do operands, if the renamings agree on theirs. -/
theorem Expr.renameRest_congr :
    ∀ rest : List (String × Expr), (∀ x ∈ Expr.namesRest rest, r'.var x = r.var x) →
    Expr.renameRest r' rest = Expr.renameRest r rest
  | [], _ => rfl
  | (op, e) :: rest, h => by
    rw [Expr.namesRest, List.forall_mem_append] at h
    rw [Expr.renameRest, Expr.renameRest, Expr.rename_congr e h.1, Expr.renameRest_congr rest h.2]

/-- So do the expressions of a list. -/
theorem Expr.renameAll_congr : ∀ es : List Expr, (∀ x ∈ Expr.namesAll es, r'.var x = r.var x) →
    Expr.renameAll r' es = Expr.renameAll r es
  | [], _ => rfl
  | e :: es, h => by
    rw [Expr.namesAll, List.forall_mem_append] at h
    rw [Expr.renameAll, Expr.renameAll, Expr.rename_congr e h.1, Expr.renameAll_congr es h.2]

/-- So does an atom. Its class and the text of a `new` are no variables. -/
theorem Atom.rename_congr :
    ∀ a : Atom, (∀ x ∈ a.names, r'.var x = r.var x) → a.rename r' = a.rename r
  | .name line x, h => by rw [Atom.rename, Atom.rename, h x List.mem_cons_self]
  | .new line cls args text, h => by rw [Atom.rename, Atom.rename, Expr.renameAll_congr args h]
  | .this line, _ => by rw [Atom.rename, Atom.rename]

/-- So do suffixes. -/
theorem Suffix.rename_congr : ∀ ss : List Suffix, (∀ x ∈ Suffix.namesAll ss, r'.var x = r.var x) →
    Suffix.renameAll r' ss = Suffix.renameAll r ss
  | [], _ => rfl
  | .call line args :: rest, h => by
    rw [Suffix.namesAll, List.forall_mem_append] at h
    rw [Suffix.renameAll, Suffix.renameAll, Expr.renameAll_congr args h.1,
      Suffix.rename_congr rest h.2]
  | .index line e :: rest, h => by
    rw [Suffix.namesAll, List.forall_mem_append] at h
    rw [Suffix.renameAll, Suffix.renameAll, Expr.rename_congr e h.1, Suffix.rename_congr rest h.2]
  | .member line id :: rest, h => by
    rw [Suffix.renameAll, Suffix.renameAll, Suffix.rename_congr rest h, hmember]

end

/-- An optional part with its names. -/
theorem Expr.renameOption_congr {e? : Option Expr} {f : Expr → Item}
    (hf : ∀ e, (f e).names = e.names)
    (h : ∀ i ∈ e?.toList.map f, ∀ x ∈ i.names, r'.var x = r.var x) :
    e?.map (Expr.rename r') = e?.map (Expr.rename r) := by
  cases e? with
  | none => rfl
  | some e =>
    refine congrArg some (Expr.rename_congr hmember e fun x hx => h (f e) (.head _) x ?_)
    rwa [hf]

/-- What is renamed of a declaration are the names among its items. -/
theorem VarDecl.rename_congr (d : VarDecl) (h : ∀ i ∈ d.items, ∀ x ∈ i.names, r'.var x = r.var x) :
    d.rename r' = d.rename r := by
  rw [VarDecl.items, List.forall_mem_cons, List.forall_mem_append] at h
  rw [VarDecl.rename, VarDecl.rename, h.1 d.name (.head _),
    Expr.renameOption_congr hmember (fun _ => rfl) h.2.2]

theorem ConstDecl.rename_congr (d : ConstDecl)
    (h : ∀ i ∈ d.items, ∀ x ∈ i.names, r'.var x = r.var x) :
    d.rename r' = d.rename r := by
  rw [ConstDecl.items, List.forall_mem_cons, List.forall_mem_cons] at h
  rw [ConstDecl.rename, ConstDecl.rename, h.1 d.name (.head _),
    Expr.rename_congr hmember d.value h.2.1]

omit hmember in
/-- A signature names its function and its parameters. -/
theorem Signature.rename_congr (s : Signature)
    (h : ∀ i ∈ s.items, ∀ x ∈ i.names, r'.var x = r.var x) :
    s.rename r' = s.rename r := by
  have hparams : s.params.map (Param.rename r') = s.params.map (Param.rename r) := by
    refine List.map_congr_left fun p hp => ?_
    have hname : r'.var p.name = r.var p.name := by
      refine h (.var p.name) ?_ p.name (.head _)
      refine List.mem_cons_of_mem _ (List.mem_append_left _ (List.mem_flatMap.mpr ⟨p, hp, ?_⟩))
      exact (.head _)
    rw [Param.rename, Param.rename, hname]
  rw [Signature.rename, Signature.rename, hparams]

/-- An assignment to a member renames the object, not the member. -/
theorem Assignment.rename_congr (a : Assignment)
    (h : ∀ i ∈ a.items, ∀ x ∈ i.names, r'.var x = r.var x) :
    a.rename r' = a.rename r := by
  cases a with
  | toName line x e =>
    rw [Assignment.items, List.forall_mem_cons, List.forall_mem_cons] at h
    rw [Assignment.rename, Assignment.rename, h.1 x (.head _), Expr.rename_congr hmember e h.2.1]
  | toMember base member v =>
    rw [Assignment.items, List.forall_mem_cons, List.forall_mem_cons] at h
    rw [Assignment.rename, Assignment.rename, Expr.rename_congr hmember base h.1,
      Expr.rename_congr hmember v h.2.1,
      hmember]

theorem LoopInit.rename_congr (init : LoopInit)
    (h : ∀ i ∈ init.items, ∀ x ∈ i.names, r'.var x = r.var x) :
    init.rename r' = init.rename r := by
  cases init with
  | nothing => rfl
  | declare d => exact congrArg LoopInit.declare (d.rename_congr hmember h)
  | assign a => exact congrArg LoopInit.assign (a.rename_congr hmember h)

-- A theorem of the block may use the hypothesis only through the others.
set_option linter.unusedSectionVars false in
mutual

/-- Renamings that agree on the names of a statement do the same to it. -/
theorem Stmt.rename_congr :
    ∀ s : Stmt, (∀ i ∈ s.items, ∀ x ∈ i.names, r'.var x = r.var x) → s.rename r' = s.rename r
  | .declare d, h | .constant d, h | .assign d, h => by
    rw [Stmt.rename, Stmt.rename, d.rename_congr hmember h]
  | .function sig body, h => by
    rw [Stmt.items, List.forall_mem_append] at h
    rw [Stmt.rename, Stmt.rename, sig.rename_congr h.1, Stmt.renameAll_congr body h.2]
  | .classDecl line name parent? ms, h => by
    rw [Stmt.items, List.forall_mem_cons] at h
    rw [Stmt.rename, Stmt.rename, Member.renameAll_congr ms h.2]
  | .expr e, h | .print _ e, h => by
    rw [Stmt.rename, Stmt.rename, Expr.rename_congr hmember e (h _ (.head _))]
  | .block line body, h => congrArg (Stmt.block line) (Stmt.renameAll_congr body h)
  | .ifElse _ c body none, h | .whileLoop _ c body, h | .doWhile _ body c, h => by
    rw [Stmt.items, List.forall_mem_cons] at h
    rw [Stmt.rename, Stmt.rename, Expr.rename_congr hmember c h.1, Stmt.renameAll_congr body h.2]
  | .ifElse line c yes (some no), h => by
    rw [Stmt.items, List.forall_mem_cons, List.forall_mem_append] at h
    rw [Stmt.rename, Stmt.rename, Expr.rename_congr hmember c h.1, Stmt.renameAll_congr yes h.2.1,
      Stmt.renameAll_congr no h.2.2]
  | .forLoop line init c? u? body, h => by
    rw [Stmt.items, List.forall_mem_append, List.forall_mem_append, List.forall_mem_append] at h
    rw [Stmt.rename, Stmt.rename, init.rename_congr hmember h.1,
      Expr.renameOption_congr hmember (fun _ => rfl) h.2.1,
      Expr.renameOption_congr hmember (fun _ => rfl) h.2.2.1, Stmt.renameAll_congr body h.2.2.2]
  | .forEach line x items body, h => by
    rw [Stmt.items, List.forall_mem_cons, List.forall_mem_cons] at h
    rw [Stmt.rename, Stmt.rename, h.1 x (.head _), Expr.rename_congr hmember items h.2.1,
      Stmt.renameAll_congr body h.2.2]
  | .tryCatch line body handler, h => by
    rw [Stmt.items, List.forall_mem_append] at h
    rw [Stmt.rename, Stmt.rename, Stmt.renameAll_congr body h.1, Stmt.renameAll_congr handler h.2]
  | .switch line e cs none, h => by
    rw [Stmt.items, List.forall_mem_cons] at h
    rw [Stmt.rename, Stmt.rename, Expr.rename_congr hmember e h.1, Case.renameAll_congr cs h.2]
  | .switch line e cs (some body), h => by
    rw [Stmt.items, List.forall_mem_cons, List.forall_mem_append] at h
    rw [Stmt.rename, Stmt.rename, Expr.rename_congr hmember e h.1, Case.renameAll_congr cs h.2.1,
      Stmt.renameAll_congr body h.2.2]
  | .breakLoop _, _ | .continueLoop _, _ => rfl
  | .returnValue line e?, h =>
    congrArg (Stmt.returnValue line) (Expr.renameOption_congr hmember (fun _ => rfl) h)

/-- The same of a sequence of statements. -/
theorem Stmt.renameAll_congr :
    ∀ ss : List Stmt, (∀ i ∈ Stmt.itemsAll ss, ∀ x ∈ i.names, r'.var x = r.var x) →
    Stmt.renameAll r' ss = Stmt.renameAll r ss
  | [], _ => rfl
  | s :: ss, h => by
    rw [Stmt.itemsAll, List.forall_mem_append] at h
    rw [Stmt.renameAll, Stmt.renameAll, Stmt.rename_congr s h.1, Stmt.renameAll_congr ss h.2]

/-- The same of the cases of a switch. -/
theorem Case.renameAll_congr :
    ∀ cs : List Case, (∀ i ∈ Case.itemsAll cs, ∀ x ∈ i.names, r'.var x = r.var x) →
    Case.renameAll r' cs = Case.renameAll r cs
  | [], _ => rfl
  | .mk e body :: rest, h => by
    rw [Case.itemsAll, List.forall_mem_cons, List.forall_mem_append] at h
    rw [Case.renameAll, Case.renameAll, Expr.rename_congr hmember e h.1,
      Stmt.renameAll_congr body h.2.1,
      Case.renameAll_congr rest h.2.2]

/-- The same of the members of a class. -/
theorem Member.renameAll_congr :
    ∀ ms : List Member, (∀ i ∈ Member.itemsAll ms, ∀ x ∈ i.names, r'.var x = r.var x) →
    Member.renameAll r' ms = Member.renameAll r ms
  | [], _ => rfl
  | .method sig body :: rest, h => by
    rw [Member.itemsAll, List.forall_mem_append, List.forall_mem_append] at h
    rw [Member.renameAll, Member.renameAll, sig.rename_congr h.1, Stmt.renameAll_congr body h.2.1,
      Member.renameAll_congr rest h.2.2]
  | .field d :: rest, h | .constant d :: rest, h => by
    rw [Member.itemsAll, List.forall_mem_append] at h
    rw [Member.renameAll, Member.renameAll, d.rename_congr hmember h.1,
      Member.renameAll_congr rest h.2]

end

end

/-! ## Tables -/

namespace Assoc

variable {ν : Type} {f : String → String}

def renameKeys (f : String → String) (t : Assoc String ν) : Assoc String ν :=
  t.map fun e => (f e.1, e.2)

/-- A renamed table is asked for renamed names. -/
theorem get?_renameKeys (hf : Function.Injective f) (t : Assoc String ν) (x : String) :
    (t.renameKeys f).get? (f x) = t.get? x := by
  induction t with
  | nil => rfl
  | cons e t ih =>
    show (if f e.1 = f x then some e.2 else (renameKeys f t).get? (f x)) = _
    rw [ih, Assoc.get?]
    grind

/-- No two names become one, so a name that is put is put once. -/
theorem put_renameKeys (hf : Function.Injective f) (t : Assoc String ν) (x : String) (w : ν) :
    (t.renameKeys f).put (f x) w = (t.put x w).renameKeys f := by
  induction t with
  | nil => rfl
  | cons e t ih =>
    show (if f e.1 = f x then (f e.1, w) :: renameKeys f t else
      (f e.1, e.2) :: (renameKeys f t).put (f x) w) = _
    rw [ih, Assoc.put]
    by_cases hx : e.1 = x
    · rw [if_pos hx, if_pos (congrArg f hx)]
      rfl
    · rw [if_neg hx, if_neg fun h => hx (hf h)]
      rfl

end Assoc

def Function.rename (r : Renaming) (f : Function) : Function :=
  { f with params := f.params.map fun p => (r.var p.1, p.2) }

def SymbolBody.rename (r : Renaming) : SymbolBody → SymbolBody
  | .function f => .function (f.rename r)
  | body => body

def Symbol.rename (r : Renaming) (s : Symbol) : Symbol :=
  { s with name := r.var s.name, body := s.body.rename r }

def Scope.rename (r : Renaming) (c : Scope) : Scope :=
  { c with entries := c.entries.renameKeys r.var }

def SymbolTable.rename (r : Renaming) (t : SymbolTable) : SymbolTable :=
  { t with symbols := t.symbols.map (Symbol.rename r), scopes := t.scopes.map (Scope.rename r) }

namespace Symbol

variable (r : Renaming) (s : Symbol)

@[simp] theorem kind_rename : (s.rename r).kind = s.kind := by
  obtain ⟨name, scope, v | f | c | ⟨k, t⟩⟩ := s <;> rfl

@[simp] theorem type?_rename : (s.rename r).type? = s.type? := by
  obtain ⟨name, scope, v | f | c | ⟨k, t⟩⟩ := s <;> rfl

@[simp] theorem category_rename : (s.rename r).category = s.category := by
  obtain ⟨name, scope, v | f | c | ⟨k, t⟩⟩ := s <;> rfl

/-- Reports call a renamed symbol what they called it before. -/
theorem declaredAs_rename : Compile.declaredAs (s.rename r) = Compile.declaredAs s := by
  obtain ⟨name, scope, v | f | c | ⟨k, t⟩⟩ := s <;> rfl

/-- Parameters are renamed with their function. -/
@[simp] theorem asFunction?_rename :
    (s.rename r).asFunction? = s.asFunction?.map (Function.rename r) := by
  obtain ⟨name, scope, v | f | c | ⟨k, t⟩⟩ := s <;> rfl

@[simp] theorem rename_identity : s.rename .identity = s := by
  obtain ⟨name, scope, v | f | c | ⟨k, t⟩⟩ := s
  · rfl
  · simp [Symbol.rename, SymbolBody.rename, Function.rename]
  · rfl
  · rfl

end Symbol

namespace SymbolTable

variable {r : Renaming} {t t' : SymbolTable} {id : SymbolId}

@[simp] theorem rename_identity (t : SymbolTable) : t.rename .identity = t := by
  have hsymbol : Symbol.rename .identity = fun s => s := funext Symbol.rename_identity
  have hscope : Scope.rename .identity = fun c => c := by
    funext c
    show Scope.mk c.id c.kind c.parent? (c.entries.map fun e => (e.1, e.2)) = c
    rw [show (fun e : String × SymbolId => (e.1, e.2)) = fun e => e from rfl, List.map_id']
  unfold rename
  rw [hsymbol, hscope, Array.map_id', Array.map_id']

/-- Symbols keep their numbers. -/
theorem symbol?_rename (r : Renaming) (t : SymbolTable) (id : SymbolId) :
    (t.rename r).symbol? id = (t.symbol? id).map (Symbol.rename r) := Array.getElem?_map

/-- The innermost scope is the same one, renamed. -/
theorem current_rename (r : Renaming) (t : SymbolTable) :
    (t.rename r).current = t.current.rename r := by
  unfold current
  rw [Array.getD_eq_getD_getElem?, Array.getD_eq_getD_getElem?]
  have hget : (t.rename r).scopes[(t.rename r).currentId]? = t.scopes[t.currentId]?.map
    (Scope.rename r) :=
    Array.getElem?_map
  rw [hget]
  cases t.scopes[t.currentId]? <;> rfl

/-- A new scope holds no names that could be renamed. -/
theorem enter_rename (r : Renaming) (t : SymbolTable) (kind : String) :
    (t.rename r).enter kind = (t.enter kind).rename r := by
  unfold enter rename
  simp [Scope.rename, Assoc.renameKeys]
  exact ⟨rfl, rfl⟩

theorem exit_rename (r : Renaming) (t : SymbolTable) : (t.rename r).exit.2 = t.exit.2.rename r := by
  unfold exit
  rw [show (t.rename r).stack = t.stack from rfl]
  split <;> rfl

/-- A symbol that is kept under the next number stays there. -/
theorem keep_rename (r : Renaming) (t : SymbolTable) (s : Symbol) :
    (t.rename r).keep (s.rename r) = ((t.keep s).1, (t.keep s).2.rename r) := by
  unfold keep rename
  simp

/-- A change of one element goes with a change of all. -/
theorem modify_map {α β : Type} {g : α → β} {f : α → α} {f' : β → β} (hf : ∀ x, g (f x) = f' (g x))
    (xs : Array α) (i : Nat) : (xs.map g).modify i f' = (xs.modify i f).map g := by
  apply Array.ext_getElem?
  intro j
  rw [Array.getElem?_modify, Array.getElem?_map, Array.getElem?_map, Array.getElem?_modify]
  split
  · grind
  · rfl

/-- A change of a symbol is made before or after renaming it. -/
theorem modifySymbol_rename {f f' : Symbol → Symbol} (hf : ∀ s, (f s).rename r = f' (s.rename r))
    (t : SymbolTable) (id : SymbolId) :
    (t.rename r).modifySymbol id f' = (t.modifySymbol id f).rename r := by
  unfold modifySymbol rename
  rw [← modify_map hf]

section
variable (hr : Function.Injective r.var)
include hr

/-- In every scope, a renamed name is what the name was. -/
theorem findIn?_rename (t : SymbolTable) (i : Nat) (x : String) :
    (t.rename r).findIn? i (r.var x) = t.findIn? i x := by
  have hget : (t.rename r).scopes[i]? = t.scopes[i]?.map (Scope.rename r) := Array.getElem?_map
  unfold findIn?
  rw [hget]
  cases t.scopes[i]? with
  | none => rfl
  | some c => exact Assoc.get?_renameKeys hr c.entries x

theorem lookupCurrent?_rename (t : SymbolTable) (x : String) :
    (t.rename r).lookupCurrent? (r.var x) = t.lookupCurrent? x := findIn?_rename hr t _ x

/-- So it is in the open scopes, from the inside out. -/
theorem lookup?_rename (t : SymbolTable) (x : String) :
    (t.rename r).lookup? (r.var x) = t.lookup? x := by
  unfold lookup?
  have hfind : (fun i => (t.rename r).findIn? i (r.var x)) = fun i => t.findIn? i x :=
    funext fun i => findIn?_rename hr t i x
  rw [hfind]
  rfl

/-- What is found is renamed as well. -/
theorem lookupSymbol?_rename (t : SymbolTable) (x : String) :
    (t.rename r).lookupSymbol? (r.var x) = (t.lookupSymbol? x).map (Symbol.rename r) := by
  unfold lookupSymbol?
  rw [lookup?_rename hr]
  cases t.lookup? x with
  | none => rfl
  | some id => exact symbol?_rename r t id

/-- A symbol is declared under its new name exactly if it is under its old one. -/
theorem declare_rename (t : SymbolTable) (id : SymbolId) :
    (∀ t', t.declare id = .ok t' → (t.rename r).declare id = .ok (t'.rename r)) ∧
      ∀ f, t.declare id = .error f → ∃ x, f = .duplicate x ∧
        (t.rename r).declare id = .error (.duplicate (r.var x)) := by
  unfold declare
  rw [symbol?_rename]
  cases t.symbol? id with
  | none =>
    refine ⟨fun t' h => ?_, fun f h => by cases h⟩
    obtain rfl := Except.ok.inj h
    rfl
  | some s =>
    have hcontains : (t.rename r).current.entries.contains (s.rename r).name =
      t.current.entries.contains s.name := by
      unfold Assoc.contains
      rw [current_rename]
      exact congrArg Option.isSome (Assoc.get?_renameKeys hr t.current.entries s.name)
    dsimp only [Option.map_some]
    rw [hcontains]
    split
    · exact ⟨fun t' h => (by cases h), fun f h => ⟨s.name, (Except.error.inj h).symm, rfl⟩⟩
    · refine ⟨fun t' h => ?_, fun f h => by cases h⟩
      obtain rfl := Except.ok.inj h
      have hsymbols : (t.symbols.map (Symbol.rename r)).modify id
        ({ · with scope := t.currentId }) =
          (t.symbols.modify id ({ · with scope := t.currentId })).map (Symbol.rename r) := by
        refine modify_map (fun _ => ?_) _ _
        rfl
      have hscopes : (t.scopes.map (Scope.rename r)).modify t.currentId
          (fun c : Scope => { c with entries := c.entries.put (r.var s.name) id }) =
          (t.scopes.modify t.currentId fun c => { c with entries := c.entries.put s.name id }).map
            (Scope.rename r) :=
        modify_map (fun c => congrArg (Scope.mk c.id c.kind c.parent?)
          (Assoc.put_renameKeys hr c.entries s.name id).symm) _ _
      show Except.ok (SymbolTable.mk _ _ _ _) = Except.ok (SymbolTable.mk _ _ _ _)
      rw [← hsymbols, ← hscopes]
      rfl

end

end SymbolTable

end Scriptc
