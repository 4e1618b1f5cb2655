import Scriptc.Proofs.Renaming
import Scriptc.Proofs.Twin
import Scriptc.Proofs.Visibility

/-!
# Scriptc: what two readings have in common

Two readings of a program, or of a program and of the same program with other names for its
variables, are compared step by step. What they have in common is `Pairing.Agree`: the names in
scope up to the renaming, the warnings and where in the program they are. What is asked of reports,
operands and code depends on the comparison, and is a part of the `Pairing`.

`Pairing.Steps` collects what the code that is written has to satisfy for both readings to stay
together; the steps that look at names and types, and report what is wrong with them, are treated
here once for all comparisons.
-/

namespace Scriptc

open Build (Ends)

/-! ## Names of classes -/

namespace Compile

theorem class?_eq (name : String) :
    class? name = do return ((← get).table.lookupSymbol? name).filter (·.kind = .classDecl) := by
  unfold class? Build.lookup?
  simp only [bind_assoc, pure_bind]
  congr 1
  funext b
  cases b.table.lookupSymbol? name with
  | none => rfl
  | some s => simp [Option.filter]

theorem typeOf_eq (text : String) : typeOf text = Build.ofExcept (Ty.ofText text) >>= fun t? =>
    t?.elim (class? text >>= fun s? => return s?.map fun _ => .named text) fun t =>
      return some t := by
  unfold typeOf class?
  congr 1
  funext t?
  cases t? with
  | some t => rfl
  | none =>
    simp only [Option.elim, bind_assoc]
    grind

/-- Behind its declaration a name stands for something, whether it was free or taken. -/
theorem declared_of_declare {line : Nat} {s : Symbol} {r : SymbolId × Bool} {b c : Build}
    (hsound : b.table.Sound) (hend : Ends (declare line s) b r c) :
    (c.table.lookupSymbol? s.name).isSome = true := by
  rcases declare_ends hend with ⟨id, t, hfree, hadd, -, rfl⟩ | ⟨htaken, -, htable, -⟩
  · have hadds := SymbolTable.adds_of_add hadd
    have hfound : t.lookup? s.name = some id :=
      lookup?_of_lookupCurrent? (hadds.lookupCurrent? hsound hfree)
    show ((t.lookup? s.name).bind t.symbol?).isSome = true
    rw [hfound, Option.bind_some, hadds.stored]
    rfl
  · obtain ⟨id, hid⟩ := Option.isSome_iff_exists.mp htaken
    obtain ⟨s', hs'⟩ := hsound.exists_symbol hid
    have hfound : (b.table.keep s).2.lookup? s.name = some id :=
      lookup?_of_lookupCurrent? (t := b.table) hid
    show ((c.table.lookup? s.name).bind c.table.symbol?).isSome = true
    rw [htable, hfound, Option.bind_some, SymbolTable.symbol?_keep hs']
    rfl

end Compile

/-- How two readings are compared. -/
structure Pairing where
  names : Renaming
  /-- Only readings that complete are compared. -/
  lax : Prop
  /-- There are classes. -/
  classes : Prop
  /-- The names of variables, and the constants, that the programs have. -/
  fit : String → Prop
  lit : String → Prop
  /-- The expressions that are read at another time if there are reports. -/
  aside : Expr → Prop
  operand : Operand → Operand → Prop
  text : String → String → Prop
  reports : Array String → Array String → Prop
  code : Build → Build → Prop

namespace Pairing

/-- Functions keep their names, and a class is there only if there are classes. -/
structure Proper (P : Pairing) (s : Symbol) : Prop where
  function : s.kind = .function → P.names.var s.name = s.name
  classDecl : s.kind = .classDecl → P.classes

/-- What two readings have in common. -/
structure Agree (P : Pairing) (b b' : Build) : Prop where
  sound : b.table.Sound
  proper : ∀ id s, b.table.symbol? id = some s → P.Proper s
  inside : b.inClass?.isSome = true → P.classes
  table : b'.table = b.table.rename P.names
  warnings : b'.warnings = b.warnings
  inFunction? : b'.inFunction? = b.inFunction?
  inClass? : b'.inClass? = b.inClass?
  loops : b'.loops = b.loops
  unreachable : b'.unreachable = b.unreachable
  reports : P.reports b.errors b'.errors
  code : P.code b b'

/-- The steps come to the same in both readings. -/
abbrev Twin (P : Pairing) {α α' : Type} (A : α → α' → Prop) (m : BuildM α) (m' : BuildM α') :
    Prop :=
  Build.Twin P.lax P.Agree A m m'

abbrev From (P : Pairing) {α α' : Type} (A : α → α' → Prop) (b b' : Build) (m : BuildM α)
    (m' : BuildM α') : Prop :=
  Build.From P.lax P.Agree A b b' m m'

abbrev Guarded (P : Pairing) {α α' : Type} (b b' : Build) (m : BuildM α) (m' : BuildM α') : Prop :=
  Build.Guarded P.lax P.Agree b b' m m'

/-- Whatever the steps give. -/
abbrev Any {α α' : Type} : α → α' → Prop := fun _ _ => True

/-- One and the same step keeps the readings together. -/
abbrev Same (P : Pairing) {α : Type} (m : BuildM α) : Prop := P.Twin Any m m

/-- One and the same step gives the same in both readings. -/
abbrev Alike (P : Pairing) {α : Type} (m : BuildM α) : Prop := P.Twin Eq m m

/-- What both readings do with reports and with the state beside the code. -/
structure Base (P : Pairing) : Prop where
  inj : Function.Injective P.names.var
  ident : P.classes → P.names = .identity
  text_var : ∀ (f : String → String) (x : String), P.text (f x) (f (P.names.var x))
  text_member : ∀ (f : String → String) (x : String), P.text (f x) (f (P.names.member x))
  report : ∀ {es es' : Array String} (line : Option Nat) {t t' : String},
    P.text t t' → P.reports es es' →
    P.reports (es.push ("Error semántico. Línea " ++ Build.lineText line ++ ": " ++ t))
      (es'.push ("Error semántico. Línea " ++ Build.lineText line ++ ": " ++ t'))
  /-- The code does not depend on names, reports and the place in the program. -/
  apart : ∀ {b b' : Build} {t t' e e' w w' f f' k k' n n' u u'}, P.code b b' →
    P.code { b with
        table := t, errors := e, warnings := w, inFunction? := f, inClass? := k, loops := n
        unreachable := u }
      { b' with
        table := t', errors := e', warnings := w', inFunction? := f', inClass? := k', loops := n'
        unreachable := u' }

variable {P : Pairing} {b b' : Build}

namespace Agree

variable (h : P.Agree b b')
include h

theorem lookupSymbol? (hP : P.Base) (x : String) :
    b'.table.lookupSymbol? (P.names.var x) = (b.table.lookupSymbol? x).map
      (Symbol.rename P.names) := by
  rw [h.table, SymbolTable.lookupSymbol?_rename hP.inj]

theorem symbol? (id : SymbolId) :
    b'.table.symbol? id = (b.table.symbol? id).map (Symbol.rename P.names) := by
  rw [h.table, SymbolTable.symbol?_rename]

theorem currentId : b'.table.currentId = b.table.currentId := by
  rw [h.table]
  rfl

/-- If there are classes, both tables are one. -/
theorem table_eq (hP : P.Base) (hclasses : P.classes) : b'.table = b.table := by
  rw [h.table, hP.ident hclasses, SymbolTable.rename_identity]

end Agree

/-! ## Reports -/

namespace Base

variable (hP : P.Base) {α α' : Type} {A : α → α' → Prop}
include hP

theorem text_refl (t : String) : P.text t t := hP.text_var (fun _ => t) ""

theorem error (line : Option Nat) {t t' : String} (ht : P.text t t') :
    P.Twin Any (Build.error line t) (Build.error line t') :=
  Build.Twin.modify fun _ _ h =>
    { h with reports := hP.report line ht h.reports, code := hP.apart h.code }

theorem warn (line : Option Nat) (t : String) : P.Same (Build.warn line t) :=
  Build.Twin.modify fun _ _ h =>
    { h with warnings := congrArg (Array.push · _) h.warnings, code := hP.apart h.code }

/-- A report and then a value. -/
theorem errorThen (line : Option Nat) {t t' : String} (ht : P.text t t') {a : α} {a' : α'}
    (ha : A a a') :
    P.Twin A (do Build.error line t; return a) (do Build.error line t'; return a') :=
  (hP.error line ht).seq (.pure ha)

theorem errorSame (line : Option Nat) (t : String) (a : α) :
    P.Alike (do Build.error line t; return a) :=
  hP.errorThen line (hP.text_refl t) rfl

omit hP in
theorem typeName (t? : Option Ty) : P.Alike (Check.typeName t?) := .ofExcept _

/-- Reports that name no variables are the same. -/
theorem remarks {m : BuildM α} (hm : Check.Remarks m) : P.Alike m := by
  induction hm with
  | pure a => exact .pure rfl
  | ofExcept r => exact .ofExcept r
  | error line text => exact (hP.error line (hP.text_refl text)).mono fun _ _ _ => rfl
  | bind _ _ hm hf => exact hm.bind_eq hf

theorem remark {m : BuildM Unit} (hm : Check.Remarks m) :
    P.Same m := (hP.remarks hm).mono fun _ _ _ => trivial

theorem unreachable (line : Option Nat) (what : String) :
    P.Alike (Check.unreachable line what) := by
  unfold Check.unreachable
  intro b b' h
  refine .get_bind ?_
  rw [h.unreachable]
  split
  · exact ((hP.warn line _).seq (.pure rfl) : P.Twin Eq _ _) h
  · exact Build.From.pure rfl h

/-- Parameters whose types are the same. -/
theorem arguments (line : Option Nat) {say say' : Nat → String → String → String}
    (hsay : ∀ i expected found, P.text (say i expected found) (say' i expected found))
    (ps : List (String × Option Ty)) (types : List (Option Ty)) (i : Nat) :
    P.Twin Any (Check.arguments line say i ps types)
      (Check.arguments line say' i (ps.map fun p => (P.names.var p.1, p.2)) types) := by
  induction ps generalizing types i with
  | nil => exact .pure trivial
  | cons p ps ih =>
    cases types with
    | nil => exact .pure trivial
    | cons t types =>
      rw [List.map_cons]
      unfold Check.arguments
      split
      · refine (hP.remarks (.assignable t p.2)).bind_eq fun ok => ?_
        dsimp only
        split
        · refine (typeName p.2).bind_eq fun expected => ?_
          refine (typeName t).bind_eq fun found => ?_
          exact (hP.error line (hsay _ _ _)).seq (ih types (i + 1))
        · exact ih types (i + 1)
      · exact ih types (i + 1)

/-! ## Names in scope -/

theorem withTable (h : P.Agree b b') {t : SymbolTable} (hsound : t.Sound)
    (hproper : ∀ id s, t.symbol? id = some s → P.Proper s) :
    P.Agree { b with table := t } { b' with table := t.rename P.names } :=
  ⟨hsound, hproper, h.inside, rfl, h.warnings, h.inFunction?, h.inClass?, h.loops,
    h.unreachable, h.reports,
    hP.apart h.code⟩

theorem lookup?_bind (h : P.Agree b b') {x : String}
    {f : Option Symbol → BuildM α} {f' : Option Symbol → BuildM α'}
    (hf : P.From A b b' (f (b.table.lookupSymbol? x))
      (f' ((b.table.lookupSymbol? x).map (Symbol.rename P.names)))) :
    P.From A b b' (Build.lookup? x >>= f) (Build.lookup? (P.names.var x) >>= f') := by
  rw [← h.lookupSymbol? hP] at hf
  exact hf

theorem currentSymbol?_bind (h : P.Agree b b') {x : String}
    {f : Option Symbol → BuildM α} {f' : Option Symbol → BuildM α'}
    (hf : P.From A b b' (f ((b.table.lookupCurrent? x).bind b.table.symbol?))
      (f' (((b.table.lookupCurrent? x).bind b.table.symbol?).map (Symbol.rename P.names)))) :
    P.From A b b' (Compile.currentSymbol? x >>= f)
      (Compile.currentSymbol? (P.names.var x) >>= f') := by
  have hsymbol : (b'.table.lookupCurrent? (P.names.var x)).bind b'.table.symbol? =
      ((b.table.lookupCurrent? x).bind b.table.symbol?).map (Symbol.rename P.names) := by
    rw [h.table, SymbolTable.lookupCurrent?_rename hP.inj]
    cases b.table.lookupCurrent? x with
    | none => rfl
    | some id => exact SymbolTable.symbol?_rename _ _ _
  rw [← hsymbol] at hf
  exact hf

omit hP in
theorem currentScope : P.Alike Compile.currentScope := .read fun _ _ h => h.currentId.symm

/-- A class that a name stands for is the same for both readings. -/
theorem class? (name : String) : P.Twin (fun s? s?' => s?' = s? ∧ ∀ s ∈ s?, P.classes)
    (Compile.class? name) (Compile.class? name) := by
  rw [Compile.class?_eq]
  refine .read fun b b' h => ?_
  by_cases hclasses : P.classes
  · rw [h.table_eq hP hclasses]
    exact ⟨rfl, fun _ _ => hclasses⟩
  · -- A symbol of either table is no class.
    have hleft : (b.table.lookupSymbol? name).filter (·.kind = .classDecl) = none := by
      rw [Option.filter_eq_none_iff]
      intro s hs hkind
      obtain ⟨id, -, hid⟩ := Option.bind_eq_some_iff.mp hs
      exact hclasses ((h.proper id s hid).classDecl (of_decide_eq_true hkind))
    have hright : (b'.table.lookupSymbol? name).filter (·.kind = .classDecl) = none := by
      rw [Option.filter_eq_none_iff]
      intro s hs hkind
      obtain ⟨id, -, hid⟩ := Option.bind_eq_some_iff.mp hs
      rw [h.symbol?, Option.map_eq_some_iff] at hid
      obtain ⟨s, hid, rfl⟩ := hid
      rw [Symbol.kind_rename] at hkind
      exact hclasses ((h.proper id s hid).classDecl (of_decide_eq_true hkind))
    rw [hleft, hright]
    exact ⟨rfl, nofun⟩

theorem typeOf (text : String) : P.Alike (Compile.typeOf text) := by
  rw [Compile.typeOf_eq]
  refine (Build.Twin.ofExcept _).bind_eq fun t? => ?_
  cases t? with
  | some t => exact .pure rfl
  | none =>
    refine (hP.class? text).bind ?_
    rintro s? _ ⟨rfl, -⟩
    exact .pure rfl

theorem typeOf? (text? : Option String) : P.Alike (Compile.typeOf? text?) := by
  cases text? with
  | none => exact .pure rfl
  | some text => exact hP.typeOf text

/-! ## Changes of the table -/

theorem modifySymbol (id : SymbolId) {f f' : Symbol → Symbol}
    (hrename : ∀ s, (f s).rename P.names = f' (s.rename P.names))
    (hkept : ∀ s, (f s).name = s.name ∧ (f s).scope = s.scope)
    (hproper : ∀ s, P.Proper s → P.Proper (f s)) :
    P.Twin Any (Compile.modifySymbol id f) (Compile.modifySymbol id f') := by
  refine .modify fun b b' h => ?_
  rw [h.table, SymbolTable.modifySymbol_rename hrename]
  refine hP.withTable h (h.sound.modifySymbol id hkept) fun i s hs => ?_
  rw [SymbolTable.symbol?_modifySymbol] at hs
  split at hs
  · obtain ⟨s, hold, rfl⟩ := Option.map_eq_some_iff.mp hs
    exact hproper s (h.proper i s hold)
  · exact h.proper i s hs

theorem modifyFunction (id : SymbolId) {f f' : Function → Function}
    (hrename : ∀ g, (f g).rename P.names = f' (g.rename P.names)) :
    P.Twin Any (Compile.modifyFunction id f) (Compile.modifyFunction id f') := by
  refine hP.modifySymbol id (fun s => ?_) (fun s => ?_) fun s hs => ?_
  · obtain ⟨name, scope, v | g | c | ⟨k, t⟩⟩ := s
    · rfl
    · exact congrArg (fun g => Symbol.mk (P.names.var name) scope (.function g)) (hrename g)
    · rfl
    · rfl
  · obtain ⟨name, scope, v | g | c | ⟨k, t⟩⟩ := s <;> exact ⟨rfl, rfl⟩
  · obtain ⟨name, scope, v | g | c | ⟨k, t⟩⟩ := s <;> exact ⟨hs.function, hs.classDecl⟩

theorem declare (line : Nat) {s : Symbol} (hs : P.Proper s) :
    P.Twin Eq (Compile.declare line s) (Compile.declare line (s.rename P.names)) := by
  intro b b' h
  unfold Compile.declare
  refine .get_bind ?_
  rw [h.table, SymbolTable.keep_rename]
  dsimp only
  obtain ⟨hok, herr⟩ := SymbolTable.declare_rename hP.inj (b.table.keep s).2 (b.table.keep s).1
  cases hdeclare : (b.table.keep s).2.declare (b.table.keep s).1 with
  | ok t =>
    rw [hok t hdeclare]
    have hadd : b.table.add s = .ok ((b.table.keep s).1, t) := by
      show (do return ((b.table.keep s).1, ← (b.table.keep s).2.declare (b.table.keep s).1)) = _
      rw [hdeclare]
      rfl
    have hadds := SymbolTable.adds_of_add hadd
    refine .bind (.modify (hP.withTable h (h.sound.add hadd) fun i s' hs' => ?_))
      fun _ _ _ _ _ _ _ hc => .pure rfl hc
    by_cases hi : i = (b.table.keep s).1
    · rw [hi, hadds.stored] at hs'
      cases hs'
      exact ⟨hs.function, hs.classDecl⟩
    · rw [hadds.others i hi] at hs'
      exact h.proper i s' hs'
  | error f =>
    obtain ⟨x, rfl, herror⟩ := herr f hdeclare
    rw [herror]
    have hkept : P.Agree { b with table := (b.table.keep s).2 }
        { b' with table := (b.table.keep s).2.rename P.names } := by
      refine hP.withTable h (h.sound.keep s) fun i s' hs' => ?_
      have hget : (b.table.keep s).2.symbol? i = if i = b.table.symbols.size then some s else
        b.table.symbol? i :=
        Array.getElem?_push
      rw [hget] at hs'
      split at hs'
      · exact Option.some.inj hs' ▸ hs
      · exact h.proper i s' hs'
    refine .bind (.modify hkept) fun _ _ _ _ _ _ _ hc => ?_
    exact hP.errorThen (A := Eq) line (hP.text_var (fun x => (Fault.duplicate x).message) x) rfl hc

theorem enterScope (kind : String) : P.Same (Compile.enterScope kind) := by
  refine .modify fun b b' h => ?_
  rw [h.table, SymbolTable.enter_rename]
  exact hP.withTable h (h.sound.enter kind) h.proper

theorem exitScope : P.Same Compile.exitScope := by
  refine .modify fun b b' h => ?_
  rw [h.table, SymbolTable.exit_rename]
  refine hP.withTable h h.sound.exit fun id s hs => h.proper id s ?_
  have hsymbols : b.table.exit.2.symbols = b.table.symbols := by
    unfold SymbolTable.exit
    split <;> rfl
  rwa [SymbolTable.symbol?, hsymbols] at hs

theorem inScope (kind : String) {body body' : BuildM Unit} (hbody : P.Twin Any body body') :
    P.Twin Any (Compile.inScope kind body) (Compile.inScope kind body') :=
  (hP.enterScope kind).seq (hbody.seq hP.exitScope)

/-! ## The place in the program -/

theorem setUnreachable (on : Bool) :
    P.Same (modify fun b => { b with unreachable := on } : BuildM PUnit) :=
  .modify fun _ _ h => { h with unreachable := rfl, code := hP.apart h.code }

theorem setInFunction (id? : Option SymbolId) :
    P.Same (modify fun b => { b with inFunction? := id? } : BuildM PUnit) :=
  .modify fun _ _ h => { h with inFunction? := rfl, code := hP.apart h.code }

theorem setInClass {id? : Option SymbolId} (hid : id?.isSome = true → P.classes) :
    P.Same (modify fun b => { b with inClass? := id? } : BuildM PUnit) :=
  .modify fun _ _ h => { h with inside := hid, inClass? := rfl, code := hP.apart h.code }

theorem modifyLoops (f : Loops → Loops) :
    P.Same (modify fun b => { b with loops := f b.loops } : BuildM PUnit) :=
  .modify fun _ _ h => { h with loops := congrArg f h.loops, code := hP.apart h.code }

end Base

end Pairing

end Scriptc
