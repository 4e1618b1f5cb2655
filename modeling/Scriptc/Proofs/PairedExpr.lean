import Scriptc.Proofs.Pairing

/-!
# Scriptc: two readings of an expression

`Pairing.ExprSteps` collects what the code of expressions has to satisfy for two readings to stay
together: the emitters give related operands, and what is written only while nothing is reported is
`Guarded`. Then reading any expression, and its renaming in the other reading, gives the same type
in both (`ExprSteps.expr`), by induction on the expression. What is asked of the names and constants
that stand in it is `Pairing.ok`.

A variable that is read has to be declared, since the names of both tables are compared through it;
reading leaves the table alone (`Build.Still`), so a name that was looked up stays declared until
its code is written.
-/

namespace Scriptc

open Build (Ends isClean)
variable {x : String}

/-- The name stands for something. -/
def Build.Declared (x : String) (b : Build) : Prop := (b.table.lookupSymbol? x).isSome = true

/-- The steps leave the table of names as it is. -/
def Build.Still {α : Type} (m : BuildM α) : Prop := Build.Keeps (fun b c => c.table = b.table) m

namespace Compile

/-- A quiet step leaves the names alone. -/
theorem still {α : Type} {m : BuildM α} (hm : Build.Keeps Quiet m) :
    Build.Still m := fun _ _ _ hend => (hm hend).table

theorem still_firstIndex (ss : List Suffix) : Build.Still (firstIndex ss) :=
  still (Quiet.exprStable.keeps (S := [])
    (Quiet.exprStable.walk.firstIndex ss [] (Suffix.allIn_of_forall (fun _ => trivial) ss)))

end Compile

theorem Suffix.isEmpty_renameAll (r : Renaming) (ss : List Suffix) :
    (Suffix.renameAll r ss).isEmpty = ss.isEmpty := by
  rcases ss with _ | ⟨s, ss⟩
  · rfl
  · cases s <;> rfl

theorem Suffix.any_isIndex_renameAll (r : Renaming) (ss : List Suffix) :
    (Suffix.renameAll r ss).any Compile.isIndex = ss.any Compile.isIndex := by
  induction ss with
  | nil => rfl
  | cons s ss ih =>
    cases s with
    | index line e => rfl
    | call line args => exact ih
    | member line id => exact ih

/-- A name that is known stays known. -/
theorem Build.Declared.after {α : Type} {m : BuildM α} {b c : Build} {a : α} (hx : b.Declared x)
    (hm : Build.Still m) (hend : Ends m b a c) : c.Declared x := by
  rw [Build.Declared, hm hend]
  exact hx

namespace Pairing

/-- What the code of expressions and assignments does in both readings. -/
structure ExprSteps (P : Pairing) : Prop extends P.Base where
  fits : P.classes → ∀ x, P.fit x
  keyword : ∀ text ∈ ["null", "true", "false"], P.lit text
  value : ∀ {b b'}, P.code b b' → P.operand b.value b'.value
  cells : ∀ {vs vs'}, List.Forall₂ P.operand vs vs' → P.operand (.cells vs) (.cells vs')
  missing : ∀ {o o'}, P.operand o o' →
    (!o'.isPresent || decide (o' = .text "None")) = (!o.isPresent || decide (o = .text "None"))
  setValue : ∀ {o o'}, P.operand o o' → P.Twin Any (Emit.setValue o) (Emit.setValue o')
  use : ∀ {o o'}, P.operand o o' → P.Twin Any (Emit.use o) (Emit.use o')
  arithmetic : ∀ {l l' r r'}, P.operand l l' → P.operand r r' → ∀ op,
    P.Twin P.operand (Emit.arithmetic l r op) (Emit.arithmetic l' r' op)
  comparison : ∀ {l l' r r'}, P.operand l l' → P.operand r r' → ∀ op,
    P.Twin P.operand (Emit.comparison l r op) (Emit.comparison l' r' op)
  logical : ∀ {l l' r r'}, P.operand l l' → P.operand r r' → ∀ op,
    P.Twin P.operand (Emit.logical l r op) (Emit.logical l' r' op)
  logicalNot : ∀ {o o'}, P.operand o o' → P.Twin P.operand (Emit.logicalNot o) (Emit.logicalNot o')
  unary : ∀ {o o'}, P.operand o o' → ∀ op, P.Twin P.operand (Emit.unary o op) (Emit.unary o' op)
  callToString : ∀ {o o'}, P.operand o o' →
    P.Twin P.operand (Emit.callToString o) (Emit.callToString o')
  constant : ∀ {text}, P.lit text → P.Twin P.operand (Emit.constant text) (Emit.constant text)
  loadElement : ∀ {a a' i i'}, P.operand a a' → P.operand i i' → ∀ size,
    P.Twin P.operand (Emit.loadElement a i size) (Emit.loadElement a' i' size)
  -- Places of variables.
  variableValue : ∀ {x b b'}, P.fit x → b.Declared x → P.Agree b b' →
    P.From P.operand b b' (Emit.variableValue x) (Emit.variableValue (P.names.var x))
  placeValue : ∀ {x b b'}, P.fit x → b.Declared x → P.Agree b b' →
    P.From P.operand b b' (Emit.placeValue x) (Emit.placeValue (P.names.var x))
  -- Objects.
  loadThis : P.classes → P.Twin P.operand Emit.loadThis Emit.loadThis
  newObject : P.classes → ∀ cls, P.Twin P.operand (Emit.newObject cls) (Emit.newObject cls)
  loadMember : P.classes → ∀ {o o'}, P.operand o o' → ∀ cls member,
    P.Twin P.operand (Emit.loadMember o cls member) (Emit.loadMember o' cls member)
  -- Code that is written only if there are no reports.
  store : ∀ {x b b' v v'}, P.fit x → b.Declared x → P.Agree b b' → P.operand v v' →
    P.Guarded b b' (Emit.place x >>= (Emit.assign · v))
      (Emit.place (P.names.var x) >>= (Emit.assign · v'))
  storeToArray : ∀ {x b b' i i' v v'}, P.fit x → b.Declared x → P.Agree b b' →
    P.operand i i' → P.operand v v' →
    P.Guarded b b' (Emit.storeToArray x i v) (Emit.storeToArray (P.names.var x) i' v')
  call : ∀ {b b' vs vs'}, P.Agree b b' → ∀ f, List.Forall₂ P.operand vs vs' →
    P.Guarded b b' (Emit.call f vs >>= Emit.setValue) (Emit.call f vs' >>= Emit.setValue)
  callMethod : P.classes → ∀ {b b' o o' vs vs'}, P.Agree b b' → P.operand o o' → ∀ cls f,
    List.Forall₂ P.operand vs vs' →
    P.Guarded b b' (Emit.callMethod o cls f vs) (Emit.callMethod o' cls f vs') ∧
      P.Guarded b b' (Emit.callMethod o cls f vs >>= Emit.setValue)
        (Emit.callMethod o' cls f vs' >>= Emit.setValue)

def okAtom (P : Pairing) : Atom → Prop
  | .name _ x => P.fit x
  | .this _ | .new _ _ _ _ => P.classes

/-- What is asked of the names and constants of an expression. -/
def ok (P : Pairing) : Expr → Prop
  | .literal _ (.plain text) => P.lit text
  | .access (.mk a _) | .assign (.mk a _) _ => P.okAtom a
  | _ => True

variable {P : Pairing} {b b' : Build}

/-- What a chain has come to in both readings. -/
structure ChainsAgree (P : Pairing) (c c' : Compile.Chain) : Prop where
  left : c'.left? = c.left?
  result : c'.result? = c.result?
  value : P.operand c.value c'.value

inductive PendingAgree (P : Pairing) : Compile.Pending → Compile.Pending → Prop where
  | nothing : PendingAgree P .nothing .nothing
  | function (name : String) (f : Function) :
      PendingAgree P (.function name f) (.function name (f.rename P.names))
  | method (hclasses : P.classes) (line : Nat) {this this' : Operand} (hthis : P.operand this this')
    (cls name : String) (f : Function) :
    PendingAgree P (.method line this cls name f) (.method line this' cls name f)

structure TargetsAgree (P : Pairing) (t t' : Compile.Target) : Prop where
  type : t'.type? = t.type?
  pending : P.PendingAgree t.pending t'.pending

namespace ExprSteps

variable (hP : P.ExprSteps) {α α' : Type}
include hP

theorem valueAtHand :
    P.Twin P.operand Compile.value Compile.value := .read fun _ _ h => hP.value h.code

/-! ## Chains of operators -/

theorem chainStart (level : Level) (type? : Option Ty) :
    P.Twin P.ChainsAgree (Compile.Chain.start level type?) (Compile.Chain.start level type?) := by
  unfold Compile.Chain.start
  refine hP.valueAtHand.bind fun v v' hv => ?_
  split
  · exact (hP.use hv).seq (.pure ⟨rfl, rfl, hv⟩)
  · exact .pure ⟨rfl, rfl, hv⟩

/-- Both join strings or both add numbers, since the types agree. -/
theorem chainSum {c c' : Compile.Chain} (hc : P.ChainsAgree c c') (op : String) (right? : Option Ty)
    {v v' : Operand} (hv : P.operand v v') :
    P.Twin P.operand (c.sum op right? v) (c'.sum op right? v') := by
  unfold Compile.Chain.sum
  rw [hc.left]
  split
  · exact (hP.callToString hc.value).bind fun w w' hw => hP.arithmetic hw hv op
  · split
    · exact (hP.callToString hv).bind fun w w' hw => hP.arithmetic hc.value hw op
    · exact hP.arithmetic hc.value hv op

omit hP in
/-- The value of a chain whose operator has the given type: as before if the operator is wrong. -/
theorem unlessError {left? result? : Option Ty} (t : Ty) {v v' : Operand} (hv : P.operand v v')
    {code code' : BuildM Operand} (hcode : P.Twin P.operand code code') :
    P.Twin P.ChainsAgree
      (do
        let w ← if t == .error then pure v else code
        return ⟨left?, result?, w⟩)
      (do
        let w ← if t == .error then pure v' else code'
        return ⟨left?, result?, w⟩) := by
  dsimp only
  split
  · exact .pure ⟨rfl, rfl, hv⟩
  · exact hcode.bind fun w w' hw => .pure ⟨rfl, rfl, hw⟩

/-- Operands correspond, and types and reports agree. -/
theorem chainStep (level : Level) (line : Nat) {c c' : Compile.Chain} (hc : P.ChainsAgree c c')
    (op : String) (at_ : Nat) (right? : Option Ty) :
    P.Twin P.ChainsAgree (c.step level line op at_ right?) (c'.step level line op at_ right?) := by
  unfold Compile.Chain.step
  rw [hc.left]
  refine hP.valueAtHand.bind fun v v' hv => ?_
  cases level with
  | additive =>
    refine (hP.use hv).seq ((hP.remarks (.additive ..)).bind_eq fun t => ?_)
    exact unlessError t hc.value (hP.chainSum hc op right? hv)
  | multiplicative =>
    refine (hP.remarks (.arithmetic ..)).bind_eq fun t => ?_
    exact unlessError t hc.value (hP.arithmetic hc.value hv op)
  | equality =>
    refine (hP.remarks (.comparison ..)).bind_eq fun t => ?_
    exact unlessError t hc.value (hP.comparison hc.value hv op)
  | relational =>
    refine (hP.remarks (.relational ..)).bind_eq fun t => ?_
    exact unlessError t hc.value (hP.comparison hc.value hv op)
  | and | or =>
    refine (hP.remarks (.logical ..)).bind_eq fun t => ?_
    exact unlessError t hc.value (hP.logical hc.value hv _)

/-! ## Constants and operators with one operand -/

/-- A constant is written in both. -/
theorem literal {l : Literal} (hl : ∀ text, l = .plain text → P.lit text) :
    P.Alike (Compile.literal l) := by
  cases l with
  | null => exact (hP.constant (hP.keyword _ (by simp))).seq (.pure rfl)
  | bool on => exact (hP.constant (hP.keyword _ (by cases on <;> simp))).seq (.pure rfl)
  | plain text => exact (hP.constant (hl text rfl)).seq (.pure rfl)

theorem unaryOf (line : Nat) (sign kind : String) (wanted : Ty) (operand? : Option Ty)
    {code : Operand → BuildM Operand}
    (hcode : ∀ {o o'}, P.operand o o' → P.Twin P.operand (code o) (code o')) :
    P.Alike (Compile.unary line sign kind wanted operand? code) := by
  unfold Compile.unary
  refine (hP.remarks (.wrong? ..)).bind_eq fun found? => ?_
  cases found? with
  | some found => exact hP.errorSame _ _ _
  | none =>
    dsimp only
    split
    · exact hP.valueAtHand.bind fun v v' hv => (hcode hv).seq (.pure rfl)
    · exact .pure rfl

/-! ## Accesses -/

omit hP in
theorem failed : P.TargetsAgree Compile.failed Compile.failed := ⟨rfl, .nothing⟩

theorem reportNothing {A : Option α → Option α' → Prop} (hA : A none none) (line : Option Nat)
    {t t' : String} (ht : P.text t t') :
    P.Twin A (do Build.error line t; return none) (do Build.error line t'; return none) :=
  hP.errorThen line ht hA

/-- An access that has begun, or has been reported. -/
abbrev StartsAgree (P : Pairing) : Option Compile.Target → Option Compile.Target → Prop :=
  Option.Rel P.TargetsAgree

/-- A name is known to both readings or to neither. -/
theorem name (line : Nat) (hx : P.fit x) :
    P.Twin (StartsAgree P) (Compile.name line x) (Compile.name line (P.names.var x)) := by
  intro b b' h
  unfold Compile.name
  refine hP.lookup?_bind h ?_
  cases hs : b.table.lookupSymbol? x with
  | none => exact hP.reportNothing .none line (hP.text_var
      (fun x => "Identificador '" ++ x ++ "' no declarado") x) h
  | some s =>
    have hdeclared : b.Declared x := by
      rw [Build.Declared, hs]
      rfl
    obtain ⟨id, -, hid⟩ := Option.bind_eq_some_iff.mp hs
    have hproper := h.proper id s hid
    obtain ⟨name, scope, v | f | c | ⟨k, t⟩⟩ := s
    · have hend : P.Twin (StartsAgree P) (pure (some { type? := v.type? }))
        (pure (some { type? := v.type? })) :=
        .pure (.some ⟨rfl, .nothing⟩)
      dsimp only [Option.map_some, Symbol.rename, SymbolBody.rename]
      split
      · exact (hP.placeValue hx hdeclared h).bind fun o o' _ _ _ _ ho hc =>
          ((hP.setValue ho).seq hend) hc
      · exact (hP.variableValue hx hdeclared h).bind fun o o' _ _ _ _ ho hc =>
          ((hP.setValue ho).seq hend) hc
    · refine .pure (.some ⟨rfl, ?_⟩) h
      have hname : P.names.var name = name := hproper.function rfl
      show P.PendingAgree (.function name f) (.function (P.names.var name) (f.rename P.names))
      rw [hname]
      exact .function name f
    · exact hP.reportNothing .none line
        (hP.text_var (fun x => "Uso inválido del nombre de clase '" ++ x ++ "' como valor") x) h
    · exact hP.reportNothing .none line
        (hP.text_var (fun x => "Identificador '" ++ x ++ "' no declarado") x) h

/-- The class at hand is the same. -/
theorem this (hclasses : P.classes) (line : Nat) :
    P.Twin (StartsAgree P) (Compile.this line) (Compile.this line) := by
  intro b b' h
  unfold Compile.this
  refine .get_bind ?_
  rw [h.inClass?, h.table_eq hP.toBase hclasses]
  split
  · exact hP.reportNothing .none line (hP.text_refl _) h
  · exact ((hP.loadThis hclasses).bind fun o o' ho =>
      (hP.setValue ho).seq (.pure (.some ⟨rfl, .nothing⟩))) h

theorem constructor? (hclasses : P.classes) (c : Class) : P.Alike (Compile.constructor? c) :=
  .read fun _ _ h => by rw [h.table_eq hP.toBase hclasses]

/-- Arguments are counted and compared by type alone. -/
theorem checkNew (hclasses : P.classes) (line : Nat) (cls : String) (ctor? : Option Function)
    (types : List (Option Ty)) :
    P.Same (Compile.checkNew line cls ctor? types) := by
  unfold Compile.checkNew
  cases ctor? with
  | none =>
    dsimp only
    split
    · exact hP.error line (hP.text_refl _)
    · exact .pure trivial
  | some f =>
    dsimp only
    split
    · exact hP.error line (hP.text_refl _)
    · let say (i : Nat) (expected found : String) : String :=
        "Argumento " ++ toString i ++ " del constructor de '" ++
        cls ++ "': esperado " ++ expected ++ ", encontrado " ++ found
      have hsay : ∀ i expected found, P.text (say i expected found) (say i expected found) :=
        fun _ _ _ => hP.text_refl _
      have hargs := hP.arguments line hsay f.params types 1
      have hparams : (f.params.map fun p => (P.names.var p.1, p.2)) = f.params := by
        simp [hP.ident hclasses]
      rw [hparams] at hargs
      exact hargs

theorem construct (hclasses : P.classes) (cls : String) (ctor? : Option Function)
    {vs vs' : List Operand} (hvs : List.Forall₂ P.operand vs vs') :
    P.Twin P.TargetsAgree (Compile.construct cls ctor? vs) (Compile.construct cls ctor? vs') := by
  unfold Compile.construct
  refine (hP.newObject hclasses cls).bind fun o o' ho => ?_
  have hend : P.Twin P.TargetsAgree (do Emit.setValue o; return { type? := some (.named cls) })
      (do Emit.setValue o'; return { type? := some (.named cls) }) :=
        (hP.setValue ho).seq (.pure ⟨rfl, .nothing⟩)
  cases ctor? with
  | none => exact (Build.Twin.read fun _ _ _ => trivial : P.Same isClean).seq hend
  | some f =>
    intro b b' h
    exact (hP.callMethod hclasses h ho cls "constructor" hvs).1 hend

/-- What waits for arguments is the same function, and gets them in both. -/
theorem apply (line : Nat) {t t' : Compile.Target} (ht : P.TargetsAgree t t')
    (types : List (Option Ty)) {vs vs' : List Operand} (hvs : List.Forall₂ P.operand vs vs') :
    P.Twin P.TargetsAgree (Compile.apply line t types vs) (Compile.apply line t' types vs') := by
  obtain ⟨type?, pending⟩ := t
  obtain ⟨type?', pending'⟩ := t'
  obtain ⟨-, hpending⟩ := ht
  unfold Compile.apply
  have hend (t? : Option Ty) :
    P.Twin P.TargetsAgree (pure { type? := t? }) (pure { type? := t? }) :=
    .pure ⟨rfl, .nothing⟩
  cases hpending with
  | nothing => exact hP.errorThen line (hP.text_refl _) failed
  | function n f =>
    have hlength : (f.rename P.names).params.length = f.params.length := List.length_map _
    dsimp only
    rw [hlength]
    refine .either (hP.error line (hP.text_refl _))
      (hP.arguments line (fun _ _ _ => hP.text_refl _) f.params types 1) ?_
    intro b b' h
    have hcall := hP.call h n hvs (hend f.result?)
    simp only [bind_assoc] at hcall
    exact hcall
  | @method hclasses at_ this this' hthis cls n f =>
    refine .maybe (hP.error line (hP.text_refl _)) fun b b' h => ?_
    simpa only [bind_assoc] using (hP.callMethod hclasses h hthis cls n hvs).2 (hend f.result?)

theorem settle {t t' : Compile.Target} (ht : P.TargetsAgree t t') :
    P.Twin P.TargetsAgree (Compile.settle t) (Compile.settle t') := by
  obtain ⟨type?, pending⟩ := t
  obtain ⟨type?', pending'⟩ := t'
  unfold Compile.settle
  obtain ⟨htype, hpending⟩ := ht
  cases hpending with
  | nothing => exact .pure ⟨htype, .nothing⟩
  | function n f => exact .pure ⟨htype, .function n f⟩
  | method hclasses at_ hthis cls n f => exact hP.errorThen _ (hP.text_refl _) failed

theorem element (at_ : Nat) (e : Ty) {base base' : Operand} (hbase : P.operand base base')
    (index? : Option Ty) :
    P.Twin P.TargetsAgree (Compile.element at_ e base index?)
      (Compile.element at_ e base' index?) := by
  unfold Compile.element
  refine hP.valueAtHand.bind fun i i' hi => (hP.remarks (.wrong? ..)).bind_eq fun found? => ?_
  cases found? with
  | some found => exact hP.errorThen _ (hP.text_refl _) ⟨rfl, .nothing⟩
  | none => exact (hP.loadElement hbase hi _).seq (.pure ⟨rfl, .nothing⟩)

/-- The object whose member is asked for. -/
theorem memberObject {A : α → α' → Prop} {isThis : Bool} (hthis : isThis = true → P.classes)
    {f : Operand → BuildM α} {f' : Operand → BuildM α'}
    (hf : ∀ o o', P.operand o o' → P.Twin A (f o) (f' o')) :
    P.Twin A (if isThis = true then Emit.loadThis >>= f else Compile.value >>= f)
      (if isThis = true then Emit.loadThis >>= f' else Compile.value >>= f') := by
  split
  · rename_i htrue
    exact (hP.loadThis (hthis htrue)).bind hf
  · exact hP.valueAtHand.bind hf

/-- Members are found by class, and classes are the same. -/
theorem member (line : Nat) {isThis : Bool} (hthis : isThis = true → P.classes)
    {t t' : Compile.Target} (ht : P.TargetsAgree t t') (id : String) :
    P.Twin P.TargetsAgree (Compile.member line isThis t id)
      (Compile.member line isThis t' (P.names.member id)) := by
  unfold Compile.member
  rw [ht.type]
  refine hP.memberObject hthis fun o o' ho => ?_
  dsimp only
  rw [hP.missing ho]
  split
  · exact hP.errorThen line
      (hP.text_member (fun id => "Acceso a propiedad '" ++ id ++
        "' sobre valor inválido") id) failed
  have hother := hP.text_member (fun id =>
    "No se puede acceder a miembro '" ++ id ++ "' de '" ++ (t.type?.map Ty.name).getD "?" ++ "'") id
  generalize t.type? = type? at hother ⊢
  cases type? with
  | none => exact hP.errorThen line hother failed
  | some ty =>
    refine (hP.class? ty.name).bind ?_
    rintro _ cls? ⟨rfl, hclasses⟩
    cases cls? with
    | none => exact hP.errorThen line hother failed
    | some cls =>
      have hclasses := hclasses cls rfl
      intro b b' h
      refine .get_bind ?_
      rw [h.table_eq hP.toBase hclasses, hP.ident hclasses, Renaming.member_identity]
      split
      · exact ((hP.loadMember hclasses ho cls.name id).seq (.pure ⟨rfl, .nothing⟩)) h
      · exact .pure ⟨rfl, .method hclasses line ho cls.name id _⟩ h
      · exact hP.errorThen line (hP.text_refl _) failed h

/-- Both conclude with the same type. -/
theorem conclude (line : Nat) {t t' : Compile.Target} (ht : P.TargetsAgree t t') :
    P.Twin Eq (Compile.conclude line t) (Compile.conclude line t') := by
  unfold Compile.conclude
  refine (hP.settle ht).bind fun r r' hr => ?_
  obtain ⟨type?, pending⟩ := r
  obtain ⟨type?', pending'⟩ := r'
  obtain ⟨htype, hpending⟩ := hr
  obtain rfl : type?' = type? := htype
  cases hpending with
  | function n f => exact hP.errorSame _ _ _
  | nothing => cases type?' <;> exact .pure rfl
  | method hclasses at_ hthis cls n f => cases type?' <;> exact .pure rfl

/-! ## Assignments -/

/-- A name that can be assigned to is one that stands for something. -/
theorem assignable? (line : Nat) (h : P.Agree b b') :
    P.From (fun v? v?' => v?' = v? ∧ ∀ v ∈ v?, b.Declared x) b b' (Compile.assignable? line x)
      (Compile.assignable? line (P.names.var x)) := by
  unfold Compile.assignable?
  refine hP.lookup?_bind h ?_
  cases hs : b.table.lookupSymbol? x with
  | none =>
    exact hP.reportNothing ⟨rfl, nofun⟩ line
      (hP.text_var (fun x => "Variable '" ++ x ++ "' no declarada") x) h
  | some s =>
    have hdeclared : b.Declared x := by
      rw [Build.Declared, hs]
      rfl
    obtain ⟨name, scope, v | f | c | ⟨k, t⟩⟩ := s
    · dsimp only [Option.map_some, Symbol.rename, SymbolBody.rename]
      split
      · exact hP.reportNothing ⟨rfl, nofun⟩ line
          (hP.text_var (fun x => "No se puede reasignar la constante '" ++ x ++ "'") x) h
      · exact .pure ⟨rfl, fun _ _ => hdeclared⟩ h
    all_goals exact .throw _ h

theorem arrayNamed (line : Nat) (h : P.Agree b b') :
    P.From (fun e? e?' => e?' = e? ∧ ∀ e ∈ e?, b.Declared x) b b' (Compile.arrayNamed line x)
      (Compile.arrayNamed line (P.names.var x)) := by
  unfold Compile.arrayNamed
  refine hP.lookup?_bind h ?_
  cases hs : b.table.lookupSymbol? x with
  | none =>
    exact hP.reportNothing ⟨rfl, nofun⟩ line
      (hP.text_var (fun x => "Array '" ++ x ++ "' no declarado") x) h
  | some s =>
    have hdeclared : b.Declared x := by
      rw [Build.Declared, hs]
      rfl
    dsimp only [Option.map_some]
    rw [Symbol.type?_rename]
    split
    · exact .pure ⟨rfl, fun _ _ => hdeclared⟩ h
    · exact hP.reportNothing ⟨rfl, nofun⟩ line
        (hP.text_var (fun x => "'" ++ x ++ "' no es un array") x) h

theorem indexOperand? (line : Nat) (index? : Option Ty) :
    P.Twin (Option.Rel P.operand) (Compile.indexOperand? line index?)
      (Compile.indexOperand? line index?) := by
  unfold Compile.indexOperand?
  refine (hP.remarks (.wrong? ..)).bind_eq fun found? => ?_
  cases found? with
  | some found => exact hP.reportNothing .none _ (hP.text_refl _)
  | none => exact hP.valueAtHand.bind fun v v' hv => .pure (.some hv)

omit hP in
/-- Whether a value can be stored is asked in one state. -/
theorem assignable_bind {A : α → α' → Prop} {source target : Option Ty} {f : Bool → BuildM α}
    {f' : Bool → BuildM α'} (h : P.Agree b b') (hf : ∀ able, P.From A b b' (f able) (f' able)) :
    P.From A b b' (Check.assignable source target >>= f)
      (Check.assignable source target >>= f') := by
  cases source with
  | none => exact .bind (Build.From.throw (A := Any)
      Fault.noSourceType h) fun _ _ _ _ hend => absurd hend Build.ends_throw
  | some t => exact hf _

/-- The value is stored where the name is, in each reading. -/
theorem storeName (line : Nat) (hx : P.fit x) (v : Variable) (value? : Option Ty)
    (hdeclared : b.Declared x) (h : P.Agree b b') :
    P.From Eq b b' (Compile.storeName line x v value?)
      (Compile.storeName line (P.names.var x) v value?) := by
  unfold Compile.storeName
  refine Build.From.read_bind (assignable_bind h fun able => ?_)
  split
  · exact hP.remarks (by grind) h
  · simpa only [bind_assoc] using hP.store hx hdeclared h (hP.value h.code)
      (.pure rfl : P.Twin Eq (pure value?) _)

theorem storeIndexed (line : Nat) (hx : P.fit x) (e : Ty) {i i' : Operand} (hi : P.operand i i')
    (value? : Option Ty) (hdeclared : b.Declared x) (h : P.Agree b b') :
    P.From Eq b b' (Compile.storeIndexed line x e i value?)
      (Compile.storeIndexed line (P.names.var x) e i' value?) := by
  unfold Compile.storeIndexed
  refine Build.From.read_bind (assignable_bind h fun able => ?_)
  split
  · exact hP.remarks (by grind) h
  · exact hP.storeToArray hx hdeclared h hi (hP.value h.code)
      (.pure rfl : P.Twin Eq (pure value?) _)

/-- An assignment as an expression, where the atom is written as a name. -/
theorem assignTo {a a' : Atom} (hx : P.fit a.text) (hline : a'.line = a.line)
    (htext : a'.text = P.names.var a.text) {ss ss' : List Suffix}
    (hempty : ss'.isEmpty = ss.isEmpty) (hindex : ss'.any Compile.isIndex = ss.any Compile.isIndex)
    {readIndex readIndex' readTarget readTarget' readValue readValue' : BuildM (Option Ty)}
    (hreadIndex : P.Twin Eq readIndex readIndex') (hstillIndex : Build.Still readIndex)
    (hreadTarget : P.Twin Eq readTarget readTarget') (hreadValue : P.Twin Eq readValue readValue')
    (hstillValue : Build.Still readValue) :
    P.Twin Eq (Compile.assignTo a ss readIndex readTarget readValue)
      (Compile.assignTo a' ss' readIndex' readTarget' readValue') := by
  have hwalk := Compile.Quiet.exprStable.walk
  unfold Compile.assignTo
  rw [hempty, hindex, hline, htext]
  split
  -- A name: it is still known when the value has been read.
  · intro b b' h
    refine (hP.assignable? a.line h).bind ?_
    rintro _ v? c c' hend - ⟨rfl, hdeclared⟩ hc
    cases v? with
    | none => exact .pure rfl hc
    | some v =>
      refine (hreadValue hc).bind ?_
      rintro value? _ d d' hvalue - rfl hd
      have hstill := Compile.still (Compile.Quiet.exprStable.assignable? a.line a.text)
      exact hP.storeName a.line hx v value?
        (((hdeclared v rfl).after hstill hend).after hstillValue hvalue) hd
  · split
    -- An element: the name is known until the index and the value have been read.
    · intro b b' h
      refine (hP.arrayNamed a.line h).bind ?_
      rintro _ e? c c' hend - ⟨rfl, hdeclared⟩ hc
      cases e? with
      | none => exact .pure rfl hc
      | some e =>
        have hstill := Compile.still
          (Compile.Quiet.exprStable.keeps (S := []) (hwalk.arrayNamed a.line a.text))
        have hdeclared := (hdeclared e rfl).after hstill hend
        refine (hreadIndex hc).bind ?_
        rintro index? _ d d' hindex - rfl hd
        refine (hP.indexOperand? a.line index? hd).bind ?_
        rintro i? i?' f f' hoperand - hi hf
        cases hi with
        | none => exact .pure rfl hf
        | some hi =>
          refine (hreadValue hf).bind ?_
          rintro value? _ g g' hvalue - rfl hg
          have hstill := Compile.still
            (Compile.Quiet.exprStable.keeps (S := []) (hwalk.indexOperand? a.line index?))
          have hdeclared := (hdeclared.after hstillIndex hindex).after hstill hoperand
          exact hP.storeIndexed a.line hx e hi value? (hdeclared.after hstillValue hvalue) hg
    -- Any other target is read and not stored to.
    · exact hreadTarget.seq hreadValue

omit hP in
/-- Where the beginning fails, both stop. -/
theorem follow {start start' : BuildM (Option Compile.Target)}
    {rest rest' : Compile.Target → BuildM (Option Ty)}
    (hstart : P.Twin (StartsAgree P) start start')
    (hrest : ∀ t t', P.TargetsAgree t t' → P.Twin Eq (rest t) (rest' t')) :
    P.Twin Eq (Compile.follow start rest) (Compile.follow start' rest') := by
  refine hstart.bind fun t? t?' ht => ?_
  cases ht with
  | none => exact .pure rfl
  | some ht => exact hrest _ _ ht

omit hP in
/-- An access from its atom on. -/
theorem access {a : Atom} {ss : List Suffix} {isThis isThis' : Bool} (hsame : isThis' = isThis)
    (hatom : P.Twin (StartsAgree P) (Compile.atom a) (Compile.atom (a.rename P.names)))
    (hsuffixes : ∀ t t', P.TargetsAgree t t' → P.Twin Eq (Compile.suffixes a.line isThis t ss)
      (Compile.suffixes a.line isThis t' (Suffix.renameAll P.names ss))) :
    P.Twin Eq (Compile.follow (Compile.atom a) (Compile.suffixes a.line isThis · ss))
      (Compile.follow (Compile.atom (a.rename P.names))
        (Compile.suffixes (a.rename P.names).line isThis' · (Suffix.renameAll P.names ss))) := by
  rw [hsame, Atom.line_rename]
  exact follow hatom hsuffixes

/-! ## The walk -/

theorem fit_text {a : Atom} (ha : P.okAtom a) : P.fit a.text := by
  cases a with
  | name line x => exact ha
  | this line => exact hP.fits ha _
  | new line cls args text => exact hP.fits ha _

theorem text_rename {a : Atom} (ha : P.okAtom a) :
    (a.rename P.names).text = P.names.var a.text := by
  cases a with
  | name line x => rfl
  | this line => rw [hP.ident ha]; rfl
  | new line cls args text => rw [hP.ident ha]; rfl

-- A theorem of the block may use the hypothesis only through the others.
set_option linter.unusedSectionVars false in
mutual

/-- By induction on the expression, with its parts in the lemmas below. -/
theorem expr : ∀ e : Expr, e.All P.ok → P.Twin Eq (Compile.expr e) (Compile.expr (e.rename P.names))
  | .assign (.mk a ss) v, he => by
    obtain ⟨hok, ha, hss, hv⟩ := he
    unfold Expr.rename Compile.expr
    exact hP.assignTo (hP.fit_text hok) (Atom.line_rename _ a) (hP.text_rename hok)
      (Suffix.isEmpty_renameAll _ ss)
      (Suffix.any_isIndex_renameAll _ ss) (firstIndex ss hss) (Compile.still_firstIndex ss)
      (access (by cases a <;> rfl) (atom a hok ha) fun t t' ht =>
        suffixes a.line (fun h => by cases a <;> first | exact hok | cases h) ht ss hss)
      (expr v hv) (Compile.still (Compile.Quiet.expr v))
  | .ternary c yes no, he => by
    obtain ⟨-, hc, hyes, hno⟩ := he
    unfold Expr.rename Compile.expr
    exact (expr c hc).seq ((expr yes hyes).seq (expr no hno))
  | .chain level first rest, he => by
    obtain ⟨-, hfirst, hrest⟩ := he
    unfold Expr.rename Compile.expr
    refine (expr first hfirst).bind_eq fun t? => ?_
    rw [Expr.line_rename]
    exact (hP.chainStart level t?).bind fun c c' hc => chain level first.line hc rest hrest
  | .not line e, he => by
    unfold Expr.rename Compile.expr
    refine (expr e he.2).bind_eq fun t? => ?_
    exact hP.unaryOf _ _ _ _ _ hP.logicalNot
  | .negate line e, he => by
    unfold Expr.rename Compile.expr
    refine (expr e he.2).bind_eq fun t? => ?_
    exact hP.unaryOf _ _ _ _ _ fun ho => hP.unary ho "NEG"
  | .literal line l, he => by
    unfold Expr.rename Compile.expr
    refine hP.literal ?_
    rintro text rfl
    exact he
  | .array line [], he => by
    unfold Expr.rename Expr.renameAll Compile.expr
    exact .pure rfl
  | .array line (e :: es), he => by
    unfold Expr.rename Expr.renameAll Compile.expr
    refine (expr e he.2.1).bind_eq fun t? => ?_
    exact hP.valueAtHand.bind fun v v' hv => elements line t? (.cons hv .nil) es he.2.2
  | .group line e, he => by
    unfold Expr.rename Compile.expr
    exact expr e he.2
  | .access (.mk a ss), he => by
    obtain ⟨hok, ha, hss⟩ := he
    unfold Expr.rename Compile.expr
    exact access (by cases a <;> rfl) (atom a hok ha) fun t t' ht =>
      suffixes a.line (fun h => by cases a <;> first | exact hok | cases h) ht ss hss

/-- Along the chain the values so far agree. -/
theorem chain (level : Level) (line : Nat) {c c' : Compile.Chain} (hc : P.ChainsAgree c c') :
    ∀ rest : List (String × Expr), Expr.AllRest P.ok rest →
      P.Twin Eq (Compile.chain level line c rest)
        (Compile.chain level line c' (Expr.renameRest P.names rest))
  | [], _ => by
    unfold Expr.renameRest Compile.chain
    exact .pure hc.result.symm
  | (op, e) :: rest, hrest => by
    unfold Expr.renameRest Compile.chain
    refine (expr e hrest.1).bind_eq fun t? => ?_
    rw [Expr.line_rename]
    exact (hP.chainStep level line hc op e.line t?).bind fun d d' hd =>
      chain level line hd rest hrest.2

theorem elements (line : Nat) (first? : Option Ty) {cells cells' : List Operand}
    (hcells : List.Forall₂ P.operand cells cells') : ∀ es : List Expr, Expr.AllIn P.ok es →
      P.Twin Eq (Compile.elements line first? cells es)
        (Compile.elements line first? cells' (Expr.renameAll P.names es))
  | [], _ => by
    unfold Expr.renameAll Compile.elements
    rw [hcells.length_eq]
    refine (hP.setValue (hP.cells hcells)).seq ?_
    cases first? with
    | some t => exact .pure rfl
    | none => exact .throw _
  | e :: es, hes => by
    unfold Expr.renameAll Compile.elements
    refine (expr e hes.1).bind_eq fun t? => ?_
    refine hP.valueAtHand.bind fun v v' hv => ?_
    split
    · exact hP.remarks (by grind)
    · exact elements line first? (List.rel_append hcells (.cons hv .nil)) es hes.2

/-- Types are equal, operands only correspond. -/
theorem arguments : ∀ es : List Expr, Expr.AllIn P.ok es →
    P.Twin (fun r r' => r'.1 = r.1 ∧ List.Forall₂ P.operand r.2 r'.2) (Compile.arguments es)
      (Compile.arguments (Expr.renameAll P.names es))
  | [], _ => by
    unfold Expr.renameAll Compile.arguments
    exact .pure ⟨rfl, .nil⟩
  | e :: es, hes => by
    unfold Expr.renameAll Compile.arguments
    refine (expr e hes.1).bind_eq fun t? => ?_
    refine hP.valueAtHand.bind fun v v' hv => (arguments es hes.2).bind ?_
    rintro ⟨ts, vs⟩ ⟨_, vs'⟩ ⟨rfl, hvs⟩
    exact .pure ⟨rfl, .cons hv hvs⟩

theorem atom : ∀ a : Atom, P.okAtom a → a.All P.ok →
    P.Twin (StartsAgree P) (Compile.atom a) (Compile.atom (a.rename P.names))
  | .name line x, hok, _ => by
    unfold Atom.rename Compile.atom
    exact hP.name line hok
  | .this line, hok, _ => by
    unfold Atom.rename Compile.atom
    exact hP.this hok line
  | .new line cls args text, hok, ha => by
    unfold Atom.rename Compile.atom
    refine (hP.class? cls).bind ?_
    rintro _ s? ⟨rfl, -⟩
    cases s?.bind Symbol.asClass? with
    | none => exact hP.reportNothing .none _ (hP.text_refl _)
    | some c =>
      refine (hP.constructor? hok c).bind_eq fun ctor? => ?_
      refine (arguments args ha).bind ?_
      rintro ⟨ts, vs⟩ ⟨_, vs'⟩ ⟨rfl, -⟩
      refine (hP.checkNew hok line cls ctor? _).seq ((arguments args ha).bind ?_)
      rintro ⟨ts, vs⟩ ⟨_, vs'⟩ ⟨rfl, hvs⟩
      exact (hP.construct hok cls ctor? hvs).bind fun t t' ht => .pure (.some ht)

/-- The targets agree before each suffix. -/
theorem suffixes (line : Nat) {isThis : Bool} (hthis : isThis = true → P.classes)
    {t t' : Compile.Target} (ht : P.TargetsAgree t t') : ∀ ss : List Suffix, Suffix.AllIn P.ok ss →
      P.Twin Eq (Compile.suffixes line isThis t ss)
        (Compile.suffixes line isThis t' (Suffix.renameAll P.names ss))
  | [], _ => by
    unfold Suffix.renameAll Compile.suffixes
    exact hP.conclude line ht
  | .call at_ args :: rest, hss => by
    unfold Suffix.renameAll Compile.suffixes
    refine (arguments args hss.1).bind ?_
    rintro ⟨ts, vs⟩ ⟨_, vs'⟩ ⟨rfl, hvs⟩
    exact (hP.apply at_ ht _ hvs).bind fun r r' hr => suffixes line hthis hr rest hss.2
  | .index at_ e :: rest, hss => by
    unfold Suffix.renameAll Compile.suffixes
    refine (hP.settle ht).bind fun r r' hr => ?_
    rw [hr.type, Expr.line_rename]
    split
    · refine hP.valueAtHand.bind fun v v' hv => (expr e hss.1).bind_eq fun index? => ?_
      exact (hP.element e.line _ hv index?).bind fun q q' hq => suffixes line hthis hq rest hss.2
    · exact (hP.error _ (hP.text_refl _)).seq (suffixes line hthis failed rest hss.2)
  | .member at_ id :: rest, hss => by
    unfold Suffix.renameAll Compile.suffixes
    refine (hP.settle ht).bind fun r r' hr => ?_
    exact (hP.member at_ hthis hr id).bind fun q q' hq => suffixes line hthis hq rest hss

theorem firstIndex : ∀ ss : List Suffix, Suffix.AllIn P.ok ss →
    P.Twin Eq (Compile.firstIndex ss) (Compile.firstIndex (Suffix.renameAll P.names ss))
  | [], _ => by
    unfold Suffix.renameAll Compile.firstIndex
    exact .pure rfl
  | .index _ e :: _, hss => by
    unfold Suffix.renameAll Compile.firstIndex
    exact expr e hss.1
  | .call _ _ :: rest, hss => by
    unfold Suffix.renameAll Compile.firstIndex
    exact firstIndex rest hss.2
  | .member _ _ :: rest, hss => by
    unfold Suffix.renameAll Compile.firstIndex
    exact firstIndex rest hss

end

end ExprSteps

end Pairing

end Scriptc
