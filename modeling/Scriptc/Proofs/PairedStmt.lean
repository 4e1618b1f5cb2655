import Scriptc.Proofs.PairedExpr

/-!
# Scriptc: two readings of a statement

`Pairing.Steps` adds to the steps of expressions what the code of statements has to satisfy. Reading
any statement, and its renaming in the other reading, then keeps two readings together
(`Steps.statement`), by induction on statements, cases and members.

The code of a compound statement is written only while there are no reports, and the two readings
need not agree on whether there are any. So of `if`, loops and `switch` both ways are asked for,
with the readings of their parts (`Pairing.Aside` for the parts that are read in another place in
one of the ways).
-/

namespace Scriptc

open Build (Ends isClean)
variable {x : String}

/-- A value that fixes the type of a variable leaves the name declared. -/
theorem Compile.declared_fixType {line : Nat} {v : Variable} {value? : Option Ty} {b c : Build}
    (hx : b.Declared x) (hend : Ends (Compile.fixType line x v value?) b () c) : c.Declared x := by
  unfold Compile.fixType at hend
  split at hend
  · rw [Build.ends_get_bind] at hend
    split at hend
    · rename_i id hid
      obtain rfl := Build.ends_modify.mp hend
      obtain ⟨s, hs⟩ := Option.isSome_iff_exists.mp hx
      have hold : b.table.symbol? id = some s := by
        rwa [SymbolTable.lookupSymbol?, hid, Option.bind_some] at hs
      show (((b.table.modifySymbol id _).lookup? x).bind _).isSome = true
      rw [show (b.table.modifySymbol id _).lookup? x = some id from hid, Option.bind_some,
        SymbolTable.symbol?_modifySymbol, if_pos rfl, hold]
      rfl
    · obtain ⟨-, rfl⟩ := Build.ends_pure.mp hend
      exact hx
  · exact hx.after (Compile.still (Quiet.exprStable.remarks (.unlessAssignable ..))) hend

namespace Pairing

/-- An operand, or none in both readings. -/
def OrNone (P : Pairing) (o o' : Operand) : Prop := P.operand o o' ∨ o = .none ∧ o' = .none

/-- An expression that is read at another time if there are reports. -/
structure Aside (P : Pairing) (e : Expr) : Prop where
  aside : P.aside e
  twin : P.Twin Eq (Compile.expr e) (Compile.expr (e.rename P.names))

/-- The last part of a counting loop. -/
theorem Aside.loopUpdate {P : Pairing} {u? : Option Expr} (hu : ∀ u ∈ u?, P.Aside u) :
    P.Twin Any (Compile.loopUpdate u?) (Compile.loopUpdate (u?.map (Expr.rename P.names))) := by
  cases u? with
  | none => exact .pure trivial
  | some u => exact (hu u rfl).twin.discard

/-- The cases of a switch without code for the switch. -/
theorem Aside.caseBodies {P : Pairing} {cs : List Case} (hcs : ∀ e body,
    Case.mk e body ∈ cs → P.Aside e ∧
      P.Twin Any (Compile.statements body) (Compile.statements (Stmt.renameAll P.names body))) :
    P.Twin Any (Compile.caseBodies cs) (Compile.caseBodies (Case.renameAll P.names cs)) := by
  induction cs with
  | nil => exact .pure trivial
  | cons c cs ih =>
    obtain ⟨e, body⟩ := c
    obtain ⟨haside, hbody⟩ := hcs e body (.head _)
    rw [Compile.caseBodies, Case.renameAll, Compile.caseBodies]
    exact haside.twin.discard.seq (hbody.seq (ih fun e body hmem => hcs e body (.tail _ hmem)))

/-- What the code of statements does in both readings. -/
structure Steps (P : Pairing) : Prop extends P.ExprSteps where
  setDirect : ∀ on, P.Same (Emit.setDirect on)
  endExpression : P.Same Emit.endExpression
  setFunction : ∀ name, P.Same (Emit.setFunction name)
  leaveFunction : P.Same
    (modify fun b => { b with inFunction? := none, frame? := none } : BuildM PUnit)
  layout : P.classes → ∀ id, P.Same (Emit.layout id)
  -- Code that is written only if there are no reports.
  initialise : ∀ {x b b'}, P.fit x → b.Declared x → P.Agree b b' →
    P.Guarded b b' (Compile.initialise x) (Compile.initialise (P.names.var x))
  storeMember : P.classes → ∀ {b b' o o' v v'}, P.Agree b b' → P.operand o o' →
    P.operand v v' → ∀ cls member,
    P.Guarded b b' (Emit.storeMember o cls member v) (Emit.storeMember o' cls member v')
  returnValue : ∀ {b b' o o'}, P.Agree b b' → P.OrNone o o' →
    P.Guarded b b' (Emit.returnValue o) (Emit.returnValue o')
  print : ∀ {b b' o o'}, P.Agree b b' → P.operand o o' → ∀ type?,
    P.Guarded b b' (Emit.print o type?) (Emit.print o' type?)
  leaveTo : ∀ {b b'}, P.Agree b b' → ∀ target,
    P.Guarded b b' (Emit.leaveTo target) (Emit.leaveTo target)
  -- Constructs that are read in two ways.
  ifElse : ∀ {o o' yes yes' no no'}, P.operand o o' → P.Twin Any yes yes' → P.Twin Any no no' →
    P.Twin Any (do if ← isClean then discard (Emit.ifElse o yes no) else do yes; no)
      (do if ← isClean then discard (Emit.ifElse o' yes' no') else do yes'; no')
  whileLoop : ∀ {c c' body body'}, P.Twin P.operand c c' → P.Twin Any body body' →
    P.Twin Any (do if ← isClean then discard (Emit.whileLoop c body) else do discard c; body)
      (do if ← isClean then discard (Emit.whileLoop c' body') else do discard c'; body')
  forLoop : ∀ {init init' c c' u? body body'}, P.Twin Any init init' → P.Twin P.OrNone c c' →
    (∀ u ∈ u?, P.Aside u) →
    P.Twin Any body body' →
    P.Twin Any
      (do if ← isClean then discard (Emit.forLoop init c (Compile.loopUpdate u?) body)
          else do init; discard c; Compile.loopUpdate u?; body)
      (do if ← isClean then
        discard (Emit.forLoop init' c' (Compile.loopUpdate (u?.map (Expr.rename P.names))) body')
          else do init'; discard c'; Compile.loopUpdate (u?.map (Expr.rename P.names)); body')
  switch : ∀ {cs default? default?'} t, (∀ e body, Case.mk e body ∈ cs → P.Aside e ∧
      P.Twin Any (Compile.statements body) (Compile.statements (Stmt.renameAll P.names body))) →
    Option.Rel (P.Twin Any) default? default?' →
    P.Twin Any (Compile.switchBody t cs default?)
      (Compile.switchBody t (Case.renameAll P.names cs) default?')
  function : ∀ {ps body body'} name result?, (∀ p ∈ ps, P.fit p.name) → P.Twin Any body body' →
    P.Twin Any (Compile.routineBody ps (fun ps => discard <|
      Emit.function name ps result? body) body)
      (Compile.routineBody (ps.map (Param.rename P.names)) (fun ps => discard <|
        Emit.function name ps result? body') body')
  method : P.classes → ∀ {ps body body'} cls name result?, P.Twin Any body body' →
    P.Twin Any (Compile.routineBody ps (fun ps => discard <|
      Emit.method cls name ps result? body) body)
      (Compile.routineBody ps (fun ps => discard <| Emit.method cls name ps result? body') body')

/-- What is asked of what stands in a statement. -/
def Admits (P : Pairing) : Item → Prop
  | .value e => e.All P.ok
  | .aside e => e.All P.ok ∧ P.aside e
  | .var x => P.fit x
  | .function name => P.names.var name = name
  | .type _ => True
  | .classDecl _ => P.classes

variable {P : Pairing} {b b' : Build}

namespace Steps

variable (hP : P.Steps) {body body' : BuildM Unit} {e : Expr} {e? : Option Expr} {sig : Signature}
  {d : ConstDecl}
variable {α α' : Type}
include hP

/-! ## Guarded steps -/

omit hP in
/-- The value at hand is looked at in the state in which the step is guarded. -/
theorem guarded_value {f : Operand → BuildM α} {f' : Operand → BuildM α'}
    (h : P.Guarded b b' (f b.value) (f' b'.value)) :
    P.Guarded b b' (Compile.value >>= f) (Compile.value >>= f') := by
  intro γ γ' G k k' hk
  have hrun : ∀ {δ ε : Type} (c : Build) (g : Operand → BuildM δ) (k : BuildM ε),
      c.run (isClean >>= fun clean => if clean = true then (Compile.value >>= g) >>=
        fun _ => k else k) =
        c.run (isClean >>= fun clean => if clean = true then g c.value >>= fun _ => k else k) := by
    intro δ ε c g k
    show c.run (if c.errors.isEmpty = true then _ else _) =
      c.run (if c.errors.isEmpty = true then _ else _)
    split <;> rfl
  have hfrom := h hk
  unfold Build.From at hfrom ⊢
  rwa [hrun b f k, hrun b' f' k']

/-! ## Declarations -/

/-- A value that is read as it stands. -/
theorem direct (he : e.All P.ok) :
    P.Twin Eq (Compile.direct e) (Compile.direct (e.rename P.names)) := by
  refine (hP.setDirect true).seq ((hP.expr e he).bind_eq fun t? => ?_)
  exact (hP.setDirect false).seq (.pure rfl)

/-- The value of a declaration, if it has one. -/
theorem initialType (he : ∀ e ∈ e?, e.All P.ok) :
    P.Twin Eq (Compile.initialType e?) (Compile.initialType (e?.map (Expr.rename P.names))) := by
  cases e? with
  | none => exact .pure rfl
  | some e => exact hP.direct (he e rfl)

omit hP in
/-- What is told to the class at hand, if there is one. -/
theorem tellClass {tell tell' : SymbolId → BuildM Unit}
    (htell : P.classes → ∀ c, P.Twin Any (tell c) (tell' c)) :
    P.Twin Any (Compile.tellClass tell) (Compile.tellClass tell') := by
  intro b b' h
  unfold Compile.tellClass
  refine .get_bind ?_
  rw [h.inClass?]
  cases hclass : b.inClass? with
  | none => exact .pure trivial h
  | some c => exact htell (h.inside (by rw [hclass]; rfl)) c h

theorem modifyClass (hclasses : P.classes) (id : SymbolId) (f : Class → Class) :
    P.Same (Compile.modifyClass id f) := by
  refine hP.modifySymbol id (fun s => ?_) (fun s => ?_) fun s hs => ?_
  · rw [hP.ident hclasses, Symbol.rename_identity, Symbol.rename_identity]
  · obtain ⟨name, scope, v | g | c | ⟨k, t⟩⟩ := s <;> exact ⟨rfl, rfl⟩
  · obtain ⟨name, scope, v | g | c | ⟨k, t⟩⟩ := s <;> exact ⟨hs.function, hs.classDecl⟩

/-- An attribute is entered in its class under its new name. -/
theorem addAttribute (hclasses : P.classes) (cls : SymbolId) (x : String) (id : SymbolId) :
    P.Twin Any (Compile.addAttribute cls x id) (Compile.addAttribute cls (P.names.var x) id) := by
  rw [hP.ident hclasses, Renaming.var_identity]
  exact hP.modifyClass hclasses cls _

/-- Methods are not renamed. -/
theorem addMethod (hclasses : P.classes) (cls : SymbolId) (x : String) (id : SymbolId) :
    P.Same (Compile.addMethod cls x id) := hP.modifyClass hclasses cls _

omit hP in
theorem proper_variable (x : String) (scope : Nat) (v : Variable) :
    P.Proper ⟨x, scope, .variable v⟩ :=
  ⟨fun hkind => SymbolKind.noConfusion hkind, fun hkind => SymbolKind.noConfusion hkind⟩

/-- Scopes stay in step: both take the variable or both refuse it. -/
theorem addVariable {d : VarDecl} (hd : P.fit d.name) (v : Variable) :
    P.Twin Any (Compile.addVariable d v) (Compile.addVariable (d.rename P.names) v) := by
  unfold Compile.addVariable
  refine Base.currentScope.bind ?_
  rintro scope _ rfl b b' h
  refine (hP.declare d.line (proper_variable d.name scope v) h).bind ?_
  rintro ⟨id, fresh⟩ _ c c' hend - rfl hc
  have hdeclared : c.Declared d.name := Compile.declared_of_declare h.sound hend
  have hrest : P.Twin Any
      (do Compile.tellClass (Compile.addAttribute · d.name id); Emit.endExpression)
      (do Compile.tellClass (Compile.addAttribute · (P.names.var d.name) id); Emit.endExpression) :=
    (tellClass fun hclasses cls => hP.addAttribute hclasses cls d.name id).seq hP.endExpression
  obtain ⟨line, name, type?, init?⟩ := d
  cases init? with
  | none => exact ((Build.Twin.read fun _ _ _ => trivial : P.Same isClean).seq hrest) hc
  | some e => exact hP.initialise hd hdeclared hc hrest

/-- A variable that is declared, with a type or a value or both. -/
theorem variableDecl {d : VarDecl} (hname : P.fit d.name) (hinit : ∀ e ∈ d.init?, e.All P.ok) :
    P.Twin Any (Compile.variableDecl d) (Compile.variableDecl (d.rename P.names)) := by
  intro b b' h
  unfold Compile.variableDecl
  refine hP.currentSymbol?_bind h ?_
  cases (b.table.lookupCurrent? d.name).bind b.table.symbol? with
  | some s =>
    dsimp only [Option.map_some]
    rw [Symbol.declaredAs_rename]
    exact hP.error _ (hP.text_var
      (fun x => "Variable '" ++ x ++ "' ya declarada como " ++ Compile.declaredAs s ++
      " en este ámbito") d.name) h
  | none =>
    refine ((hP.typeOf? d.type?).bind ?_ : P.Twin Any _ _) h
    rintro declared? _ rfl
    refine (hP.initialType hinit).bind_eq fun init? => ?_
    exact (hP.remark (.checkInitial ..)).seq (hP.addVariable hname _)

/-- The value at hand is stored in a variable that both readings know. -/
theorem storeValue (hx : P.fit x) (hdeclared : b.Declared x) (h : P.Agree b b') :
    P.From Any b b' (Compile.storeValue x) (Compile.storeValue (P.names.var x)) := by
  have hstore := hP.store hx hdeclared h (hP.value h.code)
  have hguarded : P.Guarded b b' (Compile.value >>= fun v => Emit.place x >>= (Emit.assign · v))
      (Compile.value >>= fun v => Emit.place (P.names.var x) >>= (Emit.assign · v)) :=
        guarded_value hstore
  unfold Compile.storeValue
  simpa only [bind_assoc] using hguarded (.pure trivial : P.Same (pure ()))

theorem addConstant (hd : P.fit d.name) (v : Variable) :
    P.Twin Any (Compile.addConstant d v) (Compile.addConstant (d.rename P.names) v) := by
  unfold Compile.addConstant
  refine Base.currentScope.bind ?_
  rintro scope _ rfl b b' h
  refine (hP.declare d.line (proper_variable d.name scope v) h).bind ?_
  rintro r _ c c' hend - rfl hc
  exact (hP.storeValue hd (Compile.declared_of_declare h.sound hend) hc).bind
    fun _ _ _ _ _ _ _ he =>
    hP.endExpression he

/-- A constant is declared with its value. -/
theorem constantDecl (hname : P.fit d.name) (hvalue : d.value.All P.ok) :
    P.Twin Any (Compile.constantDecl d) (Compile.constantDecl (d.rename P.names)) := by
  intro b b' h
  unfold Compile.constantDecl
  refine hP.currentSymbol?_bind h ?_
  cases (b.table.lookupCurrent? d.name).bind b.table.symbol? with
  | some s =>
    dsimp only [Option.map_some]
    rw [Symbol.declaredAs_rename]
    exact hP.error _ (hP.text_var
      (fun x => "Constante '" ++ x ++ "' ya declarada como " ++ Compile.declaredAs s ++
      " en este ámbito") d.name) h
  | none =>
    refine ((hP.typeOf? d.type?).bind ?_ : P.Twin Any _ _) h
    rintro declared? _ rfl
    refine (hP.direct hvalue).bind_eq fun value? => ?_
    dsimp only
    split
    · exact hP.addConstant hname _
    · exact hP.remark (.bind (.ofExcept _) fun _ => .error ..)

/-! ## Assignments -/

/-- An assignment to a member. The value is read before the object. -/
theorem assignMember {base v : Expr} (member : String) (hbase : base.All P.ok) (hv : v.All P.ok) :
    P.Twin Eq (Compile.assignMember base member v)
      (Compile.assignMember (base.rename P.names) (P.names.member member) (v.rename P.names)) := by
  unfold Compile.assignMember
  dsimp only
  rw [Expr.line_rename]
  refine (hP.expr v hv).bind_eq fun value? => ?_
  refine hP.valueAtHand.bind fun operand operand' hoperand =>
    (hP.use hoperand).seq ((hP.expr base hbase).bind_eq fun base? => ?_)
  have hclassless :=
    hP.text_member (fun m => "No se puede asignar a miembro '" ++ m ++ "' de tipo no-clase") member
  refine hP.valueAtHand.bind fun object object' hobject => ?_
  split
  · exact .pure rfl
  cases base? with
  | none =>
    exact hP.errorThen _ hclassless rfl
  | some t =>
    refine (hP.class? t.name).bind ?_
    rintro _ cls? ⟨rfl, hclasses⟩
    cases cls? with
    | none =>
      exact hP.errorThen _ hclassless rfl
    | some cls =>
      have hclasses := hclasses cls rfl
      intro b b' h
      refine .get_bind ?_
      rw [h.table_eq hP.toBase hclasses, hP.ident hclasses, Renaming.member_identity]
      split
      · exact hP.errorSame _ _ _ h
      · split
        · exact hP.errorSame _ _ _ h
        · refine ExprSteps.assignable_bind h fun able => ?_
          split
          · exact hP.remarks (by grind) h
          · exact hP.storeMember hclasses h hobject hoperand cls.name member
              (.pure rfl : P.Twin Eq (pure value?) _)

/-- A value that fixes the type of a variable leaves the name declared. -/
theorem fixType (line : Nat) (v : Variable) (value? : Option Ty) (h : P.Agree b b') :
    P.From Any b b' (Compile.fixType line x v value?)
      (Compile.fixType line (P.names.var x) v value?) := by
  unfold Compile.fixType
  split
  · refine .get_bind ?_
    rw [h.table, SymbolTable.lookup?_rename hP.inj]
    cases b.table.lookup? x with
    | none => exact .pure trivial h
    | some id =>
      refine hP.modifySymbol id (fun s => ?_) (fun s => ?_) (fun s _ => ?_) h
      · rfl
      · exact ⟨rfl, rfl⟩
      · exact proper_variable _ _ _
  · exact hP.remark (.unlessAssignable ..) h

/-- An assignment to a name. The first value that is assigned fixes the type of a variable. -/
theorem assignName (line : Nat) (hx : P.fit x) (he : e.All P.ok) :
    P.Twin Eq (Compile.assignName line x e)
      (Compile.assignName line (P.names.var x) (e.rename P.names)) := by
  intro b b' h
  unfold Compile.assignName
  refine (hP.assignable? line h).bind ?_
  rintro _ v? c c' hend - ⟨rfl, hdeclared⟩ hc
  cases v? with
  | none => exact .pure rfl hc
  | some v =>
    have hdeclared := (hdeclared v rfl).after
      (Compile.still (Compile.Quiet.exprStable.assignable? line x)) hend
    refine (hP.direct he hc).bind ?_
    rintro value? _ d d' hvalue - rfl hd
    refine (hP.fixType line v value? hd).bind ?_
    rintro _ _ f f' hfix - - hf
    have hdeclared := Compile.declared_fixType
      (hdeclared.after (Compile.still (Compile.quiet_direct e)) hvalue) hfix
    exact (hP.storeValue hx hdeclared hf).bind fun _ _ _ _ _ _ _ hg =>
      (hP.endExpression.seq (.pure rfl) : P.Twin Eq _ _) hg

theorem assignment {a : Assignment} (ha : ∀ i ∈ a.items, P.Admits i) :
    P.Twin Eq (Compile.assignment a) (Compile.assignment (a.rename P.names)) := by
  cases a with
  | toName line x e =>
    exact hP.assignName line (ha (.var x) (by simp [Assignment.items]))
      (ha (.value e) (by simp [Assignment.items]))
  | toMember base member v =>
    exact hP.assignMember member (ha (.value base) (by simp [Assignment.items]))
      (ha (.value v) (by simp [Assignment.items]))

/-! ## Functions -/

/-- Parameters become variables of the scope of the body. -/
theorem declareParams (id : SymbolId) (scope : Nat) {ps : List Param}
    (hps : ∀ p ∈ ps, P.fit p.name) :
    P.Twin Any (Compile.declareParams id scope ps)
      (Compile.declareParams id scope (ps.map (Param.rename P.names))) := by
  induction ps with
  | nil => exact .pure trivial
  | cons p ps ih =>
    rw [List.map_cons]
    unfold Compile.declareParams
    refine (hP.typeOf? p.type?).bind_eq fun t? => ?_
    refine (hP.modifyFunction id fun f => ?_).seq
      ((hP.declare p.line (proper_variable p.name scope _)).seq
      (ih fun q hq => hps q (List.mem_cons_of_mem p hq)))
    simp [Function.rename, Param.rename]

omit hP in
/-- The types that a function returns are asked of its symbol. -/
theorem returnsOf (id : SymbolId) : P.Alike (Compile.returnsOf id) := by
  refine .read fun b b' h => ?_
  rw [h.symbol?]
  cases b.table.symbol? id with
  | none => rfl
  | some s =>
    rw [Option.map_some, Option.bind_some, Option.bind_some, Symbol.asFunction?_rename]
    cases s.asFunction? <;> rfl

theorem resultType (text? : Option String) : P.Alike (Compile.resultType text?) := by
  cases text? with
  | none => exact .pure rfl
  | some text => exact hP.typeOf text

/-- The body of a function is read in a scope of its own. -/
theorem functionBody (scope : Nat) (id : SymbolId) (result? : Option Ty)
    (hps : ∀ p ∈ sig.params, P.fit p.name) (hbody : P.Twin Any body body') :
    P.Twin Any (Compile.functionBody sig scope id result? body)
      (Compile.functionBody (sig.rename P.names) scope id result? body') := by
  unfold Compile.functionBody
  refine (hP.enterScope _).seq ((hP.setInFunction _).seq ((hP.declareParams id scope hps).seq
    ((hP.function sig.name result? hps hbody).seq ((returnsOf id).bind ?_))))
  rintro returns _ rfl
  refine (hP.remark (.checkResult ..)).seq (hP.exitScope.seq (hP.leaveFunction.seq ?_))
  exact tellClass fun hclasses cls => hP.addMethod hclasses cls sig.name id

/-- A name that stays is looked up as it is. -/
theorem currentSymbol?_kept_bind {A : α → α' → Prop} (h : P.Agree b b')
    (hx : P.names.var x = x) {f : Option Symbol → BuildM α} {f' : Option Symbol → BuildM α'}
    (hf : P.From A b b' (f ((b.table.lookupCurrent? x).bind b.table.symbol?))
      (f' (((b.table.lookupCurrent? x).bind b.table.symbol?).map (Symbol.rename P.names)))) :
    P.From A b b' (Compile.currentSymbol? x >>= f) (Compile.currentSymbol? x >>= f') := by
  have hbind := hP.currentSymbol?_bind h hf
  rwa [hx] at hbind

/-- A function keeps its name, so both readings enter the same symbol. -/
theorem declareFunction (line : Nat) (hx : P.names.var x = x) (scope : Nat) (result? : Option Ty) :
    P.Alike (Compile.declare line ⟨x, scope, .function { result? := result? }⟩) := by
  have hproper : P.Proper ⟨x, scope, .function { result? := result? }⟩ :=
    ⟨fun _ => hx, fun hkind => SymbolKind.noConfusion hkind⟩
  have hdeclare := hP.declare line hproper
  have hsame : Symbol.rename P.names ⟨x, scope, .function { result? := result? }⟩ =
      ⟨x, scope, .function { result? := result? }⟩ := congrArg (Symbol.mk · scope _) hx
  rwa [hsame] at hdeclare

/-- A function whose name is taken is not read in either of them. -/
theorem functionDecl (hname : P.names.var sig.name = sig.name)
    (hps : ∀ p ∈ sig.params, P.fit p.name) (hbody : P.Twin Any body body') :
    P.Twin Any (Compile.functionDecl sig body)
      (Compile.functionDecl (sig.rename P.names) body') := by
  have hfunction := fun scope id result? => hP.functionBody scope id result? hps hbody
  obtain ⟨line, name, params, result?⟩ := sig
  show P.Twin Any _ (Compile.functionDecl
    ⟨line, name, params.map (Param.rename P.names), result?⟩ body')
  unfold Compile.functionDecl
  refine (hP.setFunction _).seq ((hP.resultType _).bind_eq fun type? => ?_)
  split
  · exact hP.error _ (hP.text_refl _)
  · intro b b' h
    refine hP.currentSymbol?_kept_bind h hname ?_
    cases (b.table.lookupCurrent? name).bind b.table.symbol? with
    | some s =>
      dsimp only [Option.map_some]
      rw [Symbol.category_rename]
      exact hP.error _ (hP.text_refl _) h
    | none =>
      refine (Base.currentScope.bind ?_ : P.Twin Any _ _) h
      rintro scope _ rfl
      refine (hP.declareFunction line hname scope type?).bind ?_
      rintro ⟨id, fresh⟩ _ rfl
      cases fresh with
      | true => exact hfunction scope id type?
      | false => exact .pure trivial

/-! ## Classes -/

section
variable (hclasses : P.classes)
include hclasses

/-- Where there are classes, names stay. -/
theorem declareSame (line : Nat) (s : Symbol) : P.Alike (Compile.declare line s) := by
  have hproper : P.Proper s := ⟨fun _ => by rw [hP.ident hclasses]; rfl, fun _ => hclasses⟩
  have hdeclare := hP.declare line hproper
  rwa [hP.ident hclasses, Symbol.rename_identity] at hdeclare

/-- Where there are classes nothing is renamed. -/
theorem params_rename (ps : List Param) : ps.map (Param.rename P.names) = ps := by
  rw [hP.ident hclasses]
  exact List.map_id _

/-- The body of a method, read as that of a function of its class. -/
theorem methodBody (cls : String) (sig : Signature) (id : SymbolId) (result? : Option Ty)
    {check : List (Option Ty) → BuildM Unit} (hcheck : ∀ returns, P.Same (check returns))
    (hbody : P.Twin Any body body') :
    P.Twin Any (Compile.methodBody cls sig id result? check body)
      (Compile.methodBody cls sig id result? check body') := by
  unfold Compile.methodBody
  refine (hP.enterScope _).seq ((hP.setInFunction _).seq (Base.currentScope.bind ?_))
  rintro scope _ rfl
  have hparams := hP.declareParams id scope (fun p (_ : p ∈ sig.params) => hP.fits hclasses p.name)
  rw [hP.params_rename hclasses] at hparams
  refine hparams.seq ((hP.method hclasses cls sig.name result? hbody).seq ((returnsOf id).bind ?_))
  rintro returns _ rfl
  exact (hcheck returns).seq (hP.exitScope.seq (hP.setInFunction none))

/-- A constructor is entered in its class before it is declared. -/
theorem constructorDecl (cls : String) (clsId : SymbolId) (sig : Signature)
    (hbody : P.Twin Any body body') :
    P.Twin Any (Compile.constructorDecl cls clsId sig body)
      (Compile.constructorDecl cls clsId sig body') := by
  unfold Compile.constructorDecl
  refine .maybe (hP.error _ (hP.text_refl _)) fun b b' h => ?_
  refine .get_bind ?_
  rw [h.table_eq hP.toBase hclasses]
  refine ((hP.addMethod hclasses clsId _ _).seq
    (Base.currentScope.bind_eq fun scope => ?_) : P.Twin Any _ _) h
  exact (hP.declareSame hclasses _ _).seq
    (hP.methodBody hclasses cls sig _ _ (fun _ => hP.remark (.checkVoid ..)) hbody)

theorem methodDecl (cls : String) (clsId : SymbolId) (sig : Signature)
    (hbody : P.Twin Any body body') :
    P.Twin Any (Compile.methodDecl cls clsId sig body)
      (Compile.methodDecl cls clsId sig body') := by
  unfold Compile.methodDecl
  refine (hP.resultType _).bind_eq fun result? => ?_
  split
  · exact hP.error _ (hP.text_refl _)
  · intro b b' h
    refine .get_bind ?_
    rw [h.table_eq hP.toBase hclasses]
    refine ((hP.addMethod hclasses clsId _ _).seq (Base.currentScope.bind ?_) : P.Twin Any _ _) h
    rintro scope _ rfl
    refine (hP.declareSame hclasses _ _).bind ?_
    rintro ⟨_, fresh⟩ _ rfl
    cases fresh with
    | true => exact hP.methodBody hclasses cls sig _ _ (fun _ => hP.remark (.checkResult ..)) hbody
    | false => exact .pure trivial

/-- A name of the class scope becomes an attribute if it is that of a variable. -/
theorem attributeOf (cls : SymbolId) (x : String) : P.Same (Compile.attributeOf cls x) := by
  intro b b' h
  unfold Compile.attributeOf
  refine .get_bind ?_
  rw [h.table_eq hP.toBase hclasses]
  dsimp only
  split
  · split
    · exact hP.modifyClass hclasses cls _ h
    · exact .pure trivial h
  · exact .pure trivial h

/-- A parent is looked up by name. Classes are not renamed. -/
theorem parentOf (line : Nat) (parent? : Option String) :
    P.Alike (Compile.parentOf line parent?) := by
  cases parent? with
  | none => exact .pure rfl
  | some p =>
    unfold Compile.parentOf
    refine (hP.class? p).bind ?_
    rintro _ s? ⟨rfl, -⟩
    cases s? with
    | some s => exact .read fun b b' h => by rw [h.table_eq hP.toBase hclasses]
    | none => exact hP.errorSame _ _ _

/-- Fields come before methods, in either reading. -/
theorem classBody (id : SymbolId) {fields fields' methods methods' : SymbolId → BuildM Unit}
    (hfields : ∀ id, P.Twin Any (fields id) (fields' id))
    (hmethods : ∀ id, P.Twin Any (methods id) (methods' id)) :
    P.Twin Any (Compile.classBody id fields methods) (Compile.classBody id fields' methods') := by
  unfold Compile.classBody
  refine (hP.enterScope _).seq ?_
  intro b b' h
  refine .get_bind ?_
  rw [h.inClass?]
  refine ((hP.setInClass fun _ => hclasses).seq
    ((hfields id).seq ((hP.layout hclasses id).seq ((hmethods id).seq
    (hP.exitScope.seq (hP.setInClass fun _ => hclasses))))) : P.Twin Any _ _) h

/-- A class whose name is taken is not read. -/
theorem classDecl (line : Nat) (name : String) (parent? : Option String)
    {fields fields' methods methods' : SymbolId → BuildM Unit}
    (hfields : ∀ id, P.Twin Any (fields id) (fields' id))
    (hmethods : ∀ id, P.Twin Any (methods id) (methods' id)) :
    P.Twin Any (Compile.classDecl line name parent? fields methods)
      (Compile.classDecl line name parent? fields' methods') := by
  intro b b' h
  have hkept : P.names.var name = name := by rw [hP.ident hclasses]; rfl
  unfold Compile.classDecl
  refine hP.currentSymbol?_kept_bind h hkept ?_
  rw [Option.isSome_map]
  split
  · exact hP.error _ (hP.text_refl _) h
  · refine ((hP.parentOf hclasses line parent?).bind ?_ : P.Twin Any _ _) h
    rintro parent? _ rfl
    refine Base.currentScope.bind_eq fun scope => ?_
    refine (hP.declareSame hclasses _ _).bind ?_
    rintro ⟨id, fresh⟩ _ rfl
    cases fresh with
    | true => exact hP.classBody hclasses id hfields hmethods
    | false => exact .pure trivial

end

/-! ## Parts of statements -/

/-- A condition gives an operand. Its type is reported on if it is not boolean. -/
theorem condition (what : String) (he : e.All P.ok) :
    P.Twin P.operand (Compile.condition what e) (Compile.condition what (e.rename P.names)) := by
  unfold Compile.condition Compile.checkCondition
  refine (hP.expr e he).bind_eq fun t? => ?_
  rw [Expr.line_rename]
  simp only [bind_assoc]
  refine (hP.remarks (.wrong? ..)).bind_eq fun found? => ?_
  cases found? with
  | some found => exact (hP.error _ (hP.text_refl _)).seq hP.valueAtHand
  | none => exact hP.valueAtHand

theorem reachable (hbody : P.Twin Any body body') :
    P.Twin Any (Compile.reachable body) (Compile.reachable body') := by
  intro b b' h
  unfold Compile.reachable
  refine .get_bind ?_
  rw [h.unreachable]
  exact ((hP.setUnreachable false).seq (hbody.seq (hP.setUnreachable _)) : P.Twin Any _ _) h

/-- A block in the scope of a function or a class opens none of its own. -/
theorem block (hbody : P.Twin Any body body') :
    P.Twin Any (Compile.block body) (Compile.block body') := by
  intro b b' h
  have hkind : b'.table.current.kind = b.table.current.kind := by
    rw [h.table, SymbolTable.current_rename]
    rfl
  unfold Compile.block
  refine .get_bind ?_
  rw [hkind]
  split
  · exact hP.reachable hbody h
  · exact hP.inScope _ (hP.reachable hbody) h

/-- A loop is entered and left by both. -/
theorem loop (hbody : P.Twin Any body body') :
    P.Twin Any (Compile.loop body) (Compile.loop body') := by
  intro b b' h
  unfold Compile.loop
  refine .get_bind ?_
  rw [h.loops]
  exact ((hP.modifyLoops .enter).seq (hbody.seq (hP.modifyLoops (·.leave b.loops)))) h

theorem cutOff : P.Same Compile.cutOff := hP.setUnreachable true

/-- `break` and `continue` are written outside of loops by neither. -/
theorem loopJump (line : Nat) (word : String) (target : Loop → Operand) :
    P.Same (Compile.loopJump line word (Emit.leaveTo target)) := by
  unfold Compile.loopJump
  refine (hP.unreachable _ _).seq fun b b' h => ?_
  refine .get_bind ?_
  rw [h.loops]
  dsimp only
  split
  · exact ((hP.error _ (hP.text_refl _)).seq hP.cutOff : P.Twin Any _ _) h
  · exact hP.leaveTo h target hP.cutOff

theorem returnedType (he : ∀ e ∈ e?, e.All P.ok) :
    P.Twin Eq (Compile.returnedType e?) (Compile.returnedType (e?.map (Expr.rename P.names))) := by
  cases e? with
  | none => exact .pure rfl
  | some e => exact hP.expr e (he e rfl)

/-- What is returned is noted at the function and compared with its result type. -/
theorem returnStmt (line : Nat) (he : ∀ e ∈ e?, e.All P.ok) :
    P.Twin Eq (Compile.returnStmt line e?)
      (Compile.returnStmt line (e?.map (Expr.rename P.names))) := by
  unfold Compile.returnStmt
  rw [Option.isSome_map]
  refine (hP.unreachable _ _).seq fun b b' h => ?_
  refine .get_bind ?_
  rw [h.inFunction?]
  cases b.inFunction? with
  | none => exact hP.errorSame _ _ _ h
  | some id =>
    have hresult : ((b'.table.symbol? id).bind Symbol.asFunction?).bind Function.result? =
        ((b.table.symbol? id).bind Symbol.asFunction?).bind Function.result? := by
      rw [h.symbol?]
      cases b.table.symbol? id with
      | none => rfl
      | some s =>
        rw [Option.map_some, Option.bind_some, Option.bind_some, Symbol.asFunction?_rename]
        cases s.asFunction? <;> rfl
    dsimp only
    rw [hresult]
    refine ((hP.returnedType he).bind_eq fun type? => ?_ : P.Twin Eq _ _) h
    have hmodify : P.Same
      (Compile.modifyFunction id fun f => { f with returns := f.returns ++ [type?] }) :=
      hP.modifyFunction id fun _ => rfl
    refine (hP.remark (.checkReturned ..)).seq (hmodify.seq fun c c' hc => ?_)
    have hend : P.Alike (do Compile.cutOff; return type?) :=
      hP.cutOff.seq (.pure rfl)
    have horNone : P.OrNone (if e?.isSome = true then c.value else .none)
        (if e?.isSome = true then c'.value else .none) := by
      split
      · exact .inl (hP.value hc.code)
      · exact .inr ⟨rfl, rfl⟩
    have hguarded : P.Guarded c c'
      (Compile.value >>= fun v => Emit.returnValue (if e?.isSome = true then v else .none))
        (Compile.value >>= fun v => Emit.returnValue (if e?.isSome = true then v else .none)) :=
      guarded_value (hP.returnValue hc horNone)
    simpa only [bind_assoc] using hguarded hend

/-- What is printed has to have a type that can be printed. -/
theorem printStmt (line : Nat) (he : e.All P.ok) :
    P.Twin Any (Compile.printStmt line e) (Compile.printStmt line (e.rename P.names)) := by
  unfold Compile.printStmt
  refine (hP.expr e he).bind_eq fun t? => ?_
  split
  · exact .pure trivial
  · split
    · exact hP.remark (by grind)
    · intro b b' h
      have hguarded : P.Guarded b b' (Compile.value >>= (Emit.print · t?))
        (Compile.value >>= (Emit.print · t?)) :=
        guarded_value (hP.print h (hP.value h.code) t?)
      simpa only [bind_assoc, bind_pure_unit] using hguarded (.pure trivial : P.Same (pure ()))

theorem varDecl {d : VarDecl} (hd : ∀ i ∈ d.items, P.Admits i) :
    P.Twin Any (Compile.variableDecl d) (Compile.variableDecl (d.rename P.names)) := by
  refine hP.variableDecl (hd (.var d.name) (by simp [VarDecl.items])) fun e he => hd (.value e) ?_
  rw [Option.mem_def] at he
  simp [VarDecl.items, he]

theorem constDecl (hd : ∀ i ∈ d.items, P.Admits i) :
    P.Twin Any (Compile.constantDecl d) (Compile.constantDecl (d.rename P.names)) :=
  hP.constantDecl (hd (.var d.name) (by simp [ConstDecl.items]))
    (hd (.value d.value) (by simp [ConstDecl.items]))

/-- A loop begins with a declaration, an assignment or nothing. -/
theorem loopInit {init : LoopInit} (hinit : ∀ i ∈ init.items, P.Admits i) :
    P.Twin Any (Compile.loopInit init) (Compile.loopInit (init.rename P.names)) := by
  cases init with
  | nothing => exact .pure trivial
  | declare d => exact hP.varDecl hinit
  | assign a => exact (hP.assignment hinit).discard

theorem loopCondition {c? : Option Expr} (hc : ∀ e ∈ c?, e.All P.ok) :
    P.Twin P.OrNone (Compile.loopCondition c?)
      (Compile.loopCondition (c?.map (Expr.rename P.names))) := by
  cases c? with
  | none => exact .pure (.inr ⟨rfl, rfl⟩)
  | some c => exact (hP.condition "for" (hc c rfl)).mono fun _ _ ho => .inl ho

/-- The variable of a loop over items has the type of the items. -/
theorem loopVariable (line at_ : Nat) (x : String) (items? : Option Ty) :
    P.Twin Any (Compile.loopVariable line at_ x items?)
      (Compile.loopVariable line at_ (P.names.var x) items?) := by
  unfold Compile.loopVariable
  split
  · refine Base.currentScope.bind_eq fun scope => ?_
    exact (hP.declare line (proper_variable x scope _)).discard
  · split
    · exact hP.remark (.bind (.ofExcept _) fun _ => .error ..)
    · exact .pure trivial

/-- Where the subject of a switch cannot be typed, both readings pass over its cases. -/
theorem subjectType (he : e.All P.ok) :
    P.Twin Eq (Compile.subjectType e) (Compile.subjectType (e.rename P.names)) := by
  unfold Compile.subjectType
  rw [Expr.line_rename]
  refine (hP.expr e he).bind_eq fun t? => ?_
  exact hP.remarks (by grind)

omit hP in
/-- A construct that is read in two ways, and what follows it. -/
theorem bothWays {β β' : Type} {A : α → α' → Prop} {B : β → β' → Prop} {m n : BuildM α}
    {m' n' : BuildM α'} {k : BuildM β} {k' : BuildM β'}
    (h : P.Twin A (do if ← isClean then m else n) (do if ← isClean then m' else n'))
    (hk : P.Twin B k k') :
    P.Twin B (isClean >>= fun clean => if clean = true then m >>= fun _ => k else n >>= fun _ => k)
      (isClean >>= fun clean => if clean = true then m' >>= fun _ => k' else
        n' >>= fun _ => k') := by
  have hseq {δ ε : Type} (m n : BuildM δ) (k : BuildM ε) :
      (isClean >>= fun clean => if clean = true then m >>= fun _ => k else n >>= fun _ => k) =
        (isClean >>= fun clean => if clean = true then m else n) >>= fun _ => k := by
    rw [bind_assoc]
    congr 1
    funext clean
    cases clean <;> rfl
  rw [hseq m n k, hseq m' n' k']
  exact h.seq hk

omit hP in
/-- What is asked of all items is asked of those of each part. -/
theorem admits_append {is js : List Item} (h : ∀ i ∈ is ++ js, P.Admits i) :
    (∀ i ∈ is, P.Admits i) ∧ ∀ i ∈ js, P.Admits i :=
  ⟨fun i hi => h i (List.mem_append_left js hi), fun i hi => h i (List.mem_append_right is hi)⟩

omit hP in
theorem admits_cons {i : Item} {is : List Item} (h : ∀ j ∈ i :: is, P.Admits j) :
    P.Admits i ∧ ∀ j ∈ is, P.Admits j :=
  ⟨h i (.head _), fun j hj => h j (List.mem_cons_of_mem i hj)⟩

omit hP in
theorem params_fit (h : ∀ i ∈ sig.items, P.Admits i) : ∀ p ∈ sig.params, P.fit p.name :=
  fun p hp => h (.var p.name) (by
    simp only [Signature.items, List.mem_cons, List.mem_append, List.mem_flatMap]
    exact .inr (.inl ⟨p, hp, by simp [Param.items]⟩))

/-! ## The walk -/

mutual

/-- By induction on the statement; each case is the lemma about its construct. -/
theorem statement : ∀ s : Stmt, (∀ i ∈ s.items, P.Admits i) →
    P.Twin Eq (Compile.statement s) (Compile.statement (s.rename P.names))
  | .declare d, hs => by
    unfold Stmt.rename Compile.statement
    exact (hP.varDecl hs).seq (.pure rfl)
  | .constant d, hs => by
    unfold Stmt.rename Compile.statement
    exact (hP.constDecl hs).seq (.pure rfl)
  | .assign a, hs => by
    unfold Stmt.rename Compile.statement
    exact hP.assignment hs
  | .function sig body, hs => by
    unfold Stmt.items at hs
    obtain ⟨hsig, hbody⟩ := admits_append hs
    unfold Stmt.rename Compile.statement
    exact (hP.functionDecl (hsig (.function sig.name) (by simp [Signature.items])) (params_fit hsig)
      (hP.block (statements body hbody))).seq (.pure rfl)
  | .classDecl line name parent? ms, hs => by
    unfold Stmt.items at hs
    obtain ⟨hclasses, hms⟩ := admits_cons hs
    unfold Stmt.rename Compile.statement
    exact (hP.classDecl hclasses line name parent? (fun id => fields hclasses id ms hms)
      fun id => methods hclasses name id ms hms).seq (.pure rfl)
  | .expr e, hs => by
    unfold Stmt.rename Compile.statement
    exact (hP.expr e (hs (.value e) (by simp [Stmt.items]))).discard.seq (.pure rfl)
  | .print line e, hs => by
    unfold Stmt.rename Compile.statement
    exact (hP.printStmt line (hs (.value e) (by simp [Stmt.items]))).seq (.pure rfl)
  | .block line body, hs => by
    unfold Stmt.rename Compile.statement
    unfold Stmt.items at hs
    exact (hP.block (statements body hs)).seq (.pure rfl)
  | .ifElse line c yes none, hs => by
    unfold Stmt.items at hs
    obtain ⟨hc, hyes⟩ := admits_cons hs
    unfold Stmt.rename Compile.statement
    refine (hP.condition "if" hc).bind fun v v' hv => ?_
    have htwin := bothWays
      (hP.ifElse hv (hP.block (statements yes hyes)) (.pure trivial : P.Same (pure ())))
      (.pure rfl : P.Twin Eq (pure (none : Option Ty)) (pure none))
    simpa only [bind_assoc, pure_bind] using htwin
  | .ifElse line c yes (some no), hs => by
    unfold Stmt.items at hs
    obtain ⟨hc, hs⟩ := admits_cons hs
    obtain ⟨hyes, hno⟩ := admits_append hs
    unfold Stmt.rename Compile.statement
    refine (hP.condition "if" hc).bind fun v v' hv => ?_
    have htwin := bothWays
      (hP.ifElse hv (hP.block (statements yes hyes)) (hP.block (statements no hno)))
      (.pure rfl : P.Twin Eq (pure (none : Option Ty)) (pure none))
    simpa only [bind_assoc] using htwin
  | .whileLoop line c body, hs => by
    unfold Stmt.items at hs
    obtain ⟨hc, hbody⟩ := admits_cons hs
    unfold Stmt.rename Compile.statement
    exact (hP.loop (hP.whileLoop (hP.condition "while" hc) (hP.block (statements body hbody)))).seq
      (.pure rfl)
  | .doWhile line body c, hs => by
    unfold Stmt.items at hs
    obtain ⟨hc, hbody⟩ := admits_cons hs
    unfold Stmt.rename Compile.statement
    exact (hP.condition "do-while" hc).discard.seq
      ((hP.loop (hP.block (statements body hbody))).seq (.pure rfl))
  | .forLoop line init c? u? body, hs => by
    unfold Stmt.items at hs
    obtain ⟨hinit, hs⟩ := admits_append hs
    obtain ⟨hc, hs⟩ := admits_append hs
    obtain ⟨hu, hbody⟩ := admits_append hs
    have hc : ∀ e ∈ c?, e.All P.ok :=
      fun e he => hc (.value e) (by rw [Option.mem_def] at he; simp [he])
    have hu : ∀ e ∈ u?, P.Aside e := fun e he => by
      have hadmits := hu (.aside e) (by rw [Option.mem_def] at he; simp [he])
      exact ⟨hadmits.2, hP.expr e hadmits.1⟩
    unfold Stmt.rename Compile.statement
    exact (hP.inScope "for" (hP.loop (hP.forLoop (hP.loopInit hinit) (hP.loopCondition hc) hu
      (hP.block (statements body hbody))))).seq (.pure rfl)
  | .forEach line x items body, hs => by
    unfold Stmt.items at hs
    obtain ⟨-, hs⟩ := admits_cons hs
    obtain ⟨hitems, hbody⟩ := admits_cons hs
    unfold Stmt.rename Compile.statement
    refine (hP.loop (hP.inScope "foreach" ((hP.expr items hitems).bind ?_))).seq (.pure rfl)
    rintro t? _ rfl
    rw [Expr.line_rename]
    exact (hP.loopVariable line items.line x t?).seq (hP.block (statements body hbody))
  | .tryCatch line body handler, hs => by
    unfold Stmt.items at hs
    obtain ⟨hbody, hhandler⟩ := admits_append hs
    unfold Stmt.rename Compile.statement
    exact (hP.block (statements body hbody)).seq
      ((hP.block (statements handler hhandler)).seq (.pure rfl))
  | .switch line e cs none, hs => by
    unfold Stmt.items at hs
    obtain ⟨he, hcs⟩ := admits_cons hs
    unfold Stmt.rename Compile.statement
    refine (hP.subjectType he).bind_eq fun t? => ?_
    cases t? with
    | none => exact .pure rfl
    | some t =>
      have htwin := (hP.switch t (cases cs hcs) .none).seq
        (.pure rfl : P.Twin Eq (pure (none : Option Ty)) (pure none))
      rw [Compile.switchBody_none, Compile.switchBody_none] at htwin
      exact htwin
  | .switch line e cs (some body), hs => by
    unfold Stmt.items at hs
    obtain ⟨he, hs⟩ := admits_cons hs
    obtain ⟨hcs, hbody⟩ := admits_append hs
    unfold Stmt.rename Compile.statement
    refine (hP.subjectType he).bind_eq fun t? => ?_
    cases t? with
    | none => exact .pure rfl
    | some t =>
      have htwin := (hP.switch t (cases cs hcs) (.some (statements body hbody))).seq
        (.pure rfl : P.Twin Eq (pure (none : Option Ty)) (pure none))
      rw [Compile.switchBody_some, Compile.switchBody_some] at htwin
      exact htwin
  | .breakLoop line, _ => by
    unfold Stmt.rename Compile.statement
    exact (hP.loopJump line "break" Loop.done).seq (.pure rfl)
  | .continueLoop line, _ => by
    unfold Stmt.rename Compile.statement
    exact (hP.loopJump line "continue" Loop.again).seq (.pure rfl)
  | .returnValue line e?, hs => by
    unfold Stmt.rename Compile.statement
    refine hP.returnStmt line fun e he => hs (.value e) ?_
    rw [Option.mem_def] at he
    simp [Stmt.items, he]

/-- Statements in sequence, each in the state that the ones before it leave. -/
theorem statements : ∀ ss : List Stmt, (∀ i ∈ Stmt.itemsAll ss, P.Admits i) →
    P.Twin Any (Compile.statements ss) (Compile.statements (Stmt.renameAll P.names ss))
  | [], _ => by
    unfold Stmt.renameAll Compile.statements
    exact .pure trivial
  | s :: ss, hss => by
    unfold Stmt.itemsAll at hss
    obtain ⟨hs, hss⟩ := admits_append hss
    unfold Stmt.renameAll Compile.statements
    rw [Stmt.line_rename]
    exact (hP.unreachable _ _).seq ((statement s hs).seq (statements ss hss))

/-- Each case of a switch, with its value and its body. -/
theorem cases :
    ∀ cs : List Case, (∀ i ∈ Case.itemsAll cs, P.Admits i) → ∀ e body, Case.mk e body ∈ cs →
    P.Aside e ∧ P.Twin Any (Compile.statements body)
      (Compile.statements (Stmt.renameAll P.names body))
  | [], _, _, _, hmem => absurd hmem List.not_mem_nil
  | .mk e' body' :: rest, hcs, e, body, hmem => by
    unfold Case.itemsAll at hcs
    obtain ⟨he, hcs⟩ := admits_cons hcs
    obtain ⟨hbody, hrest⟩ := admits_append hcs
    have htwin := statements body' hbody
    rcases List.mem_cons.mp hmem with heq | hmem
    · obtain ⟨rfl, rfl⟩ := Case.mk.inj heq
      exact ⟨⟨he.2, hP.expr e he.1⟩, htwin⟩
    · exact cases rest hrest e body hmem

/-- The fields of a class, in the order in which they stand. -/
theorem fields (hclasses : P.classes) (cls : SymbolId) :
    ∀ ms : List Member, (∀ i ∈ Member.itemsAll ms, P.Admits i) →
    P.Twin Any (Compile.fields cls ms) (Compile.fields cls (Member.renameAll P.names ms))
  | [], _ => by
    unfold Member.renameAll Compile.fields
    exact .pure trivial
  | .field d :: rest, hms => by
    unfold Member.itemsAll at hms
    obtain ⟨hd, hrest⟩ := admits_append hms
    have hname : (d.rename P.names).name = d.name := by
      rw [hP.ident hclasses, VarDecl.rename_identity]
    unfold Member.renameAll Compile.fields
    rw [hname]
    exact (hP.varDecl hd).seq
      ((hP.attributeOf hclasses cls d.name).seq (fields hclasses cls rest hrest))
  | .constant d :: rest, hms => by
    unfold Member.itemsAll at hms
    obtain ⟨hd, hrest⟩ := admits_append hms
    have hname : (d.rename P.names).name = d.name := by
      rw [hP.ident hclasses, ConstDecl.rename_identity]
    unfold Member.renameAll Compile.fields
    rw [hname]
    exact (hP.constDecl hd).seq
      ((hP.attributeOf hclasses cls d.name).seq (fields hclasses cls rest hrest))
  | .method sig body :: rest, hms => by
    unfold Member.itemsAll at hms
    obtain ⟨-, hms⟩ := admits_append hms
    obtain ⟨-, hrest⟩ := admits_append hms
    unfold Member.renameAll Compile.fields
    exact fields hclasses cls rest hrest

/-- Its methods, which see all fields. -/
theorem methods (hclasses : P.classes) (name : String) (cls : SymbolId) : ∀ ms : List Member,
    (∀ i ∈ Member.itemsAll ms, P.Admits i) →
      P.Twin Any (Compile.methods name cls ms)
        (Compile.methods name cls (Member.renameAll P.names ms))
  | [], _ => by
    unfold Member.renameAll Compile.methods
    exact .pure trivial
  | .method sig body :: rest, hms => by
    unfold Member.itemsAll at hms
    obtain ⟨-, hms⟩ := admits_append hms
    obtain ⟨hbody, hrest⟩ := admits_append hms
    have hsig : sig.rename P.names = sig := by
      rw [hP.ident hclasses]; exact Signature.rename_identity sig
    unfold Member.renameAll Compile.methods
    rw [hsig]
    have hblock := hP.block (statements body hbody)
    split
    · exact (hP.constructorDecl hclasses name cls sig hblock).seq
        (methods hclasses name cls rest hrest)
    · exact (hP.methodDecl hclasses name cls sig hblock).seq (methods hclasses name cls rest hrest)
  | .field d :: rest, hms => by
    unfold Member.itemsAll at hms
    obtain ⟨-, hrest⟩ := admits_append hms
    unfold Member.renameAll Compile.methods
    exact methods hclasses name cls rest hrest
  | .constant d :: rest, hms => by
    unfold Member.itemsAll at hms
    obtain ⟨-, hrest⟩ := admits_append hms
    unfold Member.renameAll Compile.methods
    exact methods hclasses name cls rest hrest

end

end Steps

end Pairing

end Scriptc
