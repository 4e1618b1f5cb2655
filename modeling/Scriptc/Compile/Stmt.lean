import Scriptc.Compile.Declare

/-!
# Scriptc: statements

Reading a statement declares names, reports what is wrong and writes code. Code for a compound
statement is written only while no error has been reported; otherwise its parts are read for their
errors alone. A block opens a scope of its own, except right inside a function or a class.
-/

namespace Scriptc.Compile

open Build (error isClean)

/-- The condition of a statement must be a truth value. -/
def checkCondition (at_ : Nat) (what : String) (type? : Option Ty) : BuildM Unit := do
  match ← Check.wrong? type? .boolean with
  | some found =>
    error at_ ("Condición de '" ++ what ++ "' debe ser boolean, encontrado " ++ found)
  | none => pure ()

/-- Reads a condition; its value is the value at hand. -/
def condition (what : String) (e : Expr) : BuildM Operand := do
  checkCondition e.line what (← expr e)
  value

/-- Reads statements of which the first can be reached, whatever stands before them. -/
def reachable (body : BuildM Unit) : BuildM Unit := do
  let before := (← get).unreachable
  modify fun b => { b with unreachable := false }
  body
  modify fun b => { b with unreachable := before }

/-- Reads the statements of a block. -/
def block (body : BuildM Unit) : BuildM Unit := do
  if ["function", "class"].contains (← get).table.current.kind then reachable body
  else inScope "block" (reachable body)

/-- Reads a loop, inside which `break` and `continue` are allowed. -/
def loop (body : BuildM Unit) : BuildM Unit := do
  let outer := (← get).loops
  modify fun b => { b with loops := b.loops.enter }
  body
  modify fun b => { b with loops := b.loops.leave outer }

/-- Nothing behind this statement is reached. -/
def cutOff : BuildM Unit := modify fun b => { b with unreachable := true }

/-- A jump to a target of the loop at hand. -/
def loopJump (line : Nat) (word : String) (code : BuildM Operand) : BuildM Unit := do
  let _ ← Check.unreachable line ("statement " ++ word)
  if !(← get).loops.inside then error line (word ++ " solo puede usarse dentro de un bucle")
  else if ← isClean then let _ ← code
  cutOff

/-- The type of what is returned; nothing is void. -/
def returnedType : Option Expr → BuildM (Option Ty)
  | some e => expr e
  | none => return some .void

/-- What is returned must be of the type that the function gives. -/
def checkReturned (line : Nat) (hasValue : Bool) (type? result? : Option Ty) : BuildM Unit := do
  if result? == some .void then
    if hasValue then error line "Función void no debe retornar valor"
  else if type? != result? then
    error line ("Tipo de retorno no coincide. Esperado: " ++ (← Check.typeName result?))

/-- A return from the function at hand. -/
def returnStmt (line : Nat) (value? : Option Expr) : BuildM (Option Ty) := do
  let _ ← Check.unreachable line "statement return"
  let b ← get
  match b.inFunction? with
  | none =>
    error line "return fuera de función"
    return none
  | some id =>
    let result? := ((b.table.symbol? id).bind Symbol.asFunction?).bind Function.result?
    let type? ← returnedType value?
    checkReturned line value?.isSome type? result?
    modifyFunction id fun f => { f with returns := f.returns ++ [type?] }
    if ← isClean then
      let v ← value
      let _ ← Emit.returnValue (if value?.isSome then v else .none)
    cutOff
    return type?

def printStmt (line : Nat) (e : Expr) : BuildM Unit := do
  let t ← expr e
  if t == some .error then return
  if !(t == some .integer || t == some .string || t == some .boolean) then
    error line ("print() no puede imprimir tipo '" ++ (← Check.typeName t) ++ "'")
    return
  if ← isClean then Emit.print (← value) t

/-- The first part of a counting loop. -/
def loopInit : LoopInit → BuildM Unit
  | .nothing => return ()
  | .declare d => variableDecl d
  | .assign a => discard (assignment a)

/-- The condition of a counting loop; one without a condition has no value to test. -/
def loopCondition : Option Expr → BuildM Operand
  | none => return .none
  | some e => condition "for" e

def loopUpdate : Option Expr → BuildM Unit
  | none => return ()
  | some e => discard (expr e)

/-- Declares the variable of a loop over an array. -/
def loopVariable (line at_ : Nat) (name : String) (items? : Option Ty) : BuildM Unit := do
  match items? with
  | some (.array e _) =>
    discard <| declare line ⟨name, ← currentScope, .variable { type? := some e }⟩
  | t =>
    if t != some .error then
      error at_ ("foreach requiere un array, encontrado " ++ (← Check.typeName t))

/-- What a switch chooses by: a number or a truth value. -/
def subjectType (e : Expr) : BuildM (Option Ty) := do
  let t ← expr e
  if t == some .error then return none
  if !(t == some .integer || t == some .boolean) then
    error e.line ("Switch expression must be integer or boolean, found " ++ (← Check.typeName t))
    return none
  return t

/-- The value of a case must be of the type of the subject. -/
def caseValue (subject? : Option Ty) (e : Expr) : BuildM Operand := do
  let t ← expr e
  if t != some .error && t != subject? then
    error e.line ("Case expression type " ++ (← Check.typeName t) ++ " doesn't match switch type "
      ++ (← Check.typeName subject?))
  value

def caseValues (subject? : Option Ty) (cs : List Case) : BuildM (List Operand) :=
  cs.mapM fun | .mk e _ => caseValue subject? e

mutual

/-- Reads one statement. The result is the type of an assignment or of a returned value. -/
def statement : Stmt → BuildM (Option Ty)
  | .declare d => do
    variableDecl d
    return none
  | .constant d => do
    constantDecl d
    return none
  | .assign a => assignment a
  | .function sig body => do
    functionDecl sig (block (statements body))
    return none
  | .classDecl line name parent? members => do
    classDecl line name parent? (fun id => fields id members) (fun id => methods name id members)
    return none
  | .expr e => do
    discard (expr e)
    return none
  | .print line e => do
    printStmt line e
    return none
  | .block _ body => do
    block (statements body)
    return none
  | .ifElse _ c yes none => do
    let v ← condition "if" c
    if ← isClean then discard <| Emit.ifElse v (block (statements yes)) (pure ())
    else block (statements yes)
    return Option.none
  | .ifElse _ c yes (some no) => do
    let v ← condition "if" c
    if ← isClean then
      discard <| Emit.ifElse v (block (statements yes)) (block (statements no))
    else
      block (statements yes)
      block (statements no)
    return none
  | .whileLoop _ c body => do
    loop do
      if ← isClean then
        discard <| Emit.whileLoop (condition "while" c) (block (statements body))
      else
        discard (condition "while" c)
        block (statements body)
    return none
  | .doWhile _ body c => do
    discard (condition "do-while" c)
    loop (block (statements body))
    return none
  | .forLoop _ init c? u? body => do
    inScope "for" <| loop do
      if ← isClean then
        discard <| Emit.forLoop (loopInit init) (loopCondition c?) (loopUpdate u?)
          (block (statements body))
      else
        loopInit init
        discard (loopCondition c?)
        loopUpdate u?
        block (statements body)
    return none
  | .forEach line name items body => do
    loop <| inScope "foreach" do
      loopVariable line items.line name (← expr items)
      block (statements body)
    return none
  | .tryCatch _ body handler => do
    block (statements body)
    block (statements handler)
    return none
  | .switch _ subject cs none => do
    match ← subjectType subject with
    | some t =>
      if ← isClean then
        let v ← value
        let values ← caseValues (some t) cs
        let done ← Emit.newLabel
        cases v done values cs
        Emit.mark done
      else caseBodies cs
    | Option.none => pure ()
    return Option.none
  | .switch _ subject cs (some default_) => do
    match ← subjectType subject with
    | some t =>
      if ← isClean then
        let v ← value
        let values ← caseValues (some t) cs
        let done ← Emit.newLabel
        cases v done values cs
        Emit.mark (← Emit.newLabel)
        statements default_
        Emit.mark done
      else
        caseBodies cs
        statements default_
    | none => pure ()
    return none
  | .breakLoop line => do
    loopJump line "break" Emit.breakLoop
    return none
  | .continueLoop line => do
    loopJump line "continue" Emit.continueLoop
    return none
  | .returnValue line value? => returnStmt line value?

/-- Reads statements one after the other, each with a warning if it cannot be reached. -/
def statements : List Stmt → BuildM Unit
  | [] => return ()
  | s :: ss => do
    let _ ← Check.unreachable s.line "statement"
    let _ ← statement s
    statements ss

/-- The cases of a switch with the operands of their values. -/
def cases (subject done : Operand) (values : List Operand) : List Case → BuildM Unit
  | [] => return ()
  | .mk _ body :: rest => do
    Emit.switchCase subject (values.headD .none) done (statements body)
    cases subject done values.tail rest

/-- The cases of a switch without code for the switch. -/
def caseBodies : List Case → BuildM Unit
  | [] => return ()
  | .mk e body :: rest => do
    discard (expr e)
    statements body
    caseBodies rest

/-- The fields of a class. -/
def fields (cls : SymbolId) : List Member → BuildM Unit
  | [] => return ()
  | .field d :: rest => do
    variableDecl d
    attributeOf cls d.name
    fields cls rest
  | .constant d :: rest => do
    constantDecl d
    attributeOf cls d.name
    fields cls rest
  | .method _ _ :: rest => fields cls rest

/-- The methods of a class. -/
def methods (name : String) (cls : SymbolId) : List Member → BuildM Unit
  | [] => return ()
  | .method sig body :: rest => do
    if sig.name = constructorName then constructorDecl name cls sig (block (statements body))
    else methodDecl name cls sig (block (statements body))
    methods name cls rest
  | .field _ :: rest => methods name cls rest
  | .constant _ :: rest => methods name cls rest

end

/-- Reads a whole program. -/
def program (p : Program) : BuildM Unit := statements p

end Scriptc.Compile
