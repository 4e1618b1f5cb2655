import Scriptc.Compile.Expr

/-!
# Scriptc: declarations and assignments

What a declaration adds to the names in scope, and where the value of an assignment goes. Bodies of
functions come as steps, so this module does not look into statements.
-/

namespace Scriptc.Compile

open Build (error isClean)

/-- The symbol that a name has in the innermost scope. -/
def currentSymbol? (name : String) : BuildM (Option Symbol) := do
  let t := (← get).table
  return (t.lookupCurrent? name).bind t.symbol?

/-- Keeps a symbol and declares it in the innermost scope. A name that is taken is reported. -/
def declare (line : Nat) (s : Symbol) : BuildM (SymbolId × Bool) := do
  let (id, table) := (← get).table.keep s
  match table.declare id with
  | .ok t =>
    modify fun b => { b with table := t }
    return (id, true)
  | .error f =>
    modify fun b => { b with table := table }
    error line f.message
    return (id, false)

def currentScope : BuildM Nat := do return (← get).table.currentId

def enterScope (kind : String) : BuildM Unit :=
  modify fun b => { b with table := b.table.enter kind }

def exitScope : BuildM Unit := modify fun b => { b with table := b.table.exit.2 }

/-- Reads something in a scope of its own. -/
def inScope (kind : String) (body : BuildM Unit) : BuildM Unit := do
  enterScope kind
  body
  exitScope

def modifySymbol (id : SymbolId) (f : Symbol → Symbol) : BuildM Unit :=
  modify fun b => { b with table := b.table.modifySymbol id f }

def modifyFunction (id : SymbolId) (f : Function → Function) : BuildM Unit :=
  modifySymbol id fun s =>
    match s.body with
    | .function g => { s with body := .function (f g) }
    | _ => s

def modifyClass (id : SymbolId) (f : Class → Class) : BuildM Unit :=
  modifySymbol id fun s =>
    match s.body with
    | .classDecl c => { s with body := .classDecl (f c) }
    | _ => s

def addAttribute (cls : SymbolId) (name : String) (id : SymbolId) : BuildM Unit :=
  modifyClass cls fun c => { c with attributes := c.attributes.put name id }

def addMethod (cls : SymbolId) (name : String) (id : SymbolId) : BuildM Unit :=
  modifyClass cls fun c => { c with methods := c.methods.put name id }

/-- Reads the value of an assignment, in which constants are operands of their own. -/
def direct (e : Expr) : BuildM (Option Ty) := do
  Emit.setDirect true
  let t ← expr e
  Emit.setDirect false
  return t

/-- How a name that is taken was declared. -/
def declaredAs (s : Symbol) : String :=
  match s.body with
  | .variable ⟨_, true, _⟩ => "constante"
  | _ => "variable"

/-- Writes the first value of a variable, which has just been read. -/
def initialise (name : String) : BuildM Unit := do
  match ← value with
  | .cells vs => Emit.storeAll (← Emit.place name) 0 vs
  | v => let _ ← Emit.assign (← Emit.place name) v

/-- The type of the first value of a variable, if it has one. -/
def initialType : Option Expr → BuildM (Option Ty)
  | some e => direct e
  | none => return none

/-- The first value of a variable must be of its type. -/
def checkInitial (line : Nat) (init? : Option Ty) (final : Ty) : BuildM Unit := do
  match init? with
  | some t =>
    if !(t == .error) && !t.canAssignTo (some final) then
      error line ("No se puede asignar " ++ t.name ++ " a " ++ final.name)
  | none => return ()

/-- What the class at hand, if there is one, learns of a declaration. -/
def tellClass (tell : SymbolId → BuildM Unit) : BuildM Unit := do
  match (← get).inClass? with
  | some c => tell c
  | none => return ()

/-- Adds a variable whose type is known and whose first value has been read. Inside a class it is an
attribute too. -/
def addVariable (d : VarDecl) (v : Variable) : BuildM Unit := do
  let (id, _) ← declare d.line ⟨d.name, ← currentScope, .variable v⟩
  if d.init?.isSome && (← isClean) then initialise d.name
  tellClass (addAttribute · d.name id)
  Emit.endExpression

/-- Declares a variable. -/
def variableDecl (d : VarDecl) : BuildM Unit := do
  match ← currentSymbol? d.name with
  | some s =>
    error d.line ("Variable '" ++ d.name ++ "' ya declarada como " ++ declaredAs s
      ++ " en este ámbito")
  | none =>
    let declared? ← typeOf? d.type?
    let init? ← initialType d.init?
    let final := declared?.getD (init?.getD .null)
    checkInitial d.line init? final
    addVariable d { type? := some final, inferred := declared?.isNone }

/-- Stores the value at hand in a variable, if there are no errors. -/
def storeValue (name : String) : BuildM Unit := do
  if ← isClean then
    let v ← value
    let _ ← Emit.assign (← Emit.place name) v

/-- Adds a constant whose value has been read. -/
def addConstant (d : ConstDecl) (v : Variable) : BuildM Unit := do
  let _ ← declare d.line ⟨d.name, ← currentScope, .variable v⟩
  storeValue d.name
  Emit.endExpression

/-- Declares a constant. A value of a wrong type declares nothing. -/
def constantDecl (d : ConstDecl) : BuildM Unit := do
  match ← currentSymbol? d.name with
  | some s =>
    error d.line ("Constante '" ++ d.name ++ "' ya declarada como " ++ declaredAs s
      ++ " en este ámbito")
  | none =>
    let declared? ← typeOf? d.type?
    let value? ← direct d.value
    let final? := declared?.or value?
    if value?.all (·.canAssignTo final?) then addConstant d { type? := final?, const := true }
    else
      error d.line ("No se puede asignar " ++ (value?.map Ty.name).getD "" ++ " a "
        ++ (← Check.typeName final?) ++ " en constante")

/-! ## Assignments -/

/-- An assignment to a member. The value is read before the object. -/
def assignMember (base : Expr) (member : String) (v : Expr) : BuildM (Option Ty) := do
  let line := base.line
  let value? ← expr v
  let operand ← value
  Emit.use operand
  let base? ← expr base
  let object ← value
  if base? == some .error || value? == some .error then return some .error
  let cls? ← match base? with
    | some t => class? t.name
    | none => pure none
  match cls? with
  | none =>
    error line ("No se puede asignar a miembro '" ++ member ++ "' de tipo no-clase")
    return some .error
  | some cls =>
    let table := (← get).table
    match ((table.member? cls.name member).bind table.symbol?).bind Symbol.asVariable? with
    | none =>
      error line ("Miembro '" ++ member ++ "' no existe en clase '" ++ cls.name ++ "'")
      return some .error
    | some a =>
      if a.const then
        error line ("No se puede reasignar la constante '" ++ member ++ "'")
        return some .error
      if !(← Check.assignable value? a.type?) then
        error line ("No se puede asignar " ++ (← Check.typeName value?) ++ " a "
          ++ (← Check.typeName a.type?))
        return some .error
      if ← isClean then
        let _ ← Emit.storeMember object cls.name member operand
      return value?

/-- Whether a value fixes the type of a variable that has none of its own yet. -/
def fixesType (v : Variable) (value? : Option Ty) : Bool :=
  v.type? == some .null && v.inferred && value? != some .null && value? != some .void
    && value? != some .error

/-- Checks a value against the variable that it is assigned to, or fixes the variable's type by
it. -/
def fixType (line : Nat) (id : String) (v : Variable) (value? : Option Ty) : BuildM Unit := do
  if fixesType v value? then
    match (← get).table.lookup? id with
    | some i => modifySymbol i fun s => { s with body := .variable { v with type? := value? } }
    | none => return ()
  else if value? != some .error && !(← Check.assignable value? v.type?) then
    error line ("No se puede asignar " ++ (← Check.typeName value?) ++ " a "
      ++ (← Check.typeName v.type?))

/-- An assignment to a name. -/
def assignName (line : Nat) (id : String) (e : Expr) : BuildM (Option Ty) := do
  match ← assignable? line id with
  | none => return some .error
  | some v =>
    let value? ← direct e
    fixType line id v value?
    storeValue id
    Emit.endExpression
    return some (value?.getD .error)

def assignment : Assignment → BuildM (Option Ty)
  | .toName line id e => assignName line id e
  | .toMember base member v => assignMember base member v

/-! ## Functions -/

/-- Declares the parameters of a function in its scope. One without a known type has the type
void. -/
def declareParams (function : SymbolId) (scope : Nat) : List Param → BuildM Unit
  | [] => return ()
  | p :: ps => do
    let t := (← typeOf? p.type?).getD .void
    modifyFunction function fun f => { f with params := f.params ++ [(p.name, some t)] }
    let _ ← declare p.line ⟨p.name, scope, .variable { type? := some t }⟩
    declareParams function scope ps

/-- The parameters as they go into the frame. Their types are read again, where a parameter may by
now hide the class that its own type names. -/
def frameParams (ps : List Param) : BuildM (List (String × Option Ty)) :=
  ps.mapM fun p => do return (p.name, some ((← typeOf? p.type?).getD .void))

/-- The types that a function has returned. -/
def returnsOf (id : SymbolId) : BuildM (List (Option Ty)) := do
  return (((← get).table.symbol? id).bind Symbol.asFunction?).elim [] Function.returns

/-- A function that gives a value must return one, always of its type. -/
def checkReturns (line : Nat) (what name : String) (result? : Option Ty)
    (returns : List (Option Ty)) : BuildM Unit := do
  if returns.isEmpty then
    error line ("Función '" ++ name ++ "' debe retornar un valor")
  else
    returns.forM fun r => do
      if r != some .error && r != result? then
        error line ("Tipo de retorno inconsistente en " ++ what ++ " '" ++ name ++ "'. Esperado: "
          ++ (← Check.typeName result?) ++ ", encontrado: " ++ (← Check.typeName r))

/-- What gives no value must not return one. -/
def checkVoid (line : Nat) (text : String) (returns : List (Option Ty)) : BuildM Unit :=
  returns.forM fun r => do
    if r != some .void && r != some .error then error line text

/-- The type that a function declares to give; nothing is void. -/
def resultType : Option String → BuildM (Option Ty)
  | none => return some .void
  | some t => typeOf t

def voidText : String := "Uso explícito de 'void' no permitido en funciones"

/-- The body of a function whose scope is open: code for it is written only if there are no
errors. -/
def routineBody (ps : List Param) (emit : List (String × Option Ty) → BuildM Unit)
    (body : BuildM Unit) : BuildM Unit := do
  if ← isClean then emit (← frameParams ps) else body

/-- What a function returns against the type that it declares to give. -/
def checkResult (line : Nat) (what kind name : String) (result? : Option Ty)
    (returns : List (Option Ty)) : BuildM Unit :=
  if result? != some .void then checkReturns line what name result? returns
  else checkVoid line (kind ++ " void '" ++ name ++ "' no debe retornar valor") returns

/-- Opens the scope of a function that is declared, writes its code and checks what it returns. -/
def functionBody (sig : Signature) (scope : Nat) (id : SymbolId) (result? : Option Ty)
    (body : BuildM Unit) : BuildM Unit := do
  enterScope "function"
  modify fun b => { b with inFunction? := some id }
  declareParams id scope sig.params
  routineBody sig.params (fun ps => discard <| Emit.function sig.name ps result? body) body
  checkResult sig.line "función" "Función" sig.name result? (← returnsOf id)
  exitScope
  modify fun b => { b with inFunction? := none, frame? := none }
  tellClass (addMethod · sig.name id)

/-- Declares a function. -/
def functionDecl (sig : Signature) (body : BuildM Unit) : BuildM Unit := do
  Emit.setFunction sig.name
  let result? ← resultType sig.result?
  if result? == some .void && sig.result?.isSome then error sig.line voidText
  else
    match ← currentSymbol? sig.name with
    | some s =>
      error sig.line ("Función '" ++ sig.name ++ "' ya declarada como " ++ s.category
        ++ " en este ámbito")
    | none =>
      let scope ← currentScope
      let (id, fresh) ← declare sig.line ⟨sig.name, scope, .function { result? := result? }⟩
      if fresh then functionBody sig scope id result? body

/-- Opens the scope of a method, writes its code and checks what it returns. -/
def methodBody (cls : String) (sig : Signature) (id : SymbolId) (result? : Option Ty)
    (check : List (Option Ty) → BuildM Unit) (body : BuildM Unit) : BuildM Unit := do
  enterScope "function"
  modify fun b => { b with inFunction? := some id }
  declareParams id (← currentScope) sig.params
  routineBody sig.params (fun ps => discard <| Emit.method cls sig.name ps result? body) body
  check (← returnsOf id)
  exitScope
  modify fun b => { b with inFunction? := none }

/-- The name of the method that runs when an object is made. -/
def constructorName : String := "constructor"

/-- Declares the constructor of a class. -/
def constructorDecl (cls : String) (clsId : SymbolId) (sig : Signature) (body : BuildM Unit) :
    BuildM Unit := do
  if sig.result?.isSome then
    error sig.line "El constructor no debe declarar tipo de retorno"
  let id := (← get).table.symbols.size
  addMethod clsId constructorName id
  let _ ← declare sig.line ⟨constructorName, ← currentScope, .function { result? := some .void }⟩
  methodBody cls sig id (some .void)
    (checkVoid sig.line "El constructor no debe retornar un valor") body

/-- Declares a method of a class. -/
def methodDecl (cls : String) (clsId : SymbolId) (sig : Signature) (body : BuildM Unit) :
    BuildM Unit := do
  let result? ← resultType sig.result?
  if result? == some .void && sig.result?.isSome then error sig.line voidText
  else
    let id := (← get).table.symbols.size
    addMethod clsId sig.name id
    let (_, fresh) ← declare sig.line ⟨sig.name, ← currentScope, .function { result? := result? }⟩
    if fresh then
      methodBody cls sig id result? (checkResult sig.line "método" "Método" sig.name result?) body

/-- Makes a name of the class scope an attribute. -/
def attributeOf (cls : SymbolId) (name : String) : BuildM Unit := do
  let t := (← get).table
  match t.lookupCurrent? name with
  | some id =>
    if ((t.symbol? id).bind Symbol.asVariable?).isSome then addAttribute cls name id
  | none => pure ()

/-- The parent that a class names. One that is not in scope is reported. -/
def parentOf (line : Nat) : Option String → BuildM (Option SymbolId)
  | none => return none
  | some p => do
    match ← class? p with
    | some _ => return (← get).table.lookup? p
    | none =>
      error line ("Clase padre '" ++ p ++ "' no declarada")
      return none

/-- Opens the scope of a class that is declared and reads its members. -/
def classBody (id : SymbolId) (fields methods : SymbolId → BuildM Unit) : BuildM Unit := do
  enterScope "class"
  let outer := (← get).inClass?
  modify fun b => { b with inClass? := some id }
  fields id
  let _ ← Emit.layout id
  methods id
  exitScope
  modify fun b => { b with inClass? := outer }

/-- Declares a class: its fields first, which fixes the layout of its objects, and then its
methods. -/
def classDecl (line : Nat) (name : String) (parent? : Option String)
    (fields methods : SymbolId → BuildM Unit) : BuildM Unit := do
  if (← currentSymbol? name).isSome then
    error line ("Clase '" ++ name ++ "' ya declarada en este ámbito")
  else
    let parentId? ← parentOf line parent?
    let (id, fresh) ← declare line ⟨name, ← currentScope, .classDecl { parent? := parentId? }⟩
    if fresh then classBody id fields methods

end Scriptc.Compile
