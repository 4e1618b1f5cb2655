import Scriptc.Ast
import Scriptc.Check
import Scriptc.Emit.Flow
import Scriptc.Emit.Indexed
import Scriptc.Emit.Object

/-!
# Scriptc: expressions

Reading an expression finds its type, reports what is wrong with it and writes its code; the operand
that holds its value is left in `Build.value`. The result is the type, or nothing where an
expression has none.

* A chain of operators is read from the left, each operator taking the value so far (`Chain.step`).
* An access reads its atom and then its suffixes. A name of a function is `Pending` until it is
  called.
-/

namespace Scriptc.Compile

open Build (error isClean)

/-- The type written in a declaration: a built-in one, or a class that is in scope. -/
def typeOf (text : String) : BuildM (Option Ty) := do
  match ← Build.ofExcept (Ty.ofText text) with
  | some t => return some t
  | none =>
    match ← Build.lookup? text with
    | some s => return if s.kind = .classDecl then some (.named text) else none
    | none => return none

def typeOf? : Option String → BuildM (Option Ty)
  | none => return none
  | some t => typeOf t

/-- The class that a name stands for. -/
def class? (name : String) : BuildM (Option Symbol) := do
  match ← Build.lookup? name with
  | some s => return if s.kind = .classDecl then some s else none
  | none => return none

def value : BuildM Operand := do return (← get).value

/-! ## Chains of operators -/

/-- What a chain has come to. -/
structure Chain where
  /-- The type of the left operand of the next operator. -/
  left? : Option Ty
  /-- The type of the chain if it ends here. -/
  result? : Option Ty
  /-- Where the value so far is. -/
  value : Operand

namespace Chain

def start (level : Level) (type? : Option Ty) : BuildM Chain := do
  let v ← Compile.value
  if level = .additive then Emit.use v
  return ⟨type?, type?, v⟩

/-- A sum, where a number next to a string is turned into a string first. -/
def sum (c : Chain) (op : String) (right? : Option Ty) (v : Operand) : BuildM Operand := do
  if op = "+" && c.left? == some .integer && right? == some .string then
    Emit.arithmetic (← Emit.callToString c.value) v op
  else if op = "+" && c.left? == some .string && right? == some .integer then
    Emit.arithmetic c.value (← Emit.callToString v) op
  else Emit.arithmetic c.value v op

/-- Takes in one more operator and its right operand, which has just been read. `line` is where the
chain begins and `at_` where the operand does. -/
def step (level : Level) (line : Nat) (c : Chain) (op : String) (at_ : Nat) (right? : Option Ty) :
    BuildM Chain := do
  let v ← Compile.value
  match level with
  | .additive =>
    Emit.use v
    let t ← Check.additive c.left? right? op at_
    let w ← if t == .error then pure c.value else c.sum op right? v
    return ⟨some t, some t, w⟩
  | .multiplicative =>
    let t ← Check.arithmetic c.left? right? at_
    let w ← if t == .error then pure c.value else Emit.arithmetic c.value v op
    return ⟨some t, some t, w⟩
  | .equality =>
    let t ← Check.comparison c.left? right? op line
    let w ← if t == .error then pure c.value else Emit.comparison c.value v op
    return ⟨right?, some t, w⟩
  | .relational =>
    let t ← Check.relational c.left? right? op line
    let w ← if t == .error then pure c.value else Emit.comparison c.value v op
    return ⟨right?, some t, w⟩
  | .and | .or =>
    let t ← Check.logical c.left? right? at_
    let w ← if t == .error then pure c.value
      else Emit.logical c.value v (if level = .and then "&&" else "||")
    return ⟨some t, some t, w⟩

end Chain

/-! ## Constants and operators with one operand -/

def literal (l : Literal) : BuildM (Option Ty) := do
  match l with
  | .null =>
    let _ ← Emit.constant "null"
    return some .null
  | .bool b =>
    let _ ← Emit.constant (if b then "true" else "false")
    return some .boolean
  | .plain t =>
    let _ ← Emit.constant t
    return some (if Affix.begins t "\"" then .string else .integer)

/-- An operator with one operand that takes and gives values of one type. -/
def unary (line : Nat) (sign kind : String) (wanted : Ty) (operand? : Option Ty)
    (code : Operand → BuildM Operand) : BuildM (Option Ty) := do
  match ← Check.wrong? operand? wanted with
  | some found =>
    error line ("Operador '" ++ sign ++ "' requiere operando " ++ kind ++ ", got " ++ found)
    return some .error
  | none =>
    if operand? != some .error then let _ ← code (← value)
    return some wanted

/-! ## Accesses -/

/-- A function that has been named and waits for its arguments. -/
inductive Pending where
  | nothing
  | function (name : String) (f : Function)
  /-- A method of the object at `this`, named on the given line. -/
  | method (line : Nat) (this : Operand) (cls name : String) (f : Function)

/-- What an access has come to. -/
structure Target where
  type? : Option Ty := none
  pending : Pending := .nothing

def failed : Target := { type? := some .error }

/-- The value of a name. -/
def name (line : Nat) (id : String) : BuildM (Option Target) := do
  match ← Build.lookup? id with
  | none =>
    error line ("Identificador '" ++ id ++ "' no declarado")
    return none
  | some s =>
    match s.body with
    | .variable v =>
      match v.type? with
      | some (.array _ _) => Emit.setValue (← Emit.placeValue id)
      | _ => Emit.setValue (← Emit.variableValue id)
      return some { type? := v.type? }
    | .function f => return some { pending := .function s.name f }
    | .classDecl _ =>
      error line ("Uso inválido del nombre de clase '" ++ id ++ "' como valor")
      return none
    | .other _ _ =>
      error line ("Identificador '" ++ id ++ "' no declarado")
      return none

/-- The object that the method at hand works on. -/
def this (line : Nat) : BuildM (Option Target) := do
  let b ← get
  match b.inClass?.bind b.table.symbol? with
  | none =>
    error line "Uso de 'this' fuera de una clase"
    return none
  | some c =>
    Emit.setValue (← Emit.loadThis)
    return some { type? := some (.named c.name) }

/-- The constructor that a class itself declares. -/
def constructor? (c : Class) : BuildM (Option Function) := do
  let b ← get
  return ((c.methods.get? "constructor").bind b.table.symbol?).bind Symbol.asFunction?

/-- The arguments of `new` against the constructor. -/
def checkNew (line : Nat) (cls : String) (ctor? : Option Function) (args : List (Option Ty)) :
    BuildM Unit := do
  match ctor? with
  | some f =>
    if args.length ≠ f.params.length then
      error line ("Constructor de '" ++ cls ++ "' espera " ++ toString f.params.length
        ++ " argumentos, recibió " ++ toString args.length)
    else
      Check.arguments line (fun i expected found =>
        "Argumento " ++ toString i ++ " del constructor de '" ++ cls ++ "': esperado " ++ expected
          ++ ", encontrado " ++ found) 1 f.params args
  | none =>
    if !args.isEmpty then
      error line ("Clase '" ++ cls ++ "' no define constructor; se esperaban 0 argumentos")

/-- Makes an object and runs its constructor on the operands of the arguments. -/
def construct (cls : String) (ctor? : Option Function) (args : List Operand) : BuildM Target := do
  let object ← Emit.newObject cls
  if ctor?.isSome && (← isClean) then
    let _ ← Emit.callMethod object cls "constructor" args
  Emit.setValue object
  return { type? := some (.named cls) }

/-- Applies what an access has come to, to arguments. -/
def apply (line : Nat) (t : Target) (types : List (Option Ty)) (operands : List Operand) :
    BuildM Target := do
  match t.pending with
  | .function n f =>
    if types.length ≠ f.params.length then
      error line ("Función '" ++ n ++ "' espera " ++ toString f.params.length
        ++ " argumentos, recibió " ++ toString types.length)
    else
      Check.arguments line (fun i expected found =>
        "Argumento " ++ toString i ++ " de '" ++ n ++ "': esperado " ++ expected
          ++ ", encontrado " ++ found) 1 f.params types
    if ← isClean then Emit.setValue (← Emit.call n operands)
    return { type? := f.result? }
  | .method _ this cls n f =>
    if types.length ≠ f.params.length then
      error line ("Método '" ++ n ++ "' espera " ++ toString f.params.length
        ++ " argumentos, recibió " ++ toString types.length)
    if ← isClean then Emit.setValue (← Emit.callMethod this cls n operands)
    return { type? := f.result? }
  | .nothing =>
    error line "Intento de invocar una expresión que no es función"
    return failed

/-- A method that is not called at once is an error of its own. -/
def settle (t : Target) : BuildM Target := do
  match t.pending with
  | .method line _ _ n _ =>
    error line ("Se esperaba invocar al método '" ++ n ++ "'")
    return failed
  | _ => return t

/-- The element of an array at `base` whose index, just read, has the given type. -/
def element (at_ : Nat) (e : Ty) (base : Operand) (index? : Option Ty) : BuildM Target := do
  let index ← value
  match ← Check.wrong? index? .integer with
  | some found =>
    error at_ ("El índice de un arreglo debe ser integer, encontrado " ++ found)
  | none =>
    let _ ← Emit.loadElement base index e.size
  return { type? := some e }

/-- A member of the object that an access has come to; `isThis` says that the access begins with the
object of the method at hand, which is then fetched anew. -/
def member (line : Nat) (isThis : Bool) (t : Target) (id : String) : BuildM Target := do
  let object ← if isThis then Emit.loadThis else value
  if !object.isPresent || object = .text "None" then
    error line ("Acceso a propiedad '" ++ id ++ "' sobre valor inválido")
    return failed
  let cls? ← match t.type? with
    | some ty => class? ty.name
    | none => pure none
  match cls? with
  | none =>
    error line ("No se puede acceder a miembro '" ++ id ++ "' de '"
      ++ (t.type?.map Ty.name).getD "?" ++ "'")
    return failed
  | some cls =>
    let table := (← get).table
    match (table.member? cls.name id).bind table.symbol? with
    | some ⟨_, _, .variable v⟩ =>
      let _ ← Emit.loadMember object cls.name id
      return { type? := v.type? }
    | some ⟨_, _, .function f⟩ => return { pending := .method line object cls.name id f }
    | _ =>
      error line ("Miembro '" ++ id ++ "' no existe en clase '" ++ cls.name ++ "'")
      return failed

/-- The type of an access that is complete. -/
def conclude (line : Nat) (t : Target) : BuildM (Option Ty) := do
  match (← settle t) with
  | ⟨_, .function n _⟩ =>
    error line ("Se esperaba invocar a la función '" ++ n ++ "'")
    return some .error
  | ⟨some ty, _⟩ => return some ty
  | ⟨none, _⟩ => return some .error

/-! ## Assignments -/

/-- A name that can be assigned to. Whether it is constant can be asked of variables only. -/
def assignable? (line : Nat) (id : String) : BuildM (Option Variable) := do
  match ← Build.lookup? id with
  | none =>
    error line ("Variable '" ++ id ++ "' no declarada")
    return none
  | some s =>
    match s.body with
    | .variable v =>
      if v.const then
        error line ("No se puede reasignar la constante '" ++ id ++ "'")
        return none
      else return some v
    | _ => throw (.notVariable s.kind)

/-- The element type of a name that stands for an array. -/
def arrayNamed (line : Nat) (id : String) : BuildM (Option Ty) := do
  match ← Build.lookup? id with
  | none =>
    error line ("Array '" ++ id ++ "' no declarado")
    return none
  | some s =>
    match s.type? with
    | some (.array e _) => return some e
    | _ =>
      error line ("'" ++ id ++ "' no es un array")
      return none

/-- The index of an array, which has just been read; nothing if it is of a wrong type. -/
def indexOperand? (line : Nat) (index? : Option Ty) : BuildM (Option Operand) := do
  match ← Check.wrong? index? .integer with
  | some found =>
    error line ("Índice de array debe ser integer, encontrado " ++ found)
    return none
  | none => return some (← value)

/-- Stores the value just read in a variable. -/
def storeName (line : Nat) (id : String) (v : Variable) (value? : Option Ty) : BuildM (Option Ty) :=
  do
  let operand ← value
  if value? != some .error && !(← Check.assignable value? v.type?) then
    error line ("No se puede asignar " ++ (← Check.typeName value?) ++ " a "
      ++ (← Check.typeName v.type?))
    return some .error
  if ← isClean then
    let _ ← Emit.assign (← Emit.place id) operand
  return value?

/-- Stores the value just read in an element of an array. -/
def storeIndexed (line : Nat) (id : String) (e : Ty) (index : Operand) (value? : Option Ty) :
    BuildM (Option Ty) := do
  let operand ← value
  if value? != some .error && !(← Check.assignable value? (some e)) then
    error line ("No se puede asignar " ++ (← Check.typeName value?) ++ " a array de " ++ e.name)
    return some .error
  if ← isClean then
    let _ ← Emit.storeToArray id index operand
  return value?

/-- Whether a suffix is an index. -/
def isIndex : Suffix → Bool
  | .index _ _ => true
  | _ => false

/-- An assignment as an expression. The first index among the suffixes decides what is stored to; a
target with other suffixes only is read and not stored to. The steps read the first index, the
target and the value. -/
def assignTo (a : Atom) (ss : List Suffix) (readIndex readTarget readValue : BuildM (Option Ty)) :
    BuildM (Option Ty) := do
  if ss.isEmpty then
    match ← assignable? a.line a.text with
    | none => return some .error
    | some x => storeName a.line a.text x (← readValue)
  else if ss.any isIndex then
    match ← arrayNamed a.line a.text with
    | none => return some .error
    | some e =>
      match ← indexOperand? a.line (← readIndex) with
      | none => return some .error
      | some i => storeIndexed a.line a.text e i (← readValue)
  else
    let _ ← readTarget
    readValue

/-- Follows the suffixes of an access whose beginning is right. -/
def follow (start : BuildM (Option Target)) (suffixes : Target → BuildM (Option Ty)) :
    BuildM (Option Ty) := do
  match ← start with
  | none => return some .error
  | some t => suffixes t

/-! ## The walk -/

mutual

def expr : Expr → BuildM (Option Ty)
  | .assign (.mk a ss) v =>
    assignTo a ss (firstIndex ss) (follow (atom a) (suffixes a.line (a matches .this _) · ss))
      (expr v)
  | .ternary c yes no => do
    let _ ← expr c
    let _ ← expr yes
    expr no
  | .chain level first rest => do
    let c ← Chain.start level (← expr first)
    chain level first.line c rest
  | .not line e => do
    unary line "!" "booleano" .boolean (← expr e) Emit.logicalNot
  | .negate line e => do
    unary line "-" "entero" .integer (← expr e) (Emit.unary · "NEG")
  | .literal _ l => literal l
  | .array _ [] => return some (.array .null [0])
  | .array line (e :: es) => do
    let t ← expr e
    elements line t [← value] es
  | .group _ e => expr e
  | .access (.mk a ss) => follow (atom a) (suffixes a.line (a matches .this _) · ss)

/-- The rest of a chain of operators. -/
def chain (level : Level) (line : Nat) (c : Chain) : List (String × Expr) → BuildM (Option Ty)
  | [] => return c.result?
  | (op, e) :: rest => do
    let t ← expr e
    chain level line (← c.step level line op e.line t) rest

/-- The elements of an array behind the first. All must be of one type; the cells become the value
at hand. -/
def elements (line : Nat) (first? : Option Ty) (cells : List Operand) :
    List Expr → BuildM (Option Ty)
  | [] => do
    Emit.setValue (.cells cells)
    match first? with
    | some t => return some (.array t [cells.length])
    | none => throw .noType
  | e :: es => do
    let t ← expr e
    let v ← value
    if t != first? then
      error line ("Elementos de array con tipos inconsistentes: " ++ (← Check.typeName first?)
        ++ " vs " ++ (← Check.typeName t))
      return none
    elements line first? (cells ++ [v]) es

/-- The types of arguments and the operands that hold them. -/
def arguments : List Expr → BuildM (List (Option Ty) × List Operand)
  | [] => return ([], [])
  | e :: es => do
    let t ← expr e
    let v ← value
    let (ts, vs) ← arguments es
    return (t :: ts, v :: vs)

/-- What an access begins with; nothing if that is an error. -/
def atom : Atom → BuildM (Option Target)
  | .name line id => name line id
  | .this line => this line
  | .new line cls args _ => do
    match (← class? cls).bind Symbol.asClass? with
    | none =>
      error line ("Clase '" ++ cls ++ "' no declarada")
      return none
    | some c =>
      let ctor? ← constructor? c
      -- The arguments are read once for their types and once more for their operands.
      let (types, _) ← arguments args
      checkNew line cls ctor? types
      let (_, operands) ← arguments args
      return some (← construct cls ctor? operands)

def suffixes (line : Nat) (isThis : Bool) (t : Target) : List Suffix → BuildM (Option Ty)
  | [] => conclude line t
  | .call at_ args :: rest => do
    let (types, operands) ← arguments args
    suffixes line isThis (← apply at_ t types operands) rest
  | .index at_ e :: rest => do
    let t ← settle t
    match t.type? with
    | some (.array el _) =>
      let base ← value
      let index? ← expr e
      suffixes line isThis (← element e.line el base index?) rest
    | _ =>
      error at_ "Indexación sobre expresión que no es un arreglo"
      suffixes line isThis failed rest
  | .member at_ id :: rest => do
    suffixes line isThis (← member at_ isThis (← settle t) id) rest

/-- Reads the first index among suffixes. -/
def firstIndex : List Suffix → BuildM (Option Ty)
  | [] => return none
  | .index _ e :: _ => expr e
  | .call _ _ :: rest => firstIndex rest
  | .member _ _ :: rest => firstIndex rest

end

end Scriptc.Compile
