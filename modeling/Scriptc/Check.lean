import Scriptc.Build

/-!
# Scriptc: rules on types

Which operands an operator takes and what it gives. A rule that is broken is reported with the line
at fault and gives the error type; the error type passes through every operator without a second
report. A report without a line says so.
-/

namespace Scriptc

namespace Build

/-- The line of a report. -/
def lineText : Option Nat → String
  | some n => toString n
  | none => "unknown"

def error (line : Option Nat) (text : String) : BuildM Unit :=
  modify fun b =>
    { b with errors := b.errors.push ("Error semántico. Línea " ++ lineText line ++ ": " ++ text) }

def warn (line : Option Nat) (text : String) : BuildM Unit :=
  modify fun b =>
    { b with warnings := b.warnings.push ("Advertencia. Línea " ++ lineText line ++ ": " ++ text) }

/-- No error has been reported so far. Only then is code written for most statements. -/
def isClean : BuildM Bool := do return (← get).errors.isEmpty

end Build

namespace Check

open Build (error warn)

/-- The name of a type in a report, where a missing one is said to be none. -/
def shown (t : Option Ty) : String := (t.map Ty.name).getD "None"

/-- Whether a value may be stored; a value without a type cannot even be asked. -/
def assignable (source target : Option Ty) : BuildM Bool :=
  match source with
  | some t => return t.canAssignTo target
  | none => throw .noSourceType

def typeName (t : Option Ty) : BuildM String := Build.ofExcept (Ty.nameOf t)

/-- The name of a type if it is neither the wanted one nor the error type. -/
def wrong? (t : Option Ty) (wanted : Ty) : BuildM (Option String) := do
  if t == some wanted || t == some .error then return none
  else return some (← typeName t)

/-- Sum, difference and concatenation. A number next to a string becomes a string. -/
def additive (left right : Option Ty) (op : String) (line : Option Nat) : BuildM Ty := do
  match left, right with
  | some l, some r =>
    if l == .error || r == .error then return .error
    let text (t : Ty) := t == .string
    let num (t : Ty) := t == .integer
    match op with
    | "+" =>
      if (text l && text r) || (text l && num r) || (num l && text r) then return .string
      else if num l && num r then return .integer
      else
        error line ("Operación '+' no soportada para tipos " ++ l.name ++ " y " ++ r.name)
        return .error
    | "-" =>
      if num l && num r then return .integer
      else
        error line ("Operación '-' requiere operandos integer, got " ++ l.name ++ " y " ++ r.name)
        return .error
    | _ =>
      error line ("Operador no soportado: " ++ op)
      return .error
  | _, _ => return .error

/-- Product, quotient and remainder. -/
def arithmetic (left right : Option Ty) (line : Option Nat) : BuildM Ty := do
  match left, right with
  | some l, some r =>
    if l == .error || r == .error then return .error
    else if l == .integer && r == .integer then return .integer
    else
      error line ("Operación aritmética requiere operandos integer, got " ++ l.name ++ " y "
        ++ r.name)
      return .error
  | _, _ => return .error

def logical (left right : Option Ty) (line : Option Nat) : BuildM Ty := do
  if left == some .error || right == some .error then return .error
  else if left == some .boolean && right == some .boolean then return .boolean
  else
    error line ("Operación lógica requiere operandos boolean, got " ++ shown left ++ " y "
      ++ shown right)
    return .error

/-- Equality: both sides of one type, or null against what may be null. -/
def comparison (left right : Option Ty) (op : String) (line : Option Nat) : BuildM Ty := do
  let isNull (t : Option Ty) := t == some .null
  let nullable (t : Option Ty) := !(t == some .integer || t == some .boolean)
  if left == some .error || right == some .error then return .error
  else if isNull left || isNull right then
    if (isNull left && nullable right) || (isNull right && nullable left) then return .boolean
    else
      let other ← typeName (if isNull left then right else left)
      error line ("No se puede comparar null con " ++ other)
      return .error
  else if left != right then
    error line ("Operación de comparación '" ++ op ++ "' requiere tipos compatibles, got "
      ++ shown left ++ " y " ++ shown right)
    return .error
  else return .boolean

def relational (left right : Option Ty) (op : String) (line : Option Nat) : BuildM Ty := do
  if left == some .error || right == some .error then return .error
  else if left == some .integer && right == some .integer then return .boolean
  else
    error line ("Operación relacional '" ++ op ++ "' requiere operandos integer, got "
      ++ shown left ++ " y " ++ shown right)
    return .error

/-- Whether a value may be stored in a place that may or may not be empty. -/
def assignment (source target : Option Ty) (nullable : Bool) : BuildM Bool :=
  if source == some .null then return nullable else assignable source target

/-- Warns of code behind a jump. -/
def unreachable (line : Option Nat) (what : String) : BuildM Bool := do
  if (← get).unreachable then
    warn line ("Código muerto: " ++ what ++ " nunca se ejecutará")
    return true
  else return false

/-- The operations whose result has to be a number. -/
def numeric : List String := ["add", "subtract", "multiply", "divide", "modulo"]

/-- Whether the result of an operation makes sense for its operands. -/
def sensible (line : Option Nat) (type? : Option Ty) (operation : String)
    (operands : List (Option Ty)) : BuildM Bool := do
  if type? == some .error then return false
  if numeric.contains operation && !(type? == some .integer) then
    error line ("Operación aritmética '" ++ operation ++ "' con resultado no numérico ("
      ++ (← typeName type?) ++ ")")
    return false
  match operation, operands with
  | "compare", [left, right] =>
    if left != right && left != some .null && right != some .null then
      warn line ("Comparación entre tipos diferentes: " ++ (← typeName left) ++ " y "
        ++ (← typeName right))
    return true
  | "assignment", [target, value] =>
    if value == some .error then return true else assignable value target
  | _, _ => return true

/-- Warns of a divisor that is written as zero. -/
def divisionByZero (line : Option Nat) (divisor? : Option String) : BuildM Bool := do
  if divisor? = some "0" then
    warn line "Posible división por cero"
    return true
  else return false

/-- The types of arguments against those of parameters, counted from one; `say` words the report
from the number, the expected and the found type. -/
def arguments (line : Option Nat) (say : Nat → String → String → String) :
    Nat → List (String × Option Ty) → List (Option Ty) → BuildM Unit
  | i, p :: ps, a :: as => do
    if a != some .error then
      if !(← assignable a p.2) then
        error line (say i (← typeName p.2) (← typeName a))
    arguments line say (i + 1) ps as
  | _, _, _ => return ()

end Check

end Scriptc
