import Scriptc.Emit.Place

/-!
# Scriptc: code for values

Operators, constants and assignments. Operands of an operator stay in use until the expression is
complete, so an operator puts its result into a fresh temporary.
-/

namespace Scriptc.Emit

/-- The result of an operation becomes the value at hand. -/
def finish (t : Operand) : BuildM Operand := do
  setValue t
  setLastTemp t
  return t

/-- An arithmetic operator. Both operands must be texts. -/
def arithmetic (left right : Operand) (op : String) : BuildM Operand := do
  use left
  use right
  let _ ← Build.ofExcept left.asTemp
  let _ ← Build.ofExcept right.asTemp
  let t ← newTemp
  quad { op := .ofText op, arg1 := left, arg2 := right, result := t }
  finish t

/-- A comparison. That both operands are texts is found out after the code is written. -/
def comparison (left right : Operand) (op : String) : BuildM Operand := do
  use left
  use right
  let t ← newTemp
  quad { op := .ofText op, arg1 := left, arg2 := right, result := t }
  let _ ← finish t
  let _ ← Build.ofExcept left.asTemp
  let _ ← Build.ofExcept right.asTemp
  return t

/-- An operator with one operand. -/
def unary (operand : Operand) (op : String) : BuildM Operand := do
  use operand
  let t ← lastOrNew
  quad { op := .ofText op, arg1 := operand, result := t }
  finish t

def logicalNot (operand : Operand) : BuildM Operand := do
  use operand
  let t ← newTemp
  quad { op := .not, arg1 := operand, result := t }
  finish t

/-- A choice between the right operand and a constant: `test` jumps on the left operand to where the
constant is taken. -/
def shortCircuit (test : Op) (constant : String) (left right : Operand) : BuildM Operand := do
  let t ← newTemp
  let short ← newLabel
  let done ← newLabel
  quad { op := test, arg1 := left, result := short }
  quad { op := .copy, arg1 := right, result := t }
  jump done
  mark short
  quad { op := .copy, arg1 := .text constant, result := t }
  mark done
  finish t

/-- A logical operator. -/
def logical (left right : Operand) (op : String) : BuildM Operand := do
  use left
  use right
  match op with
  | "&&" => shortCircuit .ifFalse "false" left right
  | "||" => shortCircuit .ifTrue "true" left right
  | _ =>
    let t ← lastOrNew
    quad { op := .ofText op, arg1 := left, arg2 := right, result := t }
    finish t

/-- Stores a value. A temporary that is stored is free again. -/
def assign (target value : Operand) : BuildM Operand := do
  let isTemp ← Build.ofExcept value.asTemp
  quad { op := .copy, arg1 := value, result := target }
  if isTemp then release value
  return target

/-- The label of a string constant, made on its first use. -/
def stringLabel (literal : String) : BuildM String := do
  let b ← get
  match b.strings.get? literal with
  | some l => return l
  | none =>
    let l := (Operand.string b.stringCount).render
    set { b with strings := b.strings.put literal l, stringCount := b.stringCount + 1 }
    return l

/-- Whether a constant is written in quotes. -/
def isQuoted (s : String) : Bool := Affix.begins s "\"" && Affix.ends s "\""

/-- A constant: an operand of its own where the value of an assignment is read, else loaded into a
temporary. A string stands for its label. -/
def constant (text : String) : BuildM Operand := do
  let o ← if isQuoted text then Operand.ofText <$> stringLabel text else pure (Operand.ofText text)
  if (← get).direct then
    setValue o
    return o
  else
    let t ← newTemp
    quad { op := .copy, arg1 := o, result := t }
    setValue t
    return t

/-- Declares a variable with a first value, if there is one. -/
def declareVariable (name : String) (init : Operand) : BuildM Operand := do
  let a ← place name
  if init ≠ .none then let _ ← assign a init
  return a

def declareConstant (name : String) (value : Operand) : BuildM Operand := do
  let a ← place name
  let _ ← assign a value
  return a

/-- Prints a value in the way of its type. -/
def print (value : Operand) (type? : Option Ty) : BuildM Unit := do
  let show_ (op : Op) (remark : String) : BuildM Unit :=
    quad { op := op, arg1 := value, comment? := some remark }
  if type? == some .integer then show_ .printInt "Print integer"
  else if type? == some .boolean then show_ .printInt "Print boolean as integer"
  else if type? == some .string then show_ .printStr "Print string"
  else show_ .printInt ("Print " ++ (← Build.ofExcept (Ty.nameOf type?)))

end Scriptc.Emit
