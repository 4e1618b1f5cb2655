import Scriptc.Emit.Value

/-!
# Scriptc: code for control flow

Jumps around pieces of code that are given as steps. While a loop's code is written, `break` and
`continue` have their targets in `Build.loop?`; a fault inside leaves them as they are.
-/

namespace Scriptc.Emit

structure IfLabels where
  yes : Operand
  no : Operand
  done : Operand

structure LoopLabels where
  start : Operand
  again? : Option Operand
  done : Operand

/-- A choice between two pieces of code. -/
def ifElse (condition : Operand) (yes no : BuildM Unit) : BuildM IfLabels := do
  let yesLabel ← newLabel
  let noLabel ← newLabel
  let done ← newLabel
  quad { op := .ifTrue, arg1 := condition, result := yesLabel }
  jump noLabel
  mark yesLabel
  yes
  jump done
  mark noLabel
  no
  mark done
  return ⟨yesLabel, noLabel, done⟩

/-- Leaves a loop when its condition fails; a condition that gives no operand never does. -/
def exitUnless (condition : BuildM Operand) (done : Operand) : BuildM Unit := do
  let c ← condition
  if c.isPresent then quad { op := .ifFalse, arg1 := c, result := done }

/-- Writes the code of a loop, with its own targets for `break` and `continue`. -/
def withLoop (loop : Loop) (body : BuildM Unit) : BuildM Unit := do
  let outer := (← get).loop?
  modify fun b => { b with loop? := some loop }
  body
  modify fun b => { b with loop? := outer }

def whileLoop (condition : BuildM Operand) (body : BuildM Unit) : BuildM LoopLabels := do
  let start ← newLabel
  let done ← newLabel
  withLoop ⟨start, done⟩ do
    mark start
    exitUnless condition done
    body
    jump start
    mark done
  return ⟨start, none, done⟩

def forLoop (init : BuildM Unit) (condition : BuildM Operand) (update body : BuildM Unit) :
    BuildM LoopLabels := do
  let start ← newLabel
  let again ← newLabel
  let done ← newLabel
  withLoop ⟨again, done⟩ do
    init
    mark start
    exitUnless condition done
    body
    mark again
    update
    jump start
    mark done
  return ⟨start, some again, done⟩

/-- Jumps to a target of the loop at hand, if there is a loop. -/
def leaveTo (target : Loop → Operand) : BuildM Operand := do
  match (← get).loop? with
  | none => return .none
  | some l =>
    jump (target l)
    return target l

def breakLoop : BuildM Operand := leaveTo Loop.done

def continueLoop : BuildM Operand := leaveTo Loop.again

/-- One case of a switch: its body runs when the subject equals its value, and then the switch is
over. -/
def switchCase (subject value done : Operand) (body : BuildM Unit) : BuildM Unit := do
  let here ← newLabel
  let next ← newLabel
  let t ← newTemp
  quad { op := .eq, arg1 := subject, arg2 := value, result := t }
  quad { op := .ifFalse, arg1 := t, result := next }
  mark here
  body
  jump done
  mark next

end Scriptc.Emit
