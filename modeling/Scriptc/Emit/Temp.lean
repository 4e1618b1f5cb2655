import Scriptc.Build

/-!
# Scriptc: temporaries and labels

Temporaries are counted for each function. One that an assignment has stored away may be handed out
again, unless the expression at hand still needs it.
-/

namespace Scriptc.Emit

/-- Appends a quadruple to the code. -/
def quad (q : Quad) : BuildM Unit := modify fun b => { b with quads := b.quads.push q }

/-- A jump target that no other statement uses. -/
def newLabel : BuildM Operand := do
  let b ← get
  set { b with labelCount := b.labelCount + 1 }
  return .label b.labelCount

def mark (label : Operand) : BuildM Unit := quad { op := .label, result := label }

def jump (label : Operand) : BuildM Unit := quad { op := .goto, result := label }

/-- From here on temporaries are those of the given function. -/
def setFunction (name : String) : BuildM Unit :=
  modify fun b =>
    { b with
      function := name
      tempCounts := if b.tempCounts.contains name then b.tempCounts else b.tempCounts.put name 0
      reusable := []
      used := []
      lastTemp := .none }

/-- A temporary for a new value: one that is free again, else the next of the function. Any one of
the pool would do. The one that came to it last is taken, which is the only one if no two are ever
free at once. -/
def newTemp : BuildM Operand := do
  let b ← get
  let count := (b.tempCounts.get? b.function).getD 0
  match b.reusable with
  | t :: rest =>
    set { b with tempCounts := b.tempCounts.put b.function count, reusable := rest, lastTemp := t }
    return t
  | [] =>
    let t := Operand.temp count
    set { b with tempCounts := b.tempCounts.put b.function (count + 1), lastTemp := t }
    return t

/-- The expression at hand needs an operand. Whatever begins like a temporary is kept. -/
def use (o : Operand) : BuildM Unit :=
  modify fun b =>
    if o.beginsLikeTemp then
      { b with used := b.used.insert o, reusable := b.reusable.erase o }
    else b

/-- A temporary may be handed out again, unless the expression at hand needs it. -/
def release (o : Operand) : BuildM Unit :=
  modify fun b =>
    if o.isTempName && !b.used.contains o then { b with reusable := b.reusable.insert o } else b

/-- An expression is complete: nothing is needed any more. -/
def endExpression : BuildM Unit :=
  modify fun b => { b with used := [], lastTemp := .none, direct := false }

def setDirect (on : Bool) : BuildM Unit := modify fun b => { b with direct := on }

def setValue (o : Operand) : BuildM Unit := modify fun b => { b with value := o }

def setLastTemp (o : Operand) : BuildM Unit := modify fun b => { b with lastTemp := o }

/-- The last temporary if the expression at hand does not need it, else a new one. -/
def lastOrNew : BuildM Operand := do
  let b ← get
  if b.lastTemp.isPresent && !b.used.contains b.lastTemp then return b.lastTemp else newTemp

end Scriptc.Emit
