import Scriptc.Emit.Value

/-!
# Scriptc: code for arrays

An element lies at the base of its array plus its index times the size of an element; an element of
a matrix has the index row times columns plus column.
-/

namespace Scriptc.Emit

/-- An operation into a new temporary. -/
def compute (op : Op) (a b : Operand) : BuildM Operand := do
  let t ← newTemp
  quad { op := op, arg1 := a, arg2 := b, result := t }
  return t

def number (n : Int) : Operand := .text (toString n)

/-- The address of an element. -/
def elementAddress (base index : Operand) (size : Int) : BuildM Operand := do
  let offset ← compute .mul index (number size)
  compute .add base offset

def loadElement (base index : Operand) (size : Int) : BuildM Operand := do
  let a ← elementAddress base index size
  let t ← newTemp
  quad { op := .load, arg1 := a, result := t }
  setValue t
  return t

def storeElement (base index value : Operand) (size : Int) : BuildM Operand := do
  let a ← elementAddress base index size
  quad { op := .store, arg1 := value, result := a }
  return a

/-- The size of the elements of a variable; a word for what is no array. -/
def elementSize (name : String) : BuildM Int := do
  match (← Build.lookup? name).bind Symbol.type? with
  | some (.array e _) => return e.size
  | _ => return 4

def loadFromArray (name : String) (index : Operand) : BuildM Operand := do
  let base ← placeValue name
  loadElement base index (← elementSize name)

def storeToArray (name : String) (index value : Operand) : BuildM Operand := do
  let base ← placeValue name
  storeElement base index value (← elementSize name)

/-- Stores the elements of an array one by one, from the given index on. -/
def storeAll (address : Operand) : Nat → List Operand → BuildM Unit
  | _, [] => return ()
  | i, v :: vs => do
    let index ← newTemp
    quad { op := .copy, arg1 := .int i, result := index }
    let offset ← compute .mul index (.int 4)
    let a ← compute .add address offset
    quad { op := .store, arg1 := v, result := a }
    storeAll address (i + 1) vs

/-- The address of an element of a matrix. -/
def cellAddress (base row column : Operand) (columns : Int) : BuildM Operand := do
  let start ← compute .mul row (number columns)
  let index ← compute .add start column
  let offset ← compute .mul index (.text "4")
  compute .add base offset

def loadCell (name : String) (row column : Operand) (columns : Int) : BuildM Operand := do
  let base ← place name
  let t ← newTemp
  let a ← cellAddress base row column columns
  quad { op := .load, arg1 := a, result := t }
  setValue t
  return t

def storeCell (name : String) (row column : Operand) (columns : Int) (value : Operand) :
    BuildM Operand := do
  let base ← place name
  let a ← cellAddress base row column columns
  quad { op := .store, arg1 := value, result := a }
  return a

end Scriptc.Emit
