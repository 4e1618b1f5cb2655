import Scriptc.Frame
import Scriptc.Layout
import Scriptc.Quad
import Scriptc.Storage
import Scriptc.SymbolTable

/-!
# Scriptc: a compilation in progress

`Build` is all that a compilation has gathered: names, findings, storage, frames and the
intermediate code. Steps of the work are `BuildM` actions. A step that ends in a fault leaves behind
what it has done so far, so the state is outside of the failure.
-/

namespace Scriptc

/-- The place of a frame among all frames ever made. -/
abbrev FrameId := Nat

/-- Where `break` and `continue` jump to. -/
structure Loop where
  again : Operand
  done : Operand
  deriving Repr, Inhabited

/-- The loops around the place that is read: whether there are any, and how many. -/
structure Loops where
  inside : Bool := false
  depth : Nat := 0
  deriving DecidableEq, Repr, Inhabited

namespace Loops

def enter (n : Loops) : Loops := ⟨true, n.depth + 1⟩

/-- Leaves a loop that was entered from `outer`. -/
def leave (n outer : Loops) : Loops := ⟨outer.inside || n.depth - 1 > 0, n.depth - 1⟩

end Loops

/-- The function whose code is being written. -/
structure Routine where
  name : String
  frame : FrameId
  deriving Repr, Inhabited

structure Build where
  table : SymbolTable := {}
  errors : Array String := #[]
  warnings : Array String := #[]
  /-- What was printed on the way. -/
  log : String := ""
  /-- The function and the class whose bodies are being read. -/
  inFunction? : Option SymbolId := none
  inClass? : Option SymbolId := none
  loops : Loops := {}
  unreachable : Bool := false
  quads : Array Quad := #[]
  /-- How many temporaries each function has used. -/
  tempCounts : Assoc String Nat := []
  labelCount : Nat := 0
  /-- The function that temporaries are counted for. -/
  function : String := "global"
  frames : Array Frame := #[]
  /-- The frame that belongs to each function. -/
  frameOf : Assoc String FrameId := []
  frame? : Option FrameId := none
  /-- The operand that holds the value of the expression just read. -/
  value : Operand := .none
  lastTemp : Operand := .none
  /-- Temporaries that may be handed out again. -/
  reusable : List Operand := []
  /-- Temporaries that the expression at hand still needs. -/
  used : List Operand := []
  /-- Constants are operands of their own while the value of an assignment is read. -/
  direct : Bool := false
  storage : Storage := {}
  layouts : Assoc String Layout := []
  /-- The label of each string constant. -/
  strings : Assoc String String := []
  stringCount : Nat := 0
  loop? : Option Loop := none
  routine? : Option Routine := none
  deriving Repr, Inhabited

/-- A step of a compilation. -/
abbrev BuildM := ExceptT Fault (StateM Build)

namespace Build

/-- Runs a step; the state after a fault is the state at the fault. -/
def run {α : Type} (b : Build) (step : BuildM α) : Except Fault α × Build :=
  Id.run (StateT.run (ExceptT.run step) b)

/-- A step that is a calculation which may fail. -/
def ofExcept {α : Type} (r : Except Fault α) : BuildM α :=
  match r with
  | .ok a => pure a
  | .error e => throw e

def lookup? (name : String) : BuildM (Option Symbol) := do
  return (← get).table.lookupSymbol? name

/-- Appends a line to what was printed. -/
def say (line : String) : BuildM Unit := modify fun b => { b with log := b.log ++ line ++ "\n" }

end Build

end Scriptc
