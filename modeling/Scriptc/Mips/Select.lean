import Scriptc.Mips.Allocator
import Scriptc.Mips.Line
import Scriptc.Mips.Value
import Scriptc.Quad
import Scriptc.Storage
import Scriptc.SymbolTable

/-!
# Scriptc: choosing instructions

`Select` is what the choice of instructions keeps in mind from one quadruple to the next, `Input`
what it only reads. The functions here bring values into registers.
-/

namespace Scriptc.Mips

/-- The program whose code is chosen. -/
structure Input where
  table : SymbolTable := {}
  slots : Assoc String Slot := []
  strings : Assoc String String := []
  quads : List Quad := []
  deriving Repr, Inhabited

/-- The state between two quadruples. -/
structure Select where
  alloc : Allocator := {}
  /-- The label of the function at hand. -/
  function? : Option String := none
  /-- What each temporary was last copied from, in this function. -/
  source : Assoc String Operand := []
  /-- What is known of the type of each temporary. -/
  types : Assoc String String := []
  /-- The saved registers that each function keeps. -/
  saved : Assoc String (List Reg) := []
  /-- The temporary that took the last result of a call. -/
  lastPop : Operand := .none
  /-- The register that holds the object at each address. -/
  heap : Assoc Int Reg := []
  /-- The rest of the function at hand is replaced by a routine. -/
  skipping : Bool := false
  deriving Repr, Inhabited

abbrev SelectM := ReaderT Input (ExceptT Fault (StateM Select))

namespace Select

/-- Runs a step; the state after a fault is the state at the fault. -/
def run {α : Type} (s : Select) (input : Input) (step : SelectM α) : Except Fault α × Select :=
  Id.run (StateT.run (ExceptT.run (ReaderT.run step input)) s)

def ofExcept {α : Type} (r : Except Fault α) : SelectM α :=
  match r with
  | .ok a => pure a
  | .error e => throw e

/-- The register of an operand, given now if it has none. -/
def reg (o : Operand) : SelectM Reg := do
  let s ← get
  let (r, a) ← ofExcept (s.alloc.regFor o)
  set { s with alloc := a }
  return r

/-- A register for the moment. -/
def scratch : SelectM Reg := do return (← get).alloc.scratch

def modifyAlloc (f : Allocator → Allocator) : SelectM Unit :=
  modify fun s => { s with alloc := f s.alloc }

/-- The label of the function at hand, if it has a name at all. -/
def current? : SelectM (Option String) := do return (← get).function?.filter (· ≠ "")

/-- Lower case letters. -/
def lower (s : String) : String := String.ofList (s.toList.map Char.toLower)

/-- Whether a text holds another. -/
def holds (piece text : String) : Bool := go piece.toList text.toList
where
  /-- Whether the second list has the first one somewhere in it. -/
  go (p : List Char) : List Char → Bool
    | [] => p.isEmpty
    | c :: cs => p.isPrefixOf (c :: cs) || go p cs

/-- Whether the function at hand is a constructor, by its name. -/
def inConstructor : SelectM Bool := do
  return match ← current? with
    | some f => holds "constructor" (lower f)
    | none => false

/-- The variable that lies at an address. -/
def nameAt? (slots : Assoc String Slot) (a : Int) : Option String :=
  (slots.find? fun e => e.2 = .address a).map Prod.fst

/-- The label under which an operand lies in memory. An address goes by the variable that lies
there; one without a variable by itself, or as an object. -/
def memoryLabel (o : Operand) : SelectM String := do
  let slots := (← read).slots
  match o.hexValue? with
  | some a =>
    match nameAt? slots a with
    | some n => return "var_" ++ n
    | none =>
      if Operand.heapStart ≤ a then return "heap_obj_" ++ lower o.render else return o.render
  | none =>
    match o with
    | .cells _ => throw .cellsAsKey
    | o =>
      if (o.text?.elim false slots.contains) then return "var_" ++ o.render else return o.render

/-- Saved registers that stand for objects before any was made at run time. -/
def fixedHeap : Assoc Int Reg :=
  [(0x8000, .s 3), (0x8008, .s 4), (0x8010, .s 5), (0x8018, .s 6), (0x8020, .s 7)]

/-- The register that holds the object at an address. -/
def heapReg (a : Int) : SelectM Reg := do
  return (((← get).heap.get? a).or (fixedHeap.get? a)).getD (.s 3)

/-- A word of the frame. -/
def inFrame (offset : Imm) : Addr := .at_ offset .fp

def loadFrame (r : Reg) (offset : Imm) : Line := .noted (.lw r (inFrame offset)) "Load from frame"

/-- Loads the word under a label. -/
def loadLabel (r : Reg) (o : Operand) : SelectM (List Line) := do
  return [.code (.lw r (.label (← memoryLabel o)))]

/-- Brings an operand of a sum or a comparison into a register. Temporaries are in registers; the
address of an object or an array counts as its value. -/
def loadOperand (o : Operand) (r : Reg) : SelectM (List Line) := do
  if o.isTempName then return []
  else match o.frameOffset? with
    | some n => return [loadFrame r n]
    | none =>
      if o.isHex then
        let l ← memoryLabel o
        return [.code (.mem (if o.heapValue?.isSome then .la else .lw) r (.label l))]
      else if o.isImmediate then return [.code (.li r o.toImm)]
      else loadLabel r o

/-- Brings an operand into a register where places in the frame are not told apart: a number is
loaded as it is, and all else from memory. -/
def loadPlain (o : Operand) (r : Reg) : SelectM (List Line) := do
  if o.isTempName then return []
  else if o.isImmediate then return [.code (.li r o.toImm)]
  else loadLabel r o

/-- Brings a condition into a register, truth values as numbers. -/
def loadCondition (o : Operand) (r : Reg) : SelectM (List Line) := do
  if o.isTempName then return []
  else if o.isImmediate then return [.code (.li r o.normalise.toImm)]
  else loadLabel r o

/-- Brings any value into a register. An object is held in a saved register, and a string stands for
its address. -/
def loadValue (o : Operand) (r : Reg) : SelectM (List Line) := do
  if o.isTempName then return []
  else match o.frameOffset? with
    | some n => return [loadFrame r n]
    | none =>
      if o.isHex then
        match o.heapValue? with
        | some a =>
          let h ← heapReg a
          return if h = r then [] else [.noted (.move r h) "Load heap object address"]
        | none => loadLabel r o
      else if o.isImmediate then return [.code (.li r o.normalise.toImm)]
      else if o.isStringLabel then
        return [.noted (.mem .la r (.label o.render)) "Load string address"]
      else loadLabel r o

/-- Brings the address of a string into a register. -/
def loadString (o : Operand) (r : Reg) : SelectM (List Line) := do
  if o.isTempName then
    let s ← reg o
    return if s = r then [] else [.code (.move r s)]
  else if o.isStringLabel then
    return [.noted (.mem .la r (.label o.render)) "Load string literal address"]
  else if o.isHex then
    return [.noted (.lw r (.label (← memoryLabel o))) "Load string pointer from variable"]
  else match o.frameOffset? with
    | some n => return [.noted (.lw r (inFrame n)) "Load string from frame"]
    | none => return [.noted (.lw r (.label (← memoryLabel o))) "Load string from variable"]

/-- The first temporary that is none of the given registers. -/
def otherThan (rs : List Reg) : Option Reg := Reg.temporaries.find? (!rs.contains ·)

def setType (o : Operand) (type : String) : SelectM Unit :=
  modify fun s => { s with types := s.types.put o.render type }

def typeOf? (o : Operand) : SelectM (Option String) := do return (← get).types.get? o.render

end Select

end Scriptc.Mips
