import Scriptc.Mips.Select

/-!
# Scriptc: strings in the target code

A quadruple does not say whether it works on numbers or on strings. What is known of temporaries and
of variables decides, and where nothing is known the name of the function at hand may.
-/

namespace Scriptc.Mips.Select

/-- Whether some declaration of a name is of the type string. -/
def declaredString (t : SymbolTable) (name : String) : Bool :=
  t.scopes.toList.any fun c =>
    match (c.entries.get? name).bind t.symbol? with
    | some s => (s.type?.map Ty.name) = some "string"
    | none => false

/-- Whether an operand is a string: a label of one, or the address of a variable that holds one. An
address must be one here. -/
def isString (o : Operand) : SelectM Bool := do
  if o.isStringLabel then return true
  else if o.isHex then
    match o.hexValue? with
    | none => throw (.badNumeral 16 o.render)
    | some a =>
      let input ← read
      match nameAt? input.slots a with
      | none => return false
      | some n => return n ≠ "" && declaredString input.table n
  else return false

/-- Whether one of two operands is a string. -/
def anyString (a b : Operand) : SelectM Bool := do
  if ← isString a then return true else isString b

/-- Words in the names of functions that work on strings. -/
def stringWords : List String :=
  ["saludar", "greet", "estudiar", "study", "incrementar", "increment", "add", "message",
   "tostring", "print", "get", "show", "display", "main"]

/-- Whether the function at hand works on strings, by its name. -/
def inStringFunction : SelectM Bool := do
  return match ← current? with
    | some f => stringWords.any (holds · (lower f))
    | none => false

/-- Whether the type of a temporary is known to be the given one. -/
def isTempOfType (o : Operand) (type : String) : SelectM Bool := do
  return o.isTempName && (← typeOf? o) = some type

/-- Whether a temporary was copied from the label of a string. -/
def isTempOfLabel (o : Operand) : SelectM Bool := do
  return o.isTempName && ((← get).source.get? o.render).any Operand.isStringLabel

/-- Whether a sum joins strings. -/
def isConcat (a b : Operand) : SelectM Bool := do
  if (← isTempOfType a "int") || (← isTempOfType b "int") then return false
  if (← isTempOfType a "string") || (← isTempOfType b "string") then return true
  if (← isTempOfLabel a) || (← isTempOfLabel b) then return true
  if a.isStringLabel || b.isStringLabel then return true
  let aFrame := a.frameOffset?.isSome
  let bFrame := b.frameOffset?.isSome
  if aFrame then
    if ← isString b then return true
  if bFrame then
    if ← isString a then return true
  if aFrame && bFrame && (← inStringFunction) then return true
  let aString ← isString a
  let bString ← isString b
  if aString && bString then return true
  if aString then return b.beginsLikeTemp
  if bString then return a.beginsLikeTemp
  return a.beginsLikeTemp && b.beginsLikeTemp

/-- Brings an operand of a concatenation into a register. -/
def loadPiece (o : Operand) (r : Reg) : SelectM (List Line) := do
  if o.isTempName then
    let s ← get
    match s.alloc.map.get? o.render with
    | some q => return [.noted (.move r q) "Copy from allocated register"]
    | none =>
      match s.source.get? o.render with
      | some v => loadString v r
      | none =>
        return [.remark ("Warning: " ++ o.render ++ " not found, using 0"),
          .code (.li r (.int 0))]
  else loadString o r

/-- Pushes a register on the stack. -/
def push (r : Reg) : List Line := lines [.moveSp (-4), .sw r (Instr.onStack 0)]

/-- Joins two strings. -/
def concat (q : Quad) : SelectM (List Line) := do
  let d ← reg q.result
  let second ← loadPiece q.arg2 (.t 2)
  let first ← loadPiece q.arg1 (.t 0)
  if q.result.isTempName then setType q.result "string"
  return [.remark "String concatenation via __concat function", .remark "Load arg2"] ++ second
    ++ push (.t 2) ++ [.remark "Load arg1 and convert to string if needed"] ++ first ++ push (.t 0)
    ++ lines [.jal "__concat", .moveSp 8, .move d (.v 0)]

/-- Compares two strings. -/
def compareStrings (q : Quad) : SelectM (List Line) := do
  let d ← reg q.result
  let first ← loadString q.arg1 (.s 1)
  let second ← loadString q.arg2 (.s 2)
  let answer : Instr := if q.op = .eq then .move d (.v 0) else .alui .xori d (.v 0) (.int 1)
  return [.remark "String comparison"]
    ++ lines [.moveSp (-8), .sw (.s 1) (Instr.onStack 0), .sw (.s 2) (Instr.onStack 4)]
    ++ first ++ second
    ++ lines [.move (.a 0) (.s 1), .move (.a 1) (.s 2), .jal "__string_compare", answer,
      .lw (.s 1) (Instr.onStack 0), .lw (.s 2) (Instr.onStack 4), .moveSp 8]

end Scriptc.Mips.Select
