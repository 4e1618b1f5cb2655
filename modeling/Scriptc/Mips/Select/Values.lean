import Scriptc.Mips.Select.Object
import Scriptc.Mips.Select.Strings

/-!
# Scriptc: operators, copies and memory in the target code
-/

namespace Scriptc.Mips.Select

/-- The instruction for an arithmetic operator that has one. -/
def aluOp? : Op → Option AluOp
  | .add => some .add
  | .sub => some .sub
  | .mul => some .mul
  | _ => none

/-- A register for the left operand of a sum that is no temporary. -/
def leftReg (used : List Reg) (d : Reg) (right? : Option Reg) : Reg :=
  match otherThan (d :: right?.toList ++ used) with
  | some r => r
  | none => if right? = some d then .t 8 else d

/-- A register for the right operand of a sum that is no temporary. -/
def rightReg (used : List Reg) (d left : Reg) : Reg :=
  match otherThan (d :: left :: used) with
  | some r => r
  | none => if left = .t 9 then .t 7 else .t 9

/-- Registers for two operands: temporaries have theirs, and the others take what is left. -/
def operandRegs (d : Reg) (a b : Operand) : SelectM (Reg × Reg) := do
  let left? ← if a.isTempName then some <$> reg a else pure none
  let right? ← if b.isTempName then some <$> reg b else pure none
  let used := (← get).alloc.used
  let left := left?.getD (leftReg used d right?)
  return (left, right?.getD (rightReg used d left))

/-- Arithmetic on two numbers, or the joining of two strings. -/
def arithmetic (q : Quad) : SelectM (List Line) := do
  if isMemberAddress q then return ← memberAddress q
  if q.op = .add then
    if ← isConcat q.arg1 q.arg2 then return ← concat q
  match aluOp? q.op, q.op with
  | none, .div | some _, _ =>
    let d ← reg q.result
    let (a, b) ← operandRegs d q.arg1 q.arg2
    let first ← loadOperand q.arg1 a
    let second ← loadOperand q.arg2 b
    if q.result.isTempName then setType q.result "int"
    let op := match aluOp? q.op with
      | some op => [Line.code (.alu op d a b)]
      | none => [.code (.div a b), .noted (.mflo d) "quotient"]
    return first ++ second ++ op
  | none, op => return [.remark ("ERROR: Unknown arithmetic operation '" ++ op.text ++ "'")]

/-! ## Copies -/

/-- The value that is really copied: a temporary whose saved register did not outlive the last call
is replaced by the result of that call. -/
def copiedValue (value target : Operand) : SelectM (Operand × List Line) := do
  let s ← get
  if s.lastPop ≠ .none && value.isTempName && !target.isTempName
      && (s.alloc.map.get? value.render).any Reg.isSaved then
    set { s with lastPop := .none }
    return (s.lastPop, [.remark ("WORKAROUND: Using return value " ++ s.lastPop.render
      ++ " instead of " ++ value.render)])
  else return (value, [])

/-- The register of a temporary that is copied to. One that takes an object takes the register of
the object. -/
def targetReg (value target : Operand) : SelectM Reg := do
  match value.heapValue? with
  | some a =>
    let r ← heapReg a
    modifyAlloc fun al =>
      let al := match al.map.get? target.render with
        | some old => if old ≠ r && !old.isSaved then al.release target.render else al
        | none => al
      al.give target.render r
    return r
  | none => reg target

/-- A temporary that was stored away is not needed any more. A saved register stays in use. -/
def dropStored (value : Operand) : SelectM Unit := do
  if value.isTempName then
    modifyAlloc fun al =>
      match al.map.get? value.render with
      | some r =>
        if r.isSaved then { al with map := al.map.erase value.render } else al.release value.render
      | none => al

/-- Notes what a temporary holds now. -/
def noteCopy (value target : Operand) : SelectM Unit := do
  modify fun s => { s with source := s.source.put target.render value }
  if value.isStringLabel then setType target "string"
  else if ← isTempOfType value "string" then setType target "string"

/-- Stores a register in memory. -/
def storeLabel (r : Reg) (target : Operand) : SelectM (List Line) := do
  return [.code (.sw r (.label (← memoryLabel target)))]

/-- Puts a value that is in a register where it belongs. -/
def storeTo (value target : Operand) (r : Reg) : SelectM (List Line) := do
  match target.frameOffset? with
  | some n => return [.code (.sw r (inFrame n))]
  | none =>
    match target.heapValue? with
    | some a =>
      match (← get).heap.get? a with
      | some h => return if h = r then [] else [.code (.move h r)]
      | none => storeLabel r target
    | none =>
      let store ← storeLabel r target
      if target.hexValue?.isSome then dropStored value
      else if value.isTempName then modifyAlloc (·.release value.render)
      return store

/-- A copy. -/
def copy (q : Quad) : SelectM (List Line) := do
  let target := q.result
  let (value, remark) ← copiedValue q.arg1 target
  if target.isTempName then
    let d ← targetReg value target
    let (r, load) ← if value.isTempName then pure (← reg value, [])
      else pure (d, ← loadValue value d)
    let move := if r = d then [] else [Line.code (.move d r)]
    noteCopy value target
    return remark ++ load ++ move
  else
    let (r, load) ←
      if value.isTempName then pure (← reg value, [])
      else do
        let r ← scratch
        pure (r, ← loadValue value r)
    return remark ++ load ++ (← storeTo value target r)

/-! ## Comparisons and truth values -/

/-- Registers for the operands and the result of a comparison. -/
def comparedRegs (q : Quad) : SelectM (Reg × Reg × Reg) := do
  let a ← if q.arg1.isTempName then reg q.arg1 else scratch
  let b ← if q.arg2.isTempName then reg q.arg2 else scratch
  let d ← reg q.result
  let a ← if a = b && !q.arg1.isTempName && q.arg2.isTempName then scratch else pure a
  return (a, b, d)

/-- The instructions of a comparison of two registers; `m` is for the moment. -/
def compareRegs (op : Op) (d a b m : Reg) : List Instr :=
  match op with
  | .lt => [.alu .slt d a b]
  | .le => [.alu .slt m b a, .alui .xori d m (.int 1)]
  | .gt => [.alu .slt d b a]
  | .ge => [.alu .slt m a b, .alui .xori d m (.int 1)]
  | .eq => [.alu .xor d a b, .alui .sltiu d d (.int 1)]
  | .ne => [.alu .xor d a b, .alu .sltu d .zero d]
  | _ => []

def comparison (q : Quad) : SelectM (List Line) := do
  if q.op = .eq || q.op = .ne then
    if ← anyString q.arg1 q.arg2 then return ← compareStrings q
  let (a, b, d) ← comparedRegs q
  let first ← loadOperand q.arg1 a
  let second ← loadOperand q.arg2 b
  return first ++ second ++ lines (compareRegs q.op d a b (← scratch))

/-- Two operands in registers, for operators that tell only numbers from names. -/
def plainPair (q : Quad) : SelectM (Reg × Reg × Reg × List Line) := do
  let a ← reg q.arg1
  let b ← reg q.arg2
  let d ← reg q.result
  let first ← loadPlain q.arg1 a
  let second ← loadPlain q.arg2 b
  return (a, b, d, first ++ second)

def logical (q : Quad) : SelectM (List Line) := do
  let pair (op : AluOp) : SelectM (List Line) := do
    let (a, b, d, load) ← plainPair q
    return load ++ lines [.alu op d a b, .alu .sltu d .zero d]
  match q.op with
  | .not =>
    let a ← reg q.arg1
    let d ← reg q.result
    let load ← if q.arg1.isTempName then pure [] else loadValue q.arg1 a
    return load ++ lines [.alui .sltiu d a (.int 1)]
  | .and => pair .and
  | .or => pair .or
  | _ => return []

def negate (q : Quad) : SelectM (List Line) := do
  if q.op = .sub || q.op = .neg then
    let a ← reg q.arg1
    let d ← reg q.result
    return (← loadPlain q.arg1 a) ++ lines [.alu .sub d .zero a]
  else return []

def remainder (q : Quad) : SelectM (List Line) := do
  let (a, b, d, load) ← plainPair q
  return load ++ [.code (.div a b), .noted (.mfhi d) "Get remainder (modulo)"]

/-! ## Memory -/

/-- The content of a place. -/
def deref (q : Quad) : SelectM (List Line) := do
  let d ← reg q.result
  match q.arg1.frameOffset? with
  | some n => return [loadFrame d n]
  | none => loadLabel d q.arg1

/-- An address that a quadruple works through, in a register. -/
def addressReg (o : Operand) : SelectM (Reg × List Line) := do
  if o.isTempName then return (← reg o, [])
  else
    let r ← scratch
    match o.frameOffset? with
    | some n => return (r, [.code (.lw r (inFrame n))])
    | none => return (r, [.code (.li r o.toImm)])

def loadWord (q : Quad) : SelectM (List Line) := do
  let (a, load) ← addressReg q.arg1
  let d ← reg q.result
  return load ++ [.noted (.lw d (.at_ (.int 0) a)) "Array load"]

/-- The value of a store, in a register other than that of its address. -/
def storedValue (o : Operand) (address : Reg) : SelectM (Reg × List Line) := do
  if o.isTempName then return (← reg o, [])
  else
    let r := (otherThan [address]).getD (.v 1)
    match o.frameOffset? with
    | some n => return (r, [loadFrame r n])
    | none =>
      if o.isImmediate then return (r, [.code (.li r o.normalise.toImm)])
      else return (r, ← loadLabel r o)

def storeWord (q : Quad) : SelectM (List Line) := do
  let (a, load) ← addressReg q.result
  let (r, value) ← storedValue q.arg1 a
  return load ++ value ++ [.noted (.sw r (.at_ (.int 0) a)) "Array store"]

end Scriptc.Mips.Select
