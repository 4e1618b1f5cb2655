import Scriptc.Mips.Routine
import Scriptc.Mips.Select.Values

/-!
# Scriptc: jumps, calls and printing in the target code

A function opens its frame below its arguments: the return address, the old frame pointer, the saved
registers it keeps, and its local variables, from the top down. The frame pointer is set to the
first argument, so that `FP[0]` is the first argument.
-/

namespace Scriptc.Mips.Select

open Instr (onStack)

/-! ## Jumps -/

def jump (q : Quad) : SelectM (List Line) := do
  let target := q.result.toLabel
  let branch (c : Cond2) : SelectM (List Line) := do
    let r ← reg q.arg1
    return (← loadCondition q.arg1 r) ++ lines [.branch2 c r .zero target]
  match q.op with
  | .goto => return lines [.j target]
  | .ifTrue | .other "if_true" => branch .ne
  | .ifFalse | .other "ifFalse" => branch .eq
  | _ => return []

/-- A label. That of a function begins a new function, which may be replaced by a routine. -/
def label (q : Quad) : SelectM (List Line) := do
  let name := q.result.toLabel
  if Affix.begins name "FUNC_" then
    modify fun s => { s with function? := some name, source := [] }
  match Routine.replacement? name with
  | some ls =>
    modify fun s => { s with skipping := true }
    return ls
  | none => return [.label name]

/-! ## Printing -/

/-- A service of the machine, with a remark set off by blanks. -/
def service (n : Int) (text : String) (gap : Nat) : List Line :=
  [.noted (.li (.v 0) (.int n)) text gap, .code .syscall]

def printInt (o : Operand) : SelectM (List Line) := do
  let load ←
    if o.isTempName then pure [Line.code (.move (.a 0) (← reg o))]
    else match o.frameOffset? with
      | some n => pure [.code (.lw (.a 0) (inFrame n))]
      | none =>
        if o.isHex then loadLabel (.a 0) o
        else if o.isImmediate then pure [.code (.li (.a 0) o.normalise.toImm)]
        else loadLabel (.a 0) o
  return load ++ service 1 "print_int" 7
    ++ [.noted (.li (.v 0) (.int 11)) "print_char" 6, .noted (.li (.a 0) (.int 10)) "newline" 6,
      .code .syscall]

def printStr (o : Operand) : SelectM (List Line) := do
  let address : Line := .code (.mem .la (.a 0) (.label o.render))
  let load ←
    if o.isTempName then pure [Line.code (.move (.a 0) (← reg o))]
    else if o.isStringLabel then pure [address]
    else match o.frameOffset? with
      | some n => pure [.code (.lw (.a 0) (inFrame n))]
      | none => if o.isHex then loadLabel (.a 0) o else pure [address]
  return load ++ service 4 "print_str" 7

def print (q : Quad) : SelectM (List Line) := do
  match q.op with
  | .printInt => printInt q.arg1
  | .printStr => printStr q.arg1
  | _ => return []

/-! ## Functions -/

/-- The saved registers that the function at hand keeps. -/
def keptRegs : SelectM (List Reg) := do
  match ← current? with
  | some f => return ((← get).saved.get? f).getD []
  | none => return []

/-- Opens the frame of a function with room for `size` bytes of local variables. -/
def prologue (size : Int) (kept : List Reg) : List Line :=
  let total := 8 + 4 * (kept.length : Int) + size
  let save := kept.zipIdx.map fun (r, i) =>
    Line.noted (.sw r (onStack (total - 8 - 4 * (i + 1)))) ("Save " ++ r.text)
  [.remark ("Function prologue (locals: " ++ toString size ++ " bytes, saved regs: "
      ++ toString kept.length ++ ")"),
    .code (.addiu .sp .sp (.minus total)), .code (.sw .ra (onStack (total - 4))),
    .code (.sw .fp (onStack (total - 8)))]
  ++ save ++ [.code (.addiu .fp .sp (.int total))]

/-- Closes the frame of a function and returns. -/
def epilogue (kept : List Reg) : List Line :=
  let room := 4 * (kept.length : Int)
  let restore := kept.reverse.zipIdx.map fun (r, i) =>
    Line.noted (.lw r (onStack (4 * i))) ("Restore " ++ r.text)
  [.remark "Function epilogue", .code (.addiu .sp .fp (.minus (8 + room)))] ++ restore
  ++ (if kept.isEmpty then [] else [.code (.moveSp room)])
  ++ lines [.lw .fp (onStack 0), .lw .ra (onStack 4), .moveSp 8, .jr .ra]

/-- The label of the epilogue of a function. -/
def epilogueLabel (function : String) : String := function ++ "_epilogue"

def enter (q : Quad) : SelectM (List Line) := do
  let size ← ofExcept q.arg1.toInt
  return prologue size (← keptRegs)

def leave : SelectM (List Line) := do
  let mark := match ← current? with
    | some f => [Line.label (epilogueLabel f)]
    | none => []
  return mark ++ epilogue (← keptRegs)

def pushArg (o : Operand) : SelectM (List Line) := do
  let (r, load) ←
    if o.isTempName then pure (← reg o, [])
    else do
      let r ← scratch
      pure (r, ← loadValue o r)
  return [.remark ("Push argument: " ++ o.render)] ++ load ++ push r

def call (q : Quad) : SelectM (List Line) := do
  let target ← callTarget q.result.toLabel
  return [.remark ("Call function: " ++ q.result.render), .code (.jal target)]

/-- Takes the result of a call. -/
def popResult (o : Operand) : SelectM (List Line) := do
  let remark := Line.remark ("Get return value into " ++ o.render)
  if o.isTempName then
    let r ← reg o
    modify fun s => { s with source := s.source.erase o.render, lastPop := o }
    return [remark, .code (.move r (.v 0))]
  else
    let l ← memoryLabel o
    modify fun s => { s with lastPop := .none }
    return [remark, .code (.sw (.v 0) (.label l))]

/-- Returns from the function at hand. A constructor without a value gives its object. -/
def ret (o : Operand) : SelectM (List Line) := do
  let load ←
    if o = .none then
      if ← inConstructor then
        pure [Line.remark "Constructor: return __this pointer",
          .noted (.lw (.v 0) (inFrame (.int 0))) "Load __this from FP[0]"]
      else pure []
    else if o.isTempName then pure [.code (.move (.v 0) (← reg o))]
    else do
      let r ← scratch
      pure ((← loadValue o r) ++ [.code (.move (.v 0) r)])
  let leave := match ← current? with
    | some f => [Line.code (.j (epilogueLabel f))]
    | none => []
  return [.remark "Return statement"] ++ load ++ leave

def function (q : Quad) : SelectM (List Line) := do
  match q.op with
  | .enter => enter q
  | .leave => leave
  | .push => pushArg q.arg1
  | .call => call q
  | .pop => popResult q.result
  | .ret => ret q.arg1
  | .adjust =>
    if q.arg1.isStackPointer then
      return [.remark ("Clean up arguments from stack (" ++ q.arg2.render ++ " bytes)"),
        .code (.addiu .sp .sp q.arg2.toImm)]
    else return []
  | _ => return []

/-! ## Any quadruple -/

/-- The instructions for a quadruple. -/
def quad (q : Quad) : SelectM (List Line) := do
  if (← get).skipping then
    if q.op = .leave then modify fun s => { s with skipping := false }
    return []
  match q.op with
  | .add =>
    if q.arg1.isStackPointer && q.result.isStackPointer then function q else arithmetic q
  | .sub | .mul | .div => arithmetic q
  | .copy => copy q
  | .deref => deref q
  | .lt | .le | .gt | .ge | .eq | .ne => comparison q
  | .and | .or | .not => logical q
  | .neg => if q.arg2 = .none then negate q else todo
  | .mod => remainder q
  | .goto | .ifTrue | .ifFalse | .other "ifFalse" => jump q
  | .call | .ret | .enter | .leave | .push | .pop | .adjust | .other "param" => function q
  | .label => label q
  | .printInt | .printStr => print q
  | .load => loadWord q
  | .store => storeWord q
  | .other _ => todo
where
  /-- What stands for an operation that has no instructions. -/
  todo : SelectM (List Line) :=
    return [.remark ("TODO: Translate operation '" ++ q.op.text ++ "'")]

end Scriptc.Mips.Select
