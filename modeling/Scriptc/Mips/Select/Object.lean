import Scriptc.Mips.Select

/-!
# Scriptc: members and method calls in the target code

The address of a member is the address of its object plus an offset. A call of a method that a class
inherits goes to the class that declares it.
-/

namespace Scriptc.Mips.Select

/-- Whether a remark says that a sum is the address of a member. -/
def isMemberRemark (c : String) : Bool := holds "Address of" c

/-- Whether a quadruple computes the address of a member. -/
def isMemberAddress (q : Quad) : Bool :=
  q.op = .add && q.comment?.any fun c => c ≠ "" && isMemberRemark c

/-- Brings the address of an object into a register. In a constructor, what is not in a register
already is the object under construction. -/
def objectBase (o : Operand) : SelectM (Reg × List Line) := do
  if ← inConstructor then
    if o.isTempName then return (← reg o, [])
    else
      let r ← scratch
      return (r, [.noted (.lw r (inFrame (.int 0))) "load __this pointer (constructor)"])
  else match o.frameOffset? with
    | some n =>
      let r ← scratch
      return (r, [loadFrame r n])
    | none =>
      if o.isTempName then return (← reg o, [])
      else if o.isHex then
        let l ← memoryLabel o
        let r ← scratch
        return (r, [.noted (.lw r (.label l)) "Load object pointer"])
      else
        let r ← scratch
        return (r, ← loadValue o r)

/-- The address of a member. -/
def memberAddress (q : Quad) : SelectM (List Line) := do
  let remark := match q.comment? with
    | some c => if c = "" then [] else [Line.remark c]
    | none => []
  let d ← reg q.result
  let offset ← ofExcept q.arg2.toInt
  let (base, load) ← objectBase q.arg1
  return remark ++ load ++ [.code (.addiu d base (.int offset))]

/-- The label of the method of that name in the class of that name or the nearest parent that has
it. `fuel` bounds the number of classes on the way. -/
def resolveFrom (t : SymbolTable) (method : String) : Nat → String → Except Fault (Option String)
  | 0, _ => throw .endlessChain
  | fuel + 1, cls =>
    let candidates := t.scopes.toList.filterMap fun c =>
      ((c.entries.get? cls).bind t.symbol?).bind Symbol.asClass?
    match candidates.find? fun c => c.methods.contains method || c.parent?.isSome with
    | none => return none
    | some c =>
      if c.methods.contains method then return some ("FUNC_" ++ method ++ "_" ++ cls)
      else
        match c.parent?.bind t.symbol? with
        | none => return none
        | some p => resolveFrom t method fuel p.name

/-- The label of a method, declared in a class or inherited. Each class on the way has a name of its
own, unless the names lead in a circle. -/
def resolve (t : SymbolTable) (method cls : String) : Except Fault (Option String) :=
  resolveFrom t method (t.symbols.size + 1) cls

/-- The label that a call goes to. A label with two underscores names a method and a class. -/
def callTarget (label : String) : SelectM String := do
  match label.toList.splitOn '_' with
  | _ :: method :: c :: cs =>
    let t := (← read).table
    let cls := String.ofList (['_'].intercalate (c :: cs))
    return (← ofExcept (resolve t (String.ofList method) cls)).getD label
  | _ => return label

end Scriptc.Mips.Select
