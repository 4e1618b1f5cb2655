import Scriptc.Emit.Routine

/-!
# Scriptc: code for objects

An object is its address; a member is at a fixed offset behind it, given by the layout of the class.
-/

namespace Scriptc.Emit

/-- The layout of a class, made on the first request from that of its parent and its attributes. -/
def layout (id : SymbolId) : BuildM (Option Layout) := do
  match (← get).table.symbol? id with
  | none => return none
  | some s =>
    if s.name = "" then return none
    match (← get).layouts.get? s.name with
    | some l => return some l
    | none =>
      match s.asClass? with
      | none => throw (.notClass s.kind)
      | some c =>
        let parent? ← match c.parent? with
          | none => pure none
          | some p => if _h : p < id then layout p else pure none
        let table := (← get).table
        let own := c.attributes.map fun (n, a) => (n, (table.symbol? a).bind Symbol.type?)
        let l := (parent?.getD {}).extend own
        modify fun b => { b with layouts := b.layouts.put s.name l }
        return some l
termination_by id

/-- Makes an object of a class; a class without a layout has no fields. -/
def newObject (cls : String) : BuildM Operand := do
  let b ← get
  let l := (b.layouts.get? cls).getD {}
  let (a, storage) := b.storage.allocHeap l.size
  set { b with
    layouts := if b.layouts.contains cls then b.layouts else b.layouts.put cls l
    storage := storage }
  let t ← newTemp
  quad { op := .copy, arg1 := .ofAddress a, result := t }
  setValue t
  return t

/-- The address of a member of the object at `base`. -/
def memberAddress (base : Operand) (cls member : String) : BuildM Operand := do
  if base.text?.isNone || !base.isPresent then throw (.badBase base.render)
  match (← get).layouts.get? cls with
  | none => throw (.noLayout cls)
  | some l =>
    match l.fields.get? member with
    | none => throw (.noField cls member)
    | some f =>
      let t ← newTemp
      quad { op := .add, arg1 := base, arg2 := .text (toString f.offset), result := t,
             comment? := some ("Address of " ++ cls ++ "." ++ member) }
      return t

/-- Members are read and written only of an object whose class has a layout. -/
def requireMember (base : Operand) (cls member : String) : BuildM Unit := do
  if !base.isPresent || base = .text "None" then throw (.missingBase cls member)
  if !(← get).layouts.contains cls then throw (.undefinedLayout cls)

def loadMember (base : Operand) (cls member : String) : BuildM Operand := do
  requireMember base cls member
  let a ← memberAddress base cls member
  let t ← newTemp
  quad { op := .load, arg1 := a, result := t,
         comment? := some ("Load " ++ cls ++ "." ++ member) }
  setValue t
  return t

def storeMember (base : Operand) (cls member : String) (value : Operand) : BuildM Operand := do
  requireMember base cls member
  let a ← memberAddress base cls member
  quad { op := .store, arg1 := value, result := a,
         comment? := some ("Store " ++ cls ++ "." ++ member) }
  return a

/-- The object that the method being written works on. -/
def loadThis : BuildM Operand := do
  let t ← newTemp
  quad { op := .deref, arg1 := .frame 0, result := t, comment? := some "Load __this pointer" }
  use t
  return t

end Scriptc.Emit
