import Scriptc.Emit.Temp

/-!
# Scriptc: places of variables

Where a name is kept is decided when code first needs it: a global variable gets an absolute
address, a variable of a function the next word of the current frame. A variable of an inner scope
outside of any function is kept like a global one.
-/

namespace Scriptc.Emit

/-- The number of elements for which room is made in a global array. -/
def arrayCapacity : Int := 10

/-- The operand for an absolute place. -/
def absolute : Slot → BuildM Operand
  | .address a => return .ofAddress a
  | .relative _ => throw .frameAddress

/-- A place in storage made by `alloc`. -/
def allocate (alloc : Storage → Slot × Storage) : BuildM Operand := do
  let b ← get
  let (slot, storage) := alloc b.storage
  set { b with storage := storage }
  absolute slot

def modifyFrame (id : FrameId) (f : Frame → Frame) : BuildM Unit :=
  modify fun b => { b with frames := b.frames.modify id f }

def frameAt (id : FrameId) : BuildM Frame := do return (← get).frames.getD id default

/-- Makes a new frame for a function, which replaces one it has and becomes the current one. -/
def newFrame (function : String) : BuildM FrameId := do
  let b ← get
  let id := b.frames.size
  set { b with
    frames := b.frames.push { function := function }
    frameOf := b.frameOf.put function id
    frame? := some id }
  return id

/-- The place of a name in the current frame, made if it has none. -/
def frameSlot (id : FrameId) (name : String) (type? : Option Ty) : BuildM Operand := do
  match (← frameAt id).offset? name with
  | some n => return .frame n
  | none =>
    modifyFrame id (·.addLocal name type?)
    let f ← frameAt id
    let n := (f.offset? name).getD 0
    let key := Storage.localKey f.function name
    modify fun b => { b with storage.slots := b.storage.slots.put key (Slot.inFrame n) }
    return .frame n

/-- The place of a variable. A name that is not declared has a place that says so. -/
def place (name : String) : BuildM Operand := do
  let b ← get
  match b.table.lookupSymbol? name with
  | none => return .text ("UNDEFINED_" ++ name)
  | some s =>
    if s.scope = 0 then
      let size ← Build.ofExcept (Ty.sizeOf? s.type?)
      match s.type? with
      | some (.array _ _) => allocate (·.allocArray name arrayCapacity size)
      | _ => allocate (·.allocGlobal name size)
    else
      match b.frame?, b.function != "global" with
      | some id, true => frameSlot id name s.type?
      | _, _ =>
        let size ← Build.ofExcept (Ty.sizeOf? s.type?)
        allocate (·.allocGlobal name size)

/-- The offset of a name in the frame of the function that is being written. -/
def routineOffset? (name : String) : BuildM (Option Nat) := do
  match (← get).routine? with
  | none => return none
  | some r => return (← frameAt r.frame).offset? name

/-- The operand of a variable: its place in the frame of the function being written, else its place
wherever it is. -/
def variableValue (name : String) : BuildM Operand := do
  let o ← match ← routineOffset? name with
    | some n => pure (Operand.frame n)
    | none => place name
  setValue o
  return o

/-- The place of a variable as a value. -/
def placeValue (name : String) : BuildM Operand := do
  let a ← place name
  let t ← newTemp
  quad { op := .copy, arg1 := a, result := t }
  setValue t
  return t

/-- The content of the place of a variable. -/
def fetch (name : String) : BuildM Operand := do
  let a ← place name
  let t ← newTemp
  quad { op := .deref, arg1 := a, result := t }
  setValue t
  return t

/-- The content of a parameter, read from its frame. -/
def parameterValue (name : String) : BuildM Operand := do
  match ← routineOffset? name with
  | some n =>
    let t ← newTemp
    quad { op := .deref, arg1 := .frame n, result := t }
    return t
  | none => variableValue name

/-- Adds a local variable to the frame of the function being written; gives its offset. Outside of a
function nothing is added. -/
def declareLocal (name : String) (type? : Option Ty) : BuildM (Option Nat) := do
  let b ← get
  match b.routine?, b.function != "global" with
  | some r, true =>
    modifyFrame r.frame (·.addLocal name type?)
    let _ ← Build.ofExcept (Ty.sizeOf? type?)
    modify fun b => { b with storage := (b.storage.allocLocal name r.name).2 }
    return (← frameAt r.frame).offset? name
  | _, _ => return none

end Scriptc.Emit
