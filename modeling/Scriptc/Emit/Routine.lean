import Scriptc.Emit.Value

/-!
# Scriptc: code for functions

A function is a label, the opening of its frame, its body and the closing of the frame. The size of
the frame is known only when the body has been read, and is then written into the opening.
Arguments are pushed from the last to the first; the caller drops them and takes the result.
-/

namespace Scriptc.Emit

/-- What a declaration has made. -/
structure RoutineCode where
  label : Operand
  frame : FrameId

def functionLabel (name : String) : Operand := .text ("FUNC_" ++ name)

def methodLabel (cls method : String) : Operand := .text ("FUNC_" ++ method ++ " (" ++ cls ++ ")")

/-- The name under which a method's frame and temporaries are kept. -/
def methodKey (cls method : String) : String := cls ++ "::" ++ method

/-- The code of a function whose frame holds its parameters already. Afterwards the code at hand is
that of the main program again. -/
def routine (name : String) (frame : FrameId) (label : Operand) (result? : Option Ty)
    (body : BuildM Unit) : BuildM RoutineCode := do
  mark label
  let opening := (← get).quads.size
  quad { op := .enter, arg1 := .text (toString (← frameAt frame).size) }
  let outer := (← get).routine?
  modify fun b => { b with routine? := some ⟨name, frame⟩ }
  body
  let size := (← frameAt frame).size
  modify fun b =>
    { b with quads := b.quads.modify opening ({ · with arg1 := .text (toString size) }) }
  if result? == some .void then quad { op := .ret }
  quad { op := .leave }
  modify fun b => { b with routine? := outer, frame? := none, function := "global" }
  return ⟨label, frame⟩

def function (name : String) (params : List (String × Option Ty)) (result? : Option Ty)
    (body : BuildM Unit) : BuildM RoutineCode := do
  let frame ← newFrame name
  modifyFrame frame (·.addParams params)
  routine name frame (functionLabel name) result? body

/-- Prints how the frame of a method is laid out. -/
def sayFrame (cls method : String) (f : Frame) : BuildM Unit := do
  Build.say ("\n=== AR para " ++ cls ++ "::" ++ method ++ " ===")
  Build.say ("Size total: " ++ toString f.size)
  f.params.forM fun p =>
    Build.say ("  FP[" ++ toString p.offset ++ "]: " ++ p.name ++ " ("
      ++ (p.type?.map Ty.name).getD "unknown" ++ ")")
  Build.say ""

/-- The name of the parameter that holds the object a method works on. -/
def thisParam : String := "__this"

def method (cls name : String) (params : List (String × Option Ty)) (result? : Option Ty)
    (body : BuildM Unit) : BuildM RoutineCode := do
  let key := methodKey cls name
  setFunction key
  let frame ← newFrame key
  modifyFrame frame fun f => (f.addParam thisParam none).addParams params
  sayFrame cls name (← frameAt frame)
  routine key frame (methodLabel cls name) result? body

/-- Drops the arguments of a call and takes its result. -/
def takeResult (argCount : Nat) : BuildM Operand := do
  if argCount ≠ 0 then
    quad { op := .adjust, arg1 := .text "SP", arg2 := .text (toString (4 * argCount)),
           result := .text "SP" }
  let t ← newTemp
  quad { op := .pop, result := t }
  setValue t
  return t

/-- Calls a function. One that has no frame yet gets an empty one. -/
def call (name : String) (args : List Operand) : BuildM Operand := do
  if !(← get).frameOf.contains name then let _ ← newFrame name
  args.reverse.forM fun a => quad { op := .push, arg1 := a }
  quad { op := .call, result := functionLabel name }
  takeResult args.length

/-- Turns a number into a string. -/
def callToString (value : Operand) : BuildM Operand := call "toString" [value]

/-- Calls a method of an object, which is passed as the first argument. -/
def callMethod (this : Operand) (cls method : String) (args : List Operand) : BuildM Operand := do
  let key := methodKey cls method
  if !(← get).frameOf.contains key then
    let frame ← newFrame key
    modifyFrame frame (·.addParam thisParam none)
  Build.say ("\n=== Llamada a " ++ cls ++ "." ++ method ++ " ===")
  Build.say ("  this_temp: " ++ this.render)
  Build.say ("  args: " ++ Operand.renderList args)
  args.reverse.forM fun a => quad { op := .push, arg1 := a }
  quad { op := .push, arg1 := this, comment? := some "Push __this (será FP[0])" }
  quad { op := .call, result := methodLabel cls method,
         comment? := some ("Call " ++ cls ++ "." ++ method) }
  takeResult (args.length + 1)

/-- Returns from the function being written; outside of one there is nothing to do. -/
def returnValue (value : Operand) : BuildM Operand := do
  match (← get).routine? with
  | none => return .none
  | some _ =>
    quad { op := .ret, arg1 := if value.isPresent then value else .none }
    return value

end Scriptc.Emit
