import Scriptc.Ty

/-!
# Scriptc: frames

The record of one activation of a function: its parameters from offset zero on, a word each, and its
local variables behind them.
-/

namespace Scriptc

structure FrameEntry where
  name : String
  type? : Option Ty
  offset : Nat
  deriving Repr, Inhabited

structure Frame where
  function : String
  params : List FrameEntry := []
  locals : List FrameEntry := []
  size : Nat := 0
  deriving Repr, Inhabited

namespace Frame

def addParam (f : Frame) (name : String) (type? : Option Ty) : Frame :=
  let offset := 4 * f.params.length
  { f with params := f.params ++ [⟨name, type?, offset⟩], size := max f.size (offset + 4) }

def addLocal (f : Frame) (name : String) (type? : Option Ty) : Frame :=
  let offset := 4 * f.params.length + 4 * f.locals.length
  { f with locals := f.locals ++ [⟨name, type?, offset⟩], size := max f.size (offset + 4) }

def addParams (f : Frame) (ps : List (String × Option Ty)) : Frame :=
  ps.foldl (fun f p => f.addParam p.1 p.2) f

/-- The offset of a name, parameters before local variables. -/
def offset? (f : Frame) (name : String) : Option Nat :=
  ((f.params ++ f.locals).find? (·.name == name)).map FrameEntry.offset

/-- The width that a type declares. -/
def typeWidth : Option Ty → Except Fault Int
  | some t => return t.width
  | none => throw .noType

def render (f : Frame) : String :=
  "AR(" ++ f.function ++ "): size=" ++ toString f.size ++ ", params=" ++ toString f.params.length
    ++ ", locals=" ++ toString f.locals.length

end Frame

end Scriptc
