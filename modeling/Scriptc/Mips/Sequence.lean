import Scriptc.Assoc
import Scriptc.Mips.Line

/-!
# Scriptc: calling sequences with argument registers

The sequences that open and close a frame, call a function and return from it when the first four
arguments go in registers and the others on the stack. `Sequences` remembers the size of each frame
that was opened.
-/

namespace Scriptc.Mips

open Instr (onStack moveSp)

structure Sequences where
  /-- The size of the frame of each function. -/
  frames : Assoc String Int := []
  deriving Repr, Inhabited

namespace Sequences

/-- Opens the frame of a function with a number of local variables. -/
def prologue (s : Sequences) (function : String) (locals : Int) : List Line × Sequences :=
  let size := 8 + locals * 4
  let room := if 0 < locals then [Line.code (moveSp (-(locals * 4)))] else []
  ([.remark ("PROLOGUE - " ++ function), .remark ("Frame size: " ++ toString size ++ " bytes")]
    ++ lines [moveSp (-8), .sw .ra (onStack 4), .sw .fp (onStack 0), .move .fp .sp]
    ++ room ++ [.blank],
   { s with frames := s.frames.put function size })

end Sequences

namespace Sequence

/-- Closes the frame of a function. -/
def epilogue (function : String) : List Line :=
  [.remark ("EPILOGUE - " ++ function)]
  ++ lines [.move .sp .fp, .lw .fp (onStack 0), .lw .ra (onStack 4), moveSp 8, .jr .ra] ++ [.blank]

/-- The register of an argument. -/
def argumentReg (i : Int) : Reg := Reg.ofText ("$a" ++ toString i)

/-- Calls a function with the arguments in the given registers. -/
def call (function : String) (args : List Reg) : List Line :=
  let extra := args.drop 4
  let room : Int := extra.length * 4
  [.remark ("CALL SEQUENCE - " ++ function)]
  ++ ((args.take 4).zipIdx.map fun (r, i) => Line.code (.move (.a i) r))
  ++ (if extra.isEmpty then [] else [.code (moveSp (-room))])
  ++ (extra.zipIdx.map fun (r, i) => Line.code (.sw r (onStack (i * 4))))
  ++ [.code (.jal ("FUNC_" ++ function))]
  ++ (if extra.isEmpty then [] else [.code (moveSp room)]) ++ [.blank]

/-- Returns the value in a register, if there is one. -/
def ret (value? : Option Reg) : List Line :=
  [.remark "RETURN SEQUENCE"] ++ value?.toList.map (fun r => Line.code (.move (.v 0) r)) ++ [.blank]

/-- Passes one argument. -/
def passArgument (r : Reg) (i : Int) : List Line :=
  if i < 4 then lines [.move (argumentReg i) r] else lines [.sw r (onStack ((i - 4) * 4))]

/-- Where a local variable is, relative to the frame pointer. -/
def localOffset (i : Int) : Int := -(8 + i * 4)

/-- Where an argument is, relative to the frame pointer; the first four are in registers. -/
def argumentOffset? (i : Int) : Option Int := if i < 4 then none else some (8 + (i - 4) * 4)

end Sequence

end Scriptc.Mips
