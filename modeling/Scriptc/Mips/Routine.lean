import Scriptc.Mips.Line

/-!
# Scriptc: functions that the target code supplies itself

Three functions of a program are replaced by short routines that use the services of the machine:
turning a number into a string, and printing a string or a number.
-/

namespace Scriptc.Mips.Routine

open Instr (onStack moveSp)

/-- A word at an offset from the frame pointer. -/
def inFrame (n : Int) : Addr := .at_ (.int n) .fp

/-- Turns its argument into a string. -/
def toStringLines : List Line :=
  [.remark "toString: Wrapper for runtime int-to-string conversion", .label "FUNC_toString",
    .remark "Save registers"]
  ++ lines [moveSp (-8), .sw .ra (onStack 4), .sw .fp (onStack 0), .addiu .fp .sp (.int 8)]
  ++ [.remark "Load parameter from FP[0] into $a0 for __int_to_string"]
  ++ lines [.lw (.a 0) (inFrame 0)]
  ++ [.remark "Call runtime function"]
  ++ lines [.jal "__int_to_string"]
  ++ [.remark "Restore and return"]
  ++ lines [.lw .fp (onStack 0), .lw .ra (onStack 4), moveSp 8, .jr .ra]

/-- An instruction four blanks in. -/
def inner (i : Instr) : Line := .code i none 4

/-- Prints its argument by a service of the machine and gives it back. -/
def printLines (label : String) (service : Int) (remarks : List Line) : List Line :=
  [.label label]
  ++ [moveSp (-12), .sw .ra (onStack 8), .sw .fp (onStack 4), .addiu .fp .sp (.int 12),
      .lw (.a 0) (inFrame 0), .li (.v 0) (.int service), .syscall].map inner
  ++ remarks
  ++ [.lw (.v 0) (inFrame 0), .j (label ++ "_epilogue")].map inner
  ++ [.blank, .label (label ++ "_epilogue"), .remark "Function epilogue"]
  ++ lines [.addiu .sp .fp (.int (-8)), .lw .fp (onStack 0), .lw .ra (onStack 4), moveSp 8, .jr .ra]

/-- The routine that stands for a function of the program. -/
def replacement? : String → Option (List Line)
  | "FUNC_toString" => some toStringLines
  | "FUNC_printString" =>
    some (printLines "FUNC_printString" 4
      [.remark "NO LONGER NEEDED: Buffer reset removed (malloc approach)" 4])
  | "FUNC_printInteger" => some (printLines "FUNC_printInteger" 1 [])
  | _ => none

end Scriptc.Mips.Routine
