import Scriptc.Mips.Line

/-!
# Scriptc: string routines of the target code

Routines that every assembly text ends with, for strings that end with a zero byte: turning a number
into text, copying, measuring, comparing and joining.
-/

namespace Scriptc.Mips.Library

open Instr (onStack moveSp)

/-- A remark inside a routine. -/
def say (text : String) : Line := .remark text 4

/-- An instruction inside a routine. -/
def step (i : Instr) : Line := .code i none 4

/-- An instruction with two blanks behind its mnemonic. -/
def wide (i : Instr) : Line := .code i none 4 2

/-- An instruction inside a routine with a remark. -/
def told (i : Instr) (text : String) (gap : Nat := 2) : Line := .code i (some ⟨gap, text⟩) 4

/-- Writes the number in `$a0` in decimal into a new string and returns its address in `$v0`. The
digits are written backwards into a buffer on the stack and then copied. -/
def intToString : List Line :=
  [.label "__int_to_string",
   say "Save registers (CRITICAL: Save ALL temp registers to prevent clobbering!)",
   step (moveSp (-44)), told (.sw .ra (onStack 40)) "Save return address for sbrk call",
   step (.sw (.t 0) (onStack 36)), step (.sw (.t 1) (onStack 32)),
   step (.sw (.t 2) (onStack 28)), step (.sw (.t 3) (onStack 24)),
   told (.sw (.t 4) (onStack 20)) "Save $t4-$t9 to prevent clobbering caller's values",
   step (.sw (.t 5) (onStack 16)), step (.sw (.t 6) (onStack 12)),
   step (.sw (.t 7) (onStack 8)), step (.sw (.t 8) (onStack 4)), step (.sw (.t 9) (onStack 0)),
   .blank,
   say "Load integer from $a0", step (.move (.t 0) (.a 0)), .blank,
   say "Use stack as temp buffer (convert backwards)",
   told (moveSp (-24)) "Allocate 24 bytes temp buffer on stack",
   told (.addiu (.t 1) .sp (.int 23)) "Point to last byte" 3,
   told (.mem .sb .zero (.at_ (.int 0) (.t 1))) "Null terminator" 5,
   told (.addiu (.t 1) (.t 1) (.int (-1))) "Move back one" 3, .blank,
   say "Handle sign", told (.li (.t 2) (.int 0)) "is_negative flag",
   step (.branch1 .gez (.t 0) "__its_positive"), told (.li (.t 2) (.int 1)) "Set negative flag",
   told (.neg (.t 0) (.t 0)) "Make positive",
   .label "__its_positive", .blank,
   say "Convert digits (backwards)", told (.li (.t 3) (.int 10)) "divisor",
   .label "__its_loop", step (.divu (.t 0) (.t 3)), told (.mfhi (.a 0)) "remainder = digit",
   told (.mflo (.t 0)) "quotient", told (.addiu (.a 0) (.a 0) (.int 48)) "Convert to ASCII",
   told (.mem .sb (.a 0) (.at_ (.int 0) (.t 1))) "Store digit",
   told (.addiu (.t 1) (.t 1) (.int (-1))) "Move back",
   told (.branch1 .nez (.t 0) "__its_loop") "Continue if quotient != 0", .blank,
   say "Add minus sign if negative", step (.branch1 .eqz (.t 2) "__its_done_sign"),
   told (.li (.a 0) (.int 45)) "'-' character", step (.mem .sb (.a 0) (.at_ (.int 0) (.t 1))),
   step (.addiu (.t 1) (.t 1) (.int (-1))),
   .label "__its_done_sign", .blank,
   say "Calculate string length (from first char to null)",
   told (.addiu (.t 1) (.t 1) (.int 1)) "Point to first character",
   told (.move (.t 2) .zero) "length counter" 4, told (.move (.t 3) (.t 1)) "temp pointer" 6,
   .label "__its_count", step (.mem .lb (.a 0) (.at_ (.int 0) (.t 3))),
   step (.branch2 .eq (.a 0) .zero "__its_count_done"), step (.addiu (.t 2) (.t 2) (.int 1)),
   step (.addiu (.t 3) (.t 3) (.int 1)), step (.j "__its_count"),
   .label "__its_count_done", told (.addiu (.t 2) (.t 2) (.int 1)) "Include null terminator",
   .blank,
   say "MALLOC: Allocate exact size needed on heap",
   told (.move (.a 0) (.t 2)) "size = length + 1", told (.li (.v 0) (.int 9)) "sbrk syscall" 6,
   step .syscall, told (.move (.t 3) (.v 0)) "Save heap address", .blank,
   say "Copy string from stack buffer to heap", told (.move (.a 0) (.t 1)) "src = stack buffer",
   told (.move (.a 1) (.t 3)) "dst = heap",
   .label "__its_copy", step (.mem .lb (.t 0) (.at_ (.int 0) (.a 0))),
   step (.mem .sb (.t 0) (.at_ (.int 0) (.a 1))),
   step (.branch2 .eq (.t 0) .zero "__its_copy_done"), step (.addiu (.a 0) (.a 0) (.int 1)),
   step (.addiu (.a 1) (.a 1) (.int 1)), step (.j "__its_copy"),
   .label "__its_copy_done", .blank,
   say "Return heap pointer", step (.move (.v 0) (.t 3)), .blank,
   say "Cleanup stack temp buffer", step (moveSp 24), .blank,
   say "Restore registers", step (.lw (.t 9) (onStack 0)), step (.lw (.t 8) (onStack 4)),
   step (.lw (.t 7) (onStack 8)), step (.lw (.t 6) (onStack 12)),
   step (.lw (.t 5) (onStack 16)), step (.lw (.t 4) (onStack 20)),
   step (.lw (.t 3) (onStack 24)), step (.lw (.t 2) (onStack 28)),
   step (.lw (.t 1) (onStack 32)), step (.lw (.t 0) (onStack 36)), step (.lw .ra (onStack 40)),
   step (moveSp 44), step (.jr .ra), .blank]

/-- Copies the string at `$a1` to `$a0`, with its zero byte, up to a limit. -/
def stringCopy : List Line :=
  [.label "__string_copy",
   say "Save registers", step (moveSp (-12)), step (.sw (.t 0) (onStack 0)),
   step (.sw (.t 1) (onStack 4)), step (.sw (.t 2) (onStack 8)),
   told (.li (.t 2) (.int 0)) "Counter for safety", .blank,
   .label "__string_copy_loop",
   say "Safety: max 256KB", step (.li (.t 1) (.int 262144)),
   told (.branch2 .ge (.t 2) (.t 1) "__string_copy_done") "If too long, just stop",
   told (.mem .lb (.t 0) (.at_ (.int 0) (.a 1))) "Load byte from src" 6,
   told (.mem .sb (.t 0) (.at_ (.int 0) (.a 0))) "Store byte to dest (including null)" 6,
   told (.addiu (.a 0) (.a 0) (.int 1)) "dest++" 3,
   told (.addiu (.a 1) (.a 1) (.int 1)) "src++" 3,
   told (.addiu (.t 2) (.t 2) (.int 1)) "counter++" 3,
   told (.branch2 .ne (.t 0) .zero "__string_copy_loop") "Continue if NOT null terminator",
   .blank,
   .label "__string_copy_done",
   say "Restore registers", step (.lw (.t 0) (onStack 0)), step (.lw (.t 1) (onStack 4)),
   step (.lw (.t 2) (onStack 8)), step (moveSp 12), step (.jr .ra), .blank]

/-- Counts the bytes of the string at `$a0` into `$v0`, up to a limit. -/
def stringLength : List Line :=
  [.label "__string_length",
   say "Save registers", step (moveSp (-8)), step (.sw (.t 0) (onStack 0)),
   step (.sw (.t 1) (onStack 4)), .blank, told (.li (.v 0) (.int 0)) "length = 0" 11,
   told (.li (.t 1) (.int 32768)) "Max length = 32KB" 7,
   .label "__string_length_loop",
   told (.branch2 .ge (.v 0) (.t 1) "__string_length_done") "Safety: max 32KB",
   told (.mem .lb (.t 0) (.at_ (.int 0) (.a 0))) "Load byte" 6,
   told (.branch2 .eq (.t 0) .zero "__string_length_done") "If null, done",
   told (.addiu (.v 0) (.v 0) (.int 1)) "length++" 3,
   told (.addiu (.a 0) (.a 0) (.int 1)) "str++" 3, step (.j "__string_length_loop"), .blank,
   .label "__string_length_done",
   say "Restore registers", step (.lw (.t 0) (onStack 0)), step (.lw (.t 1) (onStack 4)),
   step (moveSp 8), step (.jr .ra), .blank]

/-- Sets `$v0` to one if the strings at `$a0` and `$a1` are equal, else to zero. -/
def stringCompare : List Line :=
  [.label "__string_compare",
   say "Save registers", step (moveSp (-8)), step (.sw (.t 0) (onStack 0)),
   step (.sw (.t 1) (onStack 4)), .blank,
   .label "__string_compare_loop",
   told (.mem .lb (.t 0) (.at_ (.int 0) (.a 0))) "Load byte from str1" 6,
   told (.mem .lb (.t 1) (.at_ (.int 0) (.a 1))) "Load byte from str2" 6,
   told (.branch2 .ne (.t 0) (.t 1) "__string_compare_not_equal") "If different, not equal",
   told (.branch2 .eq (.t 0) .zero "__string_compare_equal") "If both null, equal",
   told (.addiu (.a 0) (.a 0) (.int 1)) "str1++" 3,
   told (.addiu (.a 1) (.a 1) (.int 1)) "str2++" 3, step (.j "__string_compare_loop"), .blank,
   .label "__string_compare_equal", told (.li (.v 0) (.int 1)) "Return 1 (equal)" 11,
   step (.j "__string_compare_done"), .blank,
   .label "__string_compare_not_equal", told (.li (.v 0) (.int 0)) "Return 0 (not equal)" 11,
   .blank,
   .label "__string_compare_done",
   say "Restore registers", step (.lw (.t 0) (onStack 0)), step (.lw (.t 1) (onStack 4)),
   step (moveSp 8), step (.jr .ra), .blank]

/-- Joins the two strings whose addresses are on the stack into a new string, and returns its
address in `$v0`. -/
def concat : List Line :=
  [.directive ".globl __concat",
   .label "__concat",
   say "Prologue", step (moveSp (-8)), step (.sw .ra (onStack 4)), step (.sw .fp (onStack 0)),
   step (.addiu .fp .sp (.int 8)), .blank,
   say "Load string pointers from stack", told (.lw (.t 0) (.at_ (.int 0) .fp)) "str1" 5,
   told (.lw (.t 1) (.at_ (.int 4) .fp)) "str2" 5, .blank,
   say "Calculate length of str1 -> $t2", step (.move (.t 2) .zero),
   .label "__concat_len_a", step (.alu .addu (.t 5) (.t 0) (.t 2)),
   wide (.mem .lbu (.t 6) (.at_ (.int 0) (.t 5))),
   wide (.branch2 .eq (.t 6) .zero "__concat_len_a_done"), step (.addiu (.t 2) (.t 2) (.int 1)),
   step (.j "__concat_len_a"), step .nop,
   .label "__concat_len_a_done", .blank,
   say "Calculate length of str2 -> $t3", step (.move (.t 3) .zero),
   .label "__concat_len_b", step (.alu .addu (.t 5) (.t 1) (.t 3)),
   wide (.mem .lbu (.t 6) (.at_ (.int 0) (.t 5))),
   wide (.branch2 .eq (.t 6) .zero "__concat_len_b_done"), step (.addiu (.t 3) (.t 3) (.int 1)),
   step (.j "__concat_len_b"), step .nop,
   .label "__concat_len_b_done", .blank,
   say "Allocate: total = len1 + len2 + 1", step (.alu .addu (.t 6) (.t 2) (.t 3)),
   step (.addiu (.a 0) (.t 6) (.int 1)), told (.li (.v 0) (.int 9)) "sbrk", step .syscall,
   told (.move (.t 4) (.v 0)) "$t4 = destination buffer", .blank,
   say "Copy str1 to buffer", step (.move (.t 6) .zero),
   .label "__concat_cp_a", step (.branch2 .eq (.t 6) (.t 2) "__concat_cp_a_done"),
   step (.alu .addu (.t 5) (.t 0) (.t 6)), step (.mem .lbu (.t 7) (.at_ (.int 0) (.t 5))),
   step (.alu .addu (.t 5) (.t 4) (.t 6)), wide (.mem .sb (.t 7) (.at_ (.int 0) (.t 5))),
   step (.addiu (.t 6) (.t 6) (.int 1)), step (.j "__concat_cp_a"), step .nop,
   .label "__concat_cp_a_done", .blank,
   say "Copy str2 to buffer (after str1)", step (.move (.t 6) .zero),
   .label "__concat_cp_b", step (.branch2 .eq (.t 6) (.t 3) "__concat_cp_b_done"),
   step (.alu .addu (.t 5) (.t 1) (.t 6)), step (.mem .lbu (.t 7) (.at_ (.int 0) (.t 5))),
   told (.alu .addu (.t 5) (.t 4) (.t 2)) "Start at end of str1",
   step (.alu .addu (.t 5) (.t 5) (.t 6)), wide (.mem .sb (.t 7) (.at_ (.int 0) (.t 5))),
   step (.addiu (.t 6) (.t 6) (.int 1)), step (.j "__concat_cp_b"), step .nop,
   .label "__concat_cp_b_done", .blank,
   say "Add null terminator", step (.alu .addu (.t 5) (.t 4) (.t 2)),
   step (.alu .addu (.t 5) (.t 5) (.t 3)), wide (.mem .sb .zero (.at_ (.int 0) (.t 5))), .blank,
   say "Return pointer to concatenated string", step (.move (.v 0) (.t 4)), .blank,
   say "Epilogue", step (.lw .fp (onStack 0)), step (.lw .ra (onStack 4)), step (moveSp 8),
   step (.jr .ra), step .nop, .blank]

/-- The name that the routines stand under. -/
def title : String := "===== Runtime Functions ====="

/-- All routines under their title. -/
def all : List Line :=
  [.remark title, .blank] ++ intToString ++ stringCopy ++ stringLength ++ stringCompare ++ concat

/-- The text that every assembly text ends with. -/
def text : String := "\n".intercalate ((all ++ [Line.blank]).map Line.render)

end Scriptc.Mips.Library
