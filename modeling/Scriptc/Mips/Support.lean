import Scriptc.Mips.Line

/-!
# Scriptc: services of the target machine

Functions that print and read by the services of the machine, and the same services called in place.
-/

namespace Scriptc.Mips.Support

/-- Asks the machine for a service. -/
def ask (service : Int) (text : String) (gap : Nat) (indent : Nat := 0) : Line :=
  .code (.li (.v 0) (.int service)) (some ⟨gap, text⟩) indent

/-- The end of a line, as an argument of a service. -/
def newlineArgument (text : String) (indent : Nat := 0) : Line :=
  .code (.li (.a 0) (.int 10)) (some ⟨6, text⟩) indent

/-- A function that does nothing but ask for a service. -/
def serviceFunction (name purpose : String) (body : List Line) : List Line :=
  [.remark (name ++ ": " ++ purpose), .label name] ++ body
    ++ [.code .syscall none 4, .code (.jr .ra) none 4]

/-- The functions for printing and reading, under their title. -/
def functions : List Line :=
  [.remark "===== RUNTIME SUPPORT FUNCTIONS =====", .blank]
  ++ serviceFunction "print_int" "Imprime el entero en $a0" [ask 1 "syscall 1: print_int" 7 4]
  ++ [.blank]
  ++ serviceFunction "print_string" "Imprime el string en $a0"
      [ask 4 "syscall 4: print_string" 7 4]
  ++ [.blank]
  ++ serviceFunction "print_newline" "Imprime un salto de línea"
      [ask 11 "syscall 11: print_char" 6 4, newlineArgument "ASCII code for newline" 4]
  ++ [.blank]
  ++ serviceFunction "read_int" "Lee un entero y lo retorna en $v0"
      [ask 5 "syscall 5: read_int" 7 4]
  ++ [.blank]

/-- Calls the function that prints a number. -/
def callPrintInt (r : Reg) : List Line := lines [.move (.a 0) r, .jal "print_int"]

/-- Ends the program. -/
def exit : List Line := [ask 10 "syscall 10: exit" 6, .code .syscall]

/-- Prints the number in a register. -/
def printInt (r : Reg) : List Line := [.code (.move (.a 0) r), ask 1 "print_int" 7, .code .syscall]

/-- Prints the string at a label. -/
def printString (label : String) : List Line :=
  [.code (.mem .la (.a 0) (.label label)), ask 4 "print_string" 7, .code .syscall]

/-- Ends the line. -/
def newline : List Line := [ask 11 "print_char" 6, newlineArgument "newline", .code .syscall]

end Scriptc.Mips.Support
