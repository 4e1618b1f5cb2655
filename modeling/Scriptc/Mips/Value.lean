import Scriptc.Mips.Instr
import Scriptc.Operand
import Scriptc.Text.Numeral

/-!
# Scriptc: operands as the target machine sees them

An operand is a temporary, a place in the frame, an address, a number, the label of a string, or a
name in memory. Kinds are told apart by text, in the order in which instructions ask for them.
-/

namespace Scriptc.Operand

open Mips (Imm)

/-- What is between the brackets of a place in the frame. -/
def frameOffset? : Operand → Option Imm
  | frame n => some (.int n)
  | text s =>
    match s.toList with
    | 'F' :: 'P' :: '[' :: rest =>
      if rest.getLast? = some ']' then some (.ofText (String.ofList rest.dropLast)) else Option.none
    | _ => Option.none
  | _ => Option.none

/-- Whether a text is written as an address. -/
def isHex : Operand → Bool
  | address _ => true
  | text s => Affix.begins s "0x"
  | _ => false

/-- The value of an address, if it is one. -/
def hexValue? : Operand → Option Int
  | address a => some a
  | text s => if Affix.begins s "0x" then Numeral.read? 16 s else Option.none
  | _ => Option.none

/-- From here on addresses belong to objects and arrays. -/
def heapStart : Int := 0x8000

/-- The value of an address of an object or an array. -/
def heapValue? (o : Operand) : Option Int := o.hexValue?.filter (heapStart ≤ ·)

/-- Whether an operand can stand in an instruction as a number: a numeral or a truth value. -/
def isImmediate : Operand → Bool
  | int _ | decimal _ | address _ => true
  | text s => s = "true" || s = "false" || (Numeral.read? 0 s).isSome
  | _ => false

/-- Truth values as numbers, all else as it is. -/
def normalise : Operand → Operand
  | text "true" => text "1"
  | text "false" => text "0"
  | o => o

/-- Whether an operand is the label of a string. -/
def isStringLabel : Operand → Bool
  | string _ => true
  | text s => Affix.begins s "str_"
  | _ => false

/-- Whether an operand is the stack pointer, in large or small letters. -/
def isStackPointer : Operand → Bool
  | text s =>
    match s.toList with
    | [c, d] => (c = 'S' || c = 's' || c = 'ſ') && (d = 'P' || d = 'p')
    | _ => false
  | _ => false

/-- An operand as a number in an instruction. -/
def toImm (o : Operand) : Imm :=
  match o with
  | int n => .int n
  | o => .ofText o.render

/-- The number that an operand says, where a missing one says zero. A fraction is cut off. -/
def toInt (o : Operand) : Except Fault Int :=
  match o with
  | none => return 0
  | int n => return n
  | decimal s =>
    match Numeral.read? 10 (String.ofList (s.toList.takeWhile (· ≠ '.'))) with
    | some n => return n
    | Option.none => throw (.badNumeral 10 s)
  | cells [] => return 0
  | cells _ => throw .cellsAsKey
  | o =>
    if o.isPresent then
      match Numeral.read? 10 o.render with
      | some n => return n
      | Option.none => throw (.badNumeral 10 o.render)
    else return 0

/-- A label as the assembler takes it: blanks become underscores and parentheses go. -/
def toLabel (o : Operand) : String :=
  match o.text? with
  | some s =>
    String.ofList ((s.toList.map fun c => if c = ' ' then '_' else c).filter fun c =>
      c ≠ '(' && c ≠ ')')
  | Option.none => o.render

example : (ofText "FUNC_add (Calculator)").toLabel = "FUNC_add_Calculator" := by decide +kernel
example : (ofText "FP[8]").frameOffset? = some (.int 8)
    ∧ (ofText "0x8000").heapValue? = some 0x8000 := by decide +kernel

end Scriptc.Operand
