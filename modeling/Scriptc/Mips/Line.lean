import Scriptc.Mips.Instr

/-!
# Scriptc: lines of assembly text

A line holds an instruction, a label, a piece of data, a directive, a remark, or nothing. How it is
set out (indentation, blanks in front of a remark) is part of the line.
-/

namespace Scriptc.Mips

/-- What a label of the data section stands for. -/
inductive Datum where
  /-- A word that is zero at the start. -/
  | word
  /-- Room for a number of bytes. -/
  | space (bytes : Nat)
  /-- A text that ends with a zero byte, escaped for the assembler. -/
  | asciiz (content : String)
  deriving DecidableEq, Repr, Inhabited

namespace Datum

def render : Datum → String
  | word => ".word 0"
  | space n => ".space " ++ toString n
  | asciiz s => ".asciiz \"" ++ s ++ "\""

end Datum

/-- A remark behind something else on its line, with the number of blanks before it. -/
structure Note where
  gap : Nat := 2
  text : String
  deriving DecidableEq, Repr, Inhabited

inductive Line where
  | blank
  | remark (text : String) (indent : Nat := 0)
  | label (name : String)
  | datum (name : String) (d : Datum) (note? : Option Note := none)
  | directive (text : String) (note? : Option Note := none)
  /-- An instruction; `gap` is the number of blanks behind its mnemonic. -/
  | code (i : Instr) (note? : Option Note := none) (indent : Nat := 0) (gap : Nat := 1)
  deriving DecidableEq, Repr, Inhabited

namespace Line

def blanks (n : Nat) : String := String.ofList (List.replicate n ' ')

def renderNote : Option Note → String
  | none => ""
  | some n => blanks n.gap ++ "# " ++ n.text

def render : Line → String
  | blank => ""
  | remark t n => blanks n ++ "# " ++ t
  | label n => n ++ ":"
  | datum n d note? => n ++ ": " ++ d.render ++ renderNote note?
  | directive t note? => t ++ renderNote note?
  | code i note? n gap =>
    let rest := if i.operands.isEmpty then "" else blanks gap ++ ", ".intercalate i.operands
    blanks n ++ i.mnemonic ++ rest ++ renderNote note?

/-- An instruction with a remark. -/
def noted (i : Instr) (text : String) (gap : Nat := 2) : Line := code i (some ⟨gap, text⟩)

/-- The instruction of a line. -/
def instr? : Line → Option Instr
  | code i _ _ _ => some i
  | _ => none

end Line

/-- Instructions on lines of their own. -/
def lines (is : List Instr) : List Line := is.map (Line.code ·)

end Scriptc.Mips
