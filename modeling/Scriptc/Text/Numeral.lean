import Scriptc.Text.Blank
import Scriptc.Text.Digit

/-!
# Scriptc: numerals

Whole numbers as they are written in programs: blanks around them, a sign, single underscores
between digits, digits of any script, and a base mark `0x`, `0o` or `0b` where the base allows it.
With base zero the mark decides, and a numeral without a mark is decimal and has no needless leading
zero.

`Numeral.read?` gives the value of such a text, or nothing.
-/

namespace Scriptc.Numeral

/-- A character as the numeral reader sees it: digits of other scripts become plain digits, other
blanks plain blanks, and what has no place in a numeral a question mark. -/
def plain (c : Char) : Char :=
  if c.toNat < 0x7f then c
  else if Blank.isBlank c then ' '
  else match Digit.decimal? c with
    | some d => Char.ofNat ('0'.toNat + d)
    | none => '?'

/-- The characters of a text as the numeral reader sees them. -/
def plainAll (s : String) : List Char :=
  if s.toList.all (·.toNat < 0x80) then s.toList else s.toList.map plain

/-- Blanks that may stand around a numeral. -/
def isSpace (c : Char) : Bool := c = ' ' || (9 ≤ c.toNat && c.toNat ≤ 13)

/-- The value of a digit, letters counting from ten on. -/
def digit? (base : Nat) (c : Char) : Option Nat :=
  let d? :=
    if c.isDigit then some (c.toNat - '0'.toNat)
    else if 'a' ≤ c ∧ c ≤ 'z' then some (c.toNat - 'a'.toNat + 10)
    else if 'A' ≤ c ∧ c ≤ 'Z' then some (c.toNat - 'A'.toNat + 10)
    else none
  d?.filter (· < base)

/-- The base that a mark after a zero stands for. -/
def markBase? (c : Char) : Option Nat :=
  if c = 'x' || c = 'X' then some 16
  else if c = 'o' || c = 'O' then some 8
  else if c = 'b' || c = 'B' then some 2
  else none

/-- Digits with single underscores between them, as values, most significant first. -/
def digits? (base : Nat) : List Char → Option (List Nat)
  | [] => none
  | [c] => (digit? base c).map ([·])
  | c :: '_' :: rest => do return (← digit? base c) :: (← digits? base rest)
  | c :: rest => do return (← digit? base c) :: (← digits? base rest)

/-- A decimal numeral longer than this is not read. -/
def longest : Nat := 4300

def value (base : Nat) (ds : List Nat) : Nat := ds.foldl (fun n d => base * n + d) 0

/-- Digits in a given base. -/
def magnitude? (base : Nat) (cs : List Char) : Option Nat := do
  let ds ← digits? base cs
  if base = 10 && longest < ds.length then none else some (value base ds)

/-- One underscore may follow a base mark. -/
def dropUnderscore : List Char → List Char
  | '_' :: cs => cs
  | cs => cs

/-- A numeral without sign and blanks. Base zero stands for a base that the numeral itself tells. -/
def unsigned? (base : Nat) (cs : List Char) : Option Nat :=
  match cs with
  | '0' :: m :: rest =>
    match markBase? m with
    | some b =>
      if base = 0 || base = b then magnitude? b (dropUnderscore rest) else magnitude? base cs
    | none =>
      if base = 0 then (magnitude? 10 cs).filter (· = 0) else magnitude? base cs
  | _ => magnitude? (if base = 0 then 10 else base) cs

/-- The value of a numeral. -/
def read? (base : Nat) (s : String) : Option Int :=
  let cs := (plainAll s).dropWhile isSpace
  let cs := (cs.reverse.dropWhile isSpace).reverse
  match cs with
  | '+' :: rest => (unsigned? base rest).map Int.ofNat
  | '-' :: rest => (unsigned? base rest).map fun n => -Int.ofNat n
  | _ => (unsigned? base cs).map Int.ofNat

example : read? 0 " -0x_Ff " = some (-255) ∧ read? 0 "007" = none ∧ read? 10 "007" = some 7
    ∧ read? 0 "1_2" = some 12 ∧ read? 0 "1__2" = none ∧ read? 16 "0b1" = some 0xb1 := by
  decide +kernel

end Scriptc.Numeral
