/-!
# Scriptc: hexadecimal numerals

Addresses are written in base sixteen: in quadruples with capital digits and at least four places
(`Hex.wide`), in remarks with small digits and no padding (`Hex.plain`).
-/

namespace Scriptc.Hex

/-- The digits of a number in base sixteen, small letters, no sign and no base mark. -/
def digits (n : Nat) : List Char := Nat.toDigits 16 n

/-- Puts zeros in front until a text has the given width; a sign stays in front of the zeros. -/
def pad (width : Nat) (negative : Bool) (ds : List Char) : List Char :=
  let sign := if negative then ['-'] else []
  sign ++ List.replicate (width - sign.length - ds.length) '0' ++ ds

/-- Capital digits, at least four places: `0x1000`, `0x00FF`. -/
def wide (n : Int) : String :=
  String.ofList ('0' :: 'x' :: pad 4 (n < 0) ((digits n.natAbs).map Char.toUpper))

/-- Small digits, no padding; a sign stands in front of the base mark: `0x1000`, `-0x8`. -/
def plain (n : Int) : String :=
  (if n < 0 then "-0x" else "0x") ++ String.ofList (digits n.natAbs)

/-- The value of a digit, small or capital. -/
def digit? (c : Char) : Option Nat :=
  if c.isDigit then some (c.toNat - '0'.toNat)
  else if 'a' ≤ c ∧ c ≤ 'f' then some (c.toNat - 'a'.toNat + 10)
  else if 'A' ≤ c ∧ c ≤ 'F' then some (c.toNat - 'A'.toNat + 10)
  else none

/-- Reads a non-empty run of digits. -/
def read? (cs : List Char) : Option Nat :=
  if cs.isEmpty then none
  else cs.foldlM (fun n c => (digit? c).map (16 * n + ·)) 0

example : wide 4096 = "0x1000" ∧ wide 255 = "0x00FF" ∧ wide 0xABCDE = "0xABCDE" := by decide +kernel
example : wide (-8) = "0x-008" ∧ plain 0xABC = "0xabc" ∧ plain (-8) = "-0x8" := by decide +kernel

end Scriptc.Hex
