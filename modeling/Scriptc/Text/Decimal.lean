/-!
# Scriptc: plain decimal numerals

Runs of the ten digits `0` to `9`, with no sign and nothing between them.
-/

namespace Scriptc.Decimal

/-- The value of a run of digits read from the left. -/
def value (ds : List Char) : Nat := ds.foldl (fun n c => 10 * n + (c.toNat - '0'.toNat)) 0

/-- Reads a non-empty run of digits. -/
def read? (cs : List Char) : Option Nat :=
  if !cs.isEmpty && cs.all Char.isDigit then some (value cs) else none

end Scriptc.Decimal
