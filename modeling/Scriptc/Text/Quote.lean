import Scriptc.Text.Hex
import Scriptc.Text.Printable

/-!
# Scriptc: quoted texts

A text inside a larger one stands between quotes: single ones, or double ones if the text itself has
single quotes and no double ones. The quote and the backslash have a backslash in front, and what
cannot be shown is written by its code point.
-/

namespace Scriptc.Quote

/-- The quote around a text. -/
def mark (cs : List Char) : Char := if cs.contains '\'' && !cs.contains '"' then '"' else '\''

/-- A backslash, the kind of the escape, and the code point in as many digits. -/
def byCode (kind : Char) (width : Nat) (c : Char) : List Char :=
  '\\' :: kind :: Hex.pad width false (Hex.digits c.toNat)

/-- How a character stands between the given quotes. -/
def escape (quote c : Char) : List Char :=
  if c = quote || c = '\\' then ['\\', c]
  else if c = '\n' then ['\\', 'n']
  else if c = '\r' then ['\\', 'r']
  else if c = '\t' then ['\\', 't']
  else if Printable.isPrintable c then [c]
  else if c.toNat < 0x100 then byCode 'x' 2 c
  else if c.toNat < 0x10000 then byCode 'u' 4 c
  else byCode 'U' 8 c

/-- A text between quotes. -/
def quote (s : String) : String :=
  let q := mark s.toList
  String.ofList (q :: s.toList.flatMap (escape q) ++ [q])

example : quote "a" = "'a'" ∧ quote "it's" = "\"it's\"" ∧ quote "'\"" = "'\\'\"'" := by
  decide +kernel

end Scriptc.Quote
