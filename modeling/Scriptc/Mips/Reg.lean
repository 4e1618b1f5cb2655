import Scriptc.Text.Affix
import Scriptc.Text.Decimal
import Scriptc.Text.Digit

/-!
# Scriptc: registers of the target machine

Registers by family and number. The numbers of a family are not bounded here: a program with many
objects asks for more saved registers than the machine has. Any other register text is kept as it
is.
-/

namespace Scriptc.Mips

inductive Reg where
  | zero
  /-- Results. -/
  | v (i : Nat)
  /-- Arguments. -/
  | a (i : Nat)
  /-- Temporaries. -/
  | t (i : Nat)
  /-- Saved across calls. -/
  | s (i : Nat)
  | sp
  | fp
  | ra
  | other (name : String)
  deriving DecidableEq, Repr, Inhabited

namespace Reg

def text : Reg → String
  | zero => "$zero"
  | v i => "$v" ++ toString i
  | a i => "$a" ++ toString i
  | t i => "$t" ++ toString i
  | s i => "$s" ++ toString i
  | sp => "$sp"
  | fp => "$fp"
  | ra => "$ra"
  | other n => n

/-- The register of a family that a text may stand for. -/
def candidate (n : String) : Reg :=
  let of (family : Nat → Reg) (ds : List Char) : Reg :=
    ((Decimal.read? ds).map family).getD (other n)
  match n.toList with
  | '$' :: 'z' :: _ => zero
  | ['$', 's', 'p'] => sp
  | '$' :: 'f' :: _ => fp
  | '$' :: 'r' :: _ => ra
  | '$' :: 'v' :: ds => of v ds
  | '$' :: 'a' :: ds => of a ds
  | '$' :: 't' :: ds => of t ds
  | '$' :: 's' :: ds => of s ds
  | _ => other n

/-- The register with the given text. -/
def ofText (n : String) : Reg :=
  let c := candidate n
  if c.text = n then c else other n

theorem text_ofText (n : String) : (ofText n).text = n := by
  simp only [ofText]
  split
  · assumption
  · rfl

/-- Whether a register is saved across calls, by its name. -/
def isSaved : Reg → Bool
  | s _ => true
  | other n =>
    match n.toList with
    | '$' :: 's' :: ds => !ds.isEmpty && ds.all Digit.isDigit
    | _ => false
  | _ => false

/-- Whether the name of a register is that of a temporary. -/
def isTemporary : Reg → Bool
  | t _ => true
  | other n => Affix.begins n "$t"
  | _ => false

/-- The temporaries `$t0` to `$t9`. -/
def temporaries : List Reg := (List.range 10).map t

/-- The saved registers `$s0` to `$s7`. -/
def savedAll : List Reg := (List.range 8).map s

/-- The argument registers `$a0` to `$a3`. -/
def arguments : List Reg := (List.range 4).map a

end Reg

end Scriptc.Mips
