import Scriptc.Assoc
import Scriptc.Fault
import Scriptc.Mips.Reg
import Scriptc.Operand
import Scriptc.Text.Numeral

/-!
# Scriptc: register allocation

Names of temporaries and other values are given registers and keep them until they are freed. When
every register is taken, the name that has held its register for the longest time gives it up.
A number or a missing name gets some register for the moment (`Allocator.scratch`), which is not
marked as used.
-/

namespace Scriptc.Mips

/-- Families of registers to choose from. -/
inductive Pool where
  | temporary | saved | argument
  deriving DecidableEq, Repr, Inhabited

namespace Pool

def regs : Pool → List Reg
  | temporary => Reg.temporaries
  | saved => Reg.savedAll
  | argument => Reg.arguments

/-- The family for a use. -/
def ofUse : String → Pool
  | "function" | "save" => saved
  | "arg" => argument
  | _ => temporary

/-- The registers in the order in which they are tried: the preferred family first. -/
def order (p : Pool) : List Reg :=
  p.regs ++ ([temporary, saved, argument].filter (· ≠ p)).flatMap regs

end Pool

structure Allocator where
  /-- The register of each name. -/
  map : Assoc String Reg := []
  used : List Reg := []
  free : List Reg := Reg.temporaries
  spillOffset : Nat := 0
  /-- Where the values of names that gave up their registers would be saved. -/
  spilled : Assoc String Nat := []
  deriving DecidableEq, Repr, Inhabited

namespace Allocator

/-- A register for the moment: a free one that nobody uses, else any temporary that nobody uses,
else the last temporary. -/
def scratch (a : Allocator) : Reg :=
  ((a.free ++ Reg.temporaries).find? (!a.used.contains ·)).getD (.t 9)

/-- A register that nobody uses, from the preferred family if it has one. -/
def unused? (a : Allocator) (p : Pool) : Option Reg := p.order.find? (!a.used.contains ·)

/-- Gives a register to a name. -/
def give (a : Allocator) (name : String) (r : Reg) : Allocator :=
  { a with map := a.map.put name r, used := a.used.insert r }

/-- Takes the register of a name back. -/
def release (a : Allocator) (name : String) : Allocator :=
  match a.map.get? name with
  | none => a
  | some r =>
    { a with
      map := a.map.erase name
      used := a.used.erase r
      free := if r.isTemporary && !a.free.contains r then a.free ++ [r] else a.free }

/-- Lets the name that came first give its register to another name. -/
def spill (a : Allocator) (name : String) : Reg × Allocator :=
  match a.map with
  | [] => (.t 9, a)
  | (victim, r) :: _ =>
    let a := { a with
      spilled := a.spilled.put victim a.spillOffset
      spillOffset := a.spillOffset + 4 }
    (r, (a.release victim).give name r)

/-- The register of a name, given now if it has none. -/
def regOf (a : Allocator) (name : String) (p : Pool) : Reg × Allocator :=
  match a.map.get? name with
  | some r => (r, a)
  | none =>
    match a.unused? p with
    | some r => (r, { a.give name r with free := a.free.erase r })
    | none => a.spill name

/-- Whether an operand is a number that needs no register of its own. -/
def isNumber : Operand → Bool
  | .int _ | .decimal _ => true
  | .text s => (Numeral.read? 10 s).isSome
  | _ => false

/-- The register for an operand. -/
def regFor (a : Allocator) (o : Operand) (p : Pool := .temporary) :
    Except Fault (Reg × Allocator) :=
  if isNumber o then return (a.scratch, a)
  else match o with
    | .none => return (a.scratch, a)
    | .cells _ => throw .cellsAsKey
    | o => return a.regOf o.render p

end Allocator

end Scriptc.Mips
