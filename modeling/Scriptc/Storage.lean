import Scriptc.Assoc
import Scriptc.Text.Affix

/-!
# Scriptc: storage

Where the variables of a program live. Global variables lie one behind the other from `0x1000` on,
objects and arrays from `0x8000` on, both on word boundaries; a local variable has a place relative
to its frame. A name that has a place keeps it.
-/

namespace Scriptc

/-- Where a variable is. -/
inductive Slot where
  | address (a : Int)
  /-- A place relative to a frame, as written. -/
  | relative (text : String)
  deriving DecidableEq, Repr, Inhabited

namespace Slot

/-- The place at an offset in a frame. -/
def inFrame (offset : Nat) : Slot := relative ("FP[" ++ toString offset ++ "]")

end Slot

structure Storage where
  nextGlobal : Int := 0x1000
  nextHeap : Int := 0x8000
  nextStack : Int := 0xF000
  slots : Assoc String Slot := []
  deriving DecidableEq, Repr, Inhabited

namespace Storage

/-- The next word boundary. -/
def align (a : Int) : Int := if a % 4 = 0 then a else a + (4 - a % 4)

theorem le_align (a : Int) : a ≤ align a := by
  unfold align
  split <;> omega

/-- The key under which a variable of a function is kept. -/
def localKey (function name : String) : String := function ++ "::" ++ name

/-- How many variables of a function have a place. -/
def localCount (s : Storage) (function : String) : Nat :=
  (s.slots.keys.filter (Affix.begins · (function ++ "::"))).length

def slot? (s : Storage) (name : String) : Option Slot := s.slots.get? name

/-- A place for a global variable. -/
def allocGlobal (s : Storage) (name : String) (size : Int) : Slot × Storage :=
  match s.slot? name with
  | some a => (a, s)
  | none =>
    let a := align s.nextGlobal
    (.address a, { s with nextGlobal := a + size, slots := s.slots.put name (.address a) })

/-- A place for a variable of a function: the next word of its frame. -/
def allocLocal (s : Storage) (name function : String) : Slot × Storage :=
  let key := localKey function name
  match s.slot? key with
  | some a => (a, s)
  | none =>
    let a := Slot.inFrame (4 * s.localCount function)
    (a, { s with slots := s.slots.put key a })

/-- Room for an object. -/
def allocHeap (s : Storage) (size : Int) : Int × Storage :=
  let a := align s.nextHeap
  (a, { s with nextHeap := a + size })

/-- A place for an array. -/
def allocArray (s : Storage) (name : String) (count size : Int) : Slot × Storage :=
  match s.slot? name with
  | some a => (a, s)
  | none =>
    let (a, s) := s.allocHeap (count * size)
    (.address a, { s with slots := s.slots.put name (.address a) })

/-- The bytes that the variables of a function take. -/
def frameSize (s : Storage) (function : String) : Nat := 4 * s.localCount function

end Storage

end Scriptc
