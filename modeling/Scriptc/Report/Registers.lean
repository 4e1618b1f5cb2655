import Scriptc.Mips.Select
import Scriptc.Report.Code
import Scriptc.Tree

/-!
# Scriptc: registers as documents

Who holds which register, and what the choice of instructions knows at a point of the code.
-/

namespace Scriptc

/-- Entries of a table as pairs. -/
def Assoc.toDoc {α : Type} (f : α → Doc) (m : Assoc String α) : Doc :=
  .list (m.map fun (k, v) => .list [.text k, f v])

namespace Mips

def Reg.toDoc (r : Reg) : Doc := .text r.text

namespace Allocator

def mapDoc (a : Allocator) : Doc := a.map.toDoc Reg.toDoc

/-- The registers in use, in the order of their names. -/
def usedDoc (a : Allocator) : Doc := .texts (Tree.sortTexts (a.used.map Reg.text))

def fields (a : Allocator) : List (String × Doc) :=
  [("used", a.usedDoc), ("free", .list (a.free.map Reg.toDoc)), ("map", a.mapDoc),
    ("spilled", a.spilled.toDoc .ofNat), ("spill_offset", .ofNat a.spillOffset)]

end Allocator

namespace Select

def fields (s : Select) : List (String × Doc) :=
  [("map", s.alloc.mapDoc), ("used", s.alloc.usedDoc), ("types", s.types.toDoc .text),
    ("source", s.source.toDoc Operand.toDoc), ("pop", s.lastPop.toDoc),
    ("function", Doc.ofOption .text s.function?)]

end Select

end Mips

end Scriptc
