import Scriptc.Assoc
import Scriptc.Storage
import Scriptc.Ty

/-!
# Scriptc: layouts of objects

How an instance of a class lies in storage: the fields of its parent first, then its own, each on a
word boundary. A field that the parent has too keeps its place in the list and gets the new offset.
-/

namespace Scriptc

structure Field where
  offset : Int
  type? : Option Ty
  deriving Repr, Inhabited

structure Layout where
  size : Int := 0
  fields : Assoc String Field := []
  deriving Repr, Inhabited

namespace Layout

/-- The bytes of a field; one without a type takes a word. -/
def fieldSize (type? : Option Ty) : Int := (type?.map Ty.size).getD 4

def addField (l : Layout) (name : String) (type? : Option Ty) : Layout :=
  let offset := Storage.align l.size
  { size := offset + fieldSize type?, fields := l.fields.put name ⟨offset, type?⟩ }

/-- The layout of a class with the given fields of its own. -/
def extend (parent : Layout) (own : List (String × Option Ty)) : Layout :=
  own.foldl (fun l f => l.addField f.1 f.2) { parent with size := Storage.align parent.size }

end Layout

end Scriptc
