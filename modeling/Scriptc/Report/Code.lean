import Scriptc.Build
import Scriptc.Report.Symbols

/-!
# Scriptc: intermediate code and storage in print

Listings for the reader (`quadListing`, `memoryMap`) and documents for other programs.
-/

namespace Scriptc

namespace Operand

mutual

def toDoc : Operand → Doc
  | none => .null
  | int n => .int n
  | decimal s => .decimal s
  | cells vs => .pair (.text "array_literal") (.list (toDocs vs))
  | text s => .text s
  | temp k => .text (render (temp k))
  | label k => .text (render (label k))
  | string k => .text (render (string k))
  | address a => .text (render (address a))
  | frame n => .text (render (frame n))

def toDocs : List Operand → List Doc
  | [] => []
  | v :: vs => toDoc v :: toDocs vs

end

end Operand

namespace Quad

/-- A quadruple as a list of its five parts. -/
def toDoc (q : Quad) : Doc :=
  .list [.text q.op.text, q.arg1.toDoc, q.arg2.toDoc, q.result.toDoc, Doc.ofOption .text q.comment?]

/-- A quadruple as a record, without its remark. -/
def toRecord (q : Quad) : Doc :=
  .record [("op", .text q.op.text), ("arg1", q.arg1.toDoc), ("arg2", q.arg2.toDoc),
    ("result", q.result.toDoc)]

end Quad

namespace Slot

def toDoc : Slot → Doc
  | address a => .int a
  | relative t => .text t

def render : Slot → String
  | address a => Hex.wide a
  | relative t => t

end Slot

namespace Frame

def entriesDoc (es : List FrameEntry) : Doc :=
  .list (es.map fun e => .list [.text e.name, Ty.docOf e.type?, .ofNat e.offset])

def toDoc (f : Frame) : Doc :=
  .record [("function", .text f.function), ("size", .ofNat f.size), ("params", entriesDoc f.params),
    ("locals", entriesDoc f.locals)]

end Frame

namespace Layout

def toDoc (name : String) (l : Layout) : Doc :=
  .list [.text name, .int l.size,
    .list (l.fields.map fun (n, f) => .list [.text n, .int f.offset, Ty.docOf f.type?])]

end Layout

namespace Build

/-- Lines, each with its end. -/
def unlines (ls : List String) : String := String.join (ls.map (· ++ "\n"))

/-- All quadruples with their numbers. -/
def quadListing (b : Build) : String :=
  unlines ("=== CUÁDruplos Generados ===" ::
    b.quads.toList.zipIdx.map fun (q, i) => toString i ++ ": " ++ q.render)

/-- The name of a type, or that it is not known. -/
def knownType (s? : Option Symbol) : String := ((s?.bind Symbol.type?).map Ty.name).getD "unknown"

/-- A text cut at the first pair of colons. -/
def splitKey : List Char → Option (List Char × List Char)
  | ':' :: ':' :: rest => some ([], rest)
  | c :: cs => (splitKey cs).map fun (a, b) => (c :: a, b)
  | [] => none

/-- A line of the memory map. The type of a local variable is that of the first symbol of its name
in any scope. -/
def memoryLine (t : SymbolTable) (name : String) (slot : Slot) : String :=
  match splitKey name.toList with
  | some (f, x) =>
    let x := String.ofList x
    let place := match slot with
      | .address a => toString a
      | .relative p => p
    place ++ ": " ++ String.ofList f ++ "::" ++ x ++ " (" ++
      knownType ((t.anywhere? x).bind t.symbol?)
      ++ ")"
  | none => slot.render ++ ": " ++ name ++ " (" ++ knownType (t.lookupSymbol? name) ++ ")"

/-- Where every variable is. -/
def memoryMap (b : Build) : String :=
  unlines ("=== MAPA DE MEMORIA ===" ::
    b.storage.slots.map fun (n, s) => memoryLine b.table n s)

/-- The frames of all functions. -/
def framesDoc (b : Build) : Doc :=
  .list (b.frameOf.map fun (_, id) => (b.frames.getD id default).toDoc)

def memoryDoc (b : Build) : Doc :=
  .list (b.storage.slots.map fun (n, s) => .list [.text n, s.toDoc])

/-- What a compilation has put aside: storage, frames, layouts, strings and counters. -/
def stockFields (b : Build) : List (String × Doc) :=
  [("memory", b.memoryDoc), ("frames", b.framesDoc),
    ("layouts", .list (b.layouts.map fun (n, l) => l.toDoc n)),
    ("strings", .list (b.strings.map fun (s, l) => .list [.text s, .text l])),
    ("temps", .list (b.tempCounts.map fun (f, n) => .list [.text f, .ofNat n])),
    ("labels", .ofNat b.labelCount)]

end Build

end Scriptc
