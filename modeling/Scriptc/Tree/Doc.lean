import Scriptc.Doc
import Scriptc.Tree

/-!
# Scriptc: parse trees as documents

A leaf is the record of its token. A rule node has its children and the places of its first and last
token; a tree without a last token cannot be written.
-/

namespace Scriptc.Tree

def tokenDoc (t : Token) : Doc :=
  .record [("type", .text "TOKEN"), ("name", .text t.kind.listingName), ("text", .text t.text),
    ("line", .ofNat t.line), ("column", .ofNat t.column)]

def nodeDoc (r : Rule) (children : List Doc) (first last : Token) : Doc :=
  .record [("type", .text r.name), ("children", .list children),
    ("start_line", .ofNat first.line), ("start_column", .ofNat first.column),
    ("end_line", .ofNat last.line), ("end_column", .ofNat last.column)]

mutual

def toDoc? : Tree → Option Doc
  | leaf t => some (tokenDoc t)
  | node r ts => do
    let children ← toDocs? ts
    nodeDoc r children (← (node r ts).first?) (← (node r ts).last?)

def toDocs? : List Tree → Option (List Doc)
  | [] => some []
  | t :: ts => do return (← toDoc? t) :: (← toDocs? ts)

end

end Scriptc.Tree
