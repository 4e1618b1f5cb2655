import Scriptc.Doc
import Scriptc.SymbolTable

/-!
# Scriptc: symbol tables as documents

Every scope in the order in which it was made, with its symbols in the order of their declaration.
-/

namespace Scriptc

namespace Ty

def docOf (t : Option Ty) : Doc := Doc.ofOption (fun t => .text t.name) t

end Ty

namespace SymbolTable

def paramsDoc (ps : List (String × Option Ty)) : Doc :=
  .list (ps.map fun p => .record [("name", .text p.1), ("type", Ty.docOf p.2)])

def attributeDoc (s : Symbol) : Doc :=
  .record [("name", .text s.name), ("type", Ty.docOf s.type?),
    ("is_const", .bool ((s.asVariable?.map Variable.const).getD false))]

def methodDoc (s : Symbol) : Doc :=
  .record [("name", .text s.name), ("return_type", Ty.docOf s.type?),
    ("parameters", paramsDoc ((s.asFunction?.map Function.params).getD []))]

/-- The symbols with the given numbers. -/
def pick (t : SymbolTable) (ids : List SymbolId) : List Symbol := ids.filterMap t.symbol?

def symbolDoc (t : SymbolTable) (s : Symbol) : Doc :=
  let base := [("name", Doc.text s.name), ("category", .text s.category),
    ("scope_id", .ofNat s.scope),
    ("type", Ty.docOf s.type?)]
  match s.body with
  | .variable v =>
    .record (base ++ [("is_const", .bool v.const), ("is_type_inferred", .bool v.inferred)])
  | .function f =>
    .record (base ++ [("return_type", Ty.docOf f.result?), ("parameters", paramsDoc f.params)])
  | .classDecl c =>
    .record (base ++ [
      ("parent", Doc.ofOption (fun p => .text p.name) (c.parent?.bind t.symbol?)),
      ("attributes", .list ((t.pick c.attributes.values).map attributeDoc)),
      ("methods", .list ((t.pick c.methods.values).map methodDoc))])
  | .other _ _ => .record base

def scopeFields (t : SymbolTable) (c : Scope) : List (String × Doc) :=
  [("scope_id", .ofNat c.id), ("scope_type", .text c.kind),
    ("parent_id", Doc.ofOption .ofNat c.parent?),
    ("symbols", .list ((t.pick c.entries.values).map t.symbolDoc))]

def toDoc (t : SymbolTable) : Doc :=
  .list (t.scopes.toList.map fun c => .record (t.scopeFields c))

/-- The descriptions of the symbols of a scope. -/
def describeScope (t : SymbolTable) (c : Scope) : Except Fault (List String) :=
  c.entries.values.mapM t.describe

end SymbolTable

end Scriptc
