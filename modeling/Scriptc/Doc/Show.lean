import Scriptc.Doc
import Scriptc.Text.Quote

/-!
# Scriptc: documents shown to the user

* `Doc.show`: a document inside a sentence. A text stands as it is, but inside of lists and records
  texts have quotes (`Doc.literal`).
* `Doc.isTrue`: whether there is anything in a document.
* `Doc.field?`, `Doc.elements?`: the parts of records and lists.
-/

namespace Scriptc.Doc

mutual

/-- A document as part of a larger one. -/
def literal : Doc → String
  | null => "None"
  | bool b => if b then "True" else "False"
  | int n => toString n
  | decimal s => s
  | text s => Quote.quote s
  | list ds => "[" ++ ", ".intercalate (literals ds) ++ "]"
  | record fs => "\x7b" ++ ", ".intercalate (fieldLiterals fs) ++ "\x7d"
  | pair a b => "(" ++ literal a ++ ", " ++ literal b ++ ")"

def literals : List Doc → List String
  | [] => []
  | d :: ds => literal d :: literals ds

def fieldLiterals : List (String × Doc) → List String
  | [] => []
  | (k, d) :: fs => (Quote.quote k ++ ": " ++ literal d) :: fieldLiterals fs

end

/-- A document inside a sentence. -/
def «show» : Doc → String
  | text s => s
  | d => d.literal

/-- Whether a number as written has a digit other than zero in front of its exponent. -/
def isNonzero (s : String) : Bool :=
  (s.toList.takeWhile fun c => c != 'e' && c != 'E').any fun c =>
  c.isAlpha || (c.isDigit && c != '0')

/-- Whether there is anything in a document. -/
def isTrue : Doc → Bool
  | null => false
  | bool b => b
  | int n => n ≠ 0
  | decimal s => isNonzero s
  | text s => s ≠ ""
  | list ds => !ds.isEmpty
  | record fs => !fs.isEmpty
  | pair _ _ => true

def isNull : Doc → Bool
  | null => true
  | _ => false

def text? : Doc → Option String
  | text s => some s
  | _ => none

/-- What a document is, for messages. -/
def kind : Doc → String
  | null => "NoneType"
  | bool _ => "bool"
  | int _ => "int"
  | decimal _ => "float"
  | text _ => "str"
  | list _ => "list"
  | record _ => "dict"
  | pair _ _ => "tuple"

/-- The field of a record; nothing in a document of another kind. -/
def field? (name : String) : Doc → Option Doc
  | record fs => fs.lookup name
  | _ => none

/-- The field of a record, null where there is none. -/
def fieldD (name : String) (d : Doc) : Doc := (d.field? name).getD null

/-- What a document lists: elements, characters of a text, or names of fields. -/
def elements? : Doc → Option (List Doc)
  | list ds => some ds
  | text s => some (s.toList.map fun c => text c.toString)
  | record fs => some (fs.map fun f => text f.1)
  | pair a b => some [a, b]
  | _ => none

/-- How many things a document lists. -/
def size (d : Doc) : Nat := ((d.elements?.map List.length).getD 0)

end Scriptc.Doc
