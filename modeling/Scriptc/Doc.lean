/-!
# Scriptc: documents

Structured values for results that are handed on to other programs: lists, records with their fields
in order, texts, numbers. `Doc.render` writes a document as JSON, indented by two blanks a level.
-/

namespace Scriptc

inductive Doc where
  | null
  | bool (b : Bool)
  | int (n : Int)
  /-- A number that is not whole, as written. -/
  | decimal (s : String)
  | text (s : String)
  | list (ds : List Doc)
  | record (fields : List (String × Doc))
  /-- Two values that belong together. JSON has only lists for that. -/
  | pair (first second : Doc)
  deriving Repr, Inhabited

namespace Doc

def ofNat (n : Nat) : Doc := int n

def ofOption {α : Type} (f : α → Doc) : Option α → Doc
  | none => null
  | some a => f a

def texts (xs : List String) : Doc := list (xs.map text)

/-- How a character stands in a quoted text. -/
def escape (c : Char) : List Char :=
  if c = '"' then ['\\', '"']
  else if c = '\\' then ['\\', '\\']
  else if c = '\n' then ['\\', 'n']
  else if c = '\r' then ['\\', 'r']
  else if c = '\t' then ['\\', 't']
  else if c.toNat = 8 then ['\\', 'b']
  else if c.toNat = 12 then ['\\', 'f']
  else if c.toNat < 0x20 then
    let ds := Nat.toDigits 16 c.toNat
    '\\' :: 'u' :: (List.replicate (4 - ds.length) '0' ++ ds)
  else [c]

def quote (s : String) : String := "\"" ++ String.ofList (s.toList.flatMap escape) ++ "\""

/-- A line break and the blanks of a level. -/
def newline (level : Nat) : String := String.ofList ('\n' :: List.replicate (2 * level) ' ')

/-- Items between brackets, one a line. -/
def bracket (level : Nat) (left right : String) (items : List String) : String :=
  if items.isEmpty then left ++ right
  else left ++ newline (level + 1) ++ (("," ++ newline (level + 1)).intercalate items)
    ++ newline level ++ right

mutual

def renderAt (level : Nat) : Doc → String
  | null => "null"
  | bool b => if b then "true" else "false"
  | int n => toString n
  | decimal s => s
  | text s => quote s
  | list ds => bracket level "[" "]" (renderItems (level + 1) ds)
  | record fs => bracket level "\x7b" "\x7d" (renderFields (level + 1) fs)
  | pair a b => bracket level "[" "]" [renderAt (level + 1) a, renderAt (level + 1) b]

def renderItems (level : Nat) : List Doc → List String
  | [] => []
  | d :: ds => renderAt level d :: renderItems level ds

def renderFields (level : Nat) : List (String × Doc) → List String
  | [] => []
  | (k, d) :: fs => (quote k ++ ": " ++ renderAt level d) :: renderFields level fs

end

/-- The JSON text of a document. -/
def render (d : Doc) : String := renderAt 0 d

end Doc

end Scriptc
