import Scriptc.Fault

/-!
# Scriptc: types

Types are compared by name alone (`Ty.name`, and so `==`): an array has the name of its element type
in it and its dimensions play no part; a class that is called like a built-in type is taken for it.
`Ty.canAssignTo` says which values may be stored where.
-/

namespace Scriptc

inductive Ty where
  | integer
  | boolean
  | string
  | void
  | null
  /-- The type of what could not be typed. -/
  | error
  | named (name : String)
  /-- An array; a dimension of zero is not known before the program runs. -/
  | array (element : Ty) (dims : List Int)
  deriving Repr, Inhabited

namespace Ty

def name : Ty → String
  | integer => "integer"
  | boolean => "boolean"
  | string => "string"
  | void => "void"
  | null => "null"
  | error => "error"
  | named n => n
  | array e _ => "array<" ++ e.name ++ ">"

/-- Types of one name are one type. -/
instance : BEq Ty := ⟨fun a b => a.name == b.name⟩

/-- The width in bytes that a type declares; zero where it declares none. -/
def width : Ty → Int
  | integer => 4
  | boolean => 1
  | string => 8
  | array e dims => e.width * dims.foldl (· * ·) 1
  | _ => 0

/-- The bytes that a value takes in storage. A string is held by its address, and what declares no
width takes a word. -/
def size (t : Ty) : Int :=
  if t.name = "string" then 4
  else if t.width ≠ 0 then t.width
  else if t.name = "boolean" then 1
  else if t.name = "void" then 0
  else 4

/-- The types that hold plain data, by the way they are made and not by name. -/
def isPlain : Ty → Bool
  | integer | boolean | string | array _ _ => true
  | _ => false

/-- Whether a value of type `a` may be stored where `b?` is expected, if anything is. Null goes
anywhere but into the types that cannot be empty, a type goes into itself, and plain data counts as
a truth value. -/
def canAssignTo (a : Ty) (b? : Option Ty) : Bool :=
  if a == null then !(b? == some integer || b? == some boolean || b? == some void)
  else if some a == b? then true
  else b? == some boolean && a.isPlain

/-- The built-in type of a name. -/
def basic? (n : String) : Option Ty :=
  if n = "integer" then some integer
  else if n = "boolean" then some boolean
  else if n = "string" then some string
  else if n = "void" then some void
  else if n = "null" then some null
  else none

/-- Reads a type from its text, which is given from its end: a pair of brackets behind an element
type makes an array of unknown length. -/
def ofReversed : List Char → Except Fault (Option Ty)
  | ']' :: '[' :: rest => do
    match ← ofReversed rest with
    | some e => return some (array e [0])
    | none => throw .noType
  | cs => return basic? (String.ofList cs.reverse)

/-- The built-in type, or array of one, that a text names. A name that is not built in has none;
an array of such a thing cannot be made. -/
def ofText (s : String) : Except Fault (Option Ty) := ofReversed s.toList.reverse

/-- The name of a type that may be missing. -/
def nameOf : Option Ty → Except Fault String
  | some t => return t.name
  | none => throw .noType

/-- The storage size of a type that may be missing. -/
def sizeOf? : Option Ty → Except Fault Int
  | some t => return t.size
  | none => throw .noType

end Ty

end Scriptc
