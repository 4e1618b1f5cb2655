/-!
# Scriptc: line ends

Texts from files end their lines in one of three ways. `Lines.normal` makes them all a single line
feed.
-/

namespace Scriptc.Lines

/-- Makes a carriage return, with or without a line feed behind it, a line feed. -/
def normalChars : List Char → List Char
  | [] => []
  | '\r' :: '\n' :: cs => '\n' :: normalChars cs
  | '\r' :: cs => '\n' :: normalChars cs
  | c :: cs => c :: normalChars cs

def normal (s : String) : String :=
  if s.contains '\r' then String.ofList (normalChars s.toList) else s

end Scriptc.Lines
