/-!
# Scriptc: texts from bytes

Bytes of unknown encoding are read as UTF-8 if they are valid UTF-8, and else one character a byte.
-/

namespace Scriptc.Bytes

/-- Every byte is the character of that code point. -/
def single (b : ByteArray) : String := String.ofList (b.toList.map fun x => Char.ofNat x.toNat)

def text (b : ByteArray) : String := (String.fromUTF8? b).getD (single b)

end Scriptc.Bytes
