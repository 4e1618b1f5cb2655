/-!
# Scriptc: beginnings and ends of texts

Whether a text begins or ends with another, character by character.
-/

namespace Scriptc.Affix

def begins (s pre : String) : Bool := pre.toList.isPrefixOf s.toList

def ends (s suf : String) : Bool := suf.toList.isSuffixOf s.toList

end Scriptc.Affix
