import Scriptc.Doc
import Scriptc.Text.Hex

/-!
# Scriptc: documents from JSON texts

`Doc.read` reads a JSON text. A text that is none is refused with the first place at which it cannot
go on (`Flaw`). A field that is given twice keeps its first place and its last value. Words for
numbers that are not finite are read too.
-/

namespace Scriptc

/-- Why a text is no JSON text. -/
inductive FlawKind where
  | byteOrderMark | value | extra | fieldName | colon | comma | unterminated | control | escape
  | codePoint
  deriving DecidableEq, Repr

/-- What is wrong and how many characters stand in front of it. -/
structure Flaw where
  kind : FlawKind
  pos : Nat
  deriving DecidableEq, Repr

namespace FlawKind

def message : FlawKind → String
  | byteOrderMark => "Unexpected UTF-8 BOM (decode using utf-8-sig)"
  | value => "Expecting value"
  | extra => "Extra data"
  | fieldName => "Expecting property name enclosed in double quotes"
  | colon => "Expecting ':' delimiter"
  | comma => "Expecting ',' delimiter"
  | unterminated => "Unterminated string starting at"
  | control => "Invalid control character at"
  | escape => "Invalid \\escape"
  | codePoint => "Invalid \\uXXXX escape"

end FlawKind

namespace Flaw

/-- The line of the flaw, from one. -/
def line (f : Flaw) (s : String) : Nat := (s.toList.take f.pos).count '\n' + 1

/-- The place of the flaw in its line, from one. -/
def column (f : Flaw) (s : String) : Nat :=
  ((s.toList.take f.pos).reverse.takeWhile (· ≠ '\n')).length + 1

/-- The report on a text with this flaw. -/
def message (f : Flaw) (s : String) : String :=
  f.kind.message ++ ": line " ++ toString (f.line s) ++ " column " ++ toString (f.column s)
    ++ " (char " ++ toString f.pos ++ ")"

end Flaw

namespace Doc

/-- The rest of a text and how many characters stand in front of it. -/
structure Rest where
  chars : List Char
  pos : Nat

namespace Rest

/-- Goes on behind `n` characters. -/
def skip (r : Rest) (n : Nat) : Rest := ⟨r.chars.drop n, r.pos + n⟩

/-- Goes on behind blanks. -/
def skipBlanks (r : Rest) : Rest :=
  r.skip (r.chars.takeWhile fun c => c = ' ' || c = '\t' || c = '\n' || c = '\r').length

def fail {α : Type} (r : Rest) (kind : FlawKind) : Except Flaw α := .error ⟨kind, r.pos⟩

/-- Goes on behind a character that must be next. -/
def expect (r : Rest) (c : Char) (kind : FlawKind) : Except Flaw Rest :=
  if r.chars.head? = some c then .ok (r.skip 1) else r.fail kind

end Rest

/-- The character that a letter behind a backslash stands for. -/
def unescape? : Char → Option Char
  | '"' => some '"'
  | '\\' => some '\\'
  | '/' => some '/'
  | 'b' => some (Char.ofNat 8)
  | 'f' => some (Char.ofNat 12)
  | 'n' => some '\n'
  | 'r' => some '\r'
  | 't' => some '\t'
  | _ => none

/-- The number that four digits write, if more of the text follows them. -/
def codeUnit? (cs : List Char) : Option Nat :=
  if cs.length < 5 then none else Hex.read? (cs.take 4)

/-- A code point from a first unit and what follows it, with the number of characters that belong to
it behind the first unit. -/
def codePoint (unit : Nat) (cs : List Char) : Char × Nat :=
  match cs with
  | '\\' :: 'u' :: more =>
    match codeUnit? more with
    | some low =>
      if 0xd800 ≤ unit && unit < 0xdc00 && 0xdc00 ≤ low && low < 0xe000 then
        (Char.ofNat (0x10000 + (unit - 0xd800) * 0x400 + (low - 0xdc00)), 6)
      else (Char.ofNat unit, 0)
    | none => (Char.ofNat unit, 0)
  | _ => (Char.ofNat unit, 0)

/-- The characters of a text up to its closing quote. `start` is the place of the opening one and
`skip` the number of characters that belong to an escape already read. -/
def readText (start : Nat) (seen : List Char) : Nat → Nat → List Char → Except Flaw (String × Rest)
  | _, _, [] => .error ⟨.unterminated, start⟩
  | pos, skip + 1, _ :: cs => readText start seen (pos + 1) skip cs
  | pos, 0, '"' :: cs => .ok (String.ofList seen.reverse, ⟨cs, pos + 1⟩)
  | pos, 0, '\\' :: cs =>
    match cs with
    | [] => .error ⟨.unterminated, start⟩
    | 'u' :: more =>
      match codeUnit? more with
      | none => .error ⟨.codePoint, pos + 1⟩
      | some unit =>
        let (c, extra) := codePoint unit (more.drop 4)
        readText start (c :: seen) (pos + 1) (5 + extra) cs
    | e :: _ =>
      match unescape? e with
      | none => .error ⟨.escape, pos⟩
      | some c => readText start (c :: seen) (pos + 1) 1 cs
  | pos, 0, c :: cs =>
    if c.toNat < 0x20 then .error ⟨.control, pos⟩ else readText start (c :: seen) (pos + 1) 0 cs

/-- The exponent at the beginning of a text; empty if there is none. -/
def exponent (cs : List Char) : List Char :=
  match cs with
  | e :: cs =>
    if e = 'e' || e = 'E' then
      let sign := match cs with
        | c :: _ => if c = '+' || c = '-' then [c] else []
        | [] => []
      let ds := (cs.drop sign.length).takeWhile Char.isDigit
      if ds.isEmpty then [] else e :: sign ++ ds
    else []
  | [] => []

/-- The digits behind a point, with the point; empty if there are none. -/
def fraction (cs : List Char) : List Char :=
  match cs with
  | '.' :: cs =>
    let ds := cs.takeWhile Char.isDigit
    if ds.isEmpty then [] else '.' :: ds
  | _ => []

/-- The whole part of a number, which has no needless zero in front; empty if there is none. -/
def whole (cs : List Char) : List Char :=
  match cs with
  | '0' :: _ => ['0']
  | _ => cs.takeWhile Char.isDigit

/-- A number at the beginning of a text. -/
def readNumber (r : Rest) : Except Flaw (Doc × Rest) :=
  let sign := if r.chars.head? = some '-' then ['-'] else []
  let w := whole (r.chars.drop sign.length)
  if w.isEmpty then r.fail .value
  else
    let f := fraction (r.chars.drop (sign.length + w.length))
    let e := exponent (r.chars.drop (sign.length + w.length + f.length))
    let rest := r.skip (sign.length + w.length + f.length + e.length)
    if f.isEmpty && e.isEmpty then
      let n : Int := (String.ofList w).toNat?.getD 0
      .ok (int (if sign.isEmpty then n else -n), rest)
    else .ok (decimal (String.ofList (sign ++ w ++ f ++ e)), rest)

/-- The words that are values. -/
def words : List (String × Doc) :=
  [("null", null), ("true", bool true), ("false", bool false), ("NaN", decimal "nan"),
    ("Infinity", decimal "inf"), ("-Infinity", decimal "-inf")]

/-- A word or a number at the beginning of a text. -/
def readPlain (r : Rest) : Except Flaw (Doc × Rest) :=
  match words.find? fun w => w.1.toList.isPrefixOf r.chars with
  | some (w, d) => .ok (d, r.skip w.length)
  | none => readNumber r

/-- Sets a field; one that is there keeps its place. -/
def setField (name : String) (value : Doc) : List (String × Doc) → List (String × Doc)
  | [] => [(name, value)]
  | (k, d) :: fs => if k = name then (k, value) :: fs else (k, d) :: setField name value fs

mutual

/-- A value at the beginning of a text. Every step into a value takes one from the first
argument. -/
def readValue : Nat → Rest → Except Flaw (Doc × Rest)
  | 0, r => r.fail .value
  | n + 1, r =>
    match r.chars with
    | '"' :: cs => do
      let (s, r) ← readText r.pos [] (r.pos + 1) 0 cs
      return (text s, r)
    | '[' :: _ =>
      let r := (r.skip 1).skipBlanks
      if r.chars.head? = some ']' then .ok (list [], r.skip 1) else readElements n [] r
    | '\x7b' :: _ =>
      let r := (r.skip 1).skipBlanks
      if r.chars.head? = some '\x7d' then .ok (record [], r.skip 1) else readFields n [] r
    | _ => readPlain r

/-- The elements of a list from the next one on. -/
def readElements : Nat → List Doc → Rest → Except Flaw (Doc × Rest)
  | 0, _, r => r.fail .value
  | n + 1, seen, r => do
    let (d, r) ← readValue n r
    let r := r.skipBlanks
    if r.chars.head? = some ']' then return (list (d :: seen).reverse, r.skip 1)
    let r ← r.expect ',' .comma
    readElements n (d :: seen) r.skipBlanks

/-- The fields of a record from the next one on. -/
def readFields : Nat → List (String × Doc) → Rest → Except Flaw (Doc × Rest)
  | 0, _, r => r.fail .value
  | n + 1, seen, r => do
    let inside ← r.expect '"' .fieldName
    let (k, r) ← readText r.pos [] inside.pos 0 inside.chars
    let r ← r.skipBlanks.expect ':' .colon
    let (d, r) ← readValue n r.skipBlanks
    let r := r.skipBlanks
    let fields := setField k d seen
    if r.chars.head? = some '\x7d' then return (record fields, r.skip 1)
    let r ← r.expect ',' .comma
    readFields n fields r.skipBlanks

end

/-- Reads a JSON text. A value takes at least one character, so twice the length is enough for all
steps. -/
def read (s : String) : Except Flaw Doc := do
  let r : Rest := ⟨s.toList, 0⟩
  if r.chars.head? = some '\ufeff' then r.fail .byteOrderMark
  let (d, r) ← readValue (2 * r.chars.length + 1) r.skipBlanks
  let r := r.skipBlanks
  if r.chars.isEmpty then return d else r.fail .extra

end Doc

end Scriptc
