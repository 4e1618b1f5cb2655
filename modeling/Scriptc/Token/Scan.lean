import Scriptc.Token.Rule

/-!
# Scriptc: scanning

`pieces` cuts a text into consecutive pieces, none of which is empty: tokens, skipped text and
unrecognised text. Nothing is lost, so the pieces written one after the other are the text again.
`scan` places the pieces: it turns them into the token list, closed by the end mark, and the list of
unrecognised texts.
-/

namespace Scriptc

/-- What a piece of the text is. -/
inductive Piece where
  | token (kind : Terminal) (text : List Char)
  | skipped (text : List Char)
  | unknown (text : List Char)
  deriving DecidableEq, Repr

namespace Piece

def text : Piece → List Char
  | token _ cs | skipped cs | unknown cs => cs

/-- How many characters the first piece of a non-empty text takes, and what it is. A text that no
rule matches is given up at the first character with which no rule could go on. -/
def cut (cs : List Char) : Option LexRule × Nat :=
  match LexRule.best cs with
  | some (r, n) => (some r, n)
  | none => (none, LexRule.farthest cs + 1)

/-- The piece that a rule, or the absence of one, makes of a text. -/
def ofRule : Option LexRule → List Char → Piece
  | some r, cs =>
    match r.kind? with
    | some k => token k cs
    | none => skipped cs
  | none, cs => unknown cs

/-- The consecutive pieces of a text. -/
def pieces (cs : List Char) : List Piece :=
  match cs with
  | [] => []
  | c :: rest =>
    -- every piece takes its first character, whatever the rules say
    let (r, n) := cut (c :: rest)
    ofRule r (c :: rest.take (n - 1)) :: pieces (rest.drop (n - 1))
termination_by cs.length
decreasing_by
  simp only [List.length_drop, List.length_cons]
  omega

end Piece

/-- A place in the text. -/
structure Place where
  line : Nat := 1
  column : Nat := 0
  deriving DecidableEq, Repr, Inhabited

namespace Place

/-- The place behind one more character. -/
def step (p : Place) (c : Char) : Place :=
  if c = '\n' then ⟨p.line + 1, 0⟩ else ⟨p.line, p.column + 1⟩

/-- The place behind a text. -/
def past (p : Place) (cs : List Char) : Place := cs.foldl step p

end Place

/-- A text that no lexical rule recognises. -/
structure Unrecognised where
  place : Place
  text : List Char
  deriving DecidableEq, Repr

namespace Unrecognised

/-- How a character of an unrecognised text is shown. -/
def shown : Char → List Char
  | '\n' => ['\\', 'n']
  | '\t' => ['\\', 't']
  | '\r' => ['\\', 'r']
  | c => [c]

def message (u : Unrecognised) : String :=
  "token recognition error at: '" ++ String.ofList (u.text.flatMap shown) ++ "'"

end Unrecognised

/-- The outcome of scanning a text. -/
structure Scan where
  tokens : List Token
  unknown : List Unrecognised
  deriving DecidableEq, Repr

namespace Scan

/-- Places pieces from `p` on; the end mark closes the token list. -/
def ofPieces (p : Place) : List Piece → Scan
  | [] => ⟨[⟨.eof, "<EOF>", p.line, p.column⟩], []⟩
  | piece :: rest =>
    let tail := ofPieces (p.past piece.text) rest
    match piece with
    | .token k cs => { tail with tokens := ⟨k, String.ofList cs, p.line, p.column⟩ :: tail.tokens }
    | .skipped _ => tail
    | .unknown cs => { tail with unknown := ⟨p, cs⟩ :: tail.unknown }

/-- The tokens of a source text. -/
def ofText (s : String) : Scan := ofPieces {} (Piece.pieces s.toList)

end Scan

end Scriptc
