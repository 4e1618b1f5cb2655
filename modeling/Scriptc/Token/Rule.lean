import Scriptc.Token

/-!
# Scriptc: lexical rules

Each lexical rule is given by two measures of a text:

* `LexRule.munch`: the length of the longest prefix that the rule matches, if any;
* `LexRule.progress`: the length of the longest prefix that is a prefix of some match. It says how
  far a reader may look before it has to give the rule up.

`LexRule.all` fixes the order that decides between rules that match equally much, so a keyword wins
over an identifier of the same letters.
-/

namespace Scriptc

/-- A lexical rule: one fixed word, or one of the open classes. -/
inductive LexRule where
  | word (kind : Terminal) (spelling : List Char)
  | literal
  | identifier
  | blanks
  | lineComment
  | blockComment
  deriving DecidableEq, Repr

namespace LexRule

def isDigit (c : Char) : Bool := '0' ≤ c && c ≤ '9'

/-- Letters and the underscore may begin an identifier. -/
def isNameStart (c : Char) : Bool :=
  ('a' ≤ c && c ≤ 'z') || ('A' ≤ c && c ≤ 'Z') || c == '_'

def isNamePart (c : Char) : Bool := isNameStart c || isDigit c

def isBlank (c : Char) : Bool := c == ' ' || c == '\t' || c == '\r' || c == '\n'

/-- What may stand between the quotes of a string. -/
def isStringPart (c : Char) : Bool := c != '"' && c != '\r' && c != '\n'

def isLinePart (c : Char) : Bool := c != '\r' && c != '\n'

/-- Length of the longest common prefix. -/
def sharedLength : List Char → List Char → Nat
  | a :: as, b :: bs => if a = b then sharedLength as bs + 1 else 0
  | _, _ => 0

/-- Length of the longest prefix whose characters all satisfy `p`. -/
def runLength (p : Char → Bool) : List Char → Nat
  | [] => 0
  | c :: cs => if p c then runLength p cs + 1 else 0

/-- Number of characters through the first `*/`, if there is one. -/
def commentLength : List Char → Option Nat
  | [] => none
  | [_] => none
  | a :: b :: cs =>
    if a = '*' ∧ b = '/' then some 2 else (commentLength (b :: cs)).map (· + 1)

/-- Length of the longest prefix that the rule matches. -/
def munch : LexRule → List Char → Option Nat
  | word _ w, cs => if sharedLength w cs = w.length then some w.length else none
  | literal, '"' :: cs =>
    let n := runLength isStringPart cs
    match cs.drop n with
    | '"' :: _ => some (n + 2)
    | _ => none
  | literal, cs =>
    match runLength isDigit cs with
    | 0 => none
    | n => some n
  | identifier, c :: cs => if isNameStart c then some (runLength isNamePart cs + 1) else none
  | blanks, c :: cs => if isBlank c then some (runLength isBlank cs + 1) else none
  | lineComment, '/' :: '/' :: cs => some (runLength isLinePart cs + 2)
  | blockComment, '/' :: '*' :: cs => (commentLength cs).map (· + 2)
  | _, _ => none

/-- Length of the longest prefix with which the rule could still go on. -/
def progress : LexRule → List Char → Nat
  | word _ w, cs => sharedLength w cs
  | literal, '"' :: cs =>
    let n := runLength isStringPart cs
    match cs.drop n with
    | '"' :: _ => n + 2
    | _ => n + 1
  | literal, cs => runLength isDigit cs
  | identifier, c :: cs => if isNameStart c then runLength isNamePart cs + 1 else 0
  | blanks, cs => runLength isBlank cs
  | lineComment, '/' :: '/' :: cs => runLength isLinePart cs + 2
  | lineComment, '/' :: _ => 1
  | blockComment, '/' :: '*' :: cs => (commentLength cs).getD cs.length + 2
  | blockComment, '/' :: _ => 1
  | _, _ => 0

/-- All rules; of rules that match equally much, the earlier one names the token. -/
def all : List LexRule :=
  Terminal.words.filterMap (fun k => k.word?.map fun w => word k w.toList)
    ++ [literal, identifier, blanks, lineComment, blockComment]

/-- The class of the token that a match of the rule makes; blanks and comments make none. -/
def kind? : LexRule → Option Terminal
  | word k _ => some k
  | literal => some .literal
  | identifier => some .identifier
  | blanks | lineComment | blockComment => none

/-- The longest match of all rules together, with the earliest rule that has it. -/
def best (cs : List Char) : Option (LexRule × Nat) :=
  all.foldl
    (fun found r =>
      match r.munch cs, found with
      | none, _ => found
      | some n, none => some (r, n)
      | some n, some (_, m) => if m < n then some (r, n) else found)
    none

/-- The farthest that any rule could go on. -/
def farthest (cs : List Char) : Nat :=
  all.foldl (fun n r => max n (r.progress cs)) 0

end LexRule

end Scriptc
