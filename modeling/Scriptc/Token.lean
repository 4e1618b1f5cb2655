/-!
# Scriptc: tokens

The terminal classes of the script language and the tokens that carry them. A token knows its text
and the place of its first character: lines count from one, columns from zero in code points.

* `Terminal`: the classes a grammar rule can ask for, the end of the text included.
* `Terminal.word?`: the one spelling of a keyword or symbol; literals, identifiers and the end mark
  have none.
* `Terminal.name`: the name under which a class is reported.
-/

namespace Scriptc

/-- A class of tokens. -/
inductive Terminal where
  | kwConst | kwLet | kwVar | kwFunction | kwClass | kwPrint | kwIf | kwElse | kwWhile | kwDo
  | kwFor | kwForeach | kwIn | kwBreak | kwContinue | kwReturn | kwTry | kwCatch | kwSwitch
  | kwCase | kwDefault | kwNew | kwThis | kwNull | kwTrue | kwFalse | kwBoolean | kwInteger
  | kwString
  | assign | colon | semicolon | comma | dot | lparen | rparen | lbrace | rbrace | lbrack | rbrack
  | question | plus | minus | mult | div | mod | not | eq | neq | lt | le | gt | ge | and | or
  | literal | identifier
  | eof
  deriving DecidableEq, Repr, Inhabited

namespace Terminal

/-- The spelling of a class that has exactly one. -/
def word? : Terminal → Option String
  | kwConst => some "const" | kwLet => some "let" | kwVar => some "var"
  | kwFunction => some "function" | kwClass => some "class" | kwPrint => some "print"
  | kwIf => some "if" | kwElse => some "else" | kwWhile => some "while" | kwDo => some "do"
  | kwFor => some "for" | kwForeach => some "foreach" | kwIn => some "in"
  | kwBreak => some "break" | kwContinue => some "continue" | kwReturn => some "return"
  | kwTry => some "try" | kwCatch => some "catch" | kwSwitch => some "switch"
  | kwCase => some "case" | kwDefault => some "default" | kwNew => some "new"
  | kwThis => some "this" | kwNull => some "null" | kwTrue => some "true"
  | kwFalse => some "false" | kwBoolean => some "boolean" | kwInteger => some "integer"
  | kwString => some "string"
  | assign => some "=" | colon => some ":" | semicolon => some ";" | comma => some ","
  | dot => some "." | lparen => some "(" | rparen => some ")" | lbrace => some "\x7b"
  | rbrace => some "\x7d" | lbrack => some "[" | rbrack => some "]" | question => some "?"
  | plus => some "+" | minus => some "-" | mult => some "*" | div => some "/" | mod => some "%"
  | not => some "!" | eq => some "==" | neq => some "!=" | lt => some "<" | le => some "<="
  | gt => some ">" | ge => some ">=" | and => some "&&" | or => some "||"
  | literal | identifier | eof => none

/-- The name of a class, as grammar reports spell it. -/
def name : Terminal → String
  | kwConst => "CONST" | kwLet => "LET" | kwVar => "VAR" | kwFunction => "FUNCTION"
  | kwClass => "CLASS" | kwPrint => "PRINT" | kwIf => "IF" | kwElse => "ELSE"
  | kwWhile => "WHILE" | kwDo => "DO" | kwFor => "FOR" | kwForeach => "FOREACH" | kwIn => "IN"
  | kwBreak => "BREAK" | kwContinue => "CONTINUE" | kwReturn => "RETURN" | kwTry => "TRY"
  | kwCatch => "CATCH" | kwSwitch => "SWITCH" | kwCase => "CASE" | kwDefault => "DEFAULT"
  | kwNew => "NEW" | kwThis => "THIS" | kwNull => "NULL" | kwTrue => "TRUE"
  | kwFalse => "FALSE" | kwBoolean => "BOOLEAN" | kwInteger => "INTEGER" | kwString => "STRING"
  | assign => "ASSIGN" | colon => "COLON" | semicolon => "SEMICOLON" | comma => "COMMA"
  | dot => "DOT" | lparen => "LPAREN" | rparen => "RPAREN" | lbrace => "LBRACE"
  | rbrace => "RBRACE" | lbrack => "LBRACK" | rbrack => "RBRACK" | question => "QUESTION"
  | plus => "PLUS" | minus => "MINUS" | mult => "MULT" | div => "DIV" | mod => "MOD"
  | not => "NOT" | eq => "EQ" | neq => "NEQ" | lt => "LT" | le => "LE" | gt => "GT"
  | ge => "GE" | and => "AND" | or => "OR"
  | literal => "Literal" | identifier => "Identifier" | eof => "EOF"

/-- The name of a class in a token listing. The end mark is listed under the name of the last
lexical class, the block comment. -/
def listingName : Terminal → String
  | eof => "BLOCK_COMMENT"
  | k => k.name

/-- The classes with one spelling, in the order in which they are tried. -/
def words : List Terminal :=
  [kwConst, kwLet, kwVar, kwFunction, kwClass, kwPrint, kwIf, kwElse, kwWhile, kwDo, kwFor,
    kwForeach, kwIn, kwBreak, kwContinue, kwReturn, kwTry, kwCatch, kwSwitch, kwCase, kwDefault,
    kwNew, kwThis, kwNull, kwTrue, kwFalse, kwBoolean, kwInteger, kwString,
    assign, colon, semicolon, comma, dot, lparen, rparen, lbrace, rbrace, lbrack, rbrack,
    question, plus, minus, mult, div, mod, not, eq, neq, lt, le, gt, ge, and, or]

end Terminal

/-- A token of the source text. -/
structure Token where
  kind : Terminal
  text : String
  line : Nat
  column : Nat
  deriving DecidableEq, Repr, Inhabited

end Scriptc
