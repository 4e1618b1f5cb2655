import Scriptc.Operand

/-!
# Scriptc: quadruples

The instructions of the intermediate code: an operation, two arguments, a result and perhaps a
remark. `Op` names the operations that mean something to a later stage; others pass through.
-/

namespace Scriptc

inductive Op where
  | add | sub | mul | div | mod
  | copy | deref
  | lt | le | gt | ge | eq | ne
  | and | or | not | neg
  | load | store
  | label | goto | ifTrue | ifFalse
  | push | pop | call | ret | enter | leave | adjust
  | printInt | printStr
  | other (name : String)
  deriving DecidableEq, Repr, Inhabited

namespace Op

/-- How an operation is written. -/
def text : Op → String
  | add => "+" | sub => "-" | mul => "*" | div => "/" | mod => "%"
  | copy => "=" | deref => "@"
  | lt => "<" | le => "<=" | gt => ">" | ge => ">=" | eq => "==" | ne => "!="
  | and => "&&" | or => "||" | not => "!" | neg => "NEG"
  | load => "[]" | store => "[]="
  | label => "label" | goto => "goto" | ifTrue => "if" | ifFalse => "if_false"
  | push => "push" | pop => "pop" | call => "call" | ret => "return"
  | enter => "enter" | leave => "leave" | adjust => "add"
  | printInt => "print_int" | printStr => "print_str"
  | other n => n

/-- The operations with a name of their own. -/
def known : List Op :=
  [add, sub, mul, div, mod, copy, deref, lt, le, gt, ge, eq, ne, and, or, not, neg, load, store,
   label, goto, ifTrue, ifFalse, push, pop, call, ret, enter, leave, adjust, printInt, printStr]

/-- The operation that a text names. -/
def ofText (s : String) : Op := (known.find? (·.text == s)).getD (other s)

end Op

structure Quad where
  op : Op
  arg1 : Operand := .none
  arg2 : Operand := .none
  result : Operand := .none
  comment? : Option String := none
  deriving DecidableEq, Repr, Inhabited

namespace Quad

/-- How a quadruple is written; an empty remark is left out. -/
def render (q : Quad) : String :=
  let base := "(" ++ q.op.text ++ ", " ++ q.arg1.render ++ ", " ++ q.arg2.render ++ ", "
    ++ q.result.render ++ ")"
  match q.comment? with
  | none | some "" => base
  | some c => base ++ "  # " ++ c

end Quad

end Scriptc
