/-!
# Scriptc: abstract programs

What a program says, without its punctuation. Nodes keep the line on which they begin, because
reports name lines.

* `Expr`: expressions. A chain holds a run of operators of one precedence level, in source order, so
  `a - b + c` is one chain. Parentheses stay as `group`.
* `Access`: an atom with its suffixes, `a.b(1)[2]`.
* `Stmt`: statements. A body is the list of its statements.
-/

namespace Scriptc

/-- The precedence levels of binary operators, loosest first. -/
inductive Level where
  | or | and | equality | relational | additive | multiplicative
  deriving DecidableEq, Repr

inductive Literal where
  | null
  | bool (b : Bool)
  /-- A number or a string with its quotes, as written. -/
  | plain (text : String)
  deriving DecidableEq, Repr

mutual

inductive Expr where
  | assign (target : Access) (value : Expr)
  | ternary (condition yes no : Expr)
  | chain (level : Level) (first : Expr) (rest : List (String × Expr))
  | not (line : Nat) (operand : Expr)
  | negate (line : Nat) (operand : Expr)
  | literal (line : Nat) (value : Literal)
  | array (line : Nat) (elements : List Expr)
  | group (line : Nat) (inner : Expr)
  | access (a : Access)

/-- An atom and what is done to it, from left to right. -/
inductive Access where
  | mk (atom : Atom) (suffixes : List Suffix)

inductive Atom where
  | name (line : Nat) (id : String)
  /-- An instance of a class; the text is the whole atom, written without blanks. -/
  | new (line : Nat) (cls : String) (args : List Expr) (text : String)
  | this (line : Nat)

inductive Suffix where
  | call (line : Nat) (args : List Expr)
  | index (line : Nat) (at_ : Expr)
  | member (line : Nat) (id : String)

end

namespace Atom

def line : Atom → Nat
  | name l _ | new l _ _ _ | this l => l

def text : Atom → String
  | name _ id => id
  | new _ _ _ t => t
  | this _ => "this"

end Atom

namespace Access

def atom : Access → Atom
  | mk a _ => a

def suffixes : Access → List Suffix
  | mk _ ss => ss

end Access

namespace Expr

/-- The line on which an expression begins. -/
def line : Expr → Nat
  | assign t _ => t.atom.line
  | ternary c _ _ => c.line
  | chain _ e _ => e.line
  | not l _ | negate l _ | literal l _ | array l _ | group l _ => l
  | access a => a.atom.line

end Expr

structure Param where
  line : Nat
  name : String
  type? : Option String
  deriving DecidableEq, Repr

/-- The head of a function or method. -/
structure Signature where
  line : Nat
  name : String
  params : List Param
  result? : Option String
  deriving DecidableEq, Repr

structure VarDecl where
  line : Nat
  name : String
  type? : Option String
  init? : Option Expr

structure ConstDecl where
  line : Nat
  name : String
  type? : Option String
  value : Expr

inductive Assignment where
  | toName (line : Nat) (name : String) (value : Expr)
  | toMember (base : Expr) (member : String) (value : Expr)

namespace Assignment

def line : Assignment → Nat
  | toName l _ _ => l
  | toMember b _ _ => b.line

end Assignment

/-- What a counting loop does first. -/
inductive LoopInit where
  | nothing
  | declare (d : VarDecl)
  | assign (a : Assignment)

mutual

inductive Stmt where
  | declare (d : VarDecl)
  | constant (d : ConstDecl)
  | assign (a : Assignment)
  | function (sig : Signature) (body : List Stmt)
  | classDecl (line : Nat) (name : String) (parent? : Option String) (members : List Member)
  | expr (e : Expr)
  | print (line : Nat) (value : Expr)
  | block (line : Nat) (body : List Stmt)
  | ifElse (line : Nat) (condition : Expr) (yes : List Stmt) (no? : Option (List Stmt))
  | whileLoop (line : Nat) (condition : Expr) (body : List Stmt)
  | doWhile (line : Nat) (body : List Stmt) (condition : Expr)
  | forLoop (line : Nat) (init : LoopInit) (condition? update? : Option Expr) (body : List Stmt)
  | forEach (line : Nat) (name : String) (items : Expr) (body : List Stmt)
  | tryCatch (line : Nat) (body handler : List Stmt)
  | switch (line : Nat) (subject : Expr) (cases : List Case) (default? : Option (List Stmt))
  | breakLoop (line : Nat)
  | continueLoop (line : Nat)
  | returnValue (line : Nat) (value? : Option Expr)

inductive Member where
  | method (sig : Signature) (body : List Stmt)
  | field (d : VarDecl)
  | constant (d : ConstDecl)

inductive Case where
  | mk (value : Expr) (body : List Stmt)

end

namespace Stmt

/-- The line on which a statement begins. -/
def line : Stmt → Nat
  | declare d => d.line
  | constant d => d.line
  | assign a => a.line
  | function s _ => s.line
  | expr e => e.line
  | classDecl l _ _ _ | print l _ | block l _ | ifElse l _ _ _ | whileLoop l _ _ | doWhile l _ _
  | forLoop l _ _ _ _ | forEach l _ _ _ | tryCatch l _ _ | switch l _ _ _ | breakLoop l
  | continueLoop l | returnValue l _ => l

end Stmt

/-- A program is its statements. -/
abbrev Program := List Stmt

end Scriptc
