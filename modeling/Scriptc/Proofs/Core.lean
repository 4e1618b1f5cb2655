import Scriptc.Ast
import Scriptc.Text.Decimal

/-!
# Scriptc: the meaning of structured programs

Programs made of integer and boolean variables, arithmetic, comparisons, logic, printing and
structured control flow have a meaning of their own, without any code: a statement takes a `World`,
the values of the variables and what has been printed, to a world and a `Signal` that says how it
was left.

* `Expr.isCore`, `Stmt.isCore`: the programs that are given a meaning here.
* `Core.eval`, `Core.exec`: the meaning of expressions and statements. Truth values are numbers:
  true is 1, false is 0, and any number but 0 counts as true. `&&` is its right operand where the
  left one is true, and `||` where the left one is false.
* A loop may go on for ever. `exec` is given the number of rounds that any one loop may take, and
  signals `timeout` when a loop needs more; a program ends if it does so for some number of rounds.

Variables are known by their names, so a name stands for one variable throughout.
-/

namespace Scriptc

/-- What the arithmetic operators compute. Nothing is asked of them, so division by zero and numbers
that do not fit a word may mean whatever a machine makes of them. -/
structure Arith where
  add : Int → Int → Int
  sub : Int → Int → Int
  mul : Int → Int → Int
  div : Int → Int → Int
  mod : Int → Int → Int

/-- A truth value as a number. -/
def truth (b : Bool) : Int := if b then 1 else 0

/-! ## The programs -/

/-- The operators of a level. -/
def Level.operators : Level → List String
  | .or => ["||"]
  | .and => ["&&"]
  | .equality => ["==", "!="]
  | .relational => ["<", "<=", ">", ">="]
  | .additive => ["+", "-"]
  | .multiplicative => ["*", "/", "%"]

/-- Truth values and numbers. -/
def Literal.isCore : Literal → Bool
  | .bool _ => true
  | .plain t => (Decimal.read? t.toList).isSome
  | .null => false

mutual

/-- Numbers, truth values, names and operators on them. -/
def Expr.isCore : Expr → Bool
  | .chain level first rest => first.isCore && Expr.restIsCore level rest
  | .not _ e | .group _ e => e.isCore
  | .literal _ l => l.isCore
  | .access (.mk (.name _ _) []) => true
  | _ => false

def Expr.restIsCore (level : Level) : List (String × Expr) → Bool
  | [] => true
  | (op, e) :: rest => level.operators.contains op && e.isCore && Expr.restIsCore level rest

end

/-- The types of variables. -/
def isCoreType (type? : Option String) : Bool :=
  [none, some "integer", some "boolean"].contains type?

def VarDecl.isCore (d : VarDecl) : Bool := isCoreType d.type? && d.init?.any Expr.isCore

def ConstDecl.isCore (d : ConstDecl) : Bool := isCoreType d.type? && d.value.isCore

def Assignment.isCore : Assignment → Bool
  | .toName _ _ e => e.isCore
  | .toMember _ _ _ => false

def LoopInit.isCore : LoopInit → Bool
  | .nothing => true
  | .declare d => d.isCore
  | .assign a => a.isCore

/-- What a counting loop does between its rounds: nothing, or an assignment. -/
def Expr.isUpdate : Option Expr → Bool
  | none => true
  | some (.assign (.mk (.name _ _) []) e) => e.isCore
  | _ => false

mutual

/-- Declarations with a value, assignments, printing and structured control flow. -/
def Stmt.isCore : Stmt → Bool
  | .declare d => d.isCore
  | .constant d => d.isCore
  | .assign a => a.isCore
  | .print _ e => e.isCore
  | .block _ body => Stmt.allCore body
  | .ifElse _ c yes none => c.isCore && Stmt.allCore yes
  | .ifElse _ c yes (some no) => c.isCore && Stmt.allCore yes && Stmt.allCore no
  | .whileLoop _ c body => c.isCore && Stmt.allCore body
  | .forLoop _ init (some c) u? body =>
    init.isCore && c.isCore && Expr.isUpdate u? && Stmt.allCore body
  | .switch _ subject cs none => subject.isCore && Case.allCore cs
  | .switch _ subject cs (some default_) =>
    subject.isCore && Case.allCore cs && Stmt.allCore default_
  | .breakLoop _ | .continueLoop _ => true
  | _ => false

def Stmt.allCore : List Stmt → Bool
  | [] => true
  | s :: ss => s.isCore && Stmt.allCore ss

def Case.allCore : List Case → Bool
  | [] => true
  | .mk e body :: rest => e.isCore && Stmt.allCore body && Case.allCore rest

end

def LoopInit.declared : LoopInit → List String
  | .declare d => [d.name]
  | _ => []

mutual

/-- The names that a statement declares, inside of it too. -/
def Stmt.declared : Stmt → List String
  | .declare d => [d.name]
  | .constant d => [d.name]
  | .block _ body => Stmt.declaredAll body
  | .ifElse _ _ yes none => Stmt.declaredAll yes
  | .ifElse _ _ yes (some no) => Stmt.declaredAll yes ++ Stmt.declaredAll no
  | .whileLoop _ _ body => Stmt.declaredAll body
  | .forLoop _ init _ _ body => init.declared ++ Stmt.declaredAll body
  | .switch _ _ cs none => Case.declaredAll cs
  | .switch _ _ cs (some default_) => Case.declaredAll cs ++ Stmt.declaredAll default_
  | _ => []

def Stmt.declaredAll : List Stmt → List String
  | [] => []
  | s :: ss => s.declared ++ Stmt.declaredAll ss

def Case.declaredAll : List Case → List String
  | [] => []
  | .mk _ body :: rest => Stmt.declaredAll body ++ Case.declaredAll rest

end

/-! ## Their meaning -/

namespace Core

/-- The values of the variables, and what has been printed. -/
structure World where
  store : String → Int := fun _ => 0
  output : List Int := []

/-- How a statement is left: at its end, on the way out of or to the next round of the nearest loop,
or in a loop that needs more rounds than there are. -/
inductive Signal where
  | normal
  | breaks
  | continues
  | timeout
  deriving DecidableEq, Repr

def World.set (w : World) (x : String) (v : Int) : World :=
  { w with store := fun y => if y = x then v else w.store y }

def World.print (w : World) (v : Int) : World := { w with output := w.output ++ [v] }

/-- What an operator computes. -/
def binary (A : Arith) : Level → String → Int → Int → Int
  | .additive, "+" => A.add
  | .additive, "-" => A.sub
  | .multiplicative, "*" => A.mul
  | .multiplicative, "/" => A.div
  | .multiplicative, "%" => A.mod
  | .equality, "==" => fun x y => truth (x = y)
  | .equality, "!=" => fun x y => truth (x ≠ y)
  | .relational, "<" => fun x y => truth (x < y)
  | .relational, "<=" => fun x y => truth (x ≤ y)
  | .relational, ">" => fun x y => truth (x > y)
  | .relational, ">=" => fun x y => truth (x ≥ y)
  | .and, "&&" => fun x y => if x = 0 then 0 else y
  | .or, "||" => fun x y => if x = 0 then y else 1
  | _, _ => fun x _ => x

def literal : Literal → Int
  | .bool b => truth b
  | .plain t => Decimal.value t.toList
  | .null => 0

mutual

/-- The value of an expression. -/
def eval (A : Arith) (σ : String → Int) : Expr → Int
  | .chain level first rest => evalRest A σ level (eval A σ first) rest
  | .not _ e => truth (eval A σ e = 0)
  | .group _ e => eval A σ e
  | .literal _ l => literal l
  | .access (.mk (.name _ x) []) => σ x
  | _ => 0

/-- The value of a chain that has come to `x`. -/
def evalRest (A : Arith) (σ : String → Int) (level : Level) (x : Int) : List (String × Expr) → Int
  | [] => x
  | (op, e) :: rest => evalRest A σ level (binary A level op x (eval A σ e)) rest

end

/-- The rounds of a loop, at most as many as there are left. -/
def rounds (test : World → Bool) (body : World → Signal × World) (update : World → World) :
    Nat → World → Signal × World
  | 0, w => (.timeout, w)
  | n + 1, w =>
    if test w then
      match body w with
      | (.normal, w') | (.continues, w') => rounds test body update n (update w')
      | (.breaks, w') => (.normal, w')
      | (.timeout, w') => (.timeout, w')
    else (.normal, w)

/-- One piece of a program and then another, which is reached only from the end of the first. -/
def andThen (f g : World → Signal × World) (w : World) : Signal × World :=
  match f w with
  | (.normal, w') => g w'
  | r => r

def initial (A : Arith) : LoopInit → World → World
  | .declare ⟨_, x, _, some e⟩, w | .assign (.toName _ x e), w => w.set x (eval A w.store e)
  | _, w => w

def update (A : Arith) : Option Expr → World → World
  | some (.assign (.mk (.name _ x) []) e), w => w.set x (eval A w.store e)
  | _, w => w

/-- Whether a condition holds. -/
def holds (A : Arith) (c : Expr) (w : World) : Bool := eval A w.store c ≠ 0

mutual

/-- The meaning of a statement, where a loop takes at most `fuel` rounds. -/
def exec (A : Arith) (fuel : Nat) : Stmt → World → Signal × World
  | .declare ⟨_, x, _, some e⟩, w => (.normal, w.set x (eval A w.store e))
  | .constant d, w => (.normal, w.set d.name (eval A w.store d.value))
  | .assign (.toName _ x e), w => (.normal, w.set x (eval A w.store e))
  | .print _ e, w => (.normal, w.print (eval A w.store e))
  | .block _ body, w => execAll A fuel body w
  | .ifElse _ c yes none, w => if holds A c w then execAll A fuel yes w else (.normal, w)
  | .ifElse _ c yes (some no), w =>
    if holds A c w then execAll A fuel yes w else execAll A fuel no w
  | .whileLoop _ c body, w => rounds (holds A c) (fun w => execAll A fuel body w) id fuel w
  | .forLoop _ init (some c) u? body, w =>
    rounds (holds A c) (fun w => execAll A fuel body w) (update A u?) fuel (initial A init w)
  | .switch _ subject cs none, w =>
    (execCases A fuel (eval A w.store subject) cs w).getD (.normal, w)
  | .switch _ subject cs (some default_), w =>
    (execCases A fuel (eval A w.store subject) cs w).getD (execAll A fuel default_ w)
  | .breakLoop _, w => (.breaks, w)
  | .continueLoop _, w => (.continues, w)
  | _, w => (.normal, w)

/-- Statements one after the other. -/
def execAll (A : Arith) (fuel : Nat) : List Stmt → World → Signal × World
  | [], w => (.normal, w)
  | s :: ss, w => andThen (exec A fuel s) (fun w => execAll A fuel ss w) w

/-- The body of the first case whose value is that of the subject, if there is one. -/
def execCases (A : Arith) (fuel : Nat) (subject : Int) : List Case → World → Option (Signal × World)
  | [], _ => none
  | .mk e body :: rest, w =>
    if eval A w.store e = subject then some (execAll A fuel body w)
    else execCases A fuel subject rest w

end

/-- A program that is run from the start ends in a world. -/
def Finishes (A : Arith) (p : Program) (w : World) : Prop :=
  ∃ fuel, execAll A fuel p {} = (.normal, w)

end Core

end Scriptc
