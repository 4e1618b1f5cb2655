import Scriptc.Ast
import Scriptc.Tree

/-!
# Scriptc: from trees to abstract programs

Every rule node has an abstract meaning. The functions here read it off; on a tree that no rule of
the grammar could make they answer `none`.
-/

namespace Scriptc

/-- The type that a `type` node names, as written without blanks. -/
def typeText? : Tree → Option String
  | .node .type ts => some (Tree.node .type ts).text
  | _ => none

namespace Literal

def ofToken? (t : Token) : Option Literal :=
  match t.kind with
  | .kwNull => some null
  | .kwTrue => some (bool true)
  | .kwFalse => some (bool false)
  | .literal => some (plain t.text)
  | _ => none

end Literal

namespace Level

/-- The level of the chains that a rule makes. -/
def ofRule? : Rule → Option Level
  | .logicalOrExpr => some or
  | .logicalAndExpr => some and
  | .equalityExpr => some equality
  | .relationalExpr => some relational
  | .additiveExpr => some additive
  | .multiplicativeExpr => some multiplicative
  | _ => none

end Level

mutual

def Expr.ofTree? : Tree → Option Expr
  | .leaf _ => none
  | .node .expression [t] => Expr.ofTree? t
  | .node .assignmentExpr [target, .leaf _, value] => do
    return .assign (← Access.ofTree? target) (← Expr.ofTree? value)
  | .node .assignmentExpr [t] => Expr.ofTree? t
  | .node .conditionalExpr [c, _, y, _, n] => do
    return .ternary (← Expr.ofTree? c) (← Expr.ofTree? y) (← Expr.ofTree? n)
  | .node .conditionalExpr [t] => Expr.ofTree? t
  | .node .unaryExpr [.leaf op, t] => do
    let e ← Expr.ofTree? t
    return if op.kind = .not then .not op.line e else .negate op.line e
  | .node .unaryExpr [t] => Expr.ofTree? t
  | .node .primaryExpr [.leaf open_, t, _] => do return .group open_.line (← Expr.ofTree? t)
  | .node .primaryExpr [t] => Expr.ofTree? t
  | .node .literalExpr [.leaf t] => do return .literal t.line (← Literal.ofToken? t)
  | .node .literalExpr [t] => Expr.ofTree? t
  | .node .arrayLiteral (.leaf open_ :: ts) => do return .array open_.line (← Expr.ofTrees? ts)
  | .node .leftHandSide (a :: ss) => do
    return .access (.mk (← Atom.ofTree? a) (← Suffix.ofTrees? ss))
  | .node r (t :: ts) => do
    let level ← Level.ofRule? r
    let first ← Expr.ofTree? t
    match ← Expr.operands? ts with
    | [] => return first
    | rest => return .chain level first rest
  | .node _ _ => none

/-- The expressions among the children of a node, separators left out. -/
def Expr.ofTrees? : List Tree → Option (List Expr)
  | [] => some []
  | .leaf _ :: ts => Expr.ofTrees? ts
  | t :: ts => do return (← Expr.ofTree? t) :: (← Expr.ofTrees? ts)

/-- Operators and their right operands, in turn. -/
def Expr.operands? : List Tree → Option (List (String × Expr))
  | [] => some []
  | .leaf op :: t :: ts => do return (op.text, ← Expr.ofTree? t) :: (← Expr.operands? ts)
  | _ => none

/-- The expressions of an optional argument list and the closing bracket behind it. -/
def Expr.arguments? : List Tree → Option (List Expr)
  | .node .arguments ts :: _ => Expr.ofTrees? ts
  | .leaf _ :: _ => some []
  | _ => none

def Access.ofTree? : Tree → Option Access
  | .node .leftHandSide (a :: ss) => do return .mk (← Atom.ofTree? a) (← Suffix.ofTrees? ss)
  | _ => none

def Atom.ofTree? : Tree → Option Atom
  | .node .primaryAtom [.leaf t] =>
    match t.kind with
    | .identifier => some (.name t.line t.text)
    | .kwThis => some (.this t.line)
    | _ => none
  | .node .primaryAtom (.leaf new :: .leaf cls :: .leaf open_ :: ts) => do
    let text := (Tree.node .primaryAtom (.leaf new :: .leaf cls :: .leaf open_ :: ts)).text
    return .new new.line cls.text (← Expr.arguments? ts) text
  | _ => none

def Suffix.ofTree? : Tree → Option Suffix
  | .node .suffixOp [.leaf open_, .node .arguments ts, .leaf _] => do
    return .call open_.line (← Expr.ofTrees? ts)
  | .node .suffixOp [.leaf open_, t, .leaf _] => do return .index open_.line (← Expr.ofTree? t)
  | .node .suffixOp [.leaf open_, .leaf t] =>
    match open_.kind with
    | .lparen => some (.call open_.line [])
    | .dot => some (.member open_.line t.text)
    | _ => none
  | _ => none

def Suffix.ofTrees? : List Tree → Option (List Suffix)
  | [] => some []
  | t :: ts => do return (← Suffix.ofTree? t) :: (← Suffix.ofTrees? ts)

end

namespace Param

def ofTree? : Tree → Option Param
  | .node .parameter [.leaf t] => some ⟨t.line, t.text, none⟩
  | .node .parameter [.leaf t, _, ty] => do return ⟨t.line, t.text, some (← typeText? ty)⟩
  | _ => none

/-- The parameters of a `parameters` node, separators left out. -/
def ofTrees? : List Tree → Option (List Param)
  | [] => some []
  | .leaf _ :: ts => ofTrees? ts
  | t :: ts => do return (← ofTree? t) :: (← ofTrees? ts)

end Param

/-- The first type annotation among the children of a declaration. -/
def annotation? : List Tree → Option String
  | [] => none
  | .node Rule.typeAnnotation [_, t] :: _ => typeText? t
  | _ :: ts => annotation? ts

/-- The value of the first initialiser among the children of a declaration: none if there is no
initialiser. -/
def initializer? : List Tree → Option (Option Expr)
  | [] => some none
  | .node .initializer [_, t] :: _ => (Expr.ofTree? t).map some
  | _ :: ts => initializer? ts

namespace VarDecl

def ofTree? : Tree → Option VarDecl
  | .node .variableDeclaration (.leaf kw :: .leaf id :: ts) => do
    return ⟨kw.line, id.text, annotation? ts, ← initializer? ts⟩
  | _ => none

end VarDecl

namespace ConstDecl

def ofTree? : Tree → Option ConstDecl
  | .node .constantDeclaration (.leaf kw :: .leaf id :: ts) => do
    let value ← match ts with
      | [.leaf _, e, _] => Expr.ofTree? e
      | [_, .leaf _, e, _] => Expr.ofTree? e
      | _ => none
    return ⟨kw.line, id.text, annotation? ts, value⟩
  | _ => none

end ConstDecl

namespace Assignment

def ofTree? : Tree → Option Assignment
  | .node .assignment [.leaf id, .leaf _, e, _] => do
    return .toName id.line id.text (← Expr.ofTree? e)
  | .node .assignment [b, .leaf _, .leaf id, .leaf _, e, _] => do
    return .toMember (← Expr.ofTree? b) id.text (← Expr.ofTree? e)
  | _ => none

end Assignment

namespace LoopInit

def ofTree? : Tree → Option LoopInit
  | .leaf _ => some .nothing
  | .node .variableDeclaration ts => do
    return .declare (← VarDecl.ofTree? (.node .variableDeclaration ts))
  | .node .assignment ts => do return .assign (← Assignment.ofTree? (.node .assignment ts))
  | .node _ _ => none

end LoopInit

/-- Condition and update of a counting loop, from the children between the first part and the body:
each of the two may be missing, and a separator stands between them. An expression that stands alone
is the condition, on whichever side of the separator it is. -/
def loopParts? : List Tree → Option (Option Expr × Option Expr)
  | [.leaf _, .leaf _] => some (none, none)
  | [.leaf _, c, .leaf _] => do return (some (← Expr.ofTree? c), none)
  | [c, .leaf _, .leaf _] => do return (some (← Expr.ofTree? c), none)
  | [c, .leaf _, u, .leaf _] => do return (some (← Expr.ofTree? c), some (← Expr.ofTree? u))
  | _ => none

/-- The head of a function from the children before its body. -/
def Signature.ofTrees? : List Tree → Option Signature
  | .leaf kw :: .leaf id :: .leaf _ :: .node .parameters ps :: .leaf _ :: ts => do
    let result? ← match ts with
      | [] => some none
      | [_, t] => (typeText? t).map some
      | _ => none
    return ⟨kw.line, id.text, ← Param.ofTrees? ps, result?⟩
  | .leaf kw :: .leaf id :: .leaf _ :: .leaf _ :: ts => do
    let result? ← match ts with
      | [] => some none
      | [_, t] => (typeText? t).map some
      | _ => none
    return ⟨kw.line, id.text, [], result?⟩
  | _ => none

mutual

def Stmt.ofTree? : Tree → Option Stmt
  | .leaf _ => none
  | .node .statement [t] => Stmt.ofTree? t
  | .node .variableDeclaration ts => do
    return .declare (← VarDecl.ofTree? (.node .variableDeclaration ts))
  | .node .constantDeclaration ts => do
    return .constant (← ConstDecl.ofTree? (.node .constantDeclaration ts))
  | .node .assignment ts => do return .assign (← Assignment.ofTree? (.node .assignment ts))
  | .node .functionDeclaration ts => do
    return .function (← Signature.ofTrees? ts.dropLast) (← Stmt.lastBody? ts)
  | .node .classDeclaration (.leaf kw :: .leaf id :: .leaf _ :: .leaf parent :: .leaf _ :: ts) => do
    return .classDecl kw.line id.text (some parent.text) (← Member.ofTrees? ts)
  | .node .classDeclaration (.leaf kw :: .leaf id :: .leaf _ :: ts) => do
    return .classDecl kw.line id.text none (← Member.ofTrees? ts)
  | .node .expressionStatement [e, _] => do return .expr (← Expr.ofTree? e)
  | .node .printStatement [.leaf kw, _, e, _, _] => do return .print kw.line (← Expr.ofTree? e)
  | .node .block (.leaf open_ :: ts) => do return .block open_.line (← Stmt.ofTrees? ts)
  | .node .ifStatement [.leaf kw, _, c, _, y] => do
    return .ifElse kw.line (← Expr.ofTree? c) (← Stmt.body? y) none
  | .node .ifStatement [.leaf kw, _, c, _, y, _, n] => do
    return .ifElse kw.line (← Expr.ofTree? c) (← Stmt.body? y) (some (← Stmt.body? n))
  | .node .whileStatement [.leaf kw, _, c, _, b] => do
    return .whileLoop kw.line (← Expr.ofTree? c) (← Stmt.body? b)
  | .node .doWhileStatement [.leaf kw, b, _, _, c, _, _] => do
    return .doWhile kw.line (← Stmt.body? b) (← Expr.ofTree? c)
  | .node .forStatement (.leaf kw :: _ :: init :: ts) => do
    let (c, u) ← loopParts? ts.dropLast
    return .forLoop kw.line (← LoopInit.ofTree? init) c u (← Stmt.lastBody? ts)
  | .node .foreachStatement [.leaf kw, _, .leaf id, _, e, _, b] => do
    return .forEach kw.line id.text (← Expr.ofTree? e) (← Stmt.body? b)
  | .node .tryCatchStatement [.leaf kw, b, _, _, _, _, h] => do
    return .tryCatch kw.line (← Stmt.body? b) (← Stmt.body? h)
  | .node .switchStatement (.leaf kw :: _ :: e :: _ :: _ :: ts) => do
    return .switch kw.line (← Expr.ofTree? e) (← Case.ofTrees? ts) (← Stmt.default? ts)
  | .node .breakStatement (.leaf kw :: _) => some (.breakLoop kw.line)
  | .node .continueStatement (.leaf kw :: _) => some (.continueLoop kw.line)
  | .node .returnStatement [.leaf kw, .leaf _] => some (.returnValue kw.line none)
  | .node .returnStatement [.leaf kw, e, _] => do
    return .returnValue kw.line (some (← Expr.ofTree? e))
  | .node _ _ => none

/-- The statements among the children of a node, brackets left out. -/
def Stmt.ofTrees? : List Tree → Option (List Stmt)
  | [] => some []
  | .leaf _ :: ts => Stmt.ofTrees? ts
  | t :: ts => do return (← Stmt.ofTree? t) :: (← Stmt.ofTrees? ts)

/-- The statements of a `block` node. -/
def Stmt.body? : Tree → Option (List Stmt)
  | .node .block ts => Stmt.ofTrees? ts
  | _ => none

/-- The statements of the `block` that ends a list of children. -/
def Stmt.lastBody? : List Tree → Option (List Stmt)
  | [] => none
  | [t] => Stmt.body? t
  | _ :: ts => Stmt.lastBody? ts

/-- The statements of the `defaultCase` among the children of a node, if there is one. -/
def Stmt.default? : List Tree → Option (Option (List Stmt))
  | [] => some none
  | .node .defaultCase ts :: _ => (Stmt.ofTrees? ts).map some
  | _ :: ts => Stmt.default? ts

/-- The cases among the children of a `switchStatement` node. -/
def Case.ofTrees? : List Tree → Option (List Case)
  | [] => some []
  | .node .switchCase (.leaf _ :: e :: ss) :: ts => do
    return .mk (← Expr.ofTree? e) (← Stmt.ofTrees? ss) :: (← Case.ofTrees? ts)
  | _ :: ts => Case.ofTrees? ts

def Member.ofTrees? : List Tree → Option (List Member)
  | [] => some []
  | .node .classMember [.node .functionDeclaration fs] :: ts => do
    let m := Member.method (← Signature.ofTrees? fs.dropLast) (← Stmt.lastBody? fs)
    return m :: (← Member.ofTrees? ts)
  | .node .classMember [.node .variableDeclaration ds] :: ts => do
    let m := Member.field (← VarDecl.ofTree? (.node .variableDeclaration ds))
    return m :: (← Member.ofTrees? ts)
  | .node .classMember [.node .constantDeclaration ds] :: ts => do
    let m := Member.constant (← ConstDecl.ofTree? (.node .constantDeclaration ds))
    return m :: (← Member.ofTrees? ts)
  | .leaf _ :: ts => Member.ofTrees? ts
  | .node _ _ :: _ => none

end

/-- The program that a parse tree stands for. -/
def Program.ofTree? : Tree → Option Program
  | .node .program ts => Stmt.ofTrees? ts
  | _ => none

end Scriptc
