import Scriptc.Grammar

/-!
# Scriptc: parse trees

A parse tree has the tokens of the text at its leaves and a rule at every inner node. Its view is
`Tree.tokens`, the leaves from left to right. `Tree.label` tells the alternatives of a rule apart
where the grammar names them, and `Tree.preorder` lists all rule nodes from the root down, each with
the node above it.
-/

namespace Scriptc

inductive Tree where
  | leaf (t : Token)
  | node (r : Rule) (children : List Tree)
  deriving Repr, Inhabited

namespace Tree

mutual

/-- The leaves from left to right. -/
def tokens : Tree → List Token
  | leaf t => [t]
  | node _ ts => tokensAll ts

def tokensAll : List Tree → List Token
  | [] => []
  | t :: ts => t.tokens ++ tokensAll ts

end

/-- The token a tree begins with. -/
def first? (t : Tree) : Option Token := t.tokens.head?

/-- The last token that stands for a piece of the text, so the end mark does not count. -/
def last? (t : Tree) : Option Token :=
  (t.tokens.filter (fun k => k.kind ≠ .eof)).getLast?

/-- The line a tree begins on. -/
def line (t : Tree) : Nat := (t.first?.map Token.line).getD 0

/-- The texts of the leaves, written without blanks. -/
def text (t : Tree) : String := String.join (t.tokens.map Token.text)

def children : Tree → List Tree
  | leaf _ => []
  | node _ ts => ts

/-- The name of a rule with a capital letter in front. -/
def capitalised (s : String) : String :=
  match s.toList with
  | [] => ""
  | c :: cs => String.ofList (c.toUpper :: cs)

/-- The name of the alternative that a node takes, or of its rule where alternatives have none. -/
def label : Tree → String
  | leaf t => t.kind.name
  | node .assignmentExpr (_ :: leaf ⟨.assign, _, _, _⟩ :: _) => "AssignExpr"
  | node .assignmentExpr (_ :: leaf ⟨.dot, _, _, _⟩ :: _) => "PropertyAssignExpr"
  | node .assignmentExpr _ => "ExprNoAssign"
  | node .conditionalExpr _ => "TernaryExpr"
  | node .primaryAtom (leaf ⟨.kwNew, _, _, _⟩ :: _) => "NewExpr"
  | node .primaryAtom (leaf ⟨.kwThis, _, _, _⟩ :: _) => "ThisExpr"
  | node .primaryAtom _ => "IdentifierExpr"
  | node .suffixOp (leaf ⟨.lparen, _, _, _⟩ :: _) => "CallExpr"
  | node .suffixOp (leaf ⟨.lbrack, _, _, _⟩ :: _) => "IndexExpr"
  | node .suffixOp _ => "PropertyAccessExpr"
  | node r _ => capitalised r.name

/-- The name under which a child is counted in its parent. -/
def memberName : Tree → String
  | leaf t => t.kind.name
  | node .type _ => "type_"
  | node r _ => r.name

mutual

/-- The rule nodes of a tree from the root down and from left to right, each with its parent. -/
def preorder (parent : Option Tree) : Tree → List (Tree × Option Tree)
  | leaf _ => []
  | node r ts => (node r ts, parent) :: preorderAll (node r ts) ts

def preorderAll (parent : Tree) : List Tree → List (Tree × Option Tree)
  | [] => []
  | t :: ts => preorder (some parent) t ++ preorderAll parent ts

end

/-- Sorts by code points. -/
def sortTexts (xs : List String) : List String := xs.mergeSort (fun a b => !(b < a))

/-- How often each kind of child occurs, by name. -/
def memberCounts (t : Tree) : List (String × Nat) :=
  let names := t.children.map memberName
  (sortTexts names.eraseDups).map fun n => (n, names.count n)

end Tree

end Scriptc
