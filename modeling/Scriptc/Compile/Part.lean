import Scriptc.Ast.OfTree
import Scriptc.Compile.Stmt
import Scriptc.Source

/-!
# Scriptc: parts of a program

Any node of a parse tree can be read by itself, against the names and the code there are so far.
`Part.ofTree` says what a node stands for when it is read alone, and `Compile.part` reads it. A call
or an index alone goes by the name that its access begins with.
-/

namespace Scriptc

inductive Part where
  | expr (e : Expr)
  /-- A statement as an item of a list of statements. -/
  | item (s : Stmt)
  | stmt (s : Stmt)
  | program (p : Program)
  | name (line : Nat) (id : String)
  | this (line : Nat)
  /-- The class and the brackets of an instance, which are nothing without the object. -/
  | new (args : List Expr)
  | call (line : Nat) (function : String) (args : List Expr)
  | index (line : Nat) (array : String) (at_ : Expr)
  | arguments (es : List Expr)
  /-- A node that only other nodes give a meaning to. -/
  | nothing

namespace Part

/-- The text of the atom of an access. -/
def atomText : Tree → String
  | .node .leftHandSide (a :: _) => a.text
  | _ => ""

def ofAtom : Atom → Part
  | .name line id => name line id
  | .this line => this line
  | .new _ _ args _ => new args

def ofSuffix (base : String) : Suffix → Part
  | .call line args => call line base args
  | .index line e => index line base e
  | .member _ _ => nothing

/-- What a node stands for. The node above it tells the beginning of an access. -/
def ofTree (parent? : Option Tree) (t : Tree) : Part :=
  let get (p? : Option Part) : Part := p?.getD nothing
  match t with
  | .node .program _ => get ((Program.ofTree? t).map program)
  | .node .statement _ => get ((Stmt.ofTree? t).map item)
  | .node .classMember [d] => get ((Stmt.ofTree? d).map stmt)
  | .node .primaryAtom _ => get ((Atom.ofTree? t).map ofAtom)
  | .node .suffixOp _ => get ((Suffix.ofTree? t).map (ofSuffix ((parent?.map atomText).getD "")))
  | .node .arguments ts => get ((Expr.ofTrees? ts).map arguments)
  | .node .initializer [_, e] => get ((Expr.ofTree? e).map expr)
  | t => get (((Stmt.ofTree? t).map stmt).or ((Expr.ofTree? t).map expr))

end Part

namespace Compile

open Build (error isClean)

/-- A name that is read alone has its declared type, whatever it is declared as. -/
def loneName (line : Nat) (id : String) : BuildM (Option Ty) := do
  match ← Build.lookup? id with
  | none =>
    error line ("Identificador '" ++ id ++ "' no declarado")
    return some .error
  | some s =>
    if s.category = "variable" then discard (Emit.variableValue id)
    return s.type?

/-- Operands of arguments that have one. -/
def presentOperands : List Expr → BuildM (List (Option Ty) × List Operand)
  | [] => return ([], [])
  | e :: es => do
    let t ← expr e
    let v ← value
    let (ts, vs) ← presentOperands es
    return (t :: ts, if v.isPresent then v :: vs else vs)

/-- A call of the function of that name. -/
def loneCall (line : Nat) (id : String) (args : List Expr) : BuildM (Option Ty) := do
  match ← Build.lookup? id with
  | none =>
    error line ("Función '" ++ id ++ "' no declarada")
    return some .error
  | some s =>
    match s.asFunction? with
    | none =>
      error line ("'" ++ id ++ "' no es una función")
      return some .error
    | some f =>
      let (types, operands) ← presentOperands args
      if types.length ≠ f.params.length then
        error line ("Función '" ++ id ++ "' espera " ++ toString f.params.length
          ++ " argumentos, pero recibió " ++ toString types.length)
        return f.result?
      Check.arguments line (fun i expected found =>
        "Argumento " ++ toString i ++ " de función '" ++ id ++ "': esperado " ++ expected
          ++ ", encontrado " ++ found) 1 f.params types
      if ← isClean then Emit.setValue (← Emit.call id operands)
      return f.result?

/-- An element of the array of that name. -/
def loneIndex (line : Nat) (id : String) (at_ : Expr) : BuildM (Option Ty) := do
  match ← arrayNamed line id with
  | none => return some .error
  | some e =>
    match ← indexOperand? line (← expr at_) with
    | none => return some .error
    | some i =>
      if ← isClean then Emit.setValue (← Emit.loadFromArray id i)
      return some e

/-- The type of the last of some expressions that are read in turn. -/
def lastOf (type? : Option Ty) : List Expr → BuildM (Option Ty)
  | [] => return type?
  | e :: es => do lastOf (← expr e) es

/-- Reads a part of a program; the result is its type, if it has one. -/
def part : Part → BuildM (Option Ty)
  | .expr e => expr e
  | .item s => do
    let _ ← Check.unreachable s.line "statement"
    statement s
  | .stmt s => statement s
  | .program p => do
    program p
    return none
  | .name line id => loneName line id
  | .this line => do return ((← this line).elim (some .error) Target.type?)
  | .new args => do
    discard (arguments args)
    return none
  | .call line id args => loneCall line id args
  | .index line id e => loneIndex line id e
  | .arguments es => lastOf none es
  | .nothing => return none

end Compile

namespace Source

/-- The parts of a source text whose nodes have a given label, from the root down. -/
def parts (s : Source) (label : String) : List Part :=
  ((s.tree.preorder none).filter fun e => e.1.label = label).map fun (t, parent?) =>
    Part.ofTree parent? t

end Source

end Scriptc
