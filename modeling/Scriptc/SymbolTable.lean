import Scriptc.Symbol

/-!
# Scriptc: symbol tables

Scopes and the symbols in them. Every scope ever entered is kept under its number, and the scopes
that are open form a stack, of which the last one is never left.

* `lookup?` finds the innermost open declaration of a name.
* `member?` finds a member of a class, in the class itself and then in its parents, attributes
  before methods. A parent is declared before its children, so the walk goes down in number and
  ends.
-/

namespace Scriptc

structure Scope where
  id : Nat
  kind : String
  parent? : Option Nat
  entries : Assoc String SymbolId := []
  deriving Repr, Inhabited

/-- The stack of open scopes. There is always one. -/
structure OpenScopes where
  innermost : Nat := 0
  /-- The scopes around the innermost one, from the inside out. -/
  around : List Nat := []
  deriving Repr, Inhabited

structure SymbolTable where
  symbols : Array Symbol := #[]
  scopes : Array Scope := #[⟨0, "global", none, []⟩]
  /-- The number of the next scope. -/
  nextId : Nat := 1
  stack : OpenScopes := {}
  deriving Repr, Inhabited

namespace SymbolTable

/-- The number of the innermost open scope. -/
def currentId (t : SymbolTable) : Nat := t.stack.innermost

def current (t : SymbolTable) : Scope := t.scopes.getD t.currentId default

/-- The open scopes from the inside out. -/
def openIds (t : SymbolTable) : List Nat := t.currentId :: t.stack.around

/-- Opens a new scope. -/
def enter (t : SymbolTable) (kind : String) : SymbolTable :=
  { t with
    scopes := t.scopes.push ⟨t.nextId, kind, some t.currentId, []⟩
    nextId := t.nextId + 1
    stack := ⟨t.nextId, t.openIds⟩ }

/-- Leaves the innermost scope, unless it is the only one; gives the number of the scope left. -/
def exit (t : SymbolTable) : Option Nat × SymbolTable :=
  match t.stack.around with
  | [] => (none, t)
  | id :: rest => (some t.currentId, { t with stack := ⟨id, rest⟩ })

def symbol? (t : SymbolTable) (id : SymbolId) : Option Symbol := t.symbols[id]?

def modifySymbol (t : SymbolTable) (id : SymbolId) (f : Symbol → Symbol) : SymbolTable :=
  { t with symbols := t.symbols.modify id f }

/-- Keeps a symbol without declaring it in a scope. -/
def keep (t : SymbolTable) (s : Symbol) : SymbolId × SymbolTable :=
  (t.symbols.size, { t with symbols := t.symbols.push s })

/-- Declares a kept symbol in the innermost scope. A name can be declared once in a scope. -/
def declare (t : SymbolTable) (id : SymbolId) : Except Fault SymbolTable :=
  match t.symbol? id with
  | none => return t
  | some s =>
    if t.current.entries.contains s.name then throw (.duplicate s.name)
    else
      return { t with
        symbols := t.symbols.modify id ({ · with scope := t.currentId })
        scopes := t.scopes.modify t.currentId fun c =>
          { c with entries := c.entries.put s.name id } }

/-- Keeps a symbol and declares it in the innermost scope. -/
def add (t : SymbolTable) (s : Symbol) : Except Fault (SymbolId × SymbolTable) := do
  let (id, t) := t.keep s
  return (id, ← t.declare id)

/-- Keeps symbols, and gives their numbers under their names. Of two of one name the last counts. -/
def keepAll (t : SymbolTable) (ss : List Symbol) : Assoc String SymbolId × SymbolTable :=
  ss.foldl (fun (ids, t) s => let (id, t) := t.keep s; (ids.put s.name id, t)) ([], t)

/-- The declaration of a name in one scope. -/
def findIn? (t : SymbolTable) (scope : Nat) (name : String) : Option SymbolId :=
  t.scopes[scope]?.bind (·.entries.get? name)

/-- The declaration of a name in the innermost scope. -/
def lookupCurrent? (t : SymbolTable) (name : String) : Option SymbolId :=
  t.findIn? t.currentId name

/-- The innermost open declaration of a name. -/
def lookup? (t : SymbolTable) (name : String) : Option SymbolId :=
  t.openIds.findSome? (t.findIn? · name)

def lookupSymbol? (t : SymbolTable) (name : String) : Option Symbol :=
  (t.lookup? name).bind t.symbol?

/-- Declares a class with its members in the innermost scope. -/
def addClass (t : SymbolTable) (name : String) (parent? : Option String)
    (attributes methods : List Symbol) : Except Fault (SymbolId × SymbolTable) :=
  let parent? := parent?.bind t.lookup?
  let (attributes, t) := t.keepAll attributes
  let (methods, t) := t.keepAll methods
  t.add ⟨name, 0, .classDecl ⟨parent?, attributes, methods⟩⟩

def class? (t : SymbolTable) (id : SymbolId) : Option Class :=
  (t.symbol? id).bind Symbol.asClass?

/-- The member that a class itself declares: an attribute, else a method. -/
def ownMember? (c : Class) (member : String) : Option SymbolId :=
  (c.attributes.get? member).or (c.methods.get? member)

/-- A member of a class or of its nearest parent that has it. -/
def memberOf? (t : SymbolTable) (member : String) (id : SymbolId) : Option SymbolId :=
  match t.class? id with
  | none => none
  | some c =>
    match ownMember? c member with
    | some m => some m
    | none =>
      match c.parent? with
      | none => none
      | some p => if _h : p < id then memberOf? t member p else none
termination_by id

/-- A member of the class of that name. -/
def member? (t : SymbolTable) (cls member : String) : Option SymbolId :=
  (t.lookup? cls).bind (t.memberOf? member)

/-- The first declaration of a name in any scope, in the order in which scopes were made. -/
def anywhere? (t : SymbolTable) (name : String) : Option SymbolId :=
  t.scopes.toList.findSome? (·.entries.get? name)

def describeMember (t : SymbolTable) (id : SymbolId) : Except Fault String :=
  match t.symbol? id with
  | none => return "  - "
  | some s => do return "  - " ++ (← s.describe)

/-- The members of a class, a line each, or a line that says there are none. -/
def describeMembers (t : SymbolTable) (none? : String) (ms : Assoc String SymbolId) :
    Except Fault String := do
  let lines ← ms.values.mapM t.describeMember
  return if lines.isEmpty then "  - (" ++ none? ++ ")" else "\n".intercalate lines

/-- The text that describes a symbol. A class is described with its members. -/
def describe (t : SymbolTable) (id : SymbolId) : Except Fault String :=
  match t.symbol? id with
  | none => return ""
  | some s =>
    match s.body with
    | .classDecl c => do
      let parent := (c.parent?.bind t.symbol?).map Symbol.name
      let attributes ← t.describeMembers "no attributes" c.attributes
      let methods ← t.describeMembers "no methods" c.methods
      return "Class: " ++ s.name ++ ((parent.map (" extends " ++ ·)).getD "")
        ++ " | Scope: " ++ toString s.scope
        ++ "\nAttributes:\n" ++ attributes ++ "\nMethods:\n" ++ methods
    | _ => s.describe

end SymbolTable

end Scriptc
