import Scriptc.Assoc
import Scriptc.Ty

/-!
# Scriptc: symbols

What a declared name stands for: a variable, a function, a class, or something of another category.
Classes speak of their members and of their parent by number, the place of a symbol in the
`SymbolTable` that keeps it.
-/

namespace Scriptc

/-- The place of a symbol among all symbols ever declared. -/
abbrev SymbolId := Nat

structure Variable where
  type? : Option Ty
  const : Bool := false
  /-- No type was written, so the first value that is assigned fixes it. -/
  inferred : Bool := false
  deriving Repr, Inhabited

structure Function where
  result? : Option Ty
  params : List (String × Option Ty) := []
  /-- How many local variables are counted. -/
  locals : Nat := 0
  /-- The types of the values returned so far. -/
  returns : List (Option Ty) := []
  deriving Repr, Inhabited

structure Class where
  parent? : Option SymbolId := none
  attributes : Assoc String SymbolId := []
  methods : Assoc String SymbolId := []
  deriving Repr, Inhabited

inductive SymbolBody where
  | variable (v : Variable)
  | function (f : Function)
  | classDecl (c : Class)
  | other (category : String) (type? : Option Ty)
  deriving Repr, Inhabited

structure Symbol where
  name : String
  /-- The number of the scope that holds the symbol. -/
  scope : Nat
  body : SymbolBody
  deriving Repr, Inhabited

namespace Symbol

def kind (s : Symbol) : SymbolKind :=
  match s.body with
  | .variable _ => .variable
  | .function _ => .function
  | .classDecl _ => .classDecl
  | .other _ _ => .other

/-- The type of a value of that name: a function's result, and none for a class. -/
def type? (s : Symbol) : Option Ty :=
  match s.body with
  | .variable v => v.type?
  | .function f => f.result?
  | .classDecl _ => none
  | .other _ t => t

def asVariable? (s : Symbol) : Option Variable :=
  match s.body with
  | .variable v => some v
  | _ => none

def asFunction? (s : Symbol) : Option Function :=
  match s.body with
  | .function f => some f
  | _ => none

def asClass? (s : Symbol) : Option Class :=
  match s.body with
  | .classDecl c => some c
  | _ => none

/-- The category of a symbol in lower case. -/
def category (s : Symbol) : String :=
  match s.body with
  | .variable _ => "variable"
  | .function _ => "function"
  | .classDecl _ => "class"
  | .other c _ => c

/-- A capital letter in front, small letters behind. -/
def capitalise (s : String) : String :=
  match s.toList with
  | [] => ""
  | c :: cs => String.ofList (c.toUpper :: cs.map Char.toLower)

/-- The parameters of a function as written in its description. -/
def paramTexts (ps : List (String × Option Ty)) : Except Fault (List String) :=
  ps.mapM fun p => do return p.1 ++ ": " ++ (← Ty.nameOf p.2)

/-- The text that describes a symbol by itself; a class is described as one without members. Every
parameter of a function needs a type to be described. -/
def describe (s : Symbol) : Except Fault String :=
  match s.body with
  | .variable v =>
    return "Var: " ++ s.name ++ (if v.const then " (const)" else "")
      ++ (if v.inferred then " (inferred)" else "")
      ++ " | Type: " ++ (v.type?.map Ty.name).getD "?" ++ " | Scope: " ++ toString s.scope
  | .function f => do
    let ps ← paramTexts f.params
    return "Func: " ++ s.name ++ "(" ++ ", ".intercalate ps ++ ") -> "
      ++ (f.result?.map Ty.name).getD "void" ++ " | Scope: " ++ toString s.scope
      ++ " | Params: " ++ toString f.params.length ++ " | Locals: " ++ toString f.locals
  | .classDecl _ =>
    return "Class: " ++ s.name ++ " | Scope: " ++ toString s.scope
      ++ "\nAttributes:\n  - (no attributes)\nMethods:\n  - (no methods)"
  | .other c t =>
    return capitalise c ++ " " ++ s.name ++ ": " ++ (t.map Ty.name).getD "?"
      ++ ", scope: " ++ toString s.scope

end Symbol

end Scriptc
