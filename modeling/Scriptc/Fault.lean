import Scriptc.Text.Quote

/-!
# Scriptc: faults

Why a compilation stops short. A fault is not a finding about the program under compilation (those
are reports, and the work goes on after them): the step that meets it is given up, and what was done
so far stays. `Fault.message` is the wording shown to the user.
-/

namespace Scriptc

/-- What stands where a text was needed. -/
inductive Shape where
  | nothing | number | cells
  deriving DecidableEq, Repr, Inhabited

namespace Shape

def name : Shape → String
  | nothing => "NoneType"
  | number => "int"
  | cells => "tuple"

end Shape

/-- What a declared name stands for. -/
inductive SymbolKind where
  | variable | function | classDecl | other
  deriving DecidableEq, Repr, Inhabited

namespace SymbolKind

def name : SymbolKind → String
  | .variable => "VariableSymbol"
  | function => "FunctionSymbol"
  | classDecl => "ClassSymbol"
  | other => "Symbol"

end SymbolKind

inductive Fault where
  /-- The name of a type was asked for where there is no type. -/
  | noType
  /-- Something without a type was to be assigned. -/
  | noSourceType
  /-- An operand was read as text and is none. -/
  | notText (shape : Shape)
  /-- Something that is no variable was to be assigned to. -/
  | notVariable (kind : SymbolKind)
  /-- The fields of something that is no class were asked for. -/
  | notClass (kind : SymbolKind)
  /-- A program without a token has no last token. -/
  | emptyProgram
  /-- The cells of an array were looked up as if they were a name. -/
  | cellsAsKey
  /-- A text was read as a number and is none. -/
  | badNumeral (base : Nat) (text : String)
  /-- A place in a frame was written as an absolute address. -/
  | frameAddress
  /-- A name was declared twice in one scope. -/
  | duplicate (name : String)
  /-- The base of a member access is no operand. -/
  | badBase (text : String)
  | noLayout (cls : String)
  | noField (cls field : String)
  /-- The base of a load or store of a member is missing. -/
  | missingBase (cls field : String)
  | undefinedLayout (cls : String)
  /-- A chain of parent classes leads back into itself. -/
  | endlessChain
  /-- A text that must be ASCII has another character. -/
  | notAscii
  /-- What went wrong with a tree that the parser has mended; only the parser's runtime can say. -/
  | unforeseen (message : String)
  deriving DecidableEq, Repr, Inhabited

namespace Fault

def message : Fault → String
  | noType => "'NoneType' object has no attribute 'name'"
  | noSourceType => "'NoneType' object has no attribute 'can_assign_to'"
  | notText s => "'" ++ s.name ++ "' object has no attribute 'startswith'"
  | notVariable k => "'" ++ k.name ++ "' object has no attribute 'is_const'"
  | notClass k => "'" ++ k.name ++ "' object has no attribute 'attributes'"
  | emptyProgram => "'NoneType' object has no attribute 'line'"
  | cellsAsKey => "unhashable type: 'list'"
  | badNumeral b t => "invalid literal for int() with base " ++ toString b ++ ": " ++ Quote.quote t
  | frameAddress => "Unknown format code 'X' for object of type 'str'"
  | duplicate n => "Symbol '" ++ n ++ "' ya existe en el scope"
  | badBase t => "property_address: base_temp inválido '" ++ t ++ "'"
  | noLayout c => "Layout de clase '" ++ c ++ "' no existe"
  | noField c m => "Atributo '" ++ m ++ "' no existe en clase '" ++ c ++ "'"
  | missingBase c m => "Base temporal inválida para " ++ c ++ "." ++ m
  | undefinedLayout c => "Layout de clase '" ++ c ++ "' no definido"
  | endlessChain => "maximum recursion depth exceeded"
  | notAscii => "ordinal not in range(128)"
  | unforeseen m => m

end Fault

end Scriptc
