import Scriptc.Report.Code
import Scriptc.Source
import Scriptc.Tree.Doc

/-!
# Scriptc: runs of the compiler

What the compiler prints and saves when it is run on a source text. There are two ways to run it:

* `Run.compile` lists the tokens, saves the parse tree, and prints the intermediate code and the
  assembly text; it gives its results to the caller.
* `Run.report` prints findings, symbols, intermediate code and the assembly text, and saves the
  latter. It takes ASCII texts only.

A run that ends in a fault has printed and saved what came before it.

A text that is no program does not stop a run. The parser's runtime reports it elsewhere, mends the
tree in its own way, and the run goes on with what it gets. That runtime is not described here: what
comes of such a text is a parameter (`Mending`), and nothing is assumed about it.
-/

namespace Scriptc

/-- What a run has printed and saved. -/
structure Output where
  printed : String := ""
  tree? : Option Doc := none
  assembly? : Option String := none

/-- A run of the compiler. -/
abbrev RunM := ExceptT Fault (StateM Output)

/-- The results of a run for the caller. -/
structure Results where
  tree : Doc
  errors : List String
  symbols : Doc
  quads : Doc
  /-- The assembly text, empty if there are errors. -/
  assembly : String

/-- What a run goes on with when a text has been parsed: the document of the tree, and what checking
the tree comes to. -/
structure Analysis where
  tree : Except Fault Doc
  built : Except Fault Unit × Build

/-- What the parser's runtime and the check make of tokens that are no program. -/
abbrev Mending := Scan → Analysis

namespace Source

/-- A tree without a token has no document. -/
def analysis (s : Source) : Analysis :=
  ⟨match s.tree.toDoc? with
    | some tree => .ok tree
    | none => .error .emptyProgram, s.build⟩

end Source

namespace Analysis

/-- The tokens of a text and what comes of them. -/
def ofText (mend : Mending) (text : String) : Scan × Analysis :=
  match Source.ofText text with
  | .ok s => (s.scan, s.analysis)
  | .error r => (r.scan, mend r.scan)

end Analysis

namespace Run

def start {α : Type} (run : RunM α) : Except Fault α × Output :=
  Id.run (StateT.run (ExceptT.run run) {})

/-- Prints a line. -/
def say (line : String) : RunM Unit :=
  modify fun o => { o with printed := o.printed ++ line ++ "\n" }

/-- Prints a text that ends its last line itself. -/
def print (text : String) : RunM Unit := modify fun o => { o with printed := o.printed ++ text }

def ofExcept {α : Type} (r : Except Fault α) : RunM α :=
  match r with
  | .ok a => pure a
  | .error f => throw f

/-- How the compiler is called. -/
def usage : String := "Uso: python main.py <archivo_entrada>"

/-- The tokens of a text, a line each. -/
def tokenListing (s : Scan) : String :=
  Build.unlines (s.tokens.map fun t => t.kind.listingName ++ " -> '" ++ t.text ++ "'")

/-- Checks a tree and prints what is printed on the way. -/
def build (a : Analysis) : RunM Build := do
  let (r, b) := a.built
  print b.log
  ofExcept r
  return b

/-- Prints the intermediate code and where the variables are. -/
def sayCode (b : Build) : RunM Unit := do
  say "\n"
  print b.quadListing
  say "\n"
  print b.memoryMap

def noErrors : String := "\nAnálisis semántico completado sin errores"

def assemblyTitle : String := "\n=== CÓDIGO MIPS GENERADO ===\n"

/-- Compiles a text that has been parsed; the parse tree is saved under the given path. -/
def compile (scan : Scan) (a : Analysis) (treePath : String) : RunM Results := do
  say "\nTokens encontrados:"
  print (tokenListing scan)
  let tree ← ofExcept a.tree
  modify fun o => { o with tree? := some tree }
  say ("Árbol sintáctico guardado en " ++ treePath)
  let b ← build a
  sayCode b
  if b.errors.isEmpty then say noErrors
  let assembly ← match b.assembly? with
    | none => pure ""
    | some r => do
      let text := (← ofExcept r).render
      say assemblyTitle
      say text
      pure text
  return ⟨tree, b.errors.toList, b.table.toDoc, .list (b.quads.toList.map Quad.toRecord), assembly⟩

/-- Compiles a text that need not be a program. -/
def ofText (mend : Mending) (text treePath : String) : RunM Results :=
  compile (Analysis.ofText mend text).1 (Analysis.ofText mend text).2 treePath

/-- Prints the symbols of every scope. -/
def saySymbols (t : SymbolTable) : RunM Unit :=
  t.scopes.toList.forM fun c => do
    say ("\nÁmbito " ++ toString c.id ++ " (" ++ c.kind ++ "):")
    c.entries.values.forM fun id => do say ("  " ++ (← ofExcept (t.describe id)))

/-- Whether all characters of a text are ASCII. -/
def isAscii (text : String) : Bool := text.toList.all (·.toNat < 128)

/-- Reports on a text; its assembly text is saved under the given path. -/
def report (mend : Mending) (text assemblyPath : String) : RunM Unit := do
  if !isAscii text then throw .notAscii
  let b ← build (Analysis.ofText mend text).2
  if b.errors.isEmpty then say noErrors
  else
    say "\n=== Errores encontrados ==="
    b.errors.toList.forM say
  if !b.warnings.isEmpty then
    say "\nWarnings"
    b.warnings.toList.forM say
  say "\n=== Tabla de Símbolos ==="
  saySymbols b.table
  sayCode b
  match b.assembly? with
  | none => return ()
  | some r =>
    say "\n=== GENERANDO CÓDIGO MIPS ===\n"
    let text := (← ofExcept r).render
    modify fun o => { o with assembly? := some text }
    say ("Código MIPS generado en: " ++ assemblyPath)
    say assemblyTitle
    say text

/-- The name of a file without its last ending. Dots in front belong to the name. -/
def stem (name : String) : String :=
  match (name.splitOn ".").reverse with
  | _ :: rest => if rest.all (· = "") then name else ".".intercalate rest.reverse
  | [] => name

/-- Where the report saves the assembly text of a file. -/
def assemblyPath (path : String) : String :=
  "test_asm/" ++ stem (((path.splitOn "/").getLast?).getD path) ++ ".asm"

end Run

end Scriptc
