import Scriptc.Page.Session
import Scriptc.Text.Blank
import Scriptc.Text.Lines

/-!
# Scriptc: compilations from the page

A compilation can fail before it begins (`Obstacle`): the files of the reader are not there and
cannot be made. An attempt keeps what was printed and saved, however it ends, and the log file tells
it.
-/

namespace Scriptc

/-- Why a compilation does not come to its end. -/
inductive Obstacle where
  | noGrammar (path : String)
  | noGenerator
  | generatorFailed (run : ToolRun)
  | fault (f : Fault)

namespace ToolRun

/-- What the generator says about its failure. -/
def explanation (r : ToolRun) : String :=
  if r.complaints ≠ "" then Lines.normal r.complaints
  else if r.printed ≠ "" then Lines.normal r.printed
  else "Command '['antlr4', '-Dlanguage=Python3', 'Compiscript.g4', '-visitor', '-no-listener']' "
    ++ "returned non-zero exit status " ++ toString r.exit ++ "."

/-- What the log says about a run of the generator. -/
def log (r : ToolRun) : String :=
  "=== ANTLR4 ===\n" ++ Lines.normal r.printed ++ "\n" ++ Lines.normal r.complaints

end ToolRun

namespace Obstacle

def message : Obstacle → String
  | noGrammar p => "Error durante la compilación: No se encontró la gramática: " ++ p
  | noGenerator =>
    "Error durante la compilación: No se encontró el comando 'antlr4'. Instálalo o agrega al PATH."
  | generatorFailed r => "Error al ejecutar ANTLR4:\n" ++ r.explanation
  | fault f => "Error durante la compilación: " ++ f.message

end Obstacle

namespace Visit

def treePath (v : Visit) : String := v.directory ++ "/ast.json"

def grammarPath (v : Visit) : String := v.directory ++ "/Compiscript.g4"

/-- Makes the files of the reader if one of them is missing; the result is the log of that. -/
def prepare (v : Visit) : Except Obstacle String :=
  if v.missing.all (· = .grammar) then .ok ""
  else if v.missing.contains .grammar then .error (.noGrammar v.grammarPath)
  else match v.generator? with
    | none => .error .noGenerator
    | some r => if r.exit = 0 then .ok r.log else .error (.generatorFailed r)

end Visit

/-- How a compilation went. -/
structure Attempt where
  result : Except Obstacle Results
  /-- The log of what was done before it began. -/
  before : String := ""
  output : Output := {}

namespace Attempt

def start (mend : Mending) (v : Visit) (text : String) : Attempt :=
  match v.prepare with
  | .error o => { result := .error o }
  | .ok log =>
    match Run.start (Run.ofText mend text v.treePath) with
    | (.ok r, out) => ⟨.ok r, log, out⟩
    | (.error f, out) => ⟨.error (.fault f), log, out⟩

def log (a : Attempt) : String :=
  match a.result with
  | .ok _ => Blank.strip (a.before ++ "\n" ++ a.output.printed)
  | .error o => Blank.strip (a.output.printed ++ "\n" ++ o.message)

/-- The files after an attempt. A tree that was saved stays, whatever came after it. -/
def save (a : Attempt) (f : Folder) : Folder :=
  ⟨(a.output.tree?.map Doc.render).or f.tree?, some a.log⟩

end Attempt

namespace Results

def outcome (r : Results) : Outcome :=
  ⟨.texts r.errors, r.symbols, r.quads, .text r.assembly⟩

end Results

namespace Session

/-- A compilation that has failed: the results of the last one stay. -/
def failed (s : Session) (message : String) : Session :=
  { s with message, locked := false, compiled := false }

def succeeded (s : Session) (o : Outcome) : Session :=
  { s with
    outcome := o
    message := "Compilación finalizada. Revisa Árbol, Errores, Tabla de Símbolos, Mensajes, "
      ++ "Código Intermedio y Código ASM MIPS.."
    locked := true
    compiled := true }

end Session

namespace Page

/-- Compiles the program of the session. -/
def compile (mend : Mending) (v : Visit) (p : Page) : Page :=
  let text := Blank.strip p.session.code
  if !v.hasCompiler then
    { p with session := p.session.failed "Error: no pude importar proyecto/main.py" }
  else if text = "" then { p with session := p.session.failed "El editor está vacío." }
  else
    let a := Attempt.start mend v text
    let session := match a.result with
      | .ok r => p.session.succeeded r.outcome
      | .error o => p.session.failed o.message
    { p with session, folder := a.save p.folder }

end Page

end Scriptc
