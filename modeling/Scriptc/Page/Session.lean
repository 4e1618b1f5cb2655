import Scriptc.Doc.Show
import Scriptc.Page.Element
import Scriptc.Run

/-!
# Scriptc: sessions of the page

The page lets a user edit a program, compile it and look at the results. It is shown anew at every
`Visit`. Between the visits live the `Session` and the files of the project (`Folder`).

`PageM` is the work of one visit. A visit that fails has shown what came before the failure, and the
session stays as it was left.
-/

namespace Scriptc

/-- The results of a compilation as the views show them. -/
structure Outcome where
  errors : Doc := .list []
  symbols : Doc := .list []
  quads : Doc := .list []
  assembly : Doc := .text ""

structure Session where
  /-- The title of the view that is shown. -/
  view? : Option String := some "Código"
  /-- After a compilation the editor is locked. -/
  locked : Bool := false
  code : String := ""
  /-- What the editor holds; there is no editor before the first visit. -/
  editor? : Option String := none
  message : String := "Carga un .cps o escribe código y presiona Compilar."
  uploadName? : Option String := none
  /-- Whether the last compilation came to its end. -/
  compiled : Bool := false
  outcome : Outcome := {}

/-- The files that compilations leave behind. -/
structure Folder where
  tree? : Option String := none
  log? : Option String := none

namespace Session

/-- What a session holds besides the results of a compilation. -/
def toDoc (s : Session) : Doc :=
  .record [("vista", Doc.ofOption .text s.view?), ("locked", .bool s.locked),
    ("output_text", .text s.message), ("upload_name", Doc.ofOption .text s.uploadName?),
    ("last_compile_ok", .bool s.compiled), ("code_input", .text s.code),
    ("editor_widget", Doc.ofOption .text s.editor?)]

/-- Sets what a session holds under a name. -/
def put (s : Session) (name : String) (d : Doc) : Session :=
  match name with
  | "vista" => { s with view? := d.text? }
  | "locked" => { s with locked := d.isTrue }
  | "output_text" => { s with message := d.show }
  | "upload_name" => { s with uploadName? := d.text? }
  | "last_compile_ok" => { s with compiled := d.isTrue }
  | "code_input" => { s with code := d.show }
  | "editor_widget" => { s with editor? := d.text? }
  | "last_errors" => { s with outcome := { s.outcome with errors := d } }
  | "symbols" => { s with outcome := { s.outcome with symbols := d } }
  | "quadruples" => { s with outcome := { s.outcome with quads := d } }
  | "mips_code" => { s with outcome := { s.outcome with assembly := d } }
  | _ => s

end Session

namespace Folder

/-- The names of the files that are there. -/
def names (f : Folder) : List String :=
  (if f.tree?.isSome then ["ast.json"] else []) ++ (if f.log?.isSome then ["log.txt"] else [])

end Folder

/-- Files that a compilation needs. -/
inductive ProjectFile where
  | lexer | parser | visitor | analyzer | grammar
  deriving DecidableEq, Repr

/-- How the parser generator has ended. -/
structure ToolRun where
  exit : Int
  printed : String
  complaints : String

structure Upload where
  name : String
  bytes : ByteArray

/-- What the user does in one visit, and what the machine has to offer. -/
structure Visit where
  directory : String
  missing : List ProjectFile := []
  /-- Whether the compiler itself can be loaded. -/
  hasCompiler : Bool := true
  /-- The parser generator, if it is installed. -/
  generator? : Option ToolRun := none
  upload? : Option Upload := none
  /-- The labels of the buttons that are pressed. -/
  pressed : List String := []
  /-- The view that is chosen, if one is; a choice may also be taken back. -/
  choice? : Option (Option String) := none
  /-- Whether views are chosen by segments. -/
  segmented : Bool := true
  /-- What is typed into the editor. -/
  edit? : Option String := none

/-- Why a visit fails. -/
inductive Failure where
  /-- The view of the session is none that can be chosen. -/
  | noView
  /-- The view of the session is not offered. -/
  | noOption
  | missingField (name : String)
  /-- A record was expected. -/
  | notRecord (kind : String)
  /-- Something with named fields was expected. -/
  | noFields (kind : String)
  /-- A list was expected. -/
  | notList (kind : String)
  /-- A file is no JSON text. -/
  | flaw (message : String)
  deriving DecidableEq, Repr

namespace Failure

def message : Failure → String
  | noView => "view is not in list"
  | noOption => "list index out of range"
  | missingField n => Quote.quote n
  | notRecord k => "'" ++ k ++ "' object is not subscriptable"
  | noFields k => "'" ++ k ++ "' object has no attribute 'get'"
  | notList k => "'" ++ k ++ "' object is not iterable"
  | flaw m => m

end Failure

/-- The page while it is shown. -/
structure Page where
  session : Session
  folder : Folder
  shown : Array Element := #[]

/-- A part of a visit. -/
abbrev PageM := ReaderT Visit (ExceptT Failure (StateM Page))

namespace Page

/-- Shows an element below all others. -/
def put (e : Element) : PageM Unit := modify fun p => { p with shown := p.shown.push e }

def putText (style : TextStyle) (s : String) : PageM Unit := put (.text style s)

/-- Shows elements inside of another. It is closed also if they fail. -/
def within (e : Element) (inner : PageM Unit) : PageM Unit := do
  put e
  try inner
  catch f =>
    put .close
    throw f
  put .close

def current : PageM Session := do return (← get).session

def setSession (f : Session → Session) : PageM Unit :=
  modify fun p => { p with session := f p.session }

/-- Shows a button; the result is whether it is pressed. -/
def button (label : String) (wide : Bool) : PageM Bool := do
  put (.button label wide)
  return (← read).pressed.contains label

/-- The elements of a document. -/
def elements (d : Doc) : PageM (List Doc) :=
  match d.elements? with
  | some ds => return ds
  | none => throw (.notList d.kind)

/-- A field that must be there. -/
def field (name : String) (d : Doc) : PageM Doc :=
  match d with
  | .record fs =>
    match fs.lookup name with
    | some v => return v
    | none => throw (.missingField name)
  | d => throw (.notRecord d.kind)

/-- A field that may be missing, in a document that must be a record. -/
def fieldOr (name : String) (default : Doc) (d : Doc) : PageM Doc :=
  match d with
  | .record fs => return (fs.lookup name).getD default
  | d => throw (.noFields d.kind)

end Page

end Scriptc
