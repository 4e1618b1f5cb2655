import Scriptc.Page.Compile
import Scriptc.Page.View
import Scriptc.Text.Bytes

/-!
# Scriptc: the page

`Page.visit` shows the page once. From top to bottom there are the upload, the button that compiles,
the choice of a view, and the view. What a compilation does with a text that is no program is a
parameter here, too.
-/

namespace Scriptc.Page

/-- An uploaded file becomes the program. -/
def upload (u : Upload) (s : Session) : Session :=
  let text := Bytes.text u.bytes
  { s with
    code := text
    editor? := some text
    uploadName? := some u.name
    message := "Archivo cargado: " ++ u.name
    locked := false }

/-- Upload and button side by side. -/
def toolbar (mend : Mending) : PageM Unit := do
  put (.columns [4, 4, 4])
  within (.column 0) do
    put (.uploader "Cargar archivo .cps" ["cps"] "uploader")
    if let some u := (← read).upload? then setSession (upload u)
  within (.column 2) do
    if ← button "Compilar" true then
      let v ← read
      modify (compile mend v)

/-- A session has an editor from its first visit on. -/
def openEditor (s : Session) : Session := { s with editor? := s.editor?.or (some s.code) }

def whole (mend : Mending) : PageM Unit := do
  put (.page "IDE CompiScript" "wide")
  setSession openEditor
  toolbar mend
  chooseView

/-- Shows the page to a user. -/
def visit (mend : Mending) (v : Visit) (s : Session) (f : Folder) : Except Failure Unit × Page :=
  Id.run (StateT.run (ExceptT.run (ReaderT.run (whole mend) v)) ⟨s, f, #[]⟩)

end Scriptc.Page
