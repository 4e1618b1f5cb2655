import Scriptc.Doc.Read
import Scriptc.Page.Session
import Scriptc.Text.Lines

/-!
# Scriptc: views of the page

A view shows one side of the program or of its last compilation. The views of a compilation read
what the session and the files hold, which need not be what the compiler made.
-/

namespace Scriptc.Page

/-! ## Code -/

/-- What is typed into the editor becomes the program. -/
def type (s : String) : PageM Unit :=
  setSession fun x => { x with editor? := some s, code := s }

def codeView : PageM Unit := do
  let s ← current
  let hint := match s.uploadName? with
    | some n => if n = "" then "" else " (" ++ n ++ ")"
    | none => ""
  put (.area {
    label := "Editor" ++ hint
    value := s.code
    disabled := s.locked
    key? := some "editor_widget"
    placeholder? := some "Escribe tu código Compiscript aquí…" })
  if let some e := (← read).edit? then type e
  if s.locked then
    if ← button "Editar de nuevo" false then setSession fun x => { x with locked := false }
  putText .caption (← current).message

/-! ## Parse tree -/

/-- A leaf of the tree. -/
def tokenLine (d : Doc) : String :=
  let part (name : String) := (d.fieldD name).show
  "- **" ++ part "name" ++ " → '" ++ part "text" ++ "'  (L" ++ part "line" ++ ":C" ++ part "column"
    ++ ")**"

/-- The lines that a node stands on, if it tells them. -/
def nodeLines (d : Doc) : String :=
  match d.field? "start_line", d.field? "end_line" with
  | some a, some b => "  [L" ++ a.show ++ "..L" ++ b.show ++ "]"
  | _, _ => ""

mutual

/-- A node with the nodes below it. -/
def treeNode : Doc → PageM Unit
  | .record fs =>
    let d := Doc.record fs
    let label := ((d.field? "type").getD (.text "<?>")).show
    if label = "TOKEN" then putText .markdown (tokenLine d)
    else within (.expander (label ++ nodeLines d)) (treeChildren fs)
  | d => throw (.noFields d.kind)

/-- The nodes in the field that holds them. -/
def treeChildren : List (String × Doc) → PageM Unit
  | [] => return ()
  | (k, d) :: fs => if k = "children" then treeItems d else treeChildren fs

def treeItems : Doc → PageM Unit
  | .list ds => treeNodes ds
  | .pair a b => do
    treeNode a
    treeNode b
  | .text s => if s = "" then return () else throw (.noFields (Doc.text s).kind)
  | .record fs => if fs.isEmpty then return () else throw (.noFields (Doc.text "").kind)
  | d => throw (.notList d.kind)

def treeNodes : List Doc → PageM Unit
  | [] => return ()
  | d :: ds => do
    treeNode d
    treeNodes ds

end

/-- The tree that a file tells. -/
def treeOf (text : String) : PageM Unit := do
  match Doc.read text with
  | .error f => throw (.flaw (f.message text))
  | .ok d =>
    putText .markdown "**Árbol sintáctico** (expande los nodos):"
    treeNode d

def treeView : PageM Unit := do
  match (← get).folder.tree? with
  | none => putText .info "Aún no hay ast.json. Compila primero."
  | some text =>
    try treeOf (Lines.normal text)
    catch f => putText .error ("No se pudo leer ast.json: " ++ f.message)

/-! ## Symbols -/

/-- Parameters with their types. -/
def paramList (d : Doc) : PageM String := do
  let ps ← (← elements (← fieldOr "parameters" (.list []) d)).mapM fun p => do
    return (← fieldOr "type" .null p).show ++ " " ++ (← fieldOr "name" .null p).show
  return ", ".intercalate ps

/-- A field if it is set. -/
def flag (name text : String) (d : Doc) : PageM String := do
  return if (← fieldOr name .null d).isTrue then text else ""

def variableLine (d : Doc) : PageM String := do
  let const ← flag "is_const" " const" d
  let inferred ← flag "is_type_inferred" " (inferred)" d
  return "**Var** " ++ (← field "name" d).show ++ const ++ inferred ++ ": `"
    ++ (← fieldOr "type" .null d).show ++ "`"

/-- A function or method after the given mark. -/
def functionLine (mark : String) (d : Doc) : PageM String := do
  let params ← paramList d
  return mark ++ (← field "name" d).show ++ "(" ++ params ++ ") -> `"
    ++ (← fieldOr "return_type" .null d).show ++ "`"

def attributeLine (d : Doc) : PageM String := do
  let const ← flag "is_const" " const" d
  return "- " ++ (← field "name" d).show ++ const ++ ": `" ++ (← fieldOr "type" .null d).show ++ "`"

/-- The lines of a group of members under a title, if there are any. -/
def memberGroup (name title : String) (line : Doc → PageM String) (d : Doc) : PageM Unit := do
  let members ← fieldOr name .null d
  if members.isTrue then
    putText .markdown title
    (← elements members).forM fun m => do putText .write (← line m)

def classLines (d : Doc) : PageM Unit := do
  let parent ← fieldOr "parent" .null d
  putText .write ("**Class** " ++ (← field "name" d).show
    ++ if parent.isTrue then " : " ++ parent.show else "")
  memberGroup "attributes" "_Atributos_" attributeLine d
  memberGroup "methods" "_Métodos_" (functionLine "- ") d

/-- A symbol by its category; others are passed over. -/
def symbolLines (d : Doc) : PageM Unit := do
  match ← fieldOr "category" .null d with
  | .text "variable" => putText .write (← variableLine d)
  | .text "function" => putText .write (← functionLine "**Func** " d)
  | .text "class" => classLines d
  | _ => return ()

def scopeTitle (d : Doc) : PageM String := do
  let title := "Ámbito " ++ (← field "scope_id" d).show ++ " (" ++
    (← field "scope_type" d).show ++ ")"
  let parent ← fieldOr "parent_id" .null d
  return if parent.isNull then title else title ++ " — padre: " ++ parent.show

def scopeGroup (d : Doc) : PageM Unit := do
  within (.expander (← scopeTitle d)) do
    let symbols ← fieldOr "symbols" (.list []) d
    if symbols.isTrue then (← elements symbols).forM symbolLines
    else putText .caption "— vacío —"

def symbolsView : PageM Unit := do
  let scopes := (← current).outcome.symbols
  if scopes.isTrue then
    putText .subheader "Tabla de Símbolos"
    (← elements scopes).forM scopeGroup
  else putText .info "Aún no hay tabla de símbolos. Compila primero."

/-! ## Messages, errors and code -/

def logView : PageM Unit := do
  match (← get).folder.log? with
  | some text =>
    put (.area { label := "Mensajes del compilador", value := Lines.normal text, disabled := true })
  | none => putText .info "Aún no hay log.txt. Compila para ver los mensajes."

/-- The text of an error, which may tell its place. -/
def errorText (e : Doc) : String :=
  match e with
  | .record _ =>
    let message := [e.fieldD "message", e.fieldD "msg"].find? Doc.isTrue
    let line := e.fieldD "line"
    let place := if line.isNull then ""
      else " (L" ++ line.show ++ ":C" ++ (e.fieldD "column").show ++ ")"
    (message.getD e).show ++ place
  | e => e.show

def errorsView : PageM Unit := do
  let errors := (← current).outcome.errors
  putText .subheader "Errores del analizador"
  if errors.isTrue then
    (← elements errors).zipIdx.forM fun (e, i) =>
      putText .error (toString (i + 1) ++ ". " ++ errorText e)
  else putText .success "Sin errores semánticos."

/-- A quadruple with its number. -/
def quadLine (q : Doc) (i : Nat) : PageM String := do
  let parts ← ["op", "arg1", "arg2", "result"].mapM fun n => do return (← fieldOr n .null q).show
  return toString i ++ ": (" ++ ", ".intercalate parts ++ ")"

def quadsView : PageM Unit := do
  putText .subheader "Código Intermedio"
  let quads := (← current).outcome.quads
  if quads.isTrue then
    let lines ← (← elements quads).zipIdx.mapM fun (q, i) => quadLine q i
    put (.area {
      label := "Código intermedio generado", value := "\n".intercalate lines, disabled := true })
  else putText .info "Aún no hay código intermedio. Compila primero."
  putText .caption "El mapa de memoria aparece en la vista 'Mensajes' junto con el resto del log."

def assemblyView : PageM Unit := do
  putText .subheader "Código MIPS"
  let text := (← current).outcome.assembly
  if text.isTrue then
    put (.area { label := "Código MIPS generado", value := text.show, disabled := true })
  else putText .info "Aún no hay código MIPS. Compila primero."

/-! ## Choice of a view -/

/-- The views by their titles. -/
def views : List (String × PageM Unit) :=
  [("Código", codeView), ("Árbol Sintáctico", treeView), ("Errores", errorsView),
    ("Tabla de Símbolos", symbolsView), ("Mensajes", logView), ("Código Intermedio", quadsView),
    ("Código MIPS", assemblyView)]

def titles : List String := views.map Prod.fst

/-- The titles without that of the assembly text, which the plain list does not offer. -/
def plainTitles : List String := titles.dropLast

/-- The view that is chosen by segments: without a choice the view stays. -/
def chooseBySegments : PageM (Option String) := do
  let s ← current
  put (.segments "Vista" titles s.view?)
  return (← read).choice?.getD s.view?

/-- The view that is chosen from a plain list. -/
def chooseFromList : PageM (Option String) := do
  let s ← current
  let some i := s.view?.bind fun t => titles.idxOf? t | throw .noView
  put (.radio "Vista" plainTitles i)
  match (← read).choice? with
  | some c => return c
  | none =>
    match plainTitles[i]? with
    | some t => return some t
    | none => throw .noOption

def chooseView : PageM Unit := do
  let view? ← if (← read).segmented then chooseBySegments else chooseFromList
  setSession fun s => { s with view? }
  if let some view := view?.bind fun t => views.lookup t then view

end Scriptc.Page
