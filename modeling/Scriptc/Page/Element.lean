import Scriptc.Doc

/-!
# Scriptc: elements of the page

What the page shows, from top to bottom. Columns and expanders hold the elements up to their
`Element.close`. `Element.toDoc` hands an element on to the program that draws it: its name, what it
is given in order, and what it is given by name.
-/

namespace Scriptc

/-- A line or paragraph of text. -/
inductive TextStyle where
  | caption | info | success | error | subheader | markdown | write
  deriving DecidableEq, Repr

/-- A box for long texts. -/
structure TextArea where
  label : String
  value : String
  disabled : Bool
  height : Nat := 380
  /-- Under this name the session keeps what is typed into the box. -/
  key? : Option String := none
  /-- What stands in the empty box. -/
  placeholder? : Option String := none
  deriving DecidableEq, Repr

inductive Element where
  | page (title layout : String)
  | columns (widths : List Nat)
  | column (index : Nat)
  | expander (label : String)
  | close
  | uploader (label : String) (endings : List String) (key : String)
  | button (label : String) (wide : Bool)
  | segments (label : String) (options : List String) (default? : Option String)
  | radio (label : String) (options : List String) (index : Nat)
  | area (a : TextArea)
  | text (style : TextStyle) (s : String)
  deriving DecidableEq, Repr

namespace TextStyle

def name : TextStyle → String
  | caption => "caption"
  | info => "info"
  | success => "success"
  | error => "error"
  | subheader => "subheader"
  | markdown => "markdown"
  | write => "write"

end TextStyle

namespace Element

/-- A name with arguments in order and by name. -/
def call (name : String) (args : List Doc) (named : List (String × Doc)) : Doc :=
  .list [.text name, .list args, .record named]

/-- A box with a key has a label that is not shown. -/
def areaDoc (a : TextArea) : Doc :=
  let shared : List (String × Doc) :=
    [("value", .text a.value), ("height", .ofNat a.height), ("disabled", .bool a.disabled)]
  match a.key? with
  | none => call "text_area" [.text a.label] shared
  | some key => call "text_area" [] (shared ++ [("label", .text a.label), ("key", .text key),
      ("label_visibility", .text "collapsed"), ("placeholder", Doc.ofOption .text a.placeholder?)])

def toDoc : Element → Doc
  | page title layout =>
    call "set_page_config" [] [("page_title", .text title), ("layout", .text layout)]
  | columns ws => call "columns" [.list (ws.map .ofNat)] []
  | column i => call "column" [.ofNat i] []
  | expander label => call "expander" [.text label] [("expanded", .bool false)]
  | close => call "end" [] []
  | uploader label endings key =>
    call "file_uploader" [.text label] [("type", .texts endings), ("key", .text key)]
  | button label wide =>
    call "button" [.text label] (if wide then [("use_container_width", .bool true)] else [])
  | segments label options default? =>
    call "segmented_control" [.text label]
      [("options", .texts options), ("default", Doc.ofOption .text default?)]
  | radio label options index =>
    call "radio" [.text label, .texts options, .ofNat index] [("horizontal", .bool true)]
  | area a => areaDoc a
  | text style s => call style.name [.text s] []

end Element

end Scriptc
