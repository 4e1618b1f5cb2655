import Scriptc.Run

/-!
# Scriptc: the command line

`scriptc FILE` compiles a file and saves its parse tree, `scriptc --report FILE` reports on it and
saves its assembly text. What a run prints and saves is decided in `Scriptc.Run`; here it is only
carried out.
-/

namespace Scriptc.CommandLine

/-- There is no runtime here that mends a text, so a run on one that is no program ends. -/
def unmended : Mending := fun scan =>
  ⟨.error (.unforeseen ("no program: " ++ (stuck scan.tokens).text)), (.ok (), {})⟩

/-- Prints and saves what a run has come to. -/
def carryOut (savedAt : String) (run : RunM Unit) : IO UInt32 := do
  let (r, out) := Run.start run
  IO.print out.printed
  if let some tree := out.tree? then IO.FS.writeFile "ast.json" tree.render
  if let some assembly := out.assembly? then
    IO.FS.createDirAll "test_asm"
    IO.FS.writeFile savedAt assembly
  match r with
  | .ok () => return 0
  | .error f =>
    IO.eprintln f.message
    return 1

def compile (path : String) : IO UInt32 := do
  let text ← IO.FS.readFile path
  carryOut "" (discard (Run.ofText unmended text "ast.json"))

def report (path : String) : IO UInt32 := do
  let text ← IO.FS.readFile path
  let saved := Run.assemblyPath path
  carryOut saved (Run.report unmended text saved)

end Scriptc.CommandLine

def main (args : List String) : IO UInt32 := do
  match args with
  | "--report" :: path :: _ => Scriptc.CommandLine.report path
  | path :: _ => Scriptc.CommandLine.compile path
  | [] =>
    IO.println Scriptc.Run.usage
    return 1
