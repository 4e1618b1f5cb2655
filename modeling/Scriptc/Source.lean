import Scriptc.Ast.OfTree
import Scriptc.Compile.Stmt
import Scriptc.Grammar.Reading
import Scriptc.Mips.Program
import Scriptc.Token.Scan

/-!
# Scriptc: source texts

A source text is read in three steps: its tokens, the parse tree over them, and the program that the
tree says. A text whose tokens are no sentence of the grammar is no program (`Rejected`). Characters
that belong to no token are listed and skipped.
-/

namespace Scriptc

/-- A text that is a program. -/
structure Source where
  scan : Scan
  tree : Tree
  program : Program

/-- A text that is no program, with the token at which the grammar gives up. -/
structure Rejected where
  scan : Scan
  token : Token

namespace Source

def ofText (text : String) : Except Rejected Source :=
  let scan := Scan.ofText text
  match parse scan.tokens with
  | none => .error ⟨scan, stuck scan.tokens⟩
  | some tree => .ok ⟨scan, tree, (Program.ofTree? tree).getD []⟩

/-- Checks a program and writes its intermediate code. -/
def build (s : Source) : Except Fault Unit × Build := Build.run {} (Compile.program s.program)

end Source

namespace Build

/-- What the choice of instructions needs of a compilation. -/
def input (b : Build) : Mips.Input := ⟨b.table, b.storage.slots, b.strings, b.quads.toList⟩

/-- The assembly program of a compilation without errors. -/
def assembly? (b : Build) : Option (Except Fault Mips.Program) :=
  if b.errors.isEmpty then some (Mips.Program.ofInput b.input) else none

end Build

end Scriptc
