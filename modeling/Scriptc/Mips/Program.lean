import Scriptc.Mips.Library
import Scriptc.Mips.Select.Flow
import Scriptc.Text.Blank

/-!
# Scriptc: assembly programs

`Program.ofInput` turns quadruples into an assembly program: the data of its variables and strings,
the code outside of functions, and the code of each function. The code of a quadruple is a `Block`.
`Program.render` writes it, with the string routines at the end.

* `Program.heapAddresses`: the objects that the quadruples speak of without a variable of their own.
  Each gets a saved register at the start, from `$s3` on.
* `Program.split`: which quadruples belong to which function.
-/

namespace Scriptc.Mips

open Instr (onStack moveSp)

/-- A quadruple with its place in the intermediate code. -/
abbrev Numbered := Quad × Nat

/-- A quadruple and the code chosen for it. -/
structure Block where
  index : Nat
  quad : Quad
  code : List Line
  deriving Repr, Inhabited

namespace Block

/-- The written code of a block: a remark that shows the quadruple, then its instructions without
indentation and without empty lines, then an empty line. -/
def texts (b : Block) : List String :=
  ("# Quadruple " ++ toString b.index ++ ": " ++ b.quad.render)
    :: ((b.code.map fun l => Blank.strip l.render).filter (· ≠ "")) ++ [""]

end Block

structure Program where
  data : List Line
  /-- The registers of objects that are made at the start. -/
  heap : Assoc Int Reg
  main : List Block
  functions : List (List Block)
  deriving Repr, Inhabited

namespace Program

/-! ## Registers that functions keep -/

/-- Labels of functions that are supplied by the target code itself and keep no registers. -/
def builtin : List String :=
  ["FUNC___init", "FUNC_toString", "FUNC_printString", "FUNC_printInteger"]

/-- The label of a function that a quadruple begins. -/
def functionLabel? (q : Quad) : Option String :=
  if q.op = .label && q.result.text?.any (Affix.begins · "FUNC_") then
    some q.result.toLabel else none

/-- Whether a sum may join strings, by its operands alone. -/
def mayJoin (q : Quad) : Bool :=
  q.op = .add && [q.arg1, q.arg2].any fun o => o.beginsLikeTemp || o.isStringLabel

/-- The saved registers that the code may use. -/
def savedRegs (qs : List Quad) : List Reg :=
  let copied (a : Int) : Bool := qs.any fun q => q.op = .copy && q.arg1.hexValue? = some a
  (if qs.any mayJoin then [.s 0, .s 1] else [])
    ++ ((Select.fixedHeap.filter fun e => copied e.1).map Prod.snd)

/-- Every function keeps all saved registers that the code may use. -/
def savedOf (qs : List Quad) : Assoc String (List Reg) :=
  let regs := savedRegs qs
  ((qs.filterMap functionLabel?).filter (!builtin.contains ·)).foldl (fun t f => t.put f regs) []

/-! ## Data -/

/-- The variables that have an address, in the order of their addresses. -/
def globals (slots : Assoc String Slot) : List (String × Int) :=
  let placed := slots.filterMap fun (n, s) =>
    match s with
    | .address a => if 0x1000 ≤ a then some (n, a) else none
    | .relative _ => none
  placed.mergeSort fun x y => x.2 ≤ y.2

/-- The line that makes room for a variable. -/
def variableLine (name : String) (a : Int) : Line :=
  if Operand.heapStart ≤ a then
    .datum ("var_" ++ name) (.space 40) (some ⟨2, "Array at " ++ Hex.plain a ++ " (10 words)"⟩)
  else .datum ("var_" ++ name) .word (some ⟨2, "Address: " ++ Hex.plain a⟩)

/-- What is between the quotes of a string constant, with quotes escaped. -/
def stringContent (literal : String) : String :=
  String.ofList ((literal.toList.drop 1).dropLast.flatMap fun c => if c = '"' then
    ['\\', '"'] else [c])

/-- The lines that hold a string constant. -/
def stringLines (literal label : String) : List Line :=
  [.datum label (.asciiz (stringContent literal)),
    .directive ".align 2" (some ⟨2, "Align to word boundary"⟩)]

/-- The data section. -/
def dataLines (input : Input) : List Line :=
  let strings := input.strings.flatMap fun (literal, label) => stringLines literal label
  [.remark "Generated by Compiscript Compiler", .directive ".data"]
    ++ ((globals input.slots).map fun (n, a) => variableLine n a)
    ++ (if strings.isEmpty then [] else .remark "String literals" :: strings)
    ++ [.blank]

/-- The addresses of objects that no variable lies at, in order. -/
def heapAddresses (input : Input) : List Int :=
  let found := input.quads.flatMap fun q => [q.arg1, q.arg2, q.result].filterMap Operand.heapValue?
  let taken := (globals input.slots).map Prod.snd
  (found.eraseDups.filter (!taken.contains ·)).mergeSort fun a b => a ≤ b

/-- The register of each object that is made at the start. -/
def heapRegs (input : Input) : Assoc Int Reg :=
  (heapAddresses input).zipIdx.map fun (a, i) => (a, .s (3 + i))

/-! ## Code -/

/-- Divides quadruples into the code outside of functions and the code of each function. A function
lasts from its label to the end of its frame, or to the next function. -/
def split (qs : List Numbered) : List Numbered × List (List Numbered) :=
  let step := fun (acc : Bool × List Numbered × List (List Numbered)) (e : Numbered) =>
    let (inside, outer, groups) := acc
    if (functionLabel? e.1).isSome then (true, outer, [e] :: groups)
    else if inside then
      match groups with
      | [] => (inside, outer, groups)
      | g :: gs => (e.1.op ≠ .leave, outer, (e :: g) :: gs)
    else (inside, e :: outer, groups)
  let (_, outer, groups) := qs.foldl step (false, [], [])
  (outer.reverse, (groups.map List.reverse).reverse)

/-- Chooses the code of quadruples, one after the other. -/
def blocks (qs : List Numbered) : SelectM (List Block) :=
  qs.mapM fun (q, i) => do return ⟨i, q, ← Select.quad q⟩

/-- The state before the first quadruple, as far as functions are concerned. -/
def prepared (input : Input) : Select := { saved := savedOf input.quads }

/-- The state before the first quadruple: the registers of objects are in use. -/
def start (input : Input) : Select :=
  let heap := heapRegs input
  let s := prepared input
  { s with heap := heap, alloc := { s.alloc with used := heap.values } }

/-- The assembly program for quadruples. -/
def ofInput (input : Input) : Except Fault Program :=
  let (outer, groups) := split input.quads.zipIdx
  let steps : SelectM Program := do
    let main ← blocks outer
    let functions ← groups.mapM blocks
    return ⟨dataLines input, heapRegs input, main, functions⟩
  ((start input).run input steps).1

/-! ## Writing -/

/-- How an object is made at the start. -/
def makeObject (r : Reg) : List Line :=
  [.noted (.li (.v 0) (.int 9)) "sbrk", .code (.li (.a 0) (.int 40)), .code .syscall,
    .code (.move r (.v 0))]

/-- What runs before the code outside of functions. -/
def mainStart (heap : Assoc Int Reg) : List Line :=
  [.directive ".text", .directive ".globl main", .blank, .label "main",
    .remark "Initialize stack pointer",
    .noted (.li .sp (.text "0x7fffeffc")) "Set to proper stack top",
    .remark "Main prologue", .code (moveSp (-4)), .code (.sw .ra (onStack 0)), .blank]
  ++ (if heap.isEmpty then []
      else .remark "Allocate heap objects dynamically" ::
        heap.values.flatMap makeObject ++ [.blank])

/-- What runs after the code outside of functions. -/
def mainEnd : List Line :=
  [.remark "Main epilogue", .code (.lw .ra (onStack 0)), .code (moveSp 4),
    .noted (.li (.v 0) (.int 10)) "Exit syscall", .code .syscall,
    .remark "Safety: Infinite loop to prevent fall-through", .label "__exit_loop",
    .code (.j "__exit_loop"), .blank]

def header : List Line :=
  [.remark "Generated by Compiscript Compiler", .remark "MIPS Assembly Code", .blank]

/-- The lines of the program without the routines at its end. -/
def texts (p : Program) : List String :=
  (header ++ p.data ++ [Line.blank] ++ mainStart p.heap).map Line.render
    ++ p.main.flatMap Block.texts ++ mainEnd.map Line.render
    ++ (p.functions.flatMap fun f => f.flatMap Block.texts) ++ [""]

/-- The text of the program up to the routines at its end. -/
def code (p : Program) : String := String.join (p.texts.map (· ++ "\n"))

/-- The whole assembly text. -/
def render (p : Program) : String := p.code ++ Library.text

end Program

end Scriptc.Mips
