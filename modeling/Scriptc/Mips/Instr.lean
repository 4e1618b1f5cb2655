import Scriptc.Mips.Reg

/-!
# Scriptc: instructions of the target machine

Instructions are data and `Instr.text` is how they are written, so that what they do can be said of
the same thing that is printed. Numbers in instructions are integers where they are written as such;
any other text is kept (`Imm`).
-/

namespace Scriptc.Mips

/-- A number in an instruction. -/
inductive Imm where
  | int (n : Int)
  | text (s : String)
  deriving DecidableEq, Repr, Inhabited

namespace Imm

def render : Imm → String
  | int n => toString n
  | text s => s

/-- The number that a text may stand for. -/
def candidate (s : String) : Imm :=
  match s.toList with
  | '-' :: ds => ((Decimal.read? ds).map fun n => int (-Int.ofNat n)).getD (text s)
  | ds => ((Decimal.read? ds).map fun n => int (Int.ofNat n)).getD (text s)

def ofText (s : String) : Imm :=
  let c := candidate s
  if c.render = s then c else text s

theorem render_ofText (s : String) : (ofText s).render = s := by
  simp only [ofText]
  split
  · assumption
  · rfl

/-- A number behind a minus sign. -/
def minus (n : Int) : Imm := ofText ("-" ++ toString n)

end Imm

/-- Where an instruction finds a value in memory. -/
inductive Addr where
  /-- An offset from a register. -/
  | at_ (offset : Imm) (base : Reg)
  | label (name : String)
  deriving DecidableEq, Repr, Inhabited

namespace Addr

def render : Addr → String
  | at_ o b => o.render ++ "(" ++ b.text ++ ")"
  | label n => n

end Addr

/-- Operations on two registers. -/
inductive AluOp where
  | add | addu | sub | mul | slt | sltu | xor | and | or
  deriving DecidableEq, Repr, Inhabited

namespace AluOp

def text : AluOp → String
  | add => "add" | addu => "addu" | sub => "sub" | mul => "mul" | slt => "slt" | sltu => "sltu"
  | xor => "xor" | and => "and" | or => "or"

end AluOp

/-- Operations on a register and a number. -/
inductive ImmOp where
  | addiu | xori | sltiu
  deriving DecidableEq, Repr, Inhabited

namespace ImmOp

def text : ImmOp → String
  | addiu => "addiu" | xori => "xori" | sltiu => "sltiu"

end ImmOp

/-- Loads and stores. -/
inductive MemOp where
  | lw | sw | lb | lbu | sb | la
  deriving DecidableEq, Repr, Inhabited

namespace MemOp

def text : MemOp → String
  | lw => "lw" | sw => "sw" | lb => "lb" | lbu => "lbu" | sb => "sb" | la => "la"

end MemOp

/-- Conditions on two registers under which a branch is taken. -/
inductive Cond2 where
  | eq | ne | ge
  deriving DecidableEq, Repr, Inhabited

namespace Cond2

def text : Cond2 → String
  | eq => "beq" | ne => "bne" | ge => "bge"

end Cond2

/-- Conditions on one register under which a branch is taken. -/
inductive Cond1 where
  | gez | nez | eqz
  deriving DecidableEq, Repr, Inhabited

namespace Cond1

def text : Cond1 → String
  | gez => "bgez" | nez => "bnez" | eqz => "beqz"

end Cond1

inductive Instr where
  | alu (op : AluOp) (d a b : Reg)
  | alui (op : ImmOp) (d a : Reg) (n : Imm)
  | li (d : Reg) (n : Imm)
  | mem (op : MemOp) (r : Reg) (x : Addr)
  | move (d s : Reg)
  | neg (d s : Reg)
  | div (a b : Reg)
  | divu (a b : Reg)
  | mflo (d : Reg)
  | mfhi (d : Reg)
  | branch2 (c : Cond2) (a b : Reg) (target : String)
  | branch1 (c : Cond1) (a : Reg) (target : String)
  | j (target : String)
  | jal (target : String)
  | jr (r : Reg)
  | syscall
  | nop
  deriving DecidableEq, Repr, Inhabited

namespace Instr

def lw (r : Reg) (x : Addr) : Instr := mem .lw r x

def sw (r : Reg) (x : Addr) : Instr := mem .sw r x

def addiu (d a : Reg) (n : Imm) : Instr := alui .addiu d a n

/-- Moves the stack pointer. -/
def moveSp (n : Int) : Instr := addiu .sp .sp (.int n)

/-- The word at an offset from the stack pointer. -/
def onStack (n : Int) : Addr := .at_ (.int n) .sp

def mnemonic : Instr → String
  | alu op _ _ _ => op.text
  | alui op _ _ _ => op.text
  | li _ _ => "li"
  | mem op _ _ => op.text
  | move _ _ => "move"
  | neg _ _ => "neg"
  | div _ _ => "div"
  | divu _ _ => "divu"
  | mflo _ => "mflo"
  | mfhi _ => "mfhi"
  | branch2 c _ _ _ => c.text
  | branch1 c _ _ => c.text
  | j _ => "j"
  | jal _ => "jal"
  | jr _ => "jr"
  | syscall => "syscall"
  | nop => "nop"

def operands : Instr → List String
  | alu _ d a b => [d.text, a.text, b.text]
  | alui _ d a n => [d.text, a.text, n.render]
  | li d n => [d.text, n.render]
  | mem _ r x => [r.text, x.render]
  | move d s | neg d s => [d.text, s.text]
  | div a b | divu a b => [a.text, b.text]
  | mflo d | mfhi d => [d.text]
  | branch2 _ a b l => [a.text, b.text, l]
  | branch1 _ a l => [a.text, l]
  | j l | jal l => [l]
  | jr r => [r.text]
  | syscall | nop => []

end Instr

end Scriptc.Mips
