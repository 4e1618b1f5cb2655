import Scriptc.Tree

/-!
# Scriptc: readings

How a pattern can be read from a place of a token list. Places are counted by the tokens that are
left. A `Reading` holds

* `ways`: every place where the pattern can end, best way first, with the trees read on the best way
  to get there. One way per end is enough, because what follows depends on the end alone;
* `reach`: the fewest tokens left behind by any attempt, complete or not. The token there is the
  first that fits no attempt.

`rows` fills a table of the readings of all rules at all places from the end of the text backwards,
so every rule is read once per place. `parse` picks the best way through the whole text, and
`stuck` is the token at which every attempt ends.
-/

namespace Scriptc

structure Reading where
  ways : List (Nat × List Tree)
  reach : Nat
  deriving Inhabited

namespace Reading

/-- No way on from a place. -/
def fail (left : Nat) : Reading := ⟨[], left⟩

/-- Nothing to read. -/
def done (left : Nat) : Reading := ⟨[(left, [])], left⟩

/-- Keeps the ways that come first to their end. -/
def addWays (ways : List (Nat × List Tree)) (more : List (Nat × List Tree)) :
    List (Nat × List Tree) :=
  ways ++ more.filter (fun w => !ways.any (fun v => v.1 == w.1))

/-- The first reading, then what only the second one offers. -/
def or (a b : Reading) : Reading := ⟨addWays a.ways b.ways, min a.reach b.reach⟩

/-- Goes on from every end of a reading. -/
def andThen (a : Reading) (next : Nat → Reading) : Reading :=
  a.ways.foldl
    (fun acc w =>
      let b := next w.1
      ⟨addWays acc.ways (b.ways.map fun v => (v.1, w.2 ++ v.2)), min acc.reach b.reach⟩)
    ⟨[], a.reach⟩

/-- Goes round as often as possible first; a turn that reads nothing is not taken. -/
def many (turn : Nat → Reading) : Nat → Nat → Reading
  | 0, left => done left
  | fuel + 1, left =>
    ((turn left).andThen fun j => if j < left then many turn fuel j else fail j).or (done left)

/-- Wraps what was read into a node. -/
def wrap (r : Rule) (a : Reading) : Reading :=
  { a with ways := a.ways.map fun w => (w.1, [Tree.node r w.2]) }

end Reading

/-- Reads a pattern at a place, given the next token and the readings of rules at every place. -/
def Pattern.read (next : Nat → Option Token) (look : Rule → Nat → Reading) :
    Pattern → Nat → Reading
  | .empty, left => .done left
  | .tok k, left =>
    match next left with
    | some t => if t.kind = k then ⟨[(left - 1, [.leaf t])], left - 1⟩ else .fail left
    | none => .fail left
  | .rule r, left => look r left
  | .seq p q, left => (p.read next look left).andThen (q.read next look)
  | .alt p q, left => (p.read next look left).or (q.read next look left)
  | .star p, left => Reading.many (p.read next look) left left

/-- The readings of all rules at one place, and the token there. -/
structure Row where
  next : Option Token
  readings : Array Reading
  deriving Inhabited

namespace Row

/-- The reading of a rule; a rule that is not filled in yet has no way on. -/
def get (row : Row) (r : Rule) (left : Nat) : Reading :=
  (row.readings[r.ctorIdx]?).getD (.fail left)

end Row

/-- The next token at a place of a partly filled table. -/
def nextIn (table : Array Row) (row : Row) (left : Nat) : Option Token :=
  match table[left]? with
  | some old => old.next
  | none => row.next

/-- The readings of a rule at a place of a partly filled table. -/
def lookIn (table : Array Row) (row : Row) (r : Rule) (left : Nat) : Reading :=
  match table[left]? with
  | some old => old.get r left
  | none => row.get r left

/-- Fills the row in front of a table, rule by rule. -/
def fillRow (table : Array Row) (next : Option Token) : Row :=
  Rule.order.foldl
    (fun row r =>
      let reading := r.pattern.read (nextIn table row) (lookIn table row) table.size
      { row with readings := row.readings.push (reading.wrap r) })
    ⟨next, #[]⟩

/-- The rows of all places of a text; the row of a place stands at the number of tokens left. -/
def rows : List Token → Array Row
  | [] => #[fillRow #[] none]
  | t :: ts =>
    let table := rows ts
    table.push (fillRow table (some t))

/-- How the whole text reads as a program. -/
def readProgram (tokens : List Token) : Reading :=
  let table := rows tokens
  let none := ⟨Option.none, #[]⟩
  (Rule.pattern .program).read (nextIn table none) (lookIn table none) tokens.length

/-- The parse tree of a token list that is a program. -/
def parse (tokens : List Token) : Option Tree :=
  ((readProgram tokens).ways.find? (fun w => w.1 == 0)).map fun w => .node .program w.2

/-- The token at which every attempt to read a program ends. This is where the grammar gives up;
what the parser's own runtime makes of such a list is no matter of the grammar. -/
def stuck (tokens : List Token) : Token :=
  (tokens[tokens.length - (readProgram tokens).reach]?).getD default

end Scriptc
