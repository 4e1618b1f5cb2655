import Scriptc.Fault
import Scriptc.Text.Affix
import Scriptc.Text.Decimal
import Scriptc.Text.Digit
import Scriptc.Text.Hex
import Scriptc.Text.Quote

/-!
# Scriptc: operands

What the quadruples of the intermediate code work on. Temporaries, labels, addresses and places in a
frame have constructors of their own; any other text is kept as it is. `Operand.ofText` reads the
first kinds back from their written form, so an operand is known by its text:
`Operand.text_ofText`.
-/

namespace Scriptc

inductive Operand where
  | none
  /-- A temporary, `t3`. -/
  | temp (k : Nat)
  /-- A jump target, `L3`. -/
  | label (k : Nat)
  /-- The place of a string constant, `str_3`. -/
  | string (k : Nat)
  /-- An absolute address, `0x1000`. -/
  | address (a : Nat)
  /-- A place in the current frame, `FP[8]`. -/
  | frame (offset : Nat)
  | text (s : String)
  | int (n : Int)
  /-- A number that is not whole, as written. -/
  | decimal (s : String)
  /-- The cells of an array that has no place yet. -/
  | cells (vs : List Operand)
  deriving Repr, Inhabited

namespace Operand

mutual

def beq : Operand → Operand → Bool
  | none, none => true
  | temp a, temp b | label a, label b | string a, string b | address a, address b
  | frame a, frame b => a == b
  | text a, text b | decimal a, decimal b => a == b
  | int a, int b => a == b
  | cells a, cells b => beqAll a b
  | _, _ => false

def beqAll : List Operand → List Operand → Bool
  | [], [] => true
  | a :: as, b :: bs => beq a b && beqAll as bs
  | _, _ => false

end

mutual

theorem eq_of_beq : ∀ a b : Operand, beq a b = true → a = b
  | none, b, h => by cases b <;> simp_all [beq]
  | temp _, b, h => by cases b <;> simp_all [beq]
  | label _, b, h => by cases b <;> simp_all [beq]
  | string _, b, h => by cases b <;> simp_all [beq]
  | address _, b, h => by cases b <;> simp_all [beq]
  | frame _, b, h => by cases b <;> simp_all [beq]
  | text _, b, h => by cases b <;> simp_all [beq]
  | int _, b, h => by cases b <;> simp_all [beq]
  | decimal _, b, h => by cases b <;> simp_all [beq]
  | cells as, b, h => by
    cases b <;> simp [beq] at h
    rw [eq_of_beqAll as _ h]

theorem eq_of_beqAll : ∀ as bs : List Operand, beqAll as bs = true → as = bs
  | [], bs, h => by cases bs <;> simp_all [beqAll]
  | a :: as, bs, h => by
    cases bs with
    | nil => simp [beqAll] at h
    | cons b bs =>
      simp [beqAll] at h
      rw [eq_of_beq a b h.1, eq_of_beqAll as bs h.2]

end

mutual

theorem beq_refl : ∀ a : Operand, beq a a = true
  | none | temp _ | label _ | string _ | address _ | frame _ | text _ | int _ | decimal _ => by
    simp [beq]
  | cells as => by simp [beq, beqAll_refl as]

theorem beqAll_refl : ∀ as : List Operand, beqAll as as = true
  | [] => by simp [beqAll]
  | a :: as => by simp [beqAll, beq_refl a, beqAll_refl as]

end

theorem beq_iff_eq {a b : Operand} : beq a b = true ↔ a = b :=
  ⟨eq_of_beq a b, fun h => h ▸ beq_refl a⟩

instance : DecidableEq Operand := fun _ _ => decidable_of_iff _ beq_iff_eq

/-- How an operand without cells is written. -/
def plain : Operand → String
  | none => "None"
  | temp k => "t" ++ toString k
  | label k => "L" ++ toString k
  | string k => "str_" ++ toString k
  | address a => Hex.wide a
  | frame n => "FP[" ++ toString n ++ "]"
  | text s | decimal s => s
  | int n => toString n
  | cells _ => ""

mutual

/-- How an operand is written inside a list, where texts have quotes. -/
def quote : Operand → String
  | none => "None"
  | decimal s => s
  | int n => toString n
  | cells vs => "('array_literal', [" ++ ", ".intercalate (quoteAll vs) ++ "])"
  | o => Quote.quote (plain o)

def quoteAll : List Operand → List String
  | [] => []
  | v :: vs => quote v :: quoteAll vs

end

/-- How an operand is written. -/
def render : Operand → String
  | cells vs => quote (cells vs)
  | o => plain o

/-- A list of operands as it is written. -/
def renderList (vs : List Operand) : String := "[" ++ ", ".intercalate (quoteAll vs) ++ "]"

/-- The text of an operand that has one. -/
def text? : Operand → Option String
  | none | int _ | decimal _ | cells _ => Option.none
  | o => some (plain o)

/-- What an operand without a text is. -/
def shape : Operand → Shape
  | int _ | decimal _ => .number
  | cells _ => .cells
  | _ => .nothing

/-- The operand of a proper kind that a text may stand for. -/
def candidate (s : String) : Operand :=
  let of (k : Nat → Operand) (n? : Option Nat) : Operand := (n?.map k).getD (text s)
  match s.toList with
  | 't' :: ds => of temp (Decimal.read? ds)
  | 'L' :: ds => of label (Decimal.read? ds)
  | 's' :: 't' :: 'r' :: '_' :: ds => of string (Decimal.read? ds)
  | '0' :: 'x' :: ds => of address (Hex.read? ds)
  | 'F' :: 'P' :: '[' :: rest => of frame (Decimal.read? rest.dropLast)
  | _ => text s

/-- The operand with the given text: of a proper kind if the text is how that kind is written. -/
def ofText (s : String) : Operand :=
  let c := candidate s
  if c.text? = some s then c else text s

theorem text_ofText (s : String) : (ofText s).text? = some s := by
  simp only [ofText]
  split
  · assumption
  · rfl

/-- An absolute address. -/
def ofAddress (a : Int) : Operand :=
  match a with
  | .ofNat n => address n
  | .negSucc _ => text (Hex.wide a)

/-- Whether a text begins like a temporary; nothing else is asked of it. -/
def beginsLikeTemp : Operand → Bool
  | temp _ => true
  | text s => Affix.begins s "t"
  | _ => false

/-- Whether an operand is named like a temporary: a `t` and then digits of any script. -/
def isTempName : Operand → Bool
  | temp _ => true
  | text s =>
    match s.toList with
    | 't' :: ds => !ds.isEmpty && ds.all Digit.isDigit
    | _ => false
  | _ => false

/-- Whether there is an operand at all: an empty text is none. -/
def isPresent : Operand → Bool
  | none => false
  | text s => s ≠ ""
  | int n => n ≠ 0
  | _ => true

/-- Whether an operand that is read as text begins like a temporary. -/
def asTemp (o : Operand) : Except Fault Bool :=
  match o with
  | none | int _ | decimal _ | cells _ => throw (.notText o.shape)
  | o => return o.beginsLikeTemp

end Operand

end Scriptc
