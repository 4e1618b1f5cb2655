import Scriptc.Source

/-!
# Scriptc: reading a given text

A text that is written down in a statement is read by computation. `Source.read?` reads it in the
steps of `Source.ofText`, but over lists: characters are the bytes of the text, and the rows of the
table are piled up, the last one on top. `Source.ofText_of_read?` says that the text is the program
that is read.
-/

namespace Scriptc

/-! ## Characters -/

namespace Ascii

/-- Whether every byte of a text is a character of its own. -/
def isAscii (s : String) : Bool := s.toByteArray.data.toList.all (· < 128)

/-- The bytes of a text as characters. -/
def chars (s : String) : List Char := s.toByteArray.data.toList.map fun b => Char.ofNat b.toNat

theorem utf8EncodeChar_ofNat :
    ∀ n < 128, String.utf8EncodeChar (Char.ofNat n) = [UInt8.ofNat n] := by
  decide +kernel

theorem utf8Encode_map {bs : List UInt8} (h : bs.all (· < 128) = true) :
    (bs.map fun b => Char.ofNat b.toNat).utf8Encode = bs.toByteArray := by
  unfold List.utf8Encode
  congr 1
  induction bs with
  | nil => rfl
  | cons b bs ih =>
    simp only [List.all_cons, Bool.and_eq_true, decide_eq_true_eq] at h
    rw [List.map_cons, List.flatMap_cons, ih h.2,
      utf8EncodeChar_ofNat b.toNat (UInt8.lt_iff_toNat_lt.mp h.1),
      UInt8.ofNat_toNat]
    rfl

theorem toList_eq_chars {s : String} (h : isAscii s = true) : s.toList = chars s := by
  have hbytes : s.toByteArray = (chars s).utf8Encode := by
    rw [chars, utf8Encode_map h]
    apply ByteArray.ext
    simp
  have hs : s = String.ofList (chars s) :=
    String.toByteArray_inj.mp (hbytes.trans String.toByteArray_ofList.symm)
  exact (congrArg String.toList hs).trans String.toList_ofList

/-- The lexical rules, with the letters of words as bytes. -/
def rules : List LexRule :=
  Terminal.words.filterMap (fun k => k.word?.map fun w => .word k (chars w))
    ++ [.literal, .identifier, .blanks, .lineComment, .blockComment]

theorem rules_eq : rules = LexRule.all := by decide +kernel

/-- The longest match of all rules together, as `LexRule.best`. -/
def best (cs : List Char) : Option (LexRule × Nat) :=
  rules.foldl
    (fun found r =>
      match r.munch cs, found with
      | none, _ => found
      | some n, none => some (r, n)
      | some n, some (_, m) => if m < n then some (r, n) else found)
    none

theorem best_eq (cs : List Char) :
    best cs = LexRule.best cs := congrArg (List.foldl _ none) rules_eq

def cut (cs : List Char) : Option LexRule × Nat :=
  (best cs).elim (none, LexRule.farthest cs + 1) fun found => (some found.1, found.2)

theorem cut_eq (cs : List Char) : cut cs = Piece.cut cs := by
  unfold cut Piece.cut
  rw [best_eq]
  cases LexRule.best cs <;> rfl

/-- The pieces of a text of no more than `fuel` characters. -/
def pieces : Nat → List Char → List Piece
  | 0, _ => []
  | _ + 1, [] => []
  | fuel + 1, c :: rest =>
    Piece.ofRule (cut (c :: rest)).1 (c :: rest.take ((cut (c :: rest)).2 - 1))
      :: pieces fuel (rest.drop ((cut (c :: rest)).2 - 1))

theorem pieces_eq {fuel : Nat} {cs : List Char} (h : cs.length ≤ fuel) :
    pieces fuel cs = Piece.pieces cs := by
  induction fuel generalizing cs with
  | zero =>
    rw [List.eq_nil_of_length_eq_zero (Nat.le_zero.mp h), pieces, Piece.pieces]
  | succ fuel ih =>
    cases cs with
    | nil => rw [pieces, Piece.pieces]
    | cons c rest => rw [Piece.pieces, pieces, cut_eq, ih (by simp at h ⊢; omega)]

/-- The tokens of a text, as `Scan.ofText`. -/
def scan (s : String) : Scan := .ofPieces {} (pieces (chars s).length (chars s))

theorem scan_eq {s : String} (h : isAscii s = true) : scan s = Scan.ofText s := by
  rw [scan, pieces_eq (Nat.le_refl _), Scan.ofText, toList_eq_chars h]

end Ascii

/-! ## Tables -/

/-- A table that grows at its end, the last entry first. -/
structure Pile (α : Type) where
  size : Nat := 0
  entries : List α := []
  size_eq : size = entries.length := by rfl

namespace Pile

variable {α β : Type} {p : Pile α}

def get? (p : Pile α) (i : Nat) : Option α :=
  if i < p.size then p.entries[p.size - 1 - i]? else none

def push (p : Pile α) (a : α) : Pile α := ⟨p.size + 1, a :: p.entries, by rw [p.size_eq]; rfl⟩

def toArray (f : α → β) (p : Pile α) : Array β := (p.entries.map f).reverse.toArray

theorem size_toArray (f : α → β) : (p.toArray f).size = p.size := by simp [toArray, p.size_eq]

theorem toArray_push (f : α → β) (a : α) : (p.push a).toArray f = (p.toArray f).push (f a) := by
  simp [toArray, push]

theorem getElem?_toArray (f : α → β) (i : Nat) : (p.toArray f)[i]? = (p.get? i).map f := by
  have hsize := p.size_eq
  unfold toArray get?
  grind

end Pile

/-- The readings of all rules at one place, and the token there, as `Row`. -/
structure PileRow where
  next : Option Token
  readings : Pile Reading := {}

namespace PileRow

def toRow (row : PileRow) : Row := ⟨row.next, row.readings.toArray id⟩

def get (row : PileRow) (r : Rule) (left : Nat) : Reading :=
  (row.readings.get? r.ctorIdx).getD (.fail left)

theorem toRow_get (row : PileRow) (r : Rule) (left : Nat) :
    row.toRow.get r left = row.get r left := by
  rw [Row.get, toRow, Pile.getElem?_toArray, Option.map_id, get]
  rfl

/-- Reads a pattern at a place of a partly filled table. -/
def read (table : Pile PileRow) (row : PileRow) (p : Pattern) (left : Nat) : Reading :=
  p.read (fun i => ((table.get? i).getD row).next)
    (fun r i => ((table.get? i).getD row).get r i) left

theorem read_eq (table : Pile PileRow) (row : PileRow) (p : Pattern) (left : Nat) :
    p.read (nextIn (table.toArray toRow) row.toRow) (lookIn (table.toArray toRow) row.toRow) left
      = read table row p left := by
  have hnext : nextIn (table.toArray toRow) row.toRow = fun i =>
    ((table.get? i).getD row).next := by
    funext i
    unfold nextIn
    rw [Pile.getElem?_toArray]
    cases table.get? i <;> rfl
  have hlook : lookIn (table.toArray toRow) row.toRow = fun r i =>
    ((table.get? i).getD row).get r i := by
    funext r i
    unfold lookIn
    rw [Pile.getElem?_toArray]
    cases table.get? i <;> exact toRow_get _ r i
  rw [hnext, hlook, read]

/-- Fills the row in front of a table, rule by rule. -/
def fill (table : Pile PileRow) (next : Option Token) : PileRow :=
  Rule.order.foldl
    (fun row r =>
      { row with readings := row.readings.push ((read table row r.pattern table.size).wrap r) })
    ⟨next, {}⟩

theorem toRow_fill (table : Pile PileRow) (next : Option Token) :
    (fill table next).toRow = fillRow (table.toArray toRow) next := by
  refine (List.foldl_hom toRow fun row r => ?_).symm
  dsimp only
  rw [read_eq, Pile.size_toArray, toRow, toRow, Pile.toArray_push]
  rfl

/-- The rows of all places of a text. -/
def table : List Token → Pile PileRow
  | [] => ({} : Pile PileRow).push (fill {} none)
  | t :: ts => (table ts).push (fill (table ts) (some t))

theorem toArray_table (ts : List Token) : (table ts).toArray toRow = rows ts := by
  induction ts with
  | nil =>
    rw [table, Pile.toArray_push, toRow_fill]
    rfl
  | cons t ts ih => rw [table, Pile.toArray_push, toRow_fill, ih, rows]

end PileRow

/-! ## Programs -/

namespace Source

/-- The program that a text is, if it is one and every byte of it a character. -/
def read? (text : String) : Option Source :=
  if Ascii.isAscii text then
    let scan := Ascii.scan text
    let ways := (PileRow.read (PileRow.table scan.tokens) ⟨none, {}⟩ (Rule.pattern .program)
      scan.tokens.length).ways
    (ways.find? fun w => w.1 == 0).map fun w =>
      ⟨scan, .node .program w.2, (Program.ofTree? (.node .program w.2)).getD []⟩
  else none

theorem ofText_of_read? {text : String} {s : Source} (h : read? text = some s) :
    ofText text = .ok s := by
  unfold read? at h
  split at h
  · rename_i hascii
    dsimp only at h
    rw [Ascii.scan_eq hascii, ← PileRow.read_eq, PileRow.toArray_table] at h
    obtain ⟨w, hw, rfl⟩ := Option.map_eq_some_iff.mp h
    have hparse : parse (Scan.ofText text).tokens = some (.node .program w.2) :=
      Option.map_eq_some_iff.mpr ⟨w, hw, rfl⟩
    unfold ofText
    dsimp only
    rw [hparse]
  · cases h

end Source

end Scriptc
