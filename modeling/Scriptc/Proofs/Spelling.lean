import Scriptc.Proofs.Munch
import Scriptc.Text.Decimal

/-!
# Scriptc: spelling

A token of a class with one spelling has that spelling, and a constant is a number or a string in
quotes: `Scan.spelled`. Every token is a match of a lexical rule, so this is a matter of what the
rules match (`LexRule.spells_of_matches`).
-/

namespace Scriptc

/-- A constant is a number, or a string in quotes. -/
def IsConstant (cs : List Char) : Prop :=
  (Decimal.read? cs).isSome = true ∨ ∃ ds, cs = '"' :: (ds ++ ['"'])

/-- A constant begins with a digit or a quote. -/
theorem IsConstant.ne_cons {cs ds : List Char} {c : Char} (h : IsConstant cs)
    (hdigit : c.isDigit = false) (hquote : c ≠ '"') : cs ≠ c :: ds := by
  rintro rfl
  rcases h with hread | ⟨es, hes⟩
  · rw [Decimal.read?, List.all_cons, hdigit, Bool.false_and, Bool.and_false] at hread
    cases hread
  · exact hquote (List.cons.inj hes).1

/-- A token of the class may have the spelling. -/
def Terminal.Spells (k : Terminal) (cs : List Char) : Prop :=
  (∀ w, k.word? = some w → cs = w.toList) ∧ (k = .literal → IsConstant cs)

/-- The token is spelled as its class asks. -/
def Token.Spelled (t : Token) : Prop := t.kind.Spells t.text.toList

/-- What a rule matches is spelled as the class of its tokens asks. -/
theorem LexRule.spells_of_matches {r : LexRule} {k : Terminal} {cs : List Char} (hr : r ∈ all)
    (hk : r.kind? = some k) (h : r.Matches cs) : k.Spells cs := by
  rcases List.mem_append.mp hr with hword | hopen
  · obtain ⟨k', -, hrule⟩ := List.mem_filterMap.mp hword
    obtain ⟨w', hw', rfl⟩ := Option.map_eq_some_iff.mp hrule
    cases hk
    refine ⟨fun w hw => ?_, fun hliteral => ?_⟩
    · rw [Option.some.inj (hw.symm.trans hw')]
      exact h
    · rw [hliteral] at hw'
      cases hw'
  · -- The open classes have no spelling of their own.
    have hkinds : ∀ r ∈ [literal, identifier, blanks, lineComment, blockComment],
        r.kind?.bind Terminal.word? = none ∧ (r.kind? = some .literal → r = .literal) := by decide
    obtain ⟨hnone, hrule⟩ := hkinds r hopen
    refine ⟨fun w hw => ?_, fun hliteral => ?_⟩
    · rw [hk, Option.bind_some, hw] at hnone
      cases hnone
    · obtain rfl := hrule (hliteral ▸ hk)
      rcases h with ⟨hne, hdigits⟩ | ⟨ds, rfl, -⟩
      · have hdigits : cs.all Char.isDigit = true := List.all_eq_true.mpr hdigits
        refine .inl ?_
        rw [Decimal.read?, if_pos]
        · rfl
        · simp [hdigits, hne]
      · exact .inr ⟨ds, rfl⟩

theorem Listed.mem_of_rule {r : LexRule} (h : rule r ∈ all) : r ∈ LexRule.all := by
  obtain ⟨s, hs, hrule⟩ := List.mem_flatMap.mp h
  grind

/-! ## The words of a text -/

/-- The class and the text of a token. -/
def Token.word (t : Token) : Terminal × String := (t.kind, t.text)

def Piece.word? : Piece → Option (Terminal × String)
  | token k cs => some (k, String.ofList cs)
  | _ => none

theorem Scan.words_ofPieces (p : Place) (ps : List Piece) :
    (ofPieces p ps).tokens.map Token.word = ps.filterMap Piece.word? ++ [(.eof, "<EOF>")] := by
  induction ps generalizing p with
  | nil => rfl
  | cons piece ps ih =>
    unfold ofPieces
    cases piece with
    | token k cs => simp [ih, Piece.word?, Token.word]
    | skipped | unknown => exact ih _

/-- What holds of every word that a text begins with holds of all words of a text. -/
theorem Pieced.forall_word {P : Terminal × String → Prop}
    (hP : ∀ {cs k text}, Begins cs (.token k text) → P (k, String.ofList text)) {cs : List Char}
    {ps : List Piece} (h : Pieced cs ps) : ∀ w ∈ ps.filterMap Piece.word?, P w := by
  induction h with
  | nil => nofun
  | @cons p _ _ hbegins _ ih =>
    cases p with
    | token k text => exact List.forall_mem_cons.mpr ⟨hP hbegins, ih⟩
    | skipped | unknown => exact ih

theorem Begins.spells {cs text : List Char} {k : Terminal} (h : Begins cs (.token k text)) :
    k.Spells text := by
  cases h with
  | token hnames hkind =>
    exact LexRule.spells_of_matches (Listed.mem_of_rule hnames.mem_all) hkind hnames.matched

/-- Every token of a text is spelled as its class asks. -/
theorem Scan.spelled (text : String) : ∀ t ∈ (Scan.ofText text).tokens, t.Spelled := by
  intro t ht
  have hword : t.word ∈ (Scan.ofText text).tokens.map Token.word := List.mem_map_of_mem ht
  rw [Scan.ofText, words_ofPieces] at hword
  rcases List.mem_append.mp hword with hpiece | hmark
  · refine Pieced.forall_word (P := fun w => w.1.Spells w.2.toList) (fun h => ?_)
      (Piece.pieced_pieces _) _ hpiece
    rw [String.toList_ofList]
    exact h.spells
  · have hkind : t.kind = .eof := congrArg Prod.fst (List.mem_singleton.mp hmark)
    rw [Token.Spelled, hkind]
    exact ⟨nofun, nofun⟩

end Scriptc
