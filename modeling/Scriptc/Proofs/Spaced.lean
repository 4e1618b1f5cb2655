import Scriptc.Proofs.Reader
import Scriptc.Proofs.Spelling

/-!
# Scriptc: tokens that are written out again

The texts of tokens, written one behind the other with blanks between neighbours, are cut into the
same tokens: `scan_undoes_spacing`. A token is named by its own text wherever a blank or the end of
the text follows (`Listed.Names.parted`). No rule but those of strings, comments and blanks matches
a blank, and no token begins as what these rules match with a blank in it (`LexRule.opens`).
-/

namespace Scriptc

variable {r : LexRule} {k : Terminal} {text cs gap : List Char}

namespace LexRule

variable {b c : Char} {ds u : List Char}

/-- Whether a text begins a string that it does not end, a comment or blanks. -/
def opens : List Char → Bool
  | [] => false
  | c :: ds => c == '"' && !ds.contains '"' || c == '/' && (ds.head? == some '/' ||
      ds.head? == some '*') || isBlank c

theorem opens_of_isBlank (hb : isBlank b = true) (ds : List Char) :
    opens (b :: ds) = true := by simp [opens, hb]

theorem isNamePart_of_opens (h : opens (c :: ds) = true) : isNamePart c = false := by
  simp only [opens, isBlank, Bool.or_eq_true, Bool.and_eq_true, beq_iff_eq] at h
  rcases h with (⟨rfl, -⟩ | ⟨rfl, -⟩) | ((rfl | rfl) | rfl) | rfl <;> rfl

/-- Whether a word opens nothing and has no blank in it. -/
def isClosedWord : LexRule → Bool
  | word _ w => !opens w && !w.any isBlank
  | _ => true

theorem isClosedWord_of_mem (hr : r ∈ all) : r.isClosedWord = true :=
  List.all_eq_true.mp (by decide : all.all isClosedWord = true) r hr

/-- What a rule matches has a blank only behind a text that opens something. -/
theorem opens_of_matches (hr : r ∈ all) (hb : isBlank b = true)
    (h : r.Matches (c :: ds ++ b :: u)) :
    opens (c :: ds) = true := by
  have hin : b ∈ ds ++ b :: u := List.mem_append_right ds (.head u)
  have hname : isNamePart b ≠ true := by simp [isNamePart_of_opens (opens_of_isBlank hb [])]
  cases r with
  | word k w =>
    obtain rfl : _ = w := h
    have hclosed := isClosedWord_of_mem hr
    simp [isClosedWord, hb] at hclosed
  | literal =>
    rcases h with ⟨-, hdigits⟩ | ⟨es, heq, hes⟩
    · exact absurd (by simp [isNamePart, hdigits b (.tail _ hin)]) hname
    · obtain ⟨rfl, hrest⟩ := List.cons.inj heq
      -- the blank is not the closing quote, so what stands before it lies within the quotes
      have hpre : ds <+: es := by
        refine (List.prefix_concat_iff.mp ⟨b :: u, hrest⟩).resolve_left fun heq => ?_
        rw [heq] at hrest
        simp at hrest
      have hquote : '"' ∉ ds := fun hmem => absurd (hes _ (hpre.subset hmem)) (by decide)
      simp [opens, hquote]
  | identifier =>
    obtain ⟨d, es, heq, -, hes⟩ := h
    grind
  | blanks => exact opens_of_isBlank (h.2 c (.head _)) ds
  | lineComment | blockComment =>
    obtain ⟨es, heq, -⟩ := h
    obtain ⟨rfl, hrest⟩ := List.cons.inj heq
    cases ds with
    | nil =>
      obtain ⟨rfl, -⟩ := List.cons.inj hrest
      cases hb
    | cons d ds =>
      obtain ⟨rfl, -⟩ := List.cons.inj hrest
      rfl

/-- A token opens nothing. -/
theorem opens_of_kind (hr : r ∈ all) (hk : r.kind? = some k) (h : r.Matches text) :
    opens text = false := by
  have hname : ∀ {c ds}, isNamePart c = true → opens (c :: ds) = false := by
    intro c ds hc
    rw [← Bool.not_eq_true]
    intro hopens
    rw [isNamePart_of_opens hopens] at hc
    cases hc
  cases r with
  | word k w =>
    obtain rfl : _ = w := h
    have hclosed := isClosedWord_of_mem hr
    simp_all [isClosedWord]
  | literal =>
    rcases h with ⟨hne, hdigits⟩ | ⟨ds, rfl, -⟩
    · obtain ⟨c, ds, rfl⟩ := List.exists_cons_of_ne_nil hne
      exact hname (by simp [isNamePart, hdigits c (.head _)])
    · simp [opens, isBlank]
  | identifier =>
    obtain ⟨c, ds, rfl, hc, -⟩ := h
    exact hname (by simp [isNamePart, hc])
  | blanks | lineComment | blockComment => cases hk

end LexRule

/-- A text that is empty or begins with a blank. -/
def Parted (cs : List Char) : Prop := ∀ c ds, cs = c :: ds → LexRule.isBlank c = true

/-- A longer prefix goes on with what follows. -/
theorem longer_prefix {t rest : List Char} (hpre : t <+: text ++ rest)
    (hlt : text.length < t.length) :
    ∃ c u v, t = text ++ c :: u ∧ rest = c :: v := by
  obtain ⟨u, rfl⟩ :=
    List.prefix_of_prefix_length_le (List.prefix_append text rest) hpre (Nat.le_of_lt hlt)
  obtain ⟨v, rfl⟩ := (List.prefix_append_right_inj text).mp hpre
  cases u with
  | nil => simp at hlt
  | cons c u => exact ⟨c, u, u ++ v, rfl, rfl⟩

/-- A token is named by its own text where a blank or nothing follows. -/
theorem Listed.Names.parted (h : (rule r).Names text cs) (hk : r.kind? = some k) {rest : List Char}
    (hrest : Parted rest) : (rule r).Names text (text ++ rest) := by
  refine ⟨List.prefix_append text rest, h.matched,
    fun l hl t ht hpre => Nat.not_lt.mp fun hlt => ?_, h.earliest⟩
  obtain ⟨b, u, v, rfl, hb⟩ := longer_prefix hpre hlt
  obtain ⟨s, hs, hst⟩ := matches_rule hl ht
  obtain ⟨c, ds, rfl⟩ := List.exists_cons_of_ne_nil h.ne_nil
  have hopens := LexRule.opens_of_matches hs (hrest b v hb) hst
  rw [LexRule.opens_of_kind (mem_of_rule h.mem_all) hk h.matched] at hopens
  cases hopens

/-- What begins with a blank is matched by the rule of blanks only. -/
theorem LexRule.eq_blanks_of_matches {b : Char} {t : List Char} (hr : r ∈ all)
    (hb : isBlank b = true) (h : r.Matches (b :: t)) : r = blanks := by
  cases hk : r.kind? with
  | some k =>
    have hopens := opens_of_kind hr hk h
    rw [opens_of_isBlank hb] at hopens
    cases hopens
  | none =>
    cases r with
    | word | literal | identifier => cases hk
    | blanks => rfl
    | lineComment | blockComment =>
      obtain ⟨es, heq, -⟩ := h
      rw [(List.cons.inj heq).1] at hb
      cases hb

/-- Blanks are a piece of their own in front of a text that begins with no blank. -/
theorem begins_blanks (hne : gap ≠ []) (hgap : ∀ c ∈ gap, LexRule.isBlank c = true)
    (hcs : ∀ c ds, cs = c :: ds → LexRule.isBlank c = false) :
    Begins (gap ++ cs) (.skipped gap) := by
  have hblanks : ∀ s ∈ LexRule.all, ∀ {u}, s.Matches (gap ++ u) → s = .blanks := by
    intro s hs u hu
    obtain ⟨b, ds, rfl⟩ := List.exists_cons_of_ne_nil hne
    exact LexRule.eq_blanks_of_matches hs (hgap b (.head _)) hu
  refine .skipped (r := .blanks) ⟨List.prefix_append gap cs, ⟨hne, hgap⟩,
    fun l hl t ht hpre => Nat.not_lt.mp fun hlt => ?_, ?_⟩ rfl
  · obtain ⟨c, u, v, rfl, hc⟩ := longer_prefix hpre hlt
    obtain ⟨s, hs, hst⟩ := Listed.matches_rule hl ht
    obtain rfl := hblanks s hs hst
    have hblank := hst.2 c (by simp)
    rw [hcs c v hc] at hblank
    cases hblank
  · obtain ⟨pre, post, hall, hpre⟩ :=
      List.eq_append_cons_of_mem (show LexRule.blanks ∈ LexRule.all by decide)
    rw [Listed.all, hall, List.flatMap_append, List.flatMap_cons, List.cons_append]
    refine ⟨_, _, rfl, fun l hl hmatch => ?_⟩
    obtain ⟨s, hs, hst⟩ := Listed.matches_rule hl hmatch
    rw [← List.append_nil gap] at hst
    exact hpre (hblanks s (hall ▸ List.mem_append_left _ hs) hst ▸ hs)

def Piece.isKnown : Piece → Bool
  | unknown _ => false
  | _ => true

theorem Scan.unknown_ofPieces (p : Place) {ps : List Piece}
    (h : ∀ piece ∈ ps, piece.isKnown = true) :
    (ofPieces p ps).unknown = [] := by
  induction ps generalizing p with
  | nil => rfl
  | cons piece ps ih =>
    obtain ⟨hpiece, hps⟩ := List.forall_mem_cons.mp h
    unfold ofPieces
    cases piece with
    | token | skipped => exact ih _ hps
    | unknown => cases hpiece

/-- Texts of tokens, with a gap before each and one behind the last. -/
def spaced (gaps : Nat → List Char) : List (Terminal × String) → List Char
  | [] => gaps 0
  | w :: ws => gaps 0 ++ (w.2.toList ++ spaced (fun i => gaps (i + 1)) ws)

/-- The text of a token is cut off as it is where a blank or nothing follows. -/
structure Detached (w : Terminal × String) : Prop where
  unblank : ∀ rest c ds, w.2.toList ++ rest = c :: ds → LexRule.isBlank c = false
  begins : ∀ rest, Parted rest → Begins (w.2.toList ++ rest) (.token w.1 w.2.toList)

theorem Begins.detached (h : Begins cs (.token k text)) : Detached (k, String.ofList text) := by
  cases h with
  | @token r _ _ hnames hk =>
    have hopens := LexRule.opens_of_kind (Listed.mem_of_rule hnames.mem_all) hk hnames.matched
    constructor <;> rw [String.toList_ofList]
    · obtain ⟨d, es, rfl⟩ := List.exists_cons_of_ne_nil hnames.ne_nil
      intro rest c ds heq
      rw [← Bool.not_eq_true, ← (List.cons.inj heq).1]
      intro hblank
      rw [LexRule.opens_of_isBlank hblank] at hopens
      cases hopens
    · exact fun rest hrest => .token (hnames.parted hk hrest) hk

/-- A text is cut into tokens of these classes and texts, and nothing in it is unrecognised. -/
def Scanned (cs : List Char) (ws : List (Terminal × String)) : Prop :=
  ∃ ps, Pieced cs ps ∧ ps.filterMap Piece.word? = ws ∧ ∀ p ∈ ps, p.isKnown = true

namespace Scanned

variable {ws : List (Terminal × String)} {w : Terminal × String}

/-- Blanks in front of a text that begins with none are skipped, if there are any. -/
theorem blanks (h : Scanned cs ws) (hgap : ∀ c ∈ gap, LexRule.isBlank c = true)
    (hcs : ∀ c ds, cs = c :: ds → LexRule.isBlank c = false) : Scanned (gap ++ cs) ws := by
  obtain ⟨ps, hps, hws, hknown⟩ := h
  by_cases hne : gap = []
  · exact ⟨ps, by rwa [hne], hws, hknown⟩
  · exact ⟨.skipped gap :: ps, .cons (p := .skipped gap) (begins_blanks hne hgap hcs) hps, hws,
      List.forall_mem_cons.mpr ⟨rfl, hknown⟩⟩

theorem token (h : Scanned cs ws) (hw : Detached w) (hcs : Parted cs) :
    Scanned (w.2.toList ++ cs) (w :: ws) := by
  obtain ⟨ps, hps, rfl, hknown⟩ := h
  refine ⟨.token w.1 w.2.toList :: ps,
    .cons (p := .token w.1 w.2.toList) (hw.begins cs hcs) hps, ?_,
    List.forall_mem_cons.mpr ⟨rfl, hknown⟩⟩
  simp [Piece.word?]

theorem parted_spaced {gaps : Nat → List Char} (hblank : ∀ c ∈ gaps 0, LexRule.isBlank c = true)
    (ws : List (Terminal × String)) (hgap : 0 < ws.length → gaps 0 ≠ []) :
    Parted (spaced gaps ws) := by
  rintro c ds heq
  cases ws with
  | nil => exact hblank c (heq ▸ .head _ : c ∈ spaced gaps [])
  | cons w ws =>
    obtain ⟨b, gap, hgap⟩ := List.exists_cons_of_ne_nil (hgap (Nat.succ_pos _))
    rw [spaced, hgap] at heq
    exact (List.cons.inj heq).1 ▸ hblank b (hgap ▸ .head _)

theorem of_spaced {gaps : Nat → List Char} (hws : ∀ w ∈ ws, Detached w)
    (hblank : ∀ i, ∀ c ∈ gaps i, LexRule.isBlank c = true)
    (hgap : ∀ i, 0 < i → i < ws.length → gaps i ≠ []) : Scanned (spaced gaps ws) ws := by
  induction ws generalizing gaps with
  | nil =>
    have hend : Scanned [] [] := ⟨[], .nil, rfl, nofun⟩
    have hblanks := hend.blanks (hblank 0) nofun
    rwa [List.append_nil] at hblanks
  | cons w ws ih =>
    obtain ⟨hw, hws⟩ := List.forall_mem_cons.mp hws
    have htail := ih hws (fun i => hblank (i + 1)) fun i _ hi =>
      hgap (i + 1) (Nat.succ_pos i) (Nat.succ_lt_succ hi)
    have hparted : Parted (spaced (fun i => gaps (i + 1)) ws) :=
      parted_spaced (hblank 1) ws fun hlength => hgap 1 Nat.one_pos (Nat.succ_lt_succ hlength)
    exact (htail.token hw hparted).blanks (hblank 0) (hw.unblank _)

end Scanned

/-- **Lexing undoes printing.** The texts of the tokens of a text, written again with blanks between
neighbours, and with or without blanks at both ends, are read as the same tokens, and nothing is
unrecognised. -/
theorem scan_undoes_spacing (s : String) (gaps : Nat → List Char)
    (hblank : ∀ i, ∀ c ∈ gaps i, LexRule.isBlank c = true)
    (hgap : ∀ i, 0 < i → i < (Scan.ofText s).tokens.dropLast.length → gaps i ≠ []) :
    (Scan.ofText (String.ofList
      (spaced gaps ((Scan.ofText s).tokens.dropLast.map Token.word)))).unknown = [] ∧
    (Scan.ofText (String.ofList
      (spaced gaps ((Scan.ofText s).tokens.dropLast.map Token.word)))).tokens.map
      Token.word = (Scan.ofText s).tokens.map Token.word := by
  have hpieced := Piece.pieced_pieces s.toList
  have htokens := Scan.words_ofPieces {} (Piece.pieces s.toList)
  have hwords : (Scan.ofText s).tokens.dropLast.map Token.word =
    (Piece.pieces s.toList).filterMap Piece.word? := by
    rw [List.map_dropLast, Scan.ofText, htokens, List.dropLast_concat]
  rw [← List.length_map Token.word, hwords] at hgap
  obtain ⟨ps, hps, hword, hknown⟩ :=
    Scanned.of_spaced (Pieced.forall_word Begins.detached hpieced) hblank hgap
  have hagain : Piece.pieces (spaced gaps ((Piece.pieces s.toList).filterMap Piece.word?)) = ps :=
    (Piece.pieced_pieces _).unique hps
  rw [hwords, Scan.ofText, String.toList_ofList, hagain]
  exact ⟨Scan.unknown_ofPieces _ hknown, by rw [Scan.words_ofPieces, hword, Scan.ofText, htokens]⟩

/-- The words of a division, each on a line of its own: blanks and a comment mark within quotes are
no gap. -/
theorem scan_undoes_spacing_lines : (Scan.ofText "\n\"a //b\"\n/\n2\n").unknown = [] ∧
    (Scan.ofText "\n\"a //b\"\n/\n2\n").tokens.map Token.word =
    (Scan.ofText "\"a //b\"/2").tokens.map Token.word := by
  have hwords : (Scan.ofText "\"a //b\"/2").tokens.dropLast.map Token.word =
      [(.literal, "\"a //b\""), (.div, "/"), (.literal, "2")] := by
    rw [← Ascii.scan_eq (by decide +kernel)]
    decide +kernel
  have hspaced := scan_undoes_spacing "\"a //b\"/2" (fun _ => ['\n'])
    (by simp [LexRule.isBlank]) (by simp)
  rw [hwords] at hspaced
  exact hspaced

end Scriptc
