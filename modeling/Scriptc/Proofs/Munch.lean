import Mathlib.Data.List.DropRight
import Scriptc.Token.Scan

/-!
# Scriptc: longest match

The lexical rules as languages, apart from the measures by which a text is cut:

* `LexRule.Matches`: the texts that a rule matches, and `Listed`, all rules in the order of the
  grammar, where numbers and quoted strings have rules of their own behind the one for both.
* `LongestIn L cs n`: the longest prefix of `cs` in `L` has `n` characters. The two measures of a
  rule are such lengths, of its matches (`munch_longest`) and of the beginnings of its matches
  (`progress_longest`).
* `Begins cs p`: the piece that a text begins with. It is the longest match, named by the earliest
  rule, or else a text up to the first character with which no rule goes on.
* `scan_maximal_munch`: a text is cut into such pieces, nothing is lost, and tokens and unrecognised
  texts are placed by the lines and characters before them.
-/

namespace Scriptc

variable {t : List Char} {cs : List Char} {r : LexRule}

/-! ## Languages -/

namespace LexRule

def IsNumber (cs : List Char) : Prop := cs ≠ [] ∧ ∀ c ∈ cs, isDigit c = true

def IsQuoted (cs : List Char) : Prop :=
  ∃ ds, cs = '"' :: (ds ++ ['"']) ∧ ∀ d ∈ ds, isStringPart d = true

/-- What follows the opening of a block comment: all up to the first `*/`. -/
def IsClosed (ds : List Char) : Prop :=
  ['*', '/'] <:+ ds ∧ ∀ es, es <+: ds → ['*', '/'] <:+ es → es = ds

/-- The texts that a rule matches. -/
def Matches : LexRule → List Char → Prop
  | word _ w, cs => cs = w
  | literal, cs => IsNumber cs ∨ IsQuoted cs
  | identifier, cs => ∃ c ds, cs = c :: ds ∧ isNameStart c = true ∧ ∀ d ∈ ds, isNamePart d = true
  | blanks, cs => cs ≠ [] ∧ ∀ c ∈ cs, isBlank c = true
  | lineComment, cs => ∃ ds, cs = '/' :: '/' :: ds ∧ ∀ d ∈ ds, isLinePart d = true
  | blockComment, cs => ∃ ds, cs = '/' :: '*' :: ds ∧ IsClosed ds

/-- A text with which the rule can go on to a match. -/
def Viable (r : LexRule) (cs : List Char) : Prop := ∃ ds, r.Matches (cs ++ ds)

end LexRule

/-- `n` characters make the longest prefix of a text that is in a language. -/
@[grind cases] structure LongestIn {α : Type} (L : List α → Prop) (cs : List α) (n : Nat) :
    Prop where
  le : n ≤ cs.length
  mem : L (cs.take n)
  max : ∀ t, L t → t <+: cs → t.length ≤ n

namespace LongestIn

variable {α : Type} {L M : List α → Prop} {cs : List α} {n : Nat} {c : α}

theorem congr (h : ∀ t, L t ↔ M t) (hL : LongestIn L cs n) : LongestIn M cs n :=
  ⟨hL.le, (h _).mp hL.mem, fun t ht => hL.max t ((h t).mpr ht)⟩

/-- One character more, behind which the texts of another language lie. -/
theorem push (h : LongestIn L cs n) (hM : ∀ t, M (c :: t) ↔ L t) :
    LongestIn M (c :: cs) (n + 1) := by
  refine ⟨Nat.succ_le_succ h.le, (hM _).mpr h.mem, fun t ht hpre => ?_⟩
  cases t with
  | nil => exact Nat.zero_le _
  | cons d t =>
    obtain ⟨rfl, hrest⟩ := List.cons_prefix_cons.mp hpre
    exact Nat.succ_le_succ (h.max t ((hM t).mp ht) hrest)

theorem cons (h : LongestIn L cs n) :
    LongestIn (fun t => ∃ ds, t = c :: ds ∧ L ds) (c :: cs) (n + 1) :=
  h.push fun t => by simp

/-- A language in which no prefix of the text but the empty one lies. -/
theorem zero (hnil : L []) (h : ∀ t, L t → t <+: cs → t = []) : LongestIn L cs 0 :=
  ⟨Nat.zero_le _, hnil, fun t ht hpre => by rw [h t ht hpre]; exact Nat.le_refl 0⟩

theorem nil (hnil : L []) : LongestIn L [] 0 := zero hnil fun _ _ ht => List.prefix_nil.mp ht

theorem stuck (hnil : L []) (h : ∀ t, ¬ L (c :: t)) : LongestIn L (c :: cs) 0 := by
  refine zero hnil fun t ht hpre => ?_
  cases t with
  | nil => rfl
  | cons d t => exact absurd ((List.cons_prefix_cons.mp hpre).1 ▸ ht) (h t)

/-- A longest prefix in one language that outdoes the other language. -/
theorem or_of_max (h : LongestIn L cs n) (hM : ∀ t, M t → t <+: cs → t.length ≤ n) :
    LongestIn (fun t => L t ∨ M t) cs n :=
  ⟨h.le, .inl h.mem, fun t ht hpre => ht.elim (h.max t · hpre) (hM t · hpre)⟩

theorem sup {m : Nat} (hL : LongestIn L cs m) (hM : LongestIn M cs n) :
    LongestIn (fun t => L t ∨ M t) cs (Max.max m n) := by
  rcases Nat.le_total m n with h | h
  · rw [Nat.max_eq_right h]
    exact congr (fun _ => or_comm) (hM.or_of_max fun t ht hpre => Nat.le_trans (hL.max t ht hpre) h)
  · rw [Nat.max_eq_left h]
    exact hL.or_of_max fun t ht hpre => Nat.le_trans (hM.max t ht hpre) h

theorem orNil (h : LongestIn L cs n) : LongestIn (fun t => t = [] ∨ L t) cs n :=
  LongestIn.congr (fun _ => or_comm) (h.or_of_max fun t ht _ => by rw [ht]; exact Nat.zero_le n)

/-- A text that does not begin with the character that all texts of a language begin with. -/
theorem of_head_ne (h : ¬ ∃ ds, cs = c :: ds) :
    LongestIn (fun t => t = [] ∨ ∃ ds, t = c :: ds ∧ L ds) cs 0 := by
  refine zero (.inl rfl) ?_
  rintro t (rfl | ⟨ds, rfl, -⟩) ⟨u, hu⟩
  · rfl
  · exact absurd ⟨ds ++ u, hu.symm⟩ h

/-- Two characters in front of the texts of a language. -/
theorem cons_cons {d : α} (h : LongestIn L cs n) :
    LongestIn (fun t => ∃ ds, t = c :: d :: ds ∧ L ds) (c :: d :: cs) (n + 2) :=
  h.cons.push fun t => by simp

/-- Beginnings of two characters and of the texts of a language behind them. -/
theorem opened {d : α} {f g : List α → Nat} (hL : ∀ es, LongestIn L es (g es))
    (htwo : ∀ es, f (c :: d :: es) = g es + 2) (hone : ∀ ds, (∀ es, ds ≠ d :: es) → f (c :: ds) = 1)
    (hnone : ∀ cs, (¬ ∃ ds, cs = c :: ds) → f cs = 0) (cs : List α) :
    LongestIn (fun t => t = [] ∨ ∃ ds, t = c :: ds ∧
      (ds = [] ∨ ∃ es, ds = d :: es ∧ L es)) cs (f cs) := by
  by_cases hfirst : ∃ ds, cs = c :: ds
  · obtain ⟨ds, rfl⟩ := hfirst
    by_cases hsecond : ∃ es, ds = d :: es
    · obtain ⟨es, rfl⟩ := hsecond
      rw [htwo]
      exact (hL es).cons.orNil.cons.orNil
    · rw [hone ds fun es h => hsecond ⟨es, h⟩]
      exact (of_head_ne hsecond).cons.orNil
  · rw [hnone cs hfirst]
    exact of_head_ne hfirst

end LongestIn

/-- The length of the longest prefix of a text that is in a language, if there is one. -/
def Measures (L : List Char → Prop) (cs : List Char) : Option Nat → Prop
  | some n => LongestIn L cs n
  | none => ∀ t, L t → ¬ t <+: cs

/-! ## The measures of each rule -/

namespace LexRule

theorem prefix_of_runLength (p : Char → Bool) (cs : List Char) :
    LongestIn (fun t => ∀ c ∈ t, p c = true) cs (runLength p cs) := by
  induction cs with
  | nil => exact .nil (by simp)
  | cons c cs ih =>
    rw [runLength]
    split
    · exact ih.push fun t => by simp [‹p c = true›]
    · exact .stuck (by simp) fun t ht => absurd (ht c (.head _)) ‹_›

variable {c : Char} {es rest : List Char}

/-- A run ends at the first character outside the class. -/
theorem runLength_append {p : Char → Bool} {ds : List Char} (hds : ∀ d ∈ ds, p d = true)
    (hc : p c = false) (es : List Char) : runLength p (ds ++ c :: es) = ds.length := by
  induction ds with
  | nil => rw [List.nil_append, runLength, hc]; rfl
  | cons d ds ih =>
    obtain ⟨hd, hds⟩ := List.forall_mem_cons.mp hds
    rw [List.cons_append, runLength, hd, if_pos rfl, ih hds, List.length_cons]

/-! ### Words -/

theorem longest_sharedLength (w cs : List Char) : LongestIn (· <+: w) cs (sharedLength w cs) := by
  induction w generalizing cs with
  | nil => exact LongestIn.zero List.nil_prefix fun t ht _ => List.prefix_nil.mp ht
  | cons a w ih =>
    cases cs with
    | nil => exact .nil List.nil_prefix
    | cons c cs =>
      rw [sharedLength]
      split
      · rename_i heq
        subst heq
        exact (ih cs).push fun t => by simp [List.cons_prefix_cons]
      · exact .stuck List.nil_prefix fun t ht => absurd (List.cons_prefix_cons.mp ht).1.symm ‹_›

/-! ### Constants -/

/-- What may follow an opening quote: characters of a string, and a closing quote behind them. -/
def IsQuotedRest (ds : List Char) : Prop :=
  (∀ d ∈ ds, isStringPart d = true) ∨ ∃ es, ds = es ++ ['"'] ∧ ∀ d ∈ es, isStringPart d = true

theorem viable_literal_iff :
    literal.Viable t ↔ (∀ c ∈ t, isDigit c = true) ∨ ∃ ds, t = '"' :: ds ∧ IsQuotedRest ds := by
  constructor
  · rintro ⟨u, ⟨-, hdigits⟩ | ⟨ds, htext, hds⟩⟩
    · exact .inl fun c hc => hdigits c (List.mem_append_left u hc)
    · cases t with
      | nil => exact .inl (by simp)
      | cons c t =>
        obtain ⟨rfl, hrest⟩ := List.cons.inj htext
        refine .inr ⟨t, rfl, ?_⟩
        rcases List.prefix_concat_iff.mp ⟨u, hrest⟩ with rfl | hpre
        · exact .inr ⟨ds, rfl, hds⟩
        · exact .inl fun d hd => hds d (hpre.subset hd)
  · rintro (hdigits | ⟨ds, rfl, hds | ⟨es, rfl, hes⟩⟩)
    · refine ⟨['0'], .inl ⟨by simp, fun c hc => ?_⟩⟩
      rcases List.mem_append.mp hc with hin | hlast
      · exact hdigits c hin
      · rw [List.mem_singleton.mp hlast]
        rfl
    · exact ⟨['"'], .inr ⟨ds, rfl, hds⟩⟩
    · exact ⟨[], .inr ⟨es, List.append_nil _, hes⟩⟩

theorem IsQuoted.eq_run (h : IsQuoted t) (hpre : t <+: '"' :: rest) :
    ∃ tail, rest.drop (runLength isStringPart rest) = '"' :: tail ∧
      t.length = runLength isStringPart rest + 2 := by
  obtain ⟨ds, rfl, hds⟩ := h
  obtain ⟨u, hu⟩ := (List.cons_prefix_cons.mp hpre).2
  rw [List.append_assoc, List.singleton_append] at hu
  subst hu
  rw [runLength_append hds rfl u]
  exact ⟨u, List.drop_left, by simp⟩

/-- A number does not begin with a quote. -/
theorem digits_quote (h : ∀ c ∈ t, isDigit c = true) (hpre : t <+: '"' :: rest) : t = [] := by
  cases t with
  | nil => rfl
  | cons c t =>
    obtain ⟨rfl, -⟩ := List.cons_prefix_cons.mp hpre
    cases h _ (.head _)

theorem quoted_of_run {tail : List Char}
    (h : rest.drop (runLength isStringPart rest) = '"' :: tail) :
    IsQuoted (('"' :: rest).take (runLength isStringPart rest + 2)) := by
  refine ⟨rest.take (runLength isStringPart rest), ?_, (prefix_of_runLength isStringPart rest).mem⟩
  rw [List.take_succ_cons, List.take_add, h]
  rfl

theorem munch_literal (cs : List Char) : Measures literal.Matches cs (literal.munch cs) := by
  by_cases hquote : ∃ rest, cs = '"' :: rest
  · obtain ⟨rest, rfl⟩ := hquote
    rw [munch.eq_2]
    split
    -- The quote is closed: the literal ends there, and digits cannot begin with a quote.
    · rename_i tail hdrop
      refine ⟨?_, .inr (quoted_of_run hdrop), ?_⟩
      · have hlength := congrArg List.length hdrop
        grind
      · rintro t (⟨hne, hdigits⟩ | hquoted) hpre
        · exact absurd (digits_quote hdigits hpre) hne
        · obtain ⟨-, -, hlength⟩ := hquoted.eq_run hpre
          exact Nat.le_of_eq hlength
    -- It is not closed, so there is no literal.
    · rename_i hdrop
      rintro t (⟨hne, hdigits⟩ | hquoted) hpre
      · exact hne (digits_quote hdigits hpre)
      · obtain ⟨tail, htail, -⟩ := hquoted.eq_run hpre
        exact hdrop tail htail
  -- Without a quote only digits are left.
  · have hother : ∀ t, IsQuoted t → ¬ t <+: cs := by
      rintro _ ⟨ds, rfl, -⟩ ⟨u, hu⟩
      exact hquote ⟨_, hu.symm⟩
    have hrun := prefix_of_runLength isDigit cs
    rw [munch.eq_3 cs fun rest h => hquote ⟨rest, h⟩]
    split
    · rename_i hzero
      rintro t (⟨hne, hdigits⟩ | hquoted) hpre
      · have hle := hrun.max t hdigits hpre
        rw [hzero] at hle
        exact hne (List.eq_nil_of_length_eq_zero (Nat.le_zero.mp hle))
      · exact hother t hquoted hpre
    · rename_i hpos
      refine ⟨hrun.le, .inl ⟨?_, hrun.mem⟩, ?_⟩
      · intro hnil
        rcases List.take_eq_nil_iff.mp hnil with hzero | rfl
        · exact hpos hzero
        · exact hpos rfl
      · rintro t (⟨-, hdigits⟩ | hquoted) hpre
        · exact hrun.max t hdigits hpre
        · exact absurd hpre (hother t hquoted)

/-- A quoted text in front of which a string is open ends where the run of its characters ends. -/
theorem quotedRest_eq_run (hes : ∀ d ∈ es, isStringPart d = true) (hpre : es ++ ['"'] <+: rest) :
    ∃ tail, rest.drop (runLength isStringPart rest) = '"' :: tail ∧
      (es ++ ['"']).length = runLength isStringPart rest + 1 := by
  obtain ⟨tail, htail, hlength⟩ :=
    IsQuoted.eq_run ⟨es, rfl, hes⟩ (List.cons_prefix_cons.mpr ⟨rfl, hpre⟩)
  exact ⟨tail, htail, Nat.succ.inj hlength⟩

theorem longest_quotedRest_closed {tail : List Char}
    (hdrop : rest.drop (runLength isStringPart rest) = '"' :: tail) :
    LongestIn IsQuotedRest rest (runLength isStringPart rest + 1) := by
  have hrun := prefix_of_runLength isStringPart rest
  have hlength := congrArg List.length hdrop
  rw [List.length_drop, List.length_cons] at hlength
  refine ⟨by omega, .inr ⟨rest.take (runLength isStringPart rest), ?_, hrun.mem⟩, ?_⟩
  · rw [List.take_add, hdrop]
    rfl
  · rintro t (hall | ⟨es, rfl, hes⟩) hpre
    · exact Nat.le_succ_of_le (hrun.max t hall hpre)
    · obtain ⟨-, -, hes⟩ := quotedRest_eq_run hes hpre
      exact Nat.le_of_eq hes

theorem longest_quotedRest_open
    (hdrop : ∀ tail, rest.drop (runLength isStringPart rest) ≠ '"' :: tail) :
    LongestIn IsQuotedRest rest (runLength isStringPart rest) := by
  refine (prefix_of_runLength isStringPart rest).or_of_max ?_
  rintro _ ⟨es, rfl, hes⟩ hpre
  obtain ⟨tail, htail, -⟩ := quotedRest_eq_run hes hpre
  exact absurd htail (hdrop tail)

theorem progress_literal (cs : List Char) : LongestIn literal.Viable cs (literal.progress cs) := by
  refine LongestIn.congr (fun t => viable_literal_iff.symm) ?_
  by_cases hquote : ∃ rest, cs = '"' :: rest
  · obtain ⟨rest, rfl⟩ := hquote
    have hquoted : LongestIn (fun t => ∃ ds, t = '"' :: ds ∧ IsQuotedRest ds) ('"' :: rest)
        (literal.progress ('"' :: rest)) := by
      rw [progress.eq_2]
      split
      · rename_i hdrop
        exact (longest_quotedRest_closed hdrop).cons
      · rename_i hdrop
        exact (longest_quotedRest_open hdrop).cons
    refine LongestIn.congr (fun t => or_comm) (hquoted.or_of_max fun t ht hpre => ?_)
    rw [digits_quote ht hpre]
    exact Nat.zero_le _
  · rw [progress.eq_3 cs fun rest h => hquote ⟨rest, h⟩]
    refine (prefix_of_runLength isDigit cs).or_of_max ?_
    rintro _ ⟨ds, rfl, -⟩ ⟨u, hu⟩
    exact absurd ⟨_, hu.symm⟩ hquote

/-! ### Identifiers and blanks -/

theorem viable_identifier_iff : identifier.Viable t ↔ t = [] ∨ identifier.Matches t := by
  constructor
  · rintro ⟨u, c, ds, htext, hc, hds⟩
    cases t with
    | nil => exact .inl rfl
    | cons d t =>
      obtain ⟨rfl, rfl⟩ := List.cons.inj htext
      exact .inr ⟨d, t, rfl, hc, fun e he => hds e (List.mem_append_left u he)⟩
  · rintro (rfl | hmatch)
    · exact ⟨['_'], '_', [], rfl, rfl, by simp⟩
    · exact ⟨[], by rwa [List.append_nil]⟩

/-- A text that begins as no identifier does holds none at its beginning. -/
theorem not_identifier (h : ∀ c ∈ cs.head?, ¬ isNameStart c = true) (ht : identifier.Matches t) :
    ¬ t <+: cs := by
  rintro ⟨u, rfl⟩
  obtain ⟨c, ds, rfl, hc, -⟩ := ht
  exact h c rfl hc

theorem longest_identifier (hc : isNameStart c = true) (cs : List Char) :
    LongestIn identifier.Matches (c :: cs) (runLength isNamePart cs + 1) := by
  refine ⟨Nat.succ_le_succ (prefix_of_runLength isNamePart cs).le,
    ⟨c, _, List.take_succ_cons, hc, (prefix_of_runLength isNamePart cs).mem⟩, ?_⟩
  rintro _ ⟨d, ds, rfl, -, hds⟩ hpre
  exact Nat.succ_le_succ
    ((prefix_of_runLength isNamePart cs).max ds hds (List.cons_prefix_cons.mp hpre).2)

theorem munch_identifier (cs : List Char) :
    Measures identifier.Matches cs (identifier.munch cs) := by
  cases cs with
  | nil => exact fun t ht => not_identifier nofun ht
  | cons c cs =>
    rw [munch.eq_4]
    split
    · rename_i hc
      exact longest_identifier hc cs
    · rename_i hc
      exact fun t ht => not_identifier (by simpa using hc) ht

theorem progress_identifier (cs : List Char) :
    LongestIn identifier.Viable cs (identifier.progress cs) := by
  refine LongestIn.congr (fun t => viable_identifier_iff.symm) ?_
  cases cs with
  | nil => exact .nil (.inl rfl)
  | cons c cs =>
    rw [progress.eq_4]
    split
    · rename_i hc
      exact (longest_identifier hc cs).orNil
    · rename_i hc
      refine LongestIn.zero (.inl rfl) fun t ht hpre => ht.resolve_right fun hmatch => ?_
      exact not_identifier (by simpa using hc) hmatch hpre

theorem viable_blanks_iff : blanks.Viable t ↔ ∀ c ∈ t, isBlank c = true := by
  constructor
  · rintro ⟨u, -, hall⟩ c hc
    exact hall c (List.mem_append_left u hc)
  · intro hall
    refine ⟨[' '], by simp, fun c hc => ?_⟩
    rcases List.mem_append.mp hc with hin | hlast
    · exact hall c hin
    · rw [List.mem_singleton.mp hlast]
      rfl

theorem munch_blanks (cs : List Char) : Measures blanks.Matches cs (blanks.munch cs) := by
  cases cs with
  | nil => exact fun t ht hpre => ht.1 (List.prefix_nil.mp hpre)
  | cons c cs =>
    have hrun := prefix_of_runLength isBlank (c :: cs)
    rw [runLength] at hrun
    rw [munch.eq_5]
    split at hrun
    · rename_i hc
      rw [if_pos hc]
      exact ⟨hrun.le, ⟨by simp, hrun.mem⟩, fun t ht => hrun.max t ht.2⟩
    · rename_i hc
      rw [if_neg hc]
      intro t ht hpre
      exact ht.1 (List.eq_nil_of_length_eq_zero (Nat.le_zero.mp (hrun.max t ht.2 hpre)))

theorem progress_blanks (cs : List Char) : LongestIn blanks.Viable cs (blanks.progress cs) :=
  (prefix_of_runLength isBlank cs).congr fun _ => viable_blanks_iff.symm

/-! ### Comments -/

/-- The beginnings of two characters and of the texts of a language, if every beginning of these is
in `V`. -/
theorem viable_opened_iff {d : Char} {L V : List Char → Prop} (hL : ∃ ds, L ds)
    (hV : ∀ {t}, V t ↔ ∃ u, L (t ++ u)) : (∃ u ds, t ++ u = c :: d :: ds ∧ L ds) ↔
      t = [] ∨ ∃ ds, t = c :: ds ∧ (ds = [] ∨ ∃ es, ds = d :: es ∧ V es) := by
  constructor
  · rintro ⟨u, ds, htext, hds⟩
    rcases t with - | ⟨c, - | ⟨d, t⟩⟩
    · exact .inl rfl
    · grind
    · grind
  · obtain ⟨ds, hds⟩ := hL
    rintro (rfl | ⟨_, rfl, rfl | ⟨es, rfl, hes⟩⟩)
    · exact ⟨c :: d :: ds, ds, rfl, hds⟩
    · exact ⟨d :: ds, ds, rfl, hds⟩
    · obtain ⟨u, hu⟩ := hV.mp hes
      exact ⟨u, es ++ u, rfl, hu⟩

theorem munch_lineComment (cs : List Char) :
    Measures lineComment.Matches cs (lineComment.munch cs) := by
  by_cases hopen : ∃ ds, cs = '/' :: '/' :: ds
  · obtain ⟨ds, rfl⟩ := hopen
    rw [munch.eq_6]
    exact (prefix_of_runLength isLinePart ds).cons_cons
  · have hnone : lineComment.munch cs = none := by
      unfold munch
      split <;> simp_all
    rw [hnone]
    rintro _ ⟨ds, rfl, -⟩ ⟨u, hu⟩
    exact hopen ⟨ds ++ u, hu.symm⟩

theorem progress_lineComment (cs : List Char) :
    LongestIn lineComment.Viable cs (lineComment.progress cs) := by
  refine LongestIn.congr (fun t => (viable_opened_iff ⟨[], by simp⟩ ⟨fun h => ⟨[], ?_⟩, ?_⟩).symm)
    (.opened (prefix_of_runLength isLinePart) progress.eq_6 progress.eq_7 (fun cs hfirst => ?_) cs)
  · rwa [List.append_nil]
  · grind
  · unfold progress
    split <;> simp_all

/-- There is no `*/` in a text but at its end. -/
def IsOpen (ds : List Char) : Prop := ∀ es, es <+: ds → ['*', '/'] <:+ es → es = ds

theorem isClosed_end : IsClosed ['*', '/'] :=
  ⟨List.suffix_rfl, fun _ hpre hsuffix => hpre.eq_of_length_le hsuffix.length_le⟩

/-- An open comment can be closed. -/
theorem IsOpen.isClosed (h : IsOpen es) (hopen : ¬ ['*', '/'] <:+ es) :
    IsClosed (es ++ ['*', '/']) := by
  refine ⟨List.suffix_append _ _, fun fs hpre hsuffix => ?_⟩
  have hsplit : es ++ ['*', '/'] = (es ++ ['*']) ++ ['/'] := by simp
  rw [hsplit] at hpre ⊢
  -- a shorter prefix would end in the text or at its new star
  rcases List.prefix_concat_iff.mp hpre with hwhole | hshort
  · exact hwhole
  · rcases List.prefix_concat_iff.mp hshort with rfl | hinner
    · have hlast := hsuffix.getLast (by simp)
      simp at hlast
    · exact absurd (h fs hinner hsuffix ▸ hsuffix) hopen

theorem isOpen_iff : IsOpen t ↔ ∃ u, IsClosed (t ++ u) := by
  constructor
  · intro h
    by_cases hclosed : ['*', '/'] <:+ t
    · exact ⟨[], by rw [List.append_nil]; exact ⟨hclosed, h⟩⟩
    · exact ⟨['*', '/'], h.isClosed hclosed⟩
  · rintro ⟨u, -, hfirst⟩ es hpre hsuffix
    have hwhole := hfirst es (hpre.trans (List.prefix_append t u)) hsuffix
    refine hpre.eq_of_length_le ?_
    grind

/-- In front of a character that does not make a `*/`, a text ends in one as before. -/
theorem close_cons_iff {a b : Char} (hab : ¬ (a = '*' ∧ b = '/'))
    (hpre : es <+: b :: cs) : ['*', '/'] <:+ a :: es ↔ ['*', '/'] <:+ es := by
  rw [List.suffix_cons_iff]
  refine ⟨fun h => h.resolve_left fun heq => ?_, .inr⟩
  obtain ⟨rfl, rfl⟩ := List.cons.inj heq
  exact hab ⟨rfl, (List.cons_prefix_cons.mp hpre).1.symm⟩

theorem commentLength_some {n : Nat} (h : commentLength cs = some n) :
    n ≤ cs.length ∧ IsClosed (cs.take n) := by
  fun_induction commentLength cs generalizing n with
  | case1 | case2 => cases h
  | case3 a b cs hab =>
    obtain ⟨rfl, rfl⟩ := hab
    cases h
    exact ⟨by simp, isClosed_end⟩
  | case4 a b cs hab ih =>
    obtain ⟨m, hm, rfl⟩ := Option.map_eq_some_iff.mp h
    obtain ⟨hle, hclosed, hfirst⟩ := ih hm
    have htake : (b :: cs).take m <+: b :: cs := List.take_prefix _ _
    refine ⟨Nat.succ_le_succ hle, (close_cons_iff hab htake).mpr hclosed, fun es hpre hsuffix => ?_⟩
    rw [List.take_succ_cons] at hpre ⊢
    cases es with
    | nil => cases List.suffix_nil.mp hsuffix
    | cons e es =>
      obtain ⟨rfl, hinner⟩ := List.cons_prefix_cons.mp hpre
      rw [hfirst es hinner ((close_cons_iff hab (hinner.trans htake)).mp hsuffix)]

theorem commentLength_none (h : commentLength cs = none) (hpre : t <+: cs) :
    ¬ ['*', '/'] <:+ t := by
  fun_induction commentLength cs generalizing t with
  | case1 | case2 =>
    intro hsuffix
    have hlength := Nat.le_trans hsuffix.length_le hpre.length_le
    simp at hlength
  | case3 => cases h
  | case4 a b cs hab ih =>
    cases t with
    | nil => exact fun hsuffix => nomatch List.suffix_nil.mp hsuffix
    | cons e t =>
      obtain ⟨rfl, hinner⟩ := List.cons_prefix_cons.mp hpre
      rw [close_cons_iff hab hinner]
      exact ih (Option.map_eq_none_iff.mp h) hinner

theorem longest_open (cs : List Char) :
    LongestIn IsOpen cs ((commentLength cs).getD cs.length) := by
  cases hlength : commentLength cs with
  | none =>
    refine ⟨Nat.le_refl _, fun es hpre hsuffix => ?_, fun t _ hpre => hpre.length_le⟩
    exact absurd hsuffix (commentLength_none hlength (hpre.trans (List.take_prefix _ _)))
  | some n =>
    obtain ⟨hle, hclosed⟩ := commentLength_some hlength
    refine ⟨hle, hclosed.2, fun t ht hpre => ?_⟩
    rcases Nat.le_total t.length n with hshort | hlong
    · exact hshort
    · -- the end of the comment would lie within the longer text
      have htake : (cs.take n).length = n := List.length_take_of_le hle
      have hinner : cs.take n <+: t :=
        List.prefix_of_prefix_length_le (List.take_prefix _ _) hpre (by rwa [htake])
      rw [← ht _ hinner hclosed.1, htake]
      exact Nat.le_refl n

theorem longest_closed {n : Nat} (h : commentLength cs = some n) :
    LongestIn IsClosed cs n := by
  have hopen := longest_open cs
  rw [h] at hopen
  exact ⟨hopen.le, (commentLength_some h).2, fun t ht => hopen.max t ht.2⟩

theorem munch_blockComment (cs : List Char) :
    Measures blockComment.Matches cs (blockComment.munch cs) := by
  by_cases hopen : ∃ ds, cs = '/' :: '*' :: ds
  · obtain ⟨ds, rfl⟩ := hopen
    rw [munch.eq_7]
    cases hlength : commentLength ds with
    | none =>
      rintro _ ⟨es, rfl, hclosed, -⟩ hpre
      have hinner := (List.cons_prefix_cons.mp (List.cons_prefix_cons.mp hpre).2).2
      exact commentLength_none hlength hinner hclosed
    | some n =>
      exact (longest_closed hlength).cons_cons
  · have hnone : blockComment.munch cs = none := by
      unfold munch
      split <;> simp_all
    rw [hnone]
    rintro _ ⟨ds, rfl, -⟩ ⟨u, hu⟩
    exact hopen ⟨ds ++ u, hu.symm⟩

theorem progress_blockComment (cs : List Char) :
    LongestIn blockComment.Viable cs (blockComment.progress cs) := by
  refine LongestIn.congr (fun t => (viable_opened_iff ⟨_, isClosed_end⟩ isOpen_iff).symm)
    (.opened longest_open progress.eq_8 progress.eq_9 (fun cs hfirst => ?_) cs)
  unfold progress
  split <;> simp_all

/-! ### All rules -/

/-- The length that a rule takes of a text is that of its longest match there. -/
theorem munch_longest (r : LexRule) (cs : List Char) : Measures r.Matches cs (r.munch cs) := by
  cases r with
  | word k w =>
    have hshared := longest_sharedLength w cs
    rw [munch]
    split
    · rename_i hwhole
      rw [hwhole] at hshared
      refine ⟨hshared.le, hshared.mem.eq_of_length (List.length_take_of_le hshared.le), ?_⟩
      rintro _ rfl -
      exact Nat.le_refl _
    · rename_i hpart
      rintro t rfl hpre
      have hle := hshared.mem.length_le
      rw [List.length_take_of_le hshared.le] at hle
      exact hpart (Nat.le_antisymm hle (hshared.max _ List.prefix_rfl hpre))
  | literal => exact munch_literal cs
  | identifier => exact munch_identifier cs
  | blanks => exact munch_blanks cs
  | lineComment => exact munch_lineComment cs
  | blockComment => exact munch_blockComment cs

/-- How far a rule goes on is the length of the longest beginning of a match. -/
theorem progress_longest (r : LexRule) (cs : List Char) :
    LongestIn r.Viable cs (r.progress cs) := by
  cases r with
  | word k w => exact longest_sharedLength w cs
  | literal => exact progress_literal cs
  | identifier => exact progress_identifier cs
  | blanks => exact progress_blanks cs
  | lineComment => exact progress_lineComment cs
  | blockComment => exact progress_blockComment cs

theorem ne_nil_of_matches (hr : r ∈ all) (h : r.Matches t) : t ≠ [] := by
  cases r with
  | word k w =>
    have hwords : all.all
      (fun s => match s with | word _ w => !w.isEmpty | _ => true) = true := by decide
    have hw := List.all_eq_true.mp hwords _ hr
    rintro rfl
    cases (show [] = w from h)
    cases hw
  | literal => rcases h with ⟨hne, -⟩ | ⟨ds, rfl, -⟩ <;> simp_all
  | identifier => obtain ⟨c, ds, rfl, -⟩ := h; simp
  | blanks => exact h.1
  | lineComment | blockComment => obtain ⟨ds, rfl, -⟩ := h; simp

/-! ## The rules together -/

/-- One rule more is measured. -/
def keep (cs : List Char) (found : Option (LexRule × Nat)) (r : LexRule) : Option (LexRule × Nat) :=
  match r.munch cs, found with
  | none, _ => found
  | some n, none => some (r, n)
  | some n, some (_, m) => if m < n then some (r, n) else found

theorem best_eq_foldl (cs : List Char) : best cs = all.foldl (keep cs) none := rfl

/-- What is kept of the rules `rs` when a text is measured: the first of those that match most. -/
def Leads (cs : List Char) (rs : List LexRule) : Option (LexRule × Nat) → Prop
  | none => ∀ r ∈ rs, r.munch cs = none
  | some (r, n) => r.munch cs = some n ∧ ∃ pre post, rs = pre ++ r :: post ∧
      (∀ s ∈ pre, ∀ m, s.munch cs = some m → m < n) ∧ ∀ s ∈ post, ∀ m, s.munch cs = some m → m ≤ n

theorem Leads.step {rs : List LexRule} {found : Option (LexRule × Nat)}
    (h : Leads cs rs found) (r : LexRule) :
    Leads cs (rs ++ [r]) (keep cs found r) := by
  unfold keep
  cases hr : r.munch cs with
  | none =>
    cases found with
    | none =>
      refine List.forall_mem_append.mpr ⟨h, ?_⟩
      simpa using hr
    | some best =>
      obtain ⟨hbest, pre, post, rfl, hpre, hpost⟩ := h
      refine ⟨hbest, pre, post ++ [r], by simp, hpre, List.forall_mem_append.mpr ⟨hpost, ?_⟩⟩
      simp [hr]
  | some n =>
    cases found with
    | none =>
      refine ⟨hr, rs, [], rfl, fun s hs m hm => ?_, by simp⟩
      rw [h s hs] at hm
      cases hm
    | some best =>
      obtain ⟨hbest, pre, post, rfl, hpre, hpost⟩ := h
      dsimp only
      split
      -- Longer than all before it, the rule leads.
      · rename_i hlt
        refine ⟨hr, _, [], rfl, fun s hs m hm => ?_, by simp⟩
        rcases List.mem_append.mp hs with hin | hin
        · exact Nat.lt_trans (hpre s hin m hm) hlt
        · rcases List.mem_cons.mp hin with rfl | hin
          · rw [hbest] at hm
            exact Option.some.inj hm ▸ hlt
          · exact Nat.lt_of_le_of_lt (hpost s hin m hm) hlt
      -- Of rules that match as much the first one stays.
      · rename_i hge
        refine ⟨hbest, pre, post ++ [r], by simp, hpre, List.forall_mem_append.mpr ⟨hpost, ?_⟩⟩
        grind

theorem best_leads (cs : List Char) : Leads cs all (best cs) := by
  suffices hfold : ∀ (todo done : List LexRule) (found : Option (LexRule × Nat)),
    Leads cs done found →
      Leads cs (done ++ todo) (todo.foldl (keep cs) found) by
    rw [best_eq_foldl]
    exact hfold all [] none (fun r hr => nomatch hr)
  intro todo
  induction todo with
  | nil => exact fun done found h => by rwa [List.append_nil]
  | cons r todo ih =>
    intro done found h
    rw [List.append_cons]
    exact ih _ _ (h.step r)

/-- The farthest that any rule goes on is the longest text that begins a match. -/
theorem farthest_longest (cs : List Char) :
    LongestIn (fun t => ∃ r ∈ all, r.Viable t) cs (farthest cs) := by
  have hfold : ∀ (rs : List LexRule) {L n}, LongestIn L cs n →
      LongestIn (fun t => L t ∨ ∃ r ∈ rs, r.Viable t) cs
        (rs.foldl (fun n r => max n (r.progress cs)) n) := by
    intro rs
    induction rs with
    | nil => exact fun h => h.congr (by simp)
    | cons r rs ih => exact fun h => (ih
        (h.sup (progress_longest r cs))).congr fun t => by simp [or_assoc]
  refine (hfold all (.zero (L := (· = [])) rfl fun _ ht _ => ht)).congr fun t =>
    or_iff_right_of_imp ?_
  rintro rfl
  exact ⟨literal, by decide, viable_literal_iff.mpr (.inl (by simp))⟩

end LexRule

/-- A lexical rule as the grammar lists it: numbers and quoted strings also have rules of their
own. -/
inductive Listed where
  | rule (r : LexRule)
  | number
  | quoted

namespace Listed

/-- The order of the grammar. -/
def all : List Listed :=
  LexRule.all.flatMap fun r => .rule r :: if r = .literal then [.number, .quoted] else []

/-- The texts that a rule matches. -/
def Matches : Listed → List Char → Prop
  | rule r => r.Matches
  | number => LexRule.IsNumber
  | quoted => LexRule.IsQuoted

/-- `l` names the first piece `text` of `cs`: no rule matches more, and no earlier rule as much. -/
@[grind cases] structure Names (l : Listed) (text cs : List Char) : Prop where
  isPrefix : text <+: cs
  matched : l.Matches text
  longest : ∀ l' ∈ all, ∀ t, l'.Matches t → t <+: cs → t.length ≤ text.length
  earliest : ∃ pre post, all = pre ++ l :: post ∧ ∀ l' ∈ pre, ¬ l'.Matches text

/-- Some rule can go on with the text. -/
def Viable (t : List Char) : Prop := ∃ l ∈ all, ∃ u, l.Matches (t ++ u)

variable {l : Listed} {text : List Char}

/-- What a rule of the list matches, a lexical rule matches no later in the list. -/
theorem matches_rule {rs : List LexRule}
    (hl : l ∈ rs.flatMap fun r => rule r :: if r = .literal then [number, quoted] else [])
    (h : l.Matches t) : ∃ r ∈ rs, r.Matches t := by
  obtain ⟨r, hr, hin⟩ := List.mem_flatMap.mp hl
  rcases List.mem_cons.mp hin with rfl | hin
  · exact ⟨r, hr, h⟩
  · by_cases hliteral : r = .literal
    · rw [if_pos hliteral] at hin
      refine ⟨.literal, hliteral ▸ hr, ?_⟩
      rcases List.mem_cons.mp hin with rfl | hin
      · exact .inl h
      · rw [List.mem_singleton.mp hin] at h
        exact .inr h
    · rw [if_neg hliteral] at hin
      cases hin

theorem viable_iff : Viable t ↔ ∃ r ∈ LexRule.all, r.Viable t := by
  constructor
  · rintro ⟨l, hl, u, h⟩
    obtain ⟨r, hr, h⟩ := matches_rule hl h
    exact ⟨r, hr, u, h⟩
  · rintro ⟨r, hr, u, h⟩
    exact ⟨rule r, List.mem_flatMap.mpr ⟨r, hr, .head _⟩, u, h⟩

theorem Viable.of_append {u : List Char} (h : Viable (t ++ u)) : Viable t := by
  obtain ⟨l, hl, v, h⟩ := h
  exact ⟨l, hl, u ++ v, by rwa [← List.append_assoc]⟩

/-- The best rule names the first piece. -/
theorem names_of_best {n : Nat} (h : LexRule.best cs = some (r, n)) :
    (rule r).Names (cs.take n) cs := by
  have hlead := LexRule.best_leads cs
  rw [h] at hlead
  obtain ⟨hmunch, pre, post, hall, hpre, hpost⟩ := hlead
  have hr := LexRule.munch_longest r cs
  rw [hmunch] at hr
  -- the measure of a rule bounds each of its matches
  have hbound : ∀ s : LexRule, ∀ t, s.Matches t → t <+: cs → ∃ m,
    s.munch cs = some m ∧ t.length ≤ m := by
    intro s t ht hstart
    have hs := LexRule.munch_longest s cs
    cases hm : s.munch cs with
    | none => rw [hm] at hs; exact absurd hstart (hs t ht)
    | some m => rw [hm] at hs; exact ⟨m, rfl, hs.max t ht hstart⟩
  refine ⟨List.take_prefix n cs, hr.mem, fun l hl t ht htake => ?_, ?_⟩
  · obtain ⟨s, hs, hst⟩ := matches_rule hl ht
    obtain ⟨m, hm, hle⟩ := hbound s t hst htake
    rw [List.length_take_of_le hr.le]
    rw [hall] at hs
    rcases List.mem_append.mp hs with hin | hin
    · exact Nat.le_trans hle (Nat.le_of_lt (hpre s hin m hm))
    · rcases List.mem_cons.mp hin with rfl | hin
      · rw [hmunch] at hm
        exact Option.some.inj hm ▸ hle
      · exact Nat.le_trans hle (hpost s hin m hm)
  · rw [all, hall, List.flatMap_append, List.flatMap_cons, List.cons_append]
    refine ⟨_, _, rfl, fun l hl hmatch => ?_⟩
    obtain ⟨s, hs, hst⟩ := matches_rule hl hmatch
    obtain ⟨m, hm, hle⟩ := hbound s _ hst (List.take_prefix n cs)
    rw [List.length_take_of_le hr.le] at hle
    exact absurd (hpre s hs m hm) (Nat.not_lt.mpr hle)

/-- Where there is no best rule, none matches. -/
theorem not_matches_of_best (h : LexRule.best cs = none) :
    ∀ l ∈ all, ∀ t, l.Matches t → ¬ t <+: cs := by
  have hlead := LexRule.best_leads cs
  rw [h] at hlead
  intro l hl t ht
  obtain ⟨s, hs, hst⟩ := matches_rule hl ht
  have hmunch := LexRule.munch_longest s cs
  rw [hlead s hs] at hmunch
  exact hmunch t hst

theorem Names.mem_all (h : l.Names text cs) : l ∈ all := by
  grind

theorem Names.ne_nil (h : (rule r).Names text cs) : text ≠ [] := by
  obtain ⟨s, hs, hmatch⟩ := matches_rule h.mem_all h.matched
  exact LexRule.ne_nil_of_matches hs hmatch

/-- There is one longest match and one earliest rule. -/
theorem Names.unique {l' : Listed} {text' : List Char} (h : l.Names text cs)
    (h' : l'.Names text' cs) : l = l' ∧ text = text' := by
  have hle := h.longest l' h'.mem_all text' h'.matched h'.isPrefix
  have hge := h'.longest l h.mem_all text h.matched h.isPrefix
  have htext : text = text' :=
    (List.prefix_of_prefix_length_le h.isPrefix h'.isPrefix hge).eq_of_length
    (Nat.le_antisymm hge hle)
  subst htext
  refine ⟨?_, rfl⟩
  obtain ⟨pre, post, hall, hpre⟩ := h.earliest
  obtain ⟨pre', post', hall', hpre'⟩ := h'.earliest
  rw [hall] at hall'
  rcases List.append_eq_append_iff.mp hall' with ⟨as, rfl, hpost⟩ | ⟨as, rfl, hpost⟩
  · cases as with
    | nil => exact (List.cons.inj hpost).1
    | cons a as =>
      grind
  · cases as with
    | nil => exact (List.cons.inj hpost).1.symm
    | cons a as =>
      grind

end Listed

/-- The text that is given up where no rule matches: all up to the first character with which no
rule goes on, or all that is left. -/
inductive GivenUp (cs : List Char) : List Char → Prop where
  | stuck {text : List Char} {d : Char} : text ++ [d] <+: cs → Listed.Viable text →
    ¬ Listed.Viable (text ++ [d]) → GivenUp cs (text ++ [d])
  | unended : cs ≠ [] → Listed.Viable cs → GivenUp cs cs

/-- The piece that a text begins with: the longest match, named by the earliest rule, or what is
given up. -/
inductive Begins (cs : List Char) : Piece → Prop where
  | token {r : LexRule} {k : Terminal} {text : List Char} :
    (Listed.rule r).Names text cs → r.kind? = some k → Begins cs (.token k text)
  | skipped {r : LexRule} {text : List Char} :
    (Listed.rule r).Names text cs → r.kind? = none → Begins cs (.skipped text)
  | unknown {text : List Char} :
    (∀ l ∈ Listed.all, ∀ t, l.Matches t → ¬ t <+: cs) → GivenUp cs text → Begins cs (.unknown text)

theorem GivenUp.ne_nil {text : List Char} (h : GivenUp cs text) : text ≠ [] := by
  cases h with
  | stuck => simp
  | unended hne => exact hne

theorem GivenUp.unique {text text' : List Char} (h : GivenUp cs text) (h' : GivenUp cs text') :
    text = text' := by
  -- what is given up on one side cannot lie within what still goes on on the other
  have hwithin : ∀ {t u : List Char} {d : Char}, t ++ [d] <+: cs → ¬ Listed.Viable (t ++ [d]) →
      u <+: cs → Listed.Viable u → u.length ≤ t.length := by
    intro t u d ht hstuck hu hviable
    rcases Nat.lt_or_ge t.length u.length with hlt | hge
    · obtain ⟨v, rfl⟩ :=
        List.prefix_of_prefix_length_le ht hu (by rw [List.length_append]; exact hlt)
      exact absurd hviable.of_append hstuck
    · exact hge
  cases h with
  | @stuck t d ht hviable hstuck =>
    cases h' with
    | @stuck t' d' ht' hviable' hstuck' =>
      have hle := hwithin ht hstuck ((List.prefix_append t' [d']).trans ht') hviable'
      have hge := hwithin ht' hstuck' ((List.prefix_append t [d]).trans ht) hviable
      refine (List.prefix_of_prefix_length_le ht ht' ?_).eq_of_length ?_ <;> simp <;> omega
    | unended _ hall =>
      obtain ⟨v, rfl⟩ := ht
      exact absurd hall.of_append hstuck
  | unended _ hall =>
    cases h' with
    | stuck ht' _ hstuck' =>
      obtain ⟨v, rfl⟩ := ht'
      exact absurd hall.of_append hstuck'
    | unended => rfl

namespace Begins

variable {cs : List Char} {p q : Piece}

theorem text_ne_nil (h : Begins cs p) : p.text ≠ [] := by
  cases h with
  | token hnames | skipped hnames => exact hnames.ne_nil
  | unknown _ hgiven => exact hgiven.ne_nil

theorem unique (hp : Begins cs p) (hq : Begins cs q) : p = q := by
  cases hp with
  | token hnames hkind =>
    cases hq with
    | token hnames' hkind' =>
      obtain ⟨hrule, rfl⟩ := hnames.unique hnames'
      grind
    | skipped hnames' hkind' =>
      obtain rfl := Listed.rule.inj (hnames.unique hnames').1
      cases hkind.symm.trans hkind'
    | unknown hnone => exact absurd hnames.isPrefix (hnone _ hnames.mem_all _ hnames.matched)
  | skipped hnames hkind =>
    cases hq with
    | token hnames' hkind' =>
      obtain rfl := Listed.rule.inj (hnames.unique hnames').1
      cases hkind.symm.trans hkind'
    | skipped hnames' => rw [(hnames.unique hnames').2]
    | unknown hnone => exact absurd hnames.isPrefix (hnone _ hnames.mem_all _ hnames.matched)
  | unknown hnone hgiven =>
    cases hq with
    | token hnames | skipped hnames =>
      exact absurd hnames.isPrefix (hnone _ hnames.mem_all _ hnames.matched)
    | unknown _ hgiven' => rw [hgiven.unique hgiven']

end Begins

/-- A text cut into pieces from left to right. -/
inductive Pieced : List Char → List Piece → Prop where
  | nil : Pieced [] []
  | cons {p : Piece} {cs : List Char} {ps : List Piece} :
    Begins (p.text ++ cs) p → Pieced cs ps → Pieced (p.text ++ cs) (p :: ps)

namespace Piece

/-- The first piece of a text is the one it begins with. -/
theorem begins_cut (c : Char) (rest : List Char) :
    Begins (c :: rest) (ofRule (cut (c :: rest)).1 (c :: rest.take ((cut (c :: rest)).2 - 1))) := by
  unfold cut
  split
  · rename_i r n hbest
    have hnames := Listed.names_of_best hbest
    have htake : (c :: rest).take n = c :: rest.take (n - 1) := by
      cases n with
      | zero => exact absurd rfl hnames.ne_nil
      | succ n => rfl
    rw [htake] at hnames
    unfold ofRule
    dsimp only
    split
    · exact .token hnames ‹_›
    · exact .skipped hnames ‹_›
  · rename_i hbest
    have hnone := Listed.not_matches_of_best hbest
    have hfar := (LexRule.farthest_longest (c :: rest)).congr fun t => Listed.viable_iff.symm
    rw [Nat.add_sub_cancel]
    show Begins (c :: rest) (.unknown ((c :: rest).take (LexRule.farthest (c :: rest) + 1)))
    rcases Nat.lt_or_eq_of_le hfar.le with hlt | heq
    · rw [List.take_succ_eq_append_getElem hlt]
      refine .unknown hnone (.stuck ?_ hfar.mem fun hviable => ?_)
      · rw [← List.take_succ_eq_append_getElem hlt]
        exact List.take_prefix _ _
      · rw [← List.take_succ_eq_append_getElem hlt] at hviable
        grind
    · rw [List.take_of_length_le (by omega)]
      have hviable := hfar.mem
      rw [heq, List.take_length] at hviable
      exact .unknown hnone (.unended (by simp) hviable)

theorem text_ofRule (r? : Option LexRule) (cs : List Char) : (ofRule r? cs).text = cs := by
  cases r? with
  | none => rfl
  | some r => unfold ofRule; dsimp only; split <;> rfl

theorem pieces_cons (c : Char) (rest : List Char) :
    pieces (c :: rest) = ofRule (cut (c :: rest)).1 (c :: rest.take ((cut (c :: rest)).2 - 1))
      :: pieces (rest.drop ((cut (c :: rest)).2 - 1)) := by
  rw [pieces]

/-- A text is cut into the pieces that it and what is left of it begin with. -/
theorem pieced_pieces (cs : List Char) : Pieced cs (pieces cs) := by
  match cs with
  | [] => rw [pieces]; exact .nil
  | c :: rest =>
    rw [pieces_cons]
    have hbegins := begins_cut c rest
    generalize hr : (cut (c :: rest)).1 = r at hbegins ⊢
    generalize hn : (cut (c :: rest)).2 - 1 = n at hbegins ⊢
    have htext : (ofRule r (c :: rest.take n)).text ++ rest.drop n = c :: rest := by
      rw [text_ofRule, List.cons_append, List.take_append_drop]
    have hrest := Pieced.cons (p := ofRule r (c :: rest.take n)) (by rw [htext]; exact hbegins)
      (pieced_pieces (rest.drop n))
    rwa [htext] at hrest
termination_by cs.length
decreasing_by
  simp only [List.length_drop, List.length_cons]
  omega

end Piece

theorem Pieced.flatMap_text {ps : List Piece} (h : Pieced cs ps) :
    ps.flatMap Piece.text = cs := by
  induction h with
  | nil => rfl
  | cons _ _ ih => rw [List.flatMap_cons, ih]

/-- A text is cut in one way only. -/
theorem Pieced.unique {ps qs : List Piece} (hp : Pieced cs ps) (hq : Pieced cs qs) :
    ps = qs := by
  induction hp generalizing qs with
  | nil =>
    generalize hcs : ([] : List Char) = cs at hq
    cases hq with
    | nil => rfl
    | cons hbegins =>
      rw [← hcs] at hbegins
      exact absurd (List.append_eq_nil_iff.mp hcs.symm).1 hbegins.text_ne_nil
  | @cons p cs ps hbegins _ ih =>
    generalize hcs : p.text ++ cs = ds at hq
    cases hq with
    | nil => exact absurd (List.append_eq_nil_iff.mp hcs).1 hbegins.text_ne_nil
    | @cons q ds qs hbegins' hrest' =>
      rw [← hcs] at hbegins'
      obtain rfl := hbegins.unique hbegins'
      obtain rfl := List.append_cancel_left hcs
      rw [ih hrest']

/-! ## Places -/

namespace Place

/-- The place behind a text: one line more than it has newlines, and as many columns as it has
characters behind the last newline. -/
def behind (cs : List Char) : Place := ⟨cs.count '\n' + 1, (cs.rtakeWhile (· != '\n')).length⟩

theorem past_eq_behind (cs : List Char) : Place.past {} cs = behind cs := by
  induction cs using List.reverseRecOn with
  | nil => rfl
  | append_singleton cs c ih =>
    rw [past, List.foldl_concat, ← past, ih, step, behind, behind]
    split
    · rename_i hc
      subst hc
      rw [List.rtakeWhile_concat_neg _ _ _ (by simp)]
      simp
    · rename_i hc
      rw [List.rtakeWhile_concat_pos _ _ _ (by simpa using hc), List.count_append,
        List.length_append]
      simp [hc]

theorem past_past (p : Place) (cs ds : List Char) : (p.past cs).past ds = p.past (cs ++ ds) :=
  List.foldl_append.symm

end Place

namespace Piece

def token? : Place × Piece → Option Token
  | (p, token k cs) => some ⟨k, String.ofList cs, p.line, p.column⟩
  | _ => none

def unknown? : Place × Piece → Option Unrecognised
  | (p, unknown cs) => some ⟨p, cs⟩
  | _ => none

/-- Every piece with the place behind all pieces before it. -/
def placed (ps : List Piece) : List (Place × Piece) :=
  ps.mapIdx fun i p => (.behind ((ps.take i).flatMap text), p)

end Piece

/-- Pieces are placed behind the text before them. -/
theorem Scan.ofPieces_eq (before : List Char) (ps : List Piece) :
    Scan.ofPieces (.behind before) ps =
      let placed := ps.mapIdx fun i p =>
        (Place.behind (before ++ (ps.take i).flatMap Piece.text), p)
      let last := Place.behind (before ++ ps.flatMap Piece.text)
      ⟨placed.filterMap Piece.token? ++ [⟨.eof, "<EOF>", last.line, last.column⟩],
        placed.filterMap Piece.unknown?⟩ := by
  induction ps generalizing before with
  | nil => simp [Scan.ofPieces]
  | cons p ps ih =>
    have hnext : (Place.behind before).past p.text = .behind (before ++ p.text) := by
      rw [← Place.past_eq_behind, Place.past_past, Place.past_eq_behind]
    unfold Scan.ofPieces
    rw [hnext, ih]
    simp only [List.mapIdx_cons, List.take_zero, List.flatMap_nil, List.append_nil,
      List.take_succ_cons,
      List.flatMap_cons, List.append_assoc]
    cases p <;> rfl

/-- **Lexing is longest match and loses nothing.** The pieces of a text, one behind the other, are
the text. They are the only ones such that each is what the text from there on begins with: the
longest match, named by the earliest rule, or a text that ends with the first character with which
no rule goes on. Tokens and unrecognised texts are the placed pieces in their order, and the place
of a piece counts the lines and characters before it. -/
theorem scan_maximal_munch (s : String) :
    (Piece.pieces s.toList).flatMap Piece.text = s.toList ∧
    (∀ ps, Pieced s.toList ps ↔ ps = Piece.pieces s.toList) ∧
    (Scan.ofText s).tokens = (Piece.placed (Piece.pieces s.toList)).filterMap Piece.token?
      ++ [⟨.eof, "<EOF>", (Place.behind s.toList).line, (Place.behind s.toList).column⟩] ∧
    (Scan.ofText s).unknown = (Piece.placed (Piece.pieces s.toList)).filterMap Piece.unknown? := by
  have hpieced : Pieced s.toList (Piece.pieces s.toList) := Piece.pieced_pieces s.toList
  have htext := hpieced.flatMap_text
  have hscan := Scan.ofPieces_eq [] (Piece.pieces s.toList)
  simp only [List.nil_append, htext] at hscan
  refine ⟨htext, fun ps => ⟨fun hps => hps.unique hpieced, fun hps => hps ▸ hpieced⟩,
    congrArg Scan.tokens hscan, congrArg Scan.unknown hscan⟩

end Scriptc
