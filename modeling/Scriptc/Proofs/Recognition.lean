import Scriptc.Proofs.Munch
import Scriptc.Proofs.Preference

/-!
# Scriptc: the parser accepts exactly the grammar

A reading is exact (`Reading.Exact`) if it knows every end of a pattern and the preferred way to it.

* The operations on readings keep exactness: `Exact.or`, `Exact.andThen`, `Exact.many`,
  `Exact.wrap`. What a reading offers is seen through `Reading.pick`, the best way to an end of a
  given kind.
* A pattern is read exactly if the rules are that it looks up (`Pattern.read_exact`). At the same
  place it looks up only rules it can begin with, and these are filled in before it
  (`fillRow_exact`).
* So a text is parsed exactly if it can be derived, and by the preferred derivation
  (`parse_accepts_exactly`).
-/

namespace Scriptc

/-! ## What a reading offers -/

namespace Reading

/-- The best way to an end that is asked for; ends are known by the tokens left. -/
def pick (a : Reading) (k : Nat → Bool) : Option (Nat × List Tree) := a.ways.find? fun w => k w.1

section
variable {a b : Reading} {next : Nat → Reading} {k : Nat → Bool}

/-- A way that is left out because its end is known is not missed. -/
theorem find?_addWays (ways more : List (Nat × List Tree)) :
    (addWays ways more).find? (fun w => k w.1)
      = (ways.find? fun w => k w.1).or (more.find? fun w => k w.1) := by
  rw [addWays, List.find?_append]
  cases hways : ways.find? fun w => k w.1 with
  | some w => rfl
  | none =>
    have hkept : ∀ w : Nat × List Tree, k w.1 = true → (!ways.any fun v => v.1 == w.1) = true := by
      grind
    rw [Option.none_or, Option.none_or, List.find?_filter]
    congr 1
    funext w
    rw [Bool.eq_iff_iff, decide_eq_true_iff, and_iff_right_of_imp (hkept w)]

theorem pick_or : (a.or b).pick k = (a.pick k).or (b.pick k) := find?_addWays a.ways b.ways

/-- The best way through two parts takes the best way through the first part to a place from which
the second part leads on. -/
theorem pick_andThen : (a.andThen next).pick k =
    (a.pick fun j => ((next j).pick k).isSome).bind fun v =>
      ((next v.1).pick k).map fun u => (u.1, v.2 ++ u.2) := by
  suffices hfold : ∀ (vs : List (Nat × List Tree)) (acc : Reading), (vs.foldl (fun acc w =>
      (⟨addWays acc.ways ((next w.1).ways.map fun v => (v.1, w.2 ++ v.2)),
        min acc.reach (next w.1).reach⟩ : Reading)) acc).pick k =
      (acc.pick k).or ((vs.find? fun v => ((next v.1).pick k).isSome).bind fun v =>
        ((next v.1).pick k).map fun u => (u.1, v.2 ++ u.2)) by
    exact hfold a.ways ⟨[], a.reach⟩
  intro vs
  induction vs with
  | nil => exact fun acc => (Option.or_none).symm
  | cons v vs ih =>
    intro acc
    have hfirst : ((next v.1).ways.map fun u => (u.1, v.2 ++ u.2)).find? (fun w => k w.1)
        = ((next v.1).pick k).map fun u => (u.1, v.2 ++ u.2) := List.find?_map
    rw [List.foldl_cons, ih, pick, find?_addWays, hfirst, Option.or_assoc, List.find?_cons]
    cases hv : (next v.1).pick k with
    | none => rfl
    | some u => rw [Option.isSome_some, Option.bind_some, hv]; rfl

theorem pick_wrap (r : Rule) :
    (a.wrap r).pick k = (a.pick k).map fun w => (w.1, [Tree.node r w.2]) :=
  List.find?_map

theorem pick_done (left : Nat) : (done left).pick k = if k left then some (left, []) else none := by
  unfold pick done
  cases hk : k left <;> simp [hk]

end

/-! ## Exact readings -/

/-- What is to be answered when an end is asked for. -/
def Answers (p : Pattern) (s : List Token) (k : Nat → Bool) : Option (Nat × List Tree) → Prop
  | some (j, ts) => ∃ r, s = Tree.tokensAll ts ++ r ∧ r.length = j ∧ k j = true ∧
      Preferred (fun r => k r.length = true) p ts r
  | none => ¬ Completes p (fun r => k r.length = true) s

/-- The reading knows the ends of the pattern and the preferred ways to them. -/
def Exact (p : Pattern) (s : List Token) (a : Reading) : Prop := ∀ k, Answers p s k (a.pick k)

namespace Exact

variable {p q : Pattern} {s r : List Token} {a b : Reading} {ts : List Tree}

theorem isSome_pick_iff (h : Exact p s a) {k : Nat → Bool} :
    (a.pick k).isSome = true ↔ Completes p (fun r => k r.length = true) s := by
  have hk := h k
  cases hpick : a.pick k with
  | none =>
    rw [hpick] at hk
    exact ⟨nofun, fun hc => absurd hc hk⟩
  | some w =>
    rw [hpick] at hk
    obtain ⟨r, hs, hj, hr, hpref⟩ := hk
    rw [← hj] at hr
    exact ⟨fun _ => ⟨_, r, hpref.derives, hs, hr⟩, fun _ => rfl⟩

theorem andThen {next : Nat → Reading} (ha : Exact p s a)
    (hnext : ∀ ts r, Derives p ts → s = Tree.tokensAll ts ++ r → Exact q r (next r.length)) :
    Exact (.seq p q) s (a.andThen next) := by
  intro k
  rw [pick_andThen]
  have hk := ha fun j => ((next j).pick k).isSome
  cases hfirst : a.pick fun j => ((next j).pick k).isSome with
  | none =>
    rw [hfirst] at hk
    rw [Option.bind_none]
    intro hseq
    obtain ⟨ts, r, hts, hs, hq⟩ := completes_seq_iff.mp hseq
    exact hk ⟨ts, r, hts, hs, (hnext ts r hts hs).isSome_pick_iff.mpr hq⟩
  | some v =>
    rw [hfirst] at hk
    obtain ⟨r, hs, hj, hsome, hp⟩ := hk
    have hr := hnext v.2 r hp.derives hs k
    obtain ⟨u, hu⟩ := Option.isSome_iff_exists.mp hsome
    rw [hj, hu] at hr
    rw [Option.bind_some, hu]
    obtain ⟨r', rfl, hi, hk, hq⟩ := hr
    -- the first part was asked for ends from which the second leads on, that is, can be read
    refine ⟨r', ?_, hi, hk, .seq (hp.congr fun us r hus hr => ?_) hq⟩
    · rw [hs, Tree.tokensAll_append, List.append_assoc]
    · exact (hnext us r hus (hs.trans hr)).isSome_pick_iff

theorem wrap {r : Rule} (ha : Exact r.pattern s a) : Exact (.rule r) s (a.wrap r) := by
  intro k
  have hk := ha k
  rw [pick_wrap]
  cases hpick : a.pick k with
  | none =>
    rw [hpick] at hk
    exact fun hrule => hk (completes_rule_iff.mp hrule)
  | some w =>
    rw [hpick] at hk
    obtain ⟨rest, hs, hj, hw, hp⟩ := hk
    exact ⟨rest, by simpa [Tree.tokensAll, Tree.tokens] using hs, hj, hw, .rule hp⟩

/-- What the first reading does not offer is looked for in the second one. -/
theorem or (ha : Exact p s a) (hb : Exact q s b) : Exact (.alt p q) s (a.or b) := by
  intro k
  have hka := ha k
  have hkb := hb k
  rw [pick_or]
  cases hpa : a.pick k with
  | some w =>
    rw [hpa] at hka
    obtain ⟨r, hs, hj, hw, hp⟩ := hka
    exact ⟨r, hs, hj, hw, .left hp⟩
  | none =>
    rw [hpa] at hka
    rw [Option.none_or]
    cases hpb : b.pick k with
    | some w =>
      rw [hpb] at hkb
      obtain ⟨r, hs, hj, hw, hq⟩ := hkb
      exact ⟨r, hs, hj, hw, .right (by rwa [← hs]) hq⟩
    | none =>
      rw [hpb] at hkb
      exact fun hc => (completes_alt_iff.mp hc).elim hka hkb

/-- Nothing is read of a text by the empty pattern. -/
theorem done (s : List Token) : Exact .empty s (Reading.done s.length) := by
  intro k
  rw [pick_done]
  split
  · rename_i hk
    exact ⟨s, rfl, rfl, hk, .empty⟩
  · rename_i hk
    rintro ⟨ts, r, hempty, hs, hr⟩
    cases hempty
    obtain rfl : s = r := hs
    exact hk hr

/-- A pattern with no derivation that the text begins with. -/
theorem fail (h : ∀ ts r, Derives p ts → s ≠ Tree.tokensAll ts ++ r) :
    Exact p s (Reading.fail s.length) := by
  rintro k ⟨ts, r, hts, hs, -⟩
  exact h ts r hts hs

/-- A pattern that takes a token has none to take at the end of the text. -/
theorem fail_nil (hp : p.consumes = true) : Exact p [] (Reading.fail 0) := by
  refine fail fun ts r hts hs => hts.tokensAll_ne_nil hp ?_
  exact (List.append_eq_nil_iff.mp hs.symm).1

/-- A loop is one turn and the loop again, or nothing. -/
theorem unroll (h : Exact (.alt (.seq p (.star p)) .empty) s a) : Exact (.star p) s a := by
  -- A repetition is one turn and another repetition, or nothing.
  have hderives : ∀ ts, Derives (.alt (.seq p (.star p)) .empty) ts ↔ Derives (.star p) ts := by
    refine fun ts => ⟨fun halt => ?_, fun hstar => ?_⟩
    · cases halt with
      | left hseq =>
        cases hseq with
        | seq hts hus => exact .more hts hus
      | right hempty =>
        cases hempty
        exact .stop
    · cases hstar with
      | stop => exact .right .empty
      | more hts hus => exact .left (.seq hts hus)
  intro k
  have hk := h k
  cases hpick : a.pick k with
  | none =>
    rw [hpick] at hk
    rintro ⟨ts, r, hts, hs, hr⟩
    exact hk ⟨ts, r, (hderives ts).mpr hts, hs, hr⟩
  | some w =>
    rw [hpick] at hk
    obtain ⟨r, hs, hj, hw, hpref⟩ := hk
    refine ⟨r, hs, hj, hw, ?_⟩
    generalize w.2 = ts at hpref
    cases hpref with
    | left hseq =>
      cases hseq with
      | seq hts hus => exact .more hts hus
    | right hnot hempty =>
      cases hempty
      exact .stop hnot

/-- A loop whose turns take tokens stops when no tokens are left. -/
theorem many {turn : Nat → Reading} {fuel : Nat} (hp : p.consumes = true) (hfuel : s.length ≤ fuel)
    (hturn : ∀ r, r <:+ s → Exact p r (turn r.length)) :
    Exact (.star p) s (Reading.many turn fuel s.length) := by
  induction fuel generalizing s with
  | zero =>
    obtain rfl := List.eq_nil_of_length_eq_zero (Nat.le_zero.mp hfuel)
    have hfail : Exact (.seq p (.star p)) [] (.fail 0) :=
      fail_nil (by rw [Pattern.consumes, hp]; rfl)
    exact (hfail.or (done [])).unroll
  | succ fuel ih =>
    refine unroll (or ((hturn s List.suffix_rfl).andThen fun ts r hts hs => ?_) (done s))
    have hne := List.length_pos_iff.mpr (hts.tokensAll_ne_nil hp)
    grind

theorem derives_tok_iff {k : Terminal} :
    Derives (.tok k) ts ↔ ∃ t : Token, t.kind = k ∧ ts = [.leaf t] := by
  constructor
  · rintro ⟨⟩
    exact ⟨_, rfl, rfl⟩
  · rintro ⟨t, rfl, rfl⟩
    exact .tok t

/-- A token is read if it is next. -/
theorem token {k : Terminal} {next : Nat → Option Token} {look : Rule → Nat → Reading}
    (hnext : next s.length = s.head?) :
    Exact (.tok k) s ((Pattern.tok k).read next look s.length) := by
  rw [Pattern.read, hnext]
  cases s with
  | nil => exact fail_nil rfl
  | cons t s =>
    dsimp only [List.head?_cons]
    split
    · rename_i hkind
      intro k'
      show Answers _ _ k' (List.find? _ [(s.length, [Tree.leaf t])])
      rw [List.find?_singleton]
      split
      · rename_i hk
        exact ⟨s, rfl, rfl, hk, hkind ▸ .tok t⟩
      · rename_i hk
        rintro ⟨ts, r, htok, hs, hr⟩
        obtain ⟨u, -, rfl⟩ := derives_tok_iff.mp htok
        obtain ⟨-, rfl⟩ := List.cons.inj hs
        exact hk hr
    · rename_i hkind
      refine fail fun ts r htok hs => hkind ?_
      obtain ⟨w, hw, rfl⟩ := derives_tok_iff.mp htok
      obtain ⟨rfl, -⟩ := List.cons.inj hs
      exact hw

end Exact

end Reading

open Reading (Exact)

/-- A pattern is read exactly if the rules are that it can begin with, and behind the first token
all. -/
theorem Pattern.read_exact {next : Nat → Option Token} {look : Rule → Nat → Reading} (p : Pattern)
    (hp : p.isProper = true) {s : List Token} (hnext : ∀ r, r <:+ s → next r.length = r.head?)
    (hlook : ∀ q ≠ Rule.program, ∀ r, r <:+ s → r.length < s.length →
      Exact (.rule q) r (look q r.length))
    (hfirst : ∀ q ∈ p.firsts, Exact (.rule q) s (look q s.length)) :
    Exact p s (p.read next look s.length) := by
  induction p generalizing s with
  | empty => exact Exact.done s
  | tok k => exact Exact.token (hnext s List.suffix_rfl)
  | rule q => exact hfirst q (.head _)
  | seq p q ihp ihq =>
    obtain ⟨hp, hq⟩ := Bool.and_eq_true_iff.mp hp
    refine (ihp hp hnext hlook fun r hr => hfirst r (List.mem_append_left _ hr)).andThen
      fun ts r hts hs => ?_
    have hsuffix : r <:+ s := ⟨_, hs.symm⟩
    refine ihq hq (fun r' hr' => hnext r' (hr'.trans hsuffix)) (fun q' hq' r' hr' hlt => ?_)
      fun q' hq' => ?_
    · exact hlook q' hq' r' (hr'.trans hsuffix) (Nat.lt_of_lt_of_le hlt hsuffix.length_le)
    · -- the second part begins behind a token, or nothing was read before it
      rcases Nat.lt_or_eq_of_le hsuffix.length_le with hlt | heq
      · exact hlook q' (Pattern.ne_program_of_mem_firsts hq hq') r hsuffix hlt
      · obtain rfl := hsuffix.eq_of_length heq
        have hempty : Tree.tokensAll ts = [] := List.self_eq_append_left.mp hs
        refine hfirst q' (List.mem_append_right _ ?_)
        rwa [if_neg fun hconsumes => hts.tokensAll_ne_nil hconsumes hempty]
  | alt p q ihp ihq =>
    obtain ⟨hp, hq⟩ := Bool.and_eq_true_iff.mp hp
    exact (ihp hp hnext hlook fun r hr => hfirst r (List.mem_append_left _ hr)).or
      (ihq hq hnext hlook fun r hr => hfirst r (List.mem_append_right _ hr))
  | star p ih =>
    obtain ⟨hconsumes, hp⟩ := Bool.and_eq_true_iff.mp hp
    refine Exact.many hconsumes (Nat.le_refl _) fun r hr => ?_
    refine ih hp (fun r' hr' => hnext r' (hr'.trans hr))
      (fun q' hq' r' hr' hlt => ?_) fun q' hq' => ?_
    · exact hlook q' hq' r' (hr'.trans hr) (Nat.lt_of_lt_of_le hlt hr.length_le)
    · rcases Nat.lt_or_eq_of_le hr.length_le with hlt | heq
      · exact hlook q' (Pattern.ne_program_of_mem_firsts hp hq') r hr hlt
      · obtain rfl := hr.eq_of_length heq
        exact hfirst q' hq'

/-! ## The table -/

/-- A row for the text `s` holds its first token and exact readings of all rules that are looked
up. -/
structure Row.Exact (s : List Token) (row : Row) : Prop where
  next : row.next = s.head?
  get : ∀ q ≠ Rule.program, Reading.Exact (.rule q) s (row.get q s.length)

theorem Rule.mem_order {q : Rule} (h : q ≠ .program) : q ∈ Rule.order := by
  cases q <;> first | exact absurd rfl h | decide

/-- A rule stands in the order at its own number. -/
theorem Rule.eq_of_order {k : Nat} {r : Rule} (h : Rule.order[k]? = some r) : r.ctorIdx = k := by
  have hnumbers : Rule.order.map Rule.ctorIdx = List.range Rule.order.length := by decide
  have hk : (Rule.order.map Rule.ctorIdx)[k]? = some r.ctorIdx := by rw [List.getElem?_map, h]; rfl
  grind

theorem Rule.ctorIdx_injective {r s : Rule} (h : r.ctorIdx = s.ctorIdx) : r = s := by
  rw [← Rule.ofNat_ctorIdx r, h, Rule.ofNat_ctorIdx]

section
variable {s : List Token} {table : Array Row} {row : Row}

/-- In a table of the shorter texts, with a row in front, the next token is found. -/
theorem nextIn_eq (hsize : table.size = s.length)
    (htable : ∀ r, r <:+ s → r.length < s.length → ∃ old, table[r.length]? = some old ∧ old.Exact r)
    (hrow : row.next = s.head?) (r : List Token) (hr : r <:+ s) :
    nextIn table row r.length = r.head? := by
  unfold nextIn
  rcases Nat.lt_or_eq_of_le hr.length_le with hlt | heq
  · obtain ⟨old, hold, hexact⟩ := htable r hr hlt
    rw [hold]
    exact hexact.next
  · obtain rfl := hr.eq_of_length heq
    grind

/-- The row in front of a table of exact rows is exact. -/
theorem fillRow_exact (hsize : table.size = s.length)
    (htable : ∀ r, r <:+ s → r.length < s.length → ∃ old,
      table[r.length]? = some old ∧ old.Exact r) :
    (fillRow table s.head?).Exact s := by
  suffices hfold : ∀ (todo done : List Rule) (row : Row), done ++ todo = Rule.order →
      row.next = s.head? → row.readings.size = done.length →
      (∀ q ∈ done, Exact (.rule q) s (row.get q s.length)) →
      (todo.foldl (fun row r =>
        let reading := r.pattern.read (nextIn table row) (lookIn table row) table.size
        { row with readings := row.readings.push (reading.wrap r) }) row).Exact s by
    exact hfold Rule.order [] ⟨s.head?, #[]⟩ rfl rfl rfl nofun
  intro todo
  induction todo with
  | nil =>
    intro done row horder hnext hlength hdone
    rw [List.append_nil] at horder
    exact ⟨hnext, fun q hq => hdone q (horder ▸ Rule.mem_order hq)⟩
  | cons r todo ih =>
    intro done row horder hnext hlength hdone
    have hr : r.ctorIdx = done.length := by
      apply Rule.eq_of_order
      rw [← horder, List.getElem?_append_right (Nat.le_refl _), Nat.sub_self]
      rfl
    have hidx {k : Nat} {q : Rule} (hq : done[k]? = some q) : k < done.length ∧ q.ctorIdx = k := by
      have hk := (List.getElem?_eq_some_iff.mp hq).1
      exact ⟨hk, Rule.eq_of_order (by rw [← horder, List.getElem?_append_left hk, hq])⟩
    have hbefore : ∀ q : Rule, q.ctorIdx < done.length → q ∈ done := by
      intro q hq
      rw [← Rule.ctorIdx_injective (hidx (List.getElem?_eq_getElem hq)).2]
      exact List.getElem_mem hq
    have hread : Exact r.pattern s
        (r.pattern.read (nextIn table row) (lookIn table row) table.size) := by
      rw [hsize]
      refine Pattern.read_exact r.pattern r.isProper (nextIn_eq hsize htable hnext) ?_ ?_
      · intro q hq r' hr' hlt
        obtain ⟨old, hold, hexact⟩ := htable r' hr' hlt
        rw [lookIn, hold]
        exact hexact.get q hq
      · -- the rules it begins with have been filled in
        intro q hq
        rw [lookIn, Array.getElem?_eq_none (Nat.le_of_eq hsize)]
        exact hdone q (hbefore q (hr ▸ r.firsts_before q hq))
    refine ih (done ++ [r]) _ (by rw [List.append_assoc]; exact horder) hnext ?_ ?_
    · rw [Array.size_push, hlength, List.length_append]
      rfl
    · intro q hq
      rcases List.mem_append.mp hq with hin | hlast
      · have hlt : q.ctorIdx < row.readings.size := by
          obtain ⟨k, hget⟩ := List.getElem?_of_mem hin
          rw [(hidx hget).2, hlength]
          exact (hidx hget).1
        rw [Row.get, Array.getElem?_push_lt hlt]
        have hq := hdone q hin
        rwa [Row.get, Array.getElem?_eq_getElem hlt] at hq
      · rw [List.mem_singleton.mp hlast, Row.get, hr, ← hlength, Array.getElem?_push_size]
        exact hread.wrap

end

/-- The table of a text has an exact row for every part of the text up to its end. -/
theorem rows_exact (s : List Token) : (rows s).size = s.length + 1 ∧
    ∀ r, r <:+ s → ∃ row, (rows s)[r.length]? = some row ∧ row.Exact r := by
  induction s with
  | nil =>
    refine ⟨rfl, fun r hr => ?_⟩
    obtain rfl := List.suffix_nil.mp hr
    refine ⟨fillRow #[] none, rfl, fillRow_exact (s := []) rfl fun r _ hlt => ?_⟩
    cases hlt
  | cons t s ih =>
    obtain ⟨hsize, htable⟩ := ih
    have hfront : (fillRow (rows s) (some t)).Exact (t :: s) := by
      refine fillRow_exact (s := t :: s) hsize fun r hr hlt => ?_
      rcases List.suffix_cons_iff.mp hr with rfl | hin
      · exact absurd hlt (Nat.lt_irrefl _)
      · exact htable r hin
    refine ⟨by rw [rows, Array.size_push, hsize, List.length_cons], fun r hr => ?_⟩
    rw [rows]
    rcases List.suffix_cons_iff.mp hr with rfl | hin
    · grind
    · grind

/-- A text is read exactly as a program. -/
theorem readProgram_exact (tokens : List Token) :
    Exact (Rule.pattern .program) tokens (readProgram tokens) := by
  obtain ⟨hsize, htable⟩ := rows_exact tokens
  have hlook : ∀ q ≠ Rule.program, ∀ r, r <:+ tokens →
      Exact (.rule q) r (lookIn (rows tokens) ⟨none, #[]⟩ q r.length) := by
    intro q hq r hr
    obtain ⟨row, hrow, hexact⟩ := htable r hr
    rw [lookIn, hrow]
    exact hexact.get q hq
  refine Pattern.read_exact _ rfl (fun r hr => ?_)
    (fun q hq r hr _ => hlook q hq r hr) fun q hq => ?_
  · obtain ⟨row, hrow, hexact⟩ := htable r hr
    rw [nextIn, hrow]
    exact hexact.next
  · exact hlook q (Pattern.ne_program_of_mem_firsts rfl hq) tokens List.suffix_rfl

/-! ## Sentences -/

/-- The token lists that the grammar derives from a program. -/
def Sentence (tokens : List Token) : Prop :=
  ∃ tree, Derives (.rule .program) [tree] ∧ tree.tokens = tokens

section
variable {tokens : List Token} {tree : Tree}

theorem sentence_iff :
    Sentence tokens ↔ ∃ ts, Derives (Rule.pattern .program) ts ∧ Tree.tokensAll ts = tokens := by
  constructor
  · rintro ⟨_, hrule, rfl⟩
    cases hrule with
    | @rule _ ts hts => exact ⟨ts, hts, by rw [Tree.tokens]⟩
  · rintro ⟨ts, hts, rfl⟩
    exact ⟨.node .program ts, .rule hts, by rw [Tree.tokens]⟩

/-- A text is parsed by the preferred derivation, or it is no sentence. -/
theorem parse_cases (tokens : List Token) :
    (∃ ts, parse tokens = some (.node .program ts) ∧ Tree.tokensAll ts = tokens ∧
      Preferred (· = []) (Rule.pattern .program) ts []) ∨
    ¬ Sentence tokens ∧ parse tokens = none := by
  have hread := readProgram_exact tokens (· == 0)
  have hparse : parse tokens = ((readProgram tokens).pick (· == 0)).map fun w =>
    .node .program w.2 := rfl
  rw [hparse]
  cases hpick : (readProgram tokens).pick (· == 0) with
  | none =>
    rw [hpick] at hread
    refine .inr ⟨fun hsentence => ?_, rfl⟩
    obtain ⟨ts, hts, rfl⟩ := sentence_iff.mp hsentence
    exact hread ⟨ts, [], hts, (List.append_nil _).symm, rfl⟩
  | some w =>
    rw [hpick] at hread
    obtain ⟨r, hs, hr, hzero, hpref⟩ := hread
    obtain rfl : r = [] := List.eq_nil_of_length_eq_zero (hr.trans (beq_iff_eq.mp hzero))
    refine .inl ⟨w.2, rfl, by rw [hs, List.append_nil], hpref.congr fun us r _ _ => ?_⟩
    exact beq_iff_eq.trans List.length_eq_zero_iff

theorem parse_isSome_iff : (∃ tree, parse tokens = some tree) ↔ Sentence tokens := by
  rcases parse_cases tokens with ⟨ts, hok, htokens, hpref⟩ | ⟨hno, herror⟩
  · exact ⟨fun _ => sentence_iff.mpr ⟨ts, hpref.derives, htokens⟩, fun _ => ⟨_, hok⟩⟩
  · grind

theorem parse_eq_some_iff : parse tokens = some tree ↔
    tree.tokens = tokens ∧ Preferred (· = []) (.rule .program) [tree] [] := by
  constructor
  · intro h
    rcases parse_cases tokens with ⟨ts, hok, htokens, hpref⟩ | ⟨-, herror⟩
    · obtain rfl := Option.some.inj (hok.symm.trans h)
      exact ⟨by rw [Tree.tokens, htokens], .rule hpref⟩
    · rw [herror] at h
      cases h
  · rintro ⟨rfl, hpref⟩
    rcases parse_cases tree.tokens with ⟨ts, hok, htokens, hpref'⟩ | ⟨hno, -⟩
    · have hsame := hpref.unique (.rule hpref') rfl rfl
        (by simp [Tree.tokensAll, Tree.tokens, htokens])
      rw [hok, List.cons.inj hsame.1 |>.1]
    · exact absurd ⟨tree, hpref.derives, rfl⟩ hno

/-- A parse tree is a derivation of a program, and its leaves are the tokens of the text. -/
theorem parse_sound (h : parse tokens = some tree) :
    ∃ ts, tree = .node .program ts ∧ Derives (Rule.pattern .program) ts ∧ tree.tokens = tokens := by
  obtain ⟨htokens, hpref⟩ := parse_eq_some_iff.mp h
  have hderives := hpref.derives
  cases hderives with
  | rule hts => exact ⟨_, rfl, hts, htokens⟩

end

/-- **The parser accepts exactly the grammar.** A token list has a parse tree exactly if it can be
derived from a program. The tree is then the one derivation of the whole list, with the tokens at
its leaves, that takes at every choice the first alternative from which the rest of the list can
still be read. -/
theorem parse_accepts_exactly (tokens : List Token) :
    ((∃ tree, parse tokens = some tree) ↔ Sentence tokens) ∧
    ∀ tree, parse tokens = some tree ↔ Derives (.rule .program) [tree] ∧ tree.tokens = tokens ∧
      Preferred (· = []) (.rule .program) [tree] [] := by
  refine ⟨parse_isSome_iff, fun tree => ?_⟩
  rw [parse_eq_some_iff]
  exact ⟨fun h => ⟨h.2.derives, h⟩, fun h => h.2⟩

end Scriptc
