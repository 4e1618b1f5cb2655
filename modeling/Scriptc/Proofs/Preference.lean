import Mathlib.Data.List.Basic
import Scriptc.Grammar.Reading

/-!
# Scriptc: the preferred derivation

`Derives p ts` says that the trees `ts`, side by side, are an instance of the pattern `p`: the
grammar read as a set of rules, without an order of preference and without a table. The grammar is
ambiguous, and its alternatives stand in an order of preference. `Preferred K p ts rest`
says that the trees `ts` read the pattern `p` in front of `rest` by taking, at every choice, the
first alternative from which what is left can still be read to its end; `K` says of a text whether
it can be read as what follows the pattern.

* `Completes p K s`: the text `s` can be read as `p` and then as what `K` says.
* `Preferred.derives`, `Preferred.unique`: a preferred reading is a derivation, and there is only
  one.

The rest are facts about the patterns of the grammar, each found by looking at the pattern of every
rule: every rule takes a token (`Rule.consumes`), so does every turn of a loop, and a rule begins
only with rules that stand before it (`Rule.firsts_before`).
-/

namespace Scriptc

/-- The trees that a pattern stands for. -/
inductive Derives : Pattern → List Tree → Prop where
  | empty : Derives .empty []
  | tok (t : Token) : Derives (.tok t.kind) [.leaf t]
  | rule {r : Rule} {ts : List Tree} : Derives r.pattern ts → Derives (.rule r) [.node r ts]
  | seq {p q : Pattern} {ts us : List Tree} :
    Derives p ts → Derives q us → Derives (.seq p q) (ts ++ us)
  | left {p q : Pattern} {ts : List Tree} : Derives p ts → Derives (.alt p q) ts
  | right {p q : Pattern} {ts : List Tree} : Derives q ts → Derives (.alt p q) ts
  | stop {p : Pattern} : Derives (.star p) []
  | more {p : Pattern} {ts us : List Tree} :
    Derives p ts → Derives (.star p) us → Derives (.star p) (ts ++ us)

theorem Tree.tokensAll_append (ts us : List Tree) :
    Tree.tokensAll (ts ++ us) = Tree.tokensAll ts ++ Tree.tokensAll us := by
  induction ts with
  | nil => rfl
  | cons t ts ih =>
    rw [List.cons_append, Tree.tokensAll, Tree.tokensAll, ih, List.append_assoc]

variable {ts : List Tree} {p : Pattern}

theorem Tree.tokens_subset_tokensAll {t : Tree} (h : t ∈ ts) : t.tokens ⊆ Tree.tokensAll ts := by
  induction ts with
  | nil => cases h
  | cons u ts ih =>
    rw [Tree.tokensAll]
    grind

/-! ## Preferred readings -/

/-- The text can be read as the pattern, and what is left then as `K` says. -/
def Completes (p : Pattern) (K : List Token → Prop) (s : List Token) : Prop :=
  ∃ ts r, Derives p ts ∧ s = Tree.tokensAll ts ++ r ∧ K r

/-- At every choice, the first alternative is taken from which the text can be read to its end. A
loop goes round rather than stops. -/
inductive Preferred : (List Token → Prop) → Pattern → List Tree → List Token → Prop where
  | empty {K : List Token → Prop} {rest : List Token} : Preferred K .empty [] rest
  | tok {K : List Token → Prop} {rest : List Token} (t : Token) :
      Preferred K (.tok t.kind) [.leaf t] rest
  | rule {K : List Token → Prop} {rest : List Token} {r : Rule} {ts : List Tree} :
    Preferred K r.pattern ts rest → Preferred K (.rule r) [.node r ts] rest
  | seq {K : List Token → Prop} {rest : List Token} {p q : Pattern} {ts us : List Tree} :
    Preferred (Completes q K) p ts (Tree.tokensAll us ++ rest) → Preferred K q us rest →
    Preferred K (.seq p q) (ts ++ us) rest
  | left {K : List Token → Prop} {rest : List Token} {p q : Pattern} {ts : List Tree} :
    Preferred K p ts rest → Preferred K (.alt p q) ts rest
  | right {K : List Token → Prop} {rest : List Token} {p q : Pattern} {ts : List Tree} :
    ¬ Completes p K (Tree.tokensAll ts ++ rest) → Preferred K q ts rest →
      Preferred K (.alt p q) ts rest
  | more {K : List Token → Prop} {rest : List Token} {p : Pattern} {ts us : List Tree} :
    Preferred (Completes (.star p) K) p ts (Tree.tokensAll us ++ rest) →
      Preferred K (.star p) us rest →
    Preferred K (.star p) (ts ++ us) rest
  | stop {K : List Token → Prop} {rest : List Token} {p : Pattern} :
    ¬ Completes (.seq p (.star p)) K rest → Preferred K (.star p) [] rest

section
variable {K K' : List Token → Prop} {p q : Pattern} {ts us : List Tree} {rest s : List Token}

theorem completes_seq_iff : Completes (.seq p q) K s ↔ Completes p (Completes q K) s := by
  constructor
  · rintro ⟨_, r, hseq, rfl, hr⟩
    cases hseq with
    | @seq _ _ ts us hts hus =>
      refine ⟨ts, Tree.tokensAll us ++ r, hts, ?_, us, r, hus, rfl, hr⟩
      rw [Tree.tokensAll_append, List.append_assoc]
  · rintro ⟨ts, _, hts, rfl, us, r, hus, rfl, hr⟩
    refine ⟨ts ++ us, r, .seq hts hus, ?_, hr⟩
    rw [Tree.tokensAll_append, List.append_assoc]

theorem completes_alt_iff : Completes (.alt p q) K s ↔ Completes p K s ∨ Completes q K s := by
  constructor
  · rintro ⟨ts, r, halt, hs, hr⟩
    cases halt with
    | left hts => exact .inl ⟨ts, r, hts, hs, hr⟩
    | right hts => exact .inr ⟨ts, r, hts, hs, hr⟩
  · rintro (⟨ts, r, hts, hs, hr⟩ | ⟨ts, r, hts, hs, hr⟩)
    · exact ⟨ts, r, .left hts, hs, hr⟩
    · exact ⟨ts, r, .right hts, hs, hr⟩

theorem completes_rule_iff {r : Rule} : Completes (.rule r) K s ↔ Completes r.pattern K s := by
  constructor
  · rintro ⟨_, rest, hrule, rfl, hr⟩
    cases hrule with
    | @rule _ ts hts =>
      exact ⟨ts, rest, hts, by simp [Tree.tokensAll, Tree.tokens], hr⟩
  · rintro ⟨ts, rest, hts, rfl, hr⟩
    exact ⟨_, rest, .rule hts, by simp [Tree.tokensAll, Tree.tokens], hr⟩

/-- A preferred reading is a derivation. -/
theorem Preferred.derives (h : Preferred K p ts rest) : Derives p ts := by
  induction h with
  | empty => exact .empty
  | tok t => exact .tok t
  | rule _ ih => exact .rule ih
  | seq _ _ ihp ihq => exact .seq ihp ihq
  | left _ ih => exact .left ih
  | right _ _ ih => exact .right ih
  | more _ _ ihp ihq => exact .more ihp ihq
  | stop => exact .stop

/-- Whether a reading is preferred depends on what may follow only where the pattern can end. -/
theorem Preferred.congr (h : Preferred K p ts rest)
    (hK : ∀ us r, Derives p us →
      Tree.tokensAll ts ++ rest = Tree.tokensAll us ++ r → (K r ↔ K' r)) :
    Preferred K' p ts rest := by
  induction h generalizing K' with
  | empty => exact .empty
  | tok t => exact .tok t
  | @rule K rest r ts _ ih =>
    refine .rule (ih fun us s hus hs => hK [.node r us] s (.rule hus) ?_)
    simpa [Tree.tokensAll, Tree.tokens] using hs
  | @seq K rest p q ts us hp _ ihp ihq =>
    rw [Tree.tokensAll_append, List.append_assoc] at hK
    -- behind an end of the first part, the second can be read in front of `K` as in front of `K'`
    refine .seq (ihp fun vs r hvs hr => ?_) (ihq fun vs r hvs hr => ?_)
    · refine exists₂_congr fun ws s => and_congr_right fun hws => and_congr_right ?_
      rintro rfl
      refine hK (vs ++ ws) s (.seq hvs hws) ?_
      rw [hr, Tree.tokensAll_append, List.append_assoc]
    · refine hK (ts ++ vs) r (.seq hp.derives hvs) ?_
      rw [hr, Tree.tokensAll_append, List.append_assoc]
  | left _ ih => exact .left (ih fun us r hus => hK us r (.left hus))
  | @right K rest p q ts hnot _ ih =>
    refine .right (fun hleft => hnot ?_) (ih fun us r hus => hK us r (.right hus))
    obtain ⟨us, r, hus, hs, hr⟩ := hleft
    exact ⟨us, r, hus, hs, (hK us r (.left hus) hs).mpr hr⟩
  | @more K rest p ts us hp _ ihp ihq =>
    rw [Tree.tokensAll_append, List.append_assoc] at hK
    refine .more (ihp fun vs r hvs hr => ?_) (ihq fun vs r hvs hr => ?_)
    · refine exists₂_congr fun ws s => and_congr_right fun hws => and_congr_right ?_
      rintro rfl
      refine hK (vs ++ ws) s (.more hvs hws) ?_
      rw [hr, Tree.tokensAll_append, List.append_assoc]
    · refine hK (ts ++ vs) r (.more hp.derives hvs) ?_
      rw [hr, Tree.tokensAll_append, List.append_assoc]
  | @stop K rest p hnot =>
    refine .stop fun hmore => hnot ?_
    obtain ⟨us, r, hseq, hs, hr⟩ := hmore
    cases hseq with
    | seq hts hus => exact ⟨_, r, .seq hts hus, hs, (hK _ r (.more hts hus) hs).mpr hr⟩

/-- Two preferred readings of a text are the same. -/
theorem Preferred.unique {rest' : List Token} (h : Preferred K p ts rest)
    (h' : Preferred K p us rest') (hrest : K rest) (hrest' : K rest')
    (hs : Tree.tokensAll ts ++ rest = Tree.tokensAll us ++ rest') : ts = us ∧ rest = rest' := by
  induction h generalizing us rest' with
  | empty =>
    cases h' with
    | empty => exact ⟨rfl, hs⟩
  | tok t =>
    generalize hk : t.kind = k at h'
    cases h' with
    | tok t' =>
      obtain ⟨rfl, rfl⟩ := List.cons.inj hs
      exact ⟨rfl, rfl⟩
  | @rule K rest r ts _ ih =>
    cases h' with
    | @rule _ _ _ us h' =>
      obtain ⟨rfl, rfl⟩ := ih h' hrest hrest' (by simpa [Tree.tokensAll, Tree.tokens] using hs)
      exact ⟨rfl, rfl⟩
  | @seq K rest p q ts us _ hq ihp ihq =>
    cases h' with
    | @seq _ _ _ _ ts' us' hp' hq' =>
      simp only [Tree.tokensAll_append, List.append_assoc] at hs
      obtain ⟨rfl, hmid⟩ :=
        ihp hp' ⟨us, _, hq.derives, rfl, hrest⟩ ⟨us', _, hq'.derives, rfl, hrest'⟩ hs
      -- What the first parts leave over is the same, so the second parts compete for it.
      grind
  | left hp ih =>
    cases h' with
    | left hp' => exact ih hp' hrest hrest' hs
    -- The first alternative is preferred wherever it leads on.
    | right hnot => exact absurd ⟨_, _, hp.derives, hs.symm, hrest⟩ hnot
  | right hnot _ ih =>
    cases h' with
    | left hp' => exact absurd ⟨_, _, hp'.derives, hs, hrest'⟩ hnot
    | right _ hq' => exact ih hq' hrest hrest' hs
  | @more K rest p ts us hp hq ihp ihq =>
    cases h' with
    | @more _ _ _ ts' us' hp' hq' =>
      simp only [Tree.tokensAll_append, List.append_assoc] at hs
      obtain ⟨rfl, hmid⟩ :=
        ihp hp' ⟨us, _, hq.derives, rfl, hrest⟩ ⟨us', _, hq'.derives, rfl, hrest'⟩ hs
      grind
    -- A repetition does not stop where it can go on.
    | stop hnot => exact absurd ⟨_, _, .seq hp.derives hq.derives, hs.symm, hrest⟩ hnot
  | stop hnot =>
    cases h' with
    | more hp' hq' => exact absurd ⟨_, _, .seq hp'.derives hq'.derives, hs, hrest'⟩ hnot
    | stop => exact ⟨rfl, hs⟩

end

/-! ## The patterns of the grammar -/

namespace Pattern

/-- Whether the pattern takes a token in any case. Every rule does. -/
def consumes : Pattern → Bool
  | empty | star _ => false
  | tok _ | rule _ => true
  | seq p q => p.consumes || q.consumes
  | alt p q => p.consumes && q.consumes

/-- The rules with which the pattern can begin. -/
def firsts : Pattern → List Rule
  | empty | tok _ => []
  | rule r => [r]
  | seq p q => p.firsts ++ if p.consumes then [] else q.firsts
  | alt p q => p.firsts ++ q.firsts
  | star p => p.firsts

/-- Every turn of a loop takes a token, and the pattern does not ask for a whole program. -/
def isProper : Pattern → Bool
  | empty | tok _ => true
  | rule r => r ≠ .program
  | seq p q | alt p q => p.isProper && q.isProper
  | star p => p.consumes && p.isProper

/-- The pattern asks neither for the end mark nor for a whole program. -/
def isInner : Pattern → Bool
  | empty => true
  | tok k => k ≠ .eof
  | rule r => r ≠ .program
  | seq p q | alt p q => p.isInner && q.isInner
  | star p => p.isInner

end Pattern

namespace Rule

theorem consumes (r : Rule) : r.pattern.consumes = true := by cases r <;> rfl

theorem isProper (r : Rule) : r.pattern.isProper = true := by cases r <;> rfl

theorem isInner {r : Rule} (h : r ≠ .program) : r.pattern.isInner = true := by
  cases r <;> first | rfl | exact absurd rfl h

/-- A rule begins with rules before it. -/
theorem firsts_before (r : Rule) : ∀ q ∈ r.pattern.firsts, q.ctorIdx < r.ctorIdx := by
  cases r <;> decide

end Rule

theorem Pattern.ne_program_of_mem_firsts {r : Rule} (hp : p.isProper = true)
    (hr : r ∈ p.firsts) : r ≠ .program := by
  induction p with
  | empty | tok k => cases hr
  | rule q =>
    rw [List.mem_singleton.mp hr]
    exact of_decide_eq_true hp
  | seq p q ihp ihq =>
    obtain ⟨hp, hq⟩ := Bool.and_eq_true_iff.mp hp
    rw [firsts, List.mem_append] at hr
    grind
  | alt p q ihp ihq =>
    obtain ⟨hp, hq⟩ := Bool.and_eq_true_iff.mp hp
    exact (List.mem_append.mp hr).elim (ihp hp) (ihq hq)
  | star p ih => exact ih (Bool.and_eq_true_iff.mp hp).2 hr

/-- What takes a token in any case is not derived from nothing. -/
theorem Derives.tokensAll_ne_nil (h : Derives p ts)
    (hp : p.consumes = true) : Tree.tokensAll ts ≠ [] := by
  induction h with
  | empty | stop | more => cases hp
  | tok t => simp [Tree.tokensAll, Tree.tokens]
  | @rule r ts _ ih => simpa [Tree.tokensAll, Tree.tokens] using ih r.consumes
  | @seq p q ts us _ _ ihp ihq =>
    rw [Tree.tokensAll_append]
    intro hnil
    obtain ⟨hts, hus⟩ := List.append_eq_nil_iff.mp hnil
    rcases Bool.or_eq_true_iff.mp hp with hp | hq
    · exact ihp hp hts
    · exact ihq hq hus
  | left _ ih => exact ih (Bool.and_eq_true_iff.mp hp).1
  | right _ ih => exact ih (Bool.and_eq_true_iff.mp hp).2

/-- What asks for no end mark has none among its tokens. -/
theorem Derives.kind_ne_eof (h : Derives p ts) (hp : p.isInner = true) :
    ∀ t ∈ Tree.tokensAll ts, t.kind ≠ .eof := by
  induction h with
  | empty | stop => exact nofun
  | tok t => simpa [Tree.tokensAll, Tree.tokens, Pattern.isInner] using hp
  | @rule r ts _ ih =>
    have hr : r ≠ .program := of_decide_eq_true hp
    simpa [Tree.tokensAll, Tree.tokens] using ih (Rule.isInner hr)
  | seq _ _ ihp ihq =>
    obtain ⟨hp, hq⟩ := Bool.and_eq_true_iff.mp hp
    rw [Tree.tokensAll_append]
    exact List.forall_mem_append.mpr ⟨ihp hp, ihq hq⟩
  | left _ ih => exact ih (Bool.and_eq_true_iff.mp hp).1
  | right _ ih => exact ih (Bool.and_eq_true_iff.mp hp).2
  | more _ _ ihp ihq =>
    rw [Tree.tokensAll_append]
    exact List.forall_mem_append.mpr ⟨ihp hp, ihq hp⟩

end Scriptc
