import Scriptc.Proofs.Formed
import Scriptc.Tree.Doc

/-!
# Scriptc: parse trees and their documents

`Shows ds ts` says that documents stand for tokens: each is the record of one token, or that of a
rule over documents that stand for its tokens, with the places of the first and of the last one. So
neighbours stand for neighbouring parts of the text, and the records of tokens are in the order of
the text (`Shows.tokensAll`).

The document of a program shows all its tokens, the end mark too, but the place where it says that
the program ends is that of the token before the mark: `document_faithful`,
`program_ends_before_mark`.
-/

namespace Scriptc

namespace Doc

/-- Whether fields are those of a token. -/
def isToken : List (String × Doc) → Bool
  | ("type", text name) :: _ => name == "TOKEN"
  | _ => false

mutual

/-- The records of tokens in a document, from the front to the back. -/
def tokens : Doc → List Doc
  | record fields => if isToken fields then [record fields] else tokensFields fields
  | list ds => tokensAll ds
  | pair first second => first.tokens ++ second.tokens
  | _ => []

def tokensAll : List Doc → List Doc
  | [] => []
  | d :: ds => d.tokens ++ tokensAll ds

def tokensFields : List (String × Doc) → List Doc
  | [] => []
  | (_, d) :: fields => d.tokens ++ tokensFields fields

end

end Doc

open Scriptc.Tree

theorem tokens_tokenDoc (t : Token) : (tokenDoc t).tokens = [tokenDoc t] := by
  rw [tokenDoc, Doc.tokens]
  rfl

theorem tokens_nodeDoc (r : Rule) (children : List Doc) (first last : Token) :
    (nodeDoc r children first last).tokens = Doc.tokensAll children := by
  have hname : (r.name == "TOKEN") = false := by cases r <;> rfl
  simp [nodeDoc, Doc.tokens, Doc.isToken, hname, Doc.tokensFields, Doc.ofNat]

/-- Documents that stand for tokens. -/
inductive Shows : List Doc → List Token → Prop where
  | nil : Shows [] []
  | token {ds : List Doc} {ts : List Token} (t : Token) :
      Shows ds ts → Shows (tokenDoc t :: ds) (t :: ts)
  | rule {children ds : List Doc} {us ts : List Token} {first last : Token} (r : Rule) :
      Shows children us →
    us.head? = some first → us.getLast? = some last → Shows ds ts →
    Shows (nodeDoc r children first last :: ds) (us ++ ts)

namespace Shows

variable {ds es : List Doc} {ts us : List Token}

theorem append (h : Shows ds ts) (h' : Shows es us) : Shows (ds ++ es) (ts ++ us) := by
  induction h with
  | nil => exact h'
  | token t _ ih => exact .token t ih
  | rule r hchildren hfirst hlast _ _ ih =>
    rw [List.append_assoc]
    exact .rule r hchildren hfirst hlast ih

/-- The records of tokens are those of the tokens that are shown. -/
theorem tokensAll (h : Shows ds ts) : Doc.tokensAll ds = ts.map tokenDoc := by
  induction h with
  | nil => rfl
  | token t _ ih => rw [Doc.tokensAll, ih, tokens_tokenDoc]; rfl
  | rule r _ _ _ _ ihchildren ih =>
    rw [Doc.tokensAll, ih, tokens_nodeDoc, ihchildren, List.map_append]

end Shows

theorem toDocs?_append {ts us : List Tree} {ds es : List Doc} (hts : toDocs? ts = some ds)
    (hus : toDocs? us = some es) : toDocs? (ts ++ us) = some (ds ++ es) := by
  induction ts generalizing ds with
  | nil => cases hts; exact hus
  | cons t ts ih =>
    simp only [toDocs?, List.cons_append, Option.bind_eq_bind, Option.bind_eq_some_iff,
      Option.pure_def] at hts ⊢
    grind

/-- A rule over trees with documents has a document, with the places of its first token and of the
last one that is no end mark. -/
theorem toDoc?_node {r : Rule} {ts : List Tree} {children : List Doc} {first last : Token}
    (hts : toDocs? ts = some children) (hfirst : (Tree.tokensAll ts).head? = some first)
    (hlast : ((Tree.tokensAll ts).filter (·.kind ≠ .eof)).getLast? = some last) :
    toDoc? (node r ts) = some (nodeDoc r children first last) := by
  have hfirst : (node r ts).first? = some first := hfirst
  have hlast : (node r ts).last? = some last := hlast
  simp [toDoc?, hts, hfirst, hlast]

/-- What is derived inside of a program is shown by its documents. -/
theorem Derives.shown {p : Pattern} {ts : List Tree} (h : Derives p ts) (hp : p.isInner = true) :
    ∃ ds, toDocs? ts = some ds ∧ Shows ds (tokensAll ts) := by
  have hboth : ∀ {ts us : List Tree}, (∃ ds, toDocs? ts = some ds ∧ Shows ds (tokensAll ts)) →
      (∃ ds, toDocs? us = some ds ∧ Shows ds (tokensAll us)) →
      ∃ ds, toDocs? (ts ++ us) = some ds ∧ Shows ds (tokensAll (ts ++ us)) := by
    rintro ts us ⟨ds, hds, hshows⟩ ⟨es, hes, hshows'⟩
    exact ⟨ds ++ es, toDocs?_append hds hes, tokensAll_append ts us ▸ hshows.append hshows'⟩
  induction h with
  | empty | stop => exact ⟨[], rfl, .nil⟩
  | tok t => exact ⟨[tokenDoc t], rfl, .token t .nil⟩
  | @rule r ts hr ih =>
    have hinner : r.pattern.isInner = true := Rule.isInner (of_decide_eq_true hp)
    obtain ⟨children, hchildren, hshows⟩ := ih hinner
    have hne := hr.tokensAll_ne_nil r.consumes
    have hfirst := List.head?_eq_some_head hne
    have hlast := List.getLast?_eq_some_getLast hne
    refine ⟨[_], ?_, (hshows.rule r hfirst hlast .nil : Shows _ _)⟩
    have hfilter : (Tree.tokensAll ts).filter (·.kind ≠ .eof) = Tree.tokensAll ts :=
      List.filter_eq_self.mpr fun t ht => decide_eq_true (hr.kind_ne_eof hinner t ht)
    rw [toDocs?, toDoc?_node hchildren hfirst (by rw [hfilter]; exact hlast)]
    rfl
  | seq _ _ ihp ihq =>
    obtain ⟨hp, hq⟩ := Bool.and_eq_true_iff.mp hp
    exact hboth (ihp hp) (ihq hq)
  | left _ ih => exact ih (Bool.and_eq_true_iff.mp hp).1
  | right _ ih => exact ih (Bool.and_eq_true_iff.mp hp).2
  | more _ _ ihp ihq => exact hboth (ihp hp) (ihq hp)

/-- **The document of a program shows its tokens.** A text with at least one token that is parsed
without an error has a document. It is that of a program, its parts show all tokens of the text, the
end mark included, and the records of tokens in it are those of the tokens in their order. The
program begins at its first token, and ends at the last one before the end mark. -/
theorem document_faithful {text : String} {s : Source} (hs : Source.ofText text = .ok s)
    (hsome : 1 < s.scan.tokens.length) :
    ∃ children first pre last mark, s.tree.toDoc? = some (nodeDoc .program children first last) ∧
      Shows children s.scan.tokens ∧
      (nodeDoc .program children first last).tokens = s.scan.tokens.map tokenDoc ∧
      s.scan.tokens.head? = some first ∧ s.scan.tokens = pre ++ [last, mark] ∧
        mark.kind = .eof := by
  unfold Source.ofText at hs
  dsimp only at hs
  split at hs
  · cases hs
  rename_i tree hparse
  cases hs
  dsimp only at hsome ⊢
  generalize (Scan.ofText text).tokens = tokens at *
  obtain ⟨ts, rfl, hderives, rfl⟩ := parse_sound hparse
  cases hderives with
  | @seq _ _ us vs hus hvs =>
    -- The statements of the program, and the mark of its end, which is no token of the text.
    obtain ⟨mark, hmark, rfl⟩ := Reading.Exact.derives_tok_iff.mp hvs
    have htokens : (node .program (us ++ [leaf mark])).tokens = tokensAll us ++ [mark] :=
      tokensAll_append us _
    rw [htokens] at hsome ⊢
    obtain ⟨ds, hds, hshows⟩ := hus.shown rfl
    have hall := hshows.append (.token mark .nil)
    have hfilter : (tokensAll us ++ [mark]).filter (·.kind ≠ .eof) = tokensAll us := by
      rw [List.filter_append, List.filter_eq_self.mpr fun t ht =>
        decide_eq_true (hus.kind_ne_eof rfl t ht)]
      simp [hmark]
    have hfirst := List.head?_eq_some_head (l := tokensAll us ++ [mark]) (by simp)
    -- There is a token before the mark, and the last one is where the node ends.
    rcases List.eq_nil_or_concat (tokensAll us) with hnone | ⟨pre, last, hlast⟩
    · simp [hnone] at hsome
    · rw [List.concat_eq_append] at hlast
      refine ⟨ds ++ [tokenDoc mark], _, pre, last, mark,
        toDoc?_node (toDocs?_append hds rfl) ?_ ?_, hall, ?_, hfirst,
        ?_, hmark⟩
      · rwa [tokensAll_append]
      · rw [tokensAll_append]
        show ((tokensAll us ++ [mark]).filter _).getLast? = some last
        rw [hfilter, hlast, List.getLast?_concat]
      · rw [tokens_nodeDoc, hall.tokensAll]
      · rw [hlast, List.append_assoc]
        rfl

/-- A block with nothing in it. -/
theorem document_faithful_block : ∃ s, Source.ofText "\x7b\x7d" = .ok s ∧ s.scan.tokens.length = 3 ∧
    ∃ children first pre last mark, s.tree.toDoc? = some (nodeDoc .program children first last) ∧
      Shows children s.scan.tokens ∧
      (nodeDoc .program children first last).tokens = s.scan.tokens.map tokenDoc ∧
      s.scan.tokens.head? = some first ∧ s.scan.tokens = pre ++ [last, mark] ∧
        mark.kind = .eof := by
  obtain ⟨s, hs, hlength⟩ : ∃ s, Source.ofText "\x7b\x7d" = .ok s ∧ s.scan.tokens.length = 3 :=
    Source.of_read? (by decide +kernel)
  exact ⟨s, hs, hlength, document_faithful hs (by rw [hlength]; decide)⟩

/-- The column in which a rule ends, as its document says. -/
def Doc.endColumn? : Doc → Option Int
  | record [_, _, _, _, _, ("end_column", int n)] => some n
  | _ => none

/-- The same program is said to end in column 1, while its last token, the end mark, is in column
2. -/
theorem program_ends_before_mark : ∃ s, Source.ofText "\x7b\x7d" = .ok s ∧
    (s.tree.toDoc?.bind Doc.endColumn? = some 1 ∧
      s.scan.tokens.getLast?.map Token.column = some 2) :=
  Source.of_read? (by decide +kernel)

end Scriptc
