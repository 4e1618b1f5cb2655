import Scriptc.Proofs.Core
import Scriptc.Proofs.Reader
import Scriptc.Proofs.Recognition
import Scriptc.Proofs.Spelling
import Scriptc.Proofs.Walk

/-!
# Scriptc: operators and constants of a program

Expressions keep their operators and constants as texts. In a program that is read from a source
text each operator is one of its level in the grammar, and each constant is a number or a string in
quotes: `Source.formed`. The argument goes along the way from trees to abstract programs, and asks
of a tree only that it is a derivation over tokens that are spelled as their classes ask
(`Tree.Derived`).
-/

namespace Scriptc

/-- The operators of a chain and the text of a constant are those of the language. -/
def Expr.Formed : Expr → Prop
  | .chain level _ rest => ∀ p ∈ rest, p.1 ∈ level.operators
  | .literal _ (.plain text) => IsConstant text.toList
  | _ => True

/-- All operators and constants in an expression are those of the language. -/
def Use.Formed (u : Use) : Prop := u.expr.All Expr.Formed

theorem Level.isPlain (level : Level) : ∀ op ∈ level.operators, (Op.ofText op).isPlain = true := by
  cases level <;> decide +kernel

/-! ## Trees -/

/-- The classes of the tokens that stand in a pattern, outside of the rules it refers to. -/
def Pattern.terminals : Pattern → List Terminal
  | .empty | .rule _ => []
  | .tok k => [k]
  | .seq p q | .alt p q => p.terminals ++ q.terminals
  | .star p => p.terminals

theorem Derives.leaf_mem {p : Pattern} {ts : List Tree} (h : Derives p ts) {t : Token}
    (ht : .leaf t ∈ ts) : t.kind ∈ p.terminals := by
  induction h with
  | empty | stop => cases ht
  | tok u =>
    obtain rfl : t = u := by simpa using ht
    exact List.mem_singleton_self _
  | rule _ _ => simp at ht
  | seq _ _ ihp ihq =>
    exact List.mem_append.mpr ((List.mem_append.mp ht).imp ihp ihq)
  | left _ ih => exact List.mem_append.mpr (.inl (ih ht))
  | right _ ih => exact List.mem_append.mpr (.inr (ih ht))
  | more _ _ ihp ihq => exact (List.mem_append.mp ht).elim ihp ihq

theorem Derives.node_mem {p : Pattern} {ts us : List Tree} (h : Derives p ts) {r : Rule}
    (ht : .node r us ∈ ts) : Derives r.pattern us := by
  induction h with
  | empty | stop => cases ht
  | tok u => simp at ht
  | rule hr _ =>
    grind
  | seq _ _ ihp ihq | more _ _ ihp ihq => exact (List.mem_append.mp ht).elim ihp ihq
  | left _ ih | right _ ih => exact ih ht

/-- The tree is a derivation over tokens that are spelled as their classes ask. -/
def Tree.Derived : Tree → Prop
  | leaf t => t.Spelled
  | node r ts => Derives r.pattern ts ∧ ∀ t ∈ Tree.tokensAll ts, t.Spelled

namespace Tree.Derived

variable {r : Rule} {t : Tree} {ts : List Tree}

theorem child (h : (node r ts).Derived) (ht : t ∈ ts) : t.Derived := by
  have hspelled : ∀ u ∈ t.tokens, u.Spelled := fun u hu => h.2 u (tokens_subset_tokensAll ht hu)
  cases t with
  | leaf u => exact hspelled u (by simp [tokens])
  | node s us => exact ⟨h.1.node_mem ht, by rwa [tokens] at hspelled⟩

theorem nth (h : (node r ts).Derived) (i : Nat) (hi : ts[i]? = some t) : t.Derived :=
  h.child (List.mem_of_getElem? hi)

theorem below (h : (node r ts).Derived) (n : Nat) {us : List Tree} (hus : ts.drop n = us) :
    ∀ u ∈ us, u.Derived :=
  fun _ hin => h.child (List.drop_subset n ts (hus ▸ hin))

/-- A token right below a rule of operators is an operator of the level. -/
theorem isOperator (h : (node r ts).Derived) {level : Level} (hlevel : Level.ofRule? r = some level)
    {op : Token} (hop : .leaf op ∈ ts) : op.text ∈ level.operators := by
  have hspelled : op.Spelled := h.child hop
  have hkind : op.kind ∈ r.pattern.terminals := h.1.leaf_mem hop
  have hwords : ∀ r : Rule, ∀ level, Level.ofRule? r = some level → ∀ k ∈ r.pattern.terminals,
      ∃ w ∈ level.operators, k.word? = some w := by
    intro r level hlevel
    cases r <;> cases hlevel <;> decide
  obtain ⟨w, hw, hword⟩ := hwords r level hlevel op.kind hkind
  rwa [String.toList_inj.mp (hspelled.1 w hword)]

end Tree.Derived

/-! ## Expressions -/

/-- What a partial reading answers, if it answers, satisfies `P`. -/
def Answers {α : Type} (P : α → Prop) (x : Option α) : Prop := ∀ a, x = some a → P a

namespace Answers

variable {α β : Type} {P : α → Prop} {Q : β → Prop}

theorem none : Answers P none := nofun

theorem pure {a : α} (h : P a) : Answers P (some a) := by
  rintro _ ⟨⟩
  exact h

/-- What the first part answers may be used for the second. -/
theorem bind {x : Option α} {f : α → Option β} (hx : Answers P x)
    (hf : ∀ a, P a → Answers Q (f a)) :
    Answers Q (x >>= f) := by
  intro c h
  obtain ⟨a, ha, h⟩ := Option.bind_eq_some_iff.mp h
  exact hf a (hx a ha) c h

theorem map {x : Option α} {f : α → β} (hx : Answers P x) (hf : ∀ a, P a → Q (f a)) :
    Answers Q (x.map f) := by
  intro c h
  obtain ⟨a, ha, rfl⟩ := Option.map_eq_some_iff.mp h
  exact hf a (hx a ha)

theorem top (x : Option α) : Answers (fun _ => True) x := fun _ _ => trivial

end Answers

theorem Suffix.allIn_cons {ok : Expr → Prop} {s : Suffix} {ss : List Suffix}
    (hs : Suffix.AllIn ok [s]) (hss : Suffix.AllIn ok ss) : Suffix.AllIn ok (s :: ss) := by
  cases s with
  | call => exact ⟨hs.1, hss⟩
  | index => exact ⟨hs.1, hss⟩
  | member => exact hss

theorem Literal.formed_of_token {t : Token} (ht : t.Spelled) (line : Nat) :
    Answers (fun l => (Expr.literal line l).Formed) (Literal.ofToken? t) := by
  unfold Literal.ofToken?
  split
  case h_4 hkind => exact .pure (ht.2 hkind)
  case h_5 => exact .none
  all_goals exact .pure trivial

/-- The operands of a chain and the operators between them. -/
structure Expr.RestFormed (level : Level) (rest : List (String × Expr)) : Prop where
  operators : ∀ p ∈ rest, p.1 ∈ level.operators
  operands : Expr.AllRest Expr.Formed rest

def Access.Formed : Access → Prop
  | .mk a ss => a.All Expr.Formed ∧ Suffix.AllIn Expr.Formed ss

mutual

theorem Expr.formed_of_tree {t : Tree} (ht : t.Derived) :
    Answers (·.All Expr.Formed) (Expr.ofTree? t) := by
  unfold Expr.ofTree?
  split
  case h_1 | h_16 => exact .none
  case h_2 | h_4 | h_6 | h_8 | h_10 | h_12 => exact Expr.formed_of_tree (ht.nth 0 rfl)
  case h_3 =>
    refine (Access.formed_of_tree (ht.nth 0 rfl)).bind fun access ha => ?_
    cases access
    exact (Expr.formed_of_tree (ht.nth 2 rfl)).bind fun v hv => .pure ⟨trivial, ha.1, ha.2, hv⟩
  case h_5 =>
    refine (Expr.formed_of_tree (ht.nth 0 rfl)).bind fun c hc => ?_
    refine (Expr.formed_of_tree (ht.nth 2 rfl)).bind fun y hy => ?_
    exact (Expr.formed_of_tree (ht.nth 4 rfl)).bind fun n hn => .pure ⟨trivial, hc, hy, hn⟩
  case h_7 =>
    refine (Expr.formed_of_tree (ht.nth 1 rfl)).bind fun e he => .pure ?_
    split
    · exact ⟨trivial, he⟩
    · exact ⟨trivial, he⟩
  case h_9 => exact (Expr.formed_of_tree (ht.nth 1 rfl)).bind fun e he => .pure ⟨trivial, he⟩
  case h_11 => exact (Literal.formed_of_token (ht.nth 0 rfl) _).bind fun l hl => .pure hl
  case h_13 => exact (Expr.formed_of_trees (ht.below 1 rfl)).bind fun es hes => .pure ⟨trivial, hes⟩
  case h_14 =>
    refine (Atom.formed_of_tree (ht.nth 0 rfl)).bind fun a ha => ?_
    exact (Suffix.formed_of_trees (ht.below 1 rfl)).bind fun ss hss => .pure ⟨trivial, ha, hss⟩
  case h_15 =>
    refine Answers.bind (fun level hlevel => hlevel) fun level hlevel => ?_
    refine (Expr.formed_of_tree (ht.nth 0 rfl)).bind fun first hfirst => ?_
    refine (Expr.formed_of_operands (ht.below 1 rfl) fun op hin =>
      ht.isOperator hlevel (.tail _ hin)).bind
      fun rest hrest => ?_
    split
    · exact .pure hfirst
    · exact .pure ⟨hrest.operators, hfirst, hrest.operands⟩
termination_by sizeOf t
decreasing_by all_goals subst_vars; simp +arith

theorem Expr.formed_of_trees {ts : List Tree} (hts : ∀ t ∈ ts, t.Derived) :
    Answers (Expr.AllIn Expr.Formed) (Expr.ofTrees? ts) := by
  unfold Expr.ofTrees?
  split
  case h_1 => exact .pure trivial
  case h_2 => exact Expr.formed_of_trees (hts · <| .tail _ ·)
  case h_3 =>
    refine (Expr.formed_of_tree (hts _ (.head _))).bind fun e he => ?_
    exact (Expr.formed_of_trees (hts · <| .tail _ ·)).bind fun es hes => .pure ⟨he, hes⟩
termination_by sizeOf ts
decreasing_by all_goals subst_vars; simp +arith

theorem Expr.formed_of_operands {ts : List Tree} {level : Level} (hts : ∀ t ∈ ts, t.Derived)
    (hops : ∀ op, .leaf op ∈ ts → op.text ∈ level.operators) :
    Answers (Expr.RestFormed level) (Expr.operands? ts) := by
  unfold Expr.operands?
  split
  case h_1 => exact .pure ⟨nofun, trivial⟩
  case h_2 sign t ts =>
    refine (Expr.formed_of_tree (hts t (.tail _ (.head _)))).bind fun e he => ?_
    refine (Expr.formed_of_operands (fun u hin => hts u (.tail _ (.tail _ hin)))
      (fun op hin => hops op (.tail _ (.tail _ hin)))).bind fun rest hrest => .pure ?_
    exact ⟨List.forall_mem_cons.mpr ⟨hops sign (.head _), hrest.operators⟩, he, hrest.operands⟩
  case h_3 => exact .none
termination_by sizeOf ts
decreasing_by all_goals subst_vars; simp +arith

theorem Expr.formed_of_arguments {ts : List Tree} (hts : ∀ t ∈ ts, t.Derived) :
    Answers (Expr.AllIn Expr.Formed) (Expr.arguments? ts) := by
  unfold Expr.arguments?
  split
  · exact Expr.formed_of_trees fun t hin => (hts _ (.head _)).child hin
  · exact .pure trivial
  · exact .none
termination_by sizeOf ts
decreasing_by all_goals subst_vars; simp +arith

theorem Access.formed_of_tree {t : Tree} (ht : t.Derived) :
    Answers Access.Formed (Access.ofTree? t) := by
  unfold Access.ofTree?
  split
  · refine (Atom.formed_of_tree (ht.nth 0 rfl)).bind fun a ha => ?_
    exact (Suffix.formed_of_trees (ht.below 1 rfl)).bind fun ss hss => .pure ⟨ha, hss⟩
  · exact .none
termination_by sizeOf t
decreasing_by all_goals subst_vars; simp +arith

theorem Atom.formed_of_tree {t : Tree} (ht : t.Derived) :
    Answers (·.All Expr.Formed) (Atom.ofTree? t) := by
  unfold Atom.ofTree?
  split
  · split
    · exact .pure trivial
    · exact .pure trivial
    · exact .none
  · exact (Expr.formed_of_arguments (ht.below 3 rfl)).bind fun es hes => .pure hes
  · exact .none
termination_by sizeOf t
decreasing_by all_goals subst_vars; simp +arith

theorem Suffix.formed_of_tree {t : Tree} (ht : t.Derived) :
    Answers (fun s => Suffix.AllIn Expr.Formed [s]) (Suffix.ofTree? t) := by
  unfold Suffix.ofTree?
  split
  case h_1 _ ts _ =>
    have harguments : (Tree.node .arguments ts).Derived := ht.nth 1 rfl
    exact (Expr.formed_of_trees fun t hin => harguments.child hin).bind fun es hes =>
      .pure ⟨hes, trivial⟩
  case h_2 => exact (Expr.formed_of_tree (ht.nth 1 rfl)).bind fun e he => .pure ⟨he, trivial⟩
  case h_3 =>
    split
    · exact .pure ⟨trivial, trivial⟩
    · exact .pure trivial
    · exact .none
  case h_4 => exact .none
termination_by sizeOf t
decreasing_by all_goals subst_vars; simp +arith

theorem Suffix.formed_of_trees {ts : List Tree} (hts : ∀ t ∈ ts, t.Derived) :
    Answers (Suffix.AllIn Expr.Formed) (Suffix.ofTrees? ts) := by
  unfold Suffix.ofTrees?
  split
  · exact .pure trivial
  · refine (Suffix.formed_of_tree (hts _ (.head _))).bind fun s hs => ?_
    refine (Suffix.formed_of_trees (hts · <| .tail _ ·)).bind fun ss hss => ?_
    exact .pure (Suffix.allIn_cons hs hss)
termination_by sizeOf ts
decreasing_by all_goals subst_vars; simp +arith

end

/-! ## Statements -/

/-- All expressions of a part of a program have operators and constants of the language only. -/
abbrev UsesFormed {α : Type} (uses : α → List Use) (a : α) : Prop := ∀ u ∈ uses a, u.Formed

theorem Use.formed_of_tree {t : Tree} (ht : t.Derived) :
    Answers (fun e => Use.Formed (.value e)) (Expr.ofTree? t) :=
  Expr.formed_of_tree ht

/-- An expression that may be missing. -/
def OptionFormed (e? : Option Expr) : Prop := ∀ u ∈ e?.toList.map Use.value, u.Formed

theorem OptionFormed.some {e : Expr} (h : Use.Formed (.value e)) : OptionFormed (some e) :=
  List.forall_mem_singleton.mpr h

theorem initializer_formed {ts : List Tree} (hts : ∀ t ∈ ts, t.Derived) :
    Answers OptionFormed (initializer? ts) := by
  induction ts with
  | nil => exact .pure nofun
  | cons t ts ih =>
    unfold initializer?
    split
    case h_1 heq => cases heq
    case h_2 heq =>
      obtain ⟨rfl, rfl⟩ := List.cons.inj heq
      exact (Use.formed_of_tree ((hts _ (.head _)).nth 1 rfl)).map fun e he => .some he
    case h_3 heq =>
      obtain ⟨rfl, rfl⟩ := List.cons.inj heq
      exact ih (hts · <| .tail _ ·)

theorem VarDecl.formed_of_tree {t : Tree} (ht : t.Derived) :
    Answers (UsesFormed VarDecl.uses) (VarDecl.ofTree? t) := by
  unfold VarDecl.ofTree?
  split
  · exact (initializer_formed (ht.below 2 rfl)).bind fun init? hinit => .pure hinit
  · exact .none

theorem ConstDecl.formed_of_tree {t : Tree} (ht : t.Derived) :
    Answers (fun d => Use.Formed (.value d.value)) (ConstDecl.ofTree? t) := by
  unfold ConstDecl.ofTree?
  split
  · dsimp only
    split
    · exact (Use.formed_of_tree (ht.nth 3 rfl)).bind fun value hvalue => .pure hvalue
    · exact (Use.formed_of_tree (ht.nth 4 rfl)).bind fun value hvalue => .pure hvalue
    · exact .none
  · exact .none

theorem Assignment.formed_of_tree {t : Tree} (ht : t.Derived) :
    Answers (UsesFormed Assignment.uses) (Assignment.ofTree? t) := by
  unfold Assignment.ofTree?
  split
  · exact (Expr.formed_of_tree (ht.nth 2 rfl)).bind fun e he =>
      .pure (List.forall_mem_singleton.mpr he)
  · refine (Use.formed_of_tree (ht.nth 0 rfl)).bind fun base hbase => ?_
    refine (Use.formed_of_tree (ht.nth 4 rfl)).bind fun e he => .pure ?_
    exact List.forall_mem_cons.mpr ⟨hbase, List.forall_mem_singleton.mpr he⟩
  · exact .none

theorem LoopInit.formed_of_tree {t : Tree} (ht : t.Derived) :
    Answers (UsesFormed LoopInit.uses) (LoopInit.ofTree? t) := by
  unfold LoopInit.ofTree?
  split
  · exact .pure nofun
  · exact (VarDecl.formed_of_tree ht).bind fun d hd => .pure hd
  · exact (Assignment.formed_of_tree ht).bind fun a ha => .pure ha
  · exact .none

theorem loopParts_formed {ts : List Tree} (hts : ∀ t ∈ ts, t.Derived) :
    Answers (fun p => OptionFormed p.1 ∧ OptionFormed p.2) (loopParts? ts) := by
  have hnone : OptionFormed none := nofun
  unfold loopParts?
  split
  · exact .pure ⟨hnone, hnone⟩
  · exact (Use.formed_of_tree (hts _ (.tail _ (.head _)))).bind fun c hc => .pure ⟨.some hc, hnone⟩
  · exact (Use.formed_of_tree (hts _ (.head _))).bind fun c hc => .pure ⟨.some hc, hnone⟩
  · refine (Use.formed_of_tree (hts _ (.head _))).bind fun c hc => ?_
    refine (Use.formed_of_tree (hts _ (.tail _ (.tail _ (.head _))))).bind fun u hu => ?_
    exact .pure ⟨.some hc, .some hu⟩
  · exact .none

mutual

theorem Stmt.formed_of_tree {t : Tree} (ht : t.Derived) :
    Answers (UsesFormed Stmt.uses) (Stmt.ofTree? t) := by
  unfold Stmt.ofTree?
  split
  case h_1 | h_24 => exact .none
  case h_2 => exact Stmt.formed_of_tree (ht.nth 0 rfl)
  case h_3 => exact (VarDecl.formed_of_tree ht).bind fun d hd => .pure hd
  case h_4 =>
    exact (ConstDecl.formed_of_tree ht).bind fun d hd => .pure (List.forall_mem_singleton.mpr hd)
  case h_5 => exact (Assignment.formed_of_tree ht).bind fun a ha => .pure ha
  case h_6 =>
    refine (Answers.top _).bind fun sig _ => ?_
    exact (Stmt.formed_of_lastBody fun _ => ht.child).bind fun body hbody => .pure hbody
  case h_7 => exact (Member.formed_of_trees (ht.below 5 rfl)).bind fun ms hms => .pure hms
  case h_8 => exact (Member.formed_of_trees (ht.below 3 rfl)).bind fun ms hms => .pure hms
  case h_9 =>
    exact (Use.formed_of_tree (ht.nth 0 rfl)).bind fun e he =>
      .pure (List.forall_mem_singleton.mpr he)
  case h_10 =>
    exact (Use.formed_of_tree (ht.nth 2 rfl)).bind fun e he =>
      .pure (List.forall_mem_singleton.mpr he)
  case h_11 => exact (Stmt.formed_of_trees (ht.below 1 rfl)).bind fun body hbody => .pure hbody
  case h_12 | h_14 =>
    refine (Use.formed_of_tree (ht.nth 2 rfl)).bind fun c hc => ?_
    refine (Stmt.formed_of_body (ht.nth 4 rfl)).bind fun body hbody => .pure ?_
    exact List.forall_mem_cons.mpr ⟨hc, hbody⟩
  case h_13 =>
    refine (Use.formed_of_tree (ht.nth 2 rfl)).bind fun c hc => ?_
    refine (Stmt.formed_of_body (ht.nth 4 rfl)).bind fun yes hyes => ?_
    refine (Stmt.formed_of_body (ht.nth 6 rfl)).bind fun no hno => .pure ?_
    exact List.forall_mem_append.mpr ⟨List.forall_mem_cons.mpr ⟨hc, hyes⟩, hno⟩
  case h_15 =>
    refine (Stmt.formed_of_body (ht.nth 1 rfl)).bind fun body hbody => ?_
    refine (Use.formed_of_tree (ht.nth 4 rfl)).bind fun c hc => .pure ?_
    exact List.forall_mem_cons.mpr ⟨hc, hbody⟩
  case h_16 kw _ init ts =>
    have hts : ∀ t ∈ ts, t.Derived := ht.below 3 rfl
    refine (loopParts_formed fun t hin => hts t (List.dropLast_subset _ hin)).bind
      fun parts hparts => ?_
    refine (LoopInit.formed_of_tree (ht.nth 2 rfl)).bind fun init' hinit => ?_
    refine (Stmt.formed_of_lastBody hts).bind fun body hbody => .pure ?_
    simp only [UsesFormed, Stmt.uses, List.forall_mem_append]
    exact ⟨⟨⟨hinit, hparts.1⟩, hparts.2⟩, hbody⟩
  case h_17 =>
    refine (Use.formed_of_tree (ht.nth 4 rfl)).bind fun e he => ?_
    refine (Stmt.formed_of_body (ht.nth 6 rfl)).bind fun body hbody => .pure ?_
    exact List.forall_mem_cons.mpr ⟨he, hbody⟩
  case h_18 =>
    refine (Stmt.formed_of_body (ht.nth 1 rfl)).bind fun body hbody => ?_
    refine (Stmt.formed_of_body (ht.nth 6 rfl)).bind fun handler hhandler => .pure ?_
    exact List.forall_mem_append.mpr ⟨hbody, hhandler⟩
  case h_19 kw _ _ _ _ ts =>
    have hts : ∀ t ∈ ts, t.Derived := ht.below 5 rfl
    refine (Use.formed_of_tree (ht.nth 2 rfl)).bind fun e he => ?_
    refine (Case.formed_of_trees hts).bind fun cs hcs => ?_
    refine (Stmt.formed_of_default hts).bind fun default? hdefault => .pure ?_
    have hcs := List.forall_mem_cons.mpr ⟨he, hcs⟩
    cases default? with
    | none => exact hcs
    | some body => exact List.forall_mem_append.mpr ⟨hcs, hdefault body rfl⟩
  case h_20 | h_21 | h_22 => exact .pure nofun
  case h_23 =>
    exact (Use.formed_of_tree (ht.nth 1 rfl)).bind fun e he =>
      .pure (List.forall_mem_singleton.mpr he)
termination_by sizeOf t
decreasing_by all_goals subst_vars; simp +arith

theorem Stmt.formed_of_trees {ts : List Tree} (hts : ∀ t ∈ ts, t.Derived) :
    Answers (UsesFormed Stmt.usesAll) (Stmt.ofTrees? ts) := by
  unfold Stmt.ofTrees?
  split
  · exact .pure nofun
  · exact Stmt.formed_of_trees (hts · <| .tail _ ·)
  · refine (Stmt.formed_of_tree (hts _ (.head _))).bind fun s hs => ?_
    refine (Stmt.formed_of_trees (hts · <| .tail _ ·)).bind fun ss hss => ?_
    exact .pure (List.forall_mem_append.mpr ⟨hs, hss⟩)
termination_by sizeOf ts
decreasing_by all_goals subst_vars; simp +arith

theorem Stmt.formed_of_body {t : Tree} (ht : t.Derived) :
    Answers (UsesFormed Stmt.usesAll) (Stmt.body? t) := by
  unfold Stmt.body?
  split
  · exact Stmt.formed_of_trees fun _ => ht.child
  · exact .none
termination_by sizeOf t
decreasing_by all_goals subst_vars; simp +arith

theorem Stmt.formed_of_lastBody {ts : List Tree} (hts : ∀ t ∈ ts, t.Derived) :
    Answers (UsesFormed Stmt.usesAll) (Stmt.lastBody? ts) := by
  unfold Stmt.lastBody?
  split
  · exact .none
  · exact Stmt.formed_of_body (hts _ (.head _))
  · exact Stmt.formed_of_lastBody (hts · <| .tail _ ·)
termination_by sizeOf ts
decreasing_by all_goals subst_vars; simp +arith

theorem Stmt.formed_of_default {ts : List Tree} (hts : ∀ t ∈ ts, t.Derived) :
    Answers (fun body? => ∀ body, body? = some body → UsesFormed Stmt.usesAll body)
      (Stmt.default? ts) := by
  unfold Stmt.default?
  split
  · exact .pure nofun
  · refine (Stmt.formed_of_trees fun _ => (hts _ (.head _)).child).map fun body hbody => ?_
    rintro _ ⟨⟩
    exact hbody
  · exact Stmt.formed_of_default (hts · <| .tail _ ·)
termination_by sizeOf ts
decreasing_by all_goals subst_vars; simp +arith

theorem Case.formed_of_trees {ts : List Tree} (hts : ∀ t ∈ ts, t.Derived) :
    Answers (UsesFormed Case.usesAll) (Case.ofTrees? ts) := by
  unfold Case.ofTrees?
  split
  case h_1 => exact .pure nofun
  case h_2 =>
    have hcase := hts _ (.head _)
    refine (Use.formed_of_tree (hcase.nth 1 rfl)).bind fun e he => ?_
    refine (Stmt.formed_of_trees (hcase.below 2 rfl)).bind fun body hbody => ?_
    refine (Case.formed_of_trees (hts · <| .tail _ ·)).bind fun cs hcs => .pure ?_
    exact List.forall_mem_append.mpr ⟨List.forall_mem_cons.mpr ⟨he, hbody⟩, hcs⟩
  case h_3 => exact Case.formed_of_trees (hts · <| .tail _ ·)
termination_by sizeOf ts
decreasing_by all_goals subst_vars; simp +arith

theorem Member.formed_of_trees {ts : List Tree} (hts : ∀ t ∈ ts, t.Derived) :
    Answers (UsesFormed Member.usesAll) (Member.ofTrees? ts) := by
  unfold Member.ofTrees?
  split
  case h_1 => exact .pure nofun
  case h_2 fs _ =>
    have hfunction : (Tree.node .functionDeclaration fs).Derived := (hts _ (.head _)).nth 0 rfl
    refine (Answers.top _).bind fun sig _ => ?_
    refine (Stmt.formed_of_lastBody fun _ => hfunction.child).bind fun body hbody => ?_
    refine (Member.formed_of_trees (hts · <| .tail _ ·)).bind fun ms hms => ?_
    exact .pure (List.forall_mem_append.mpr ⟨hbody, hms⟩)
  case h_3 =>
    refine (VarDecl.formed_of_tree ((hts _ (.head _)).nth 0 rfl)).bind fun d hd => ?_
    refine (Member.formed_of_trees (hts · <| .tail _ ·)).bind fun ms hms => ?_
    exact .pure (List.forall_mem_append.mpr ⟨hd, hms⟩)
  case h_4 =>
    refine (ConstDecl.formed_of_tree ((hts _ (.head _)).nth 0 rfl)).bind fun d hd => ?_
    refine (Member.formed_of_trees (hts · <| .tail _ ·)).bind fun ms hms => ?_
    exact .pure (List.forall_mem_cons.mpr ⟨hd, hms⟩)
  case h_5 => exact Member.formed_of_trees (hts · <| .tail _ ·)
  case h_6 => exact .none
termination_by sizeOf ts
decreasing_by all_goals subst_vars; simp +arith

end

/-- The expressions of a program that is read from a text have operators and constants of the
language only. -/
theorem Source.formed {text : String} {s : Source} (h : Source.ofText text = .ok s) :
    ∀ u ∈ Stmt.usesAll s.program, u.Formed := by
  unfold Source.ofText at h
  dsimp only at h
  split at h
  · cases h
  · rename_i tree hparse
    obtain rfl := Except.ok.inj h
    obtain ⟨ts, rfl, hderives, htokens⟩ := parse_sound hparse
    have hderived : (Tree.node .program ts).Derived := by
      refine ⟨hderives, fun t ht => Scan.spelled text t ?_⟩
      rw [← htokens]
      exact ht
    cases hprogram : Program.ofTree? (.node .program ts) with
    | none => exact nofun
    | some p => exact Stmt.formed_of_trees (fun _ => hderived.child) p hprogram

/-! ## Evaluation -/

/-- A text that is read as a program as told is such a program. -/
theorem Source.of_read? {text : String} {P : Source → Prop} (h : ∃ s ∈ Source.read? text, P s) :
    ∃ s, Source.ofText text = .ok s ∧ P s := by
  obtain ⟨s, hs, hp⟩ := h
  exact ⟨s, Source.ofText_of_read? hs, hp⟩

section
variable (m : Program → BuildM Unit) {P : Source → Build → Prop}

/-- A text that is read as a program, and a step over the program that leads to a state as told. -/
theorem Source.ends_of_read? (text : String)
    (h : ∃ s ∈ Source.read? text, ∃ b, Build.Ends (m s.program) {} () b ∧ P s b) :
    ∃ s b, Source.ofText text = .ok s ∧ Build.Ends (m s.program) {} () b ∧ P s b := by
  simp only [exists_and_left]
  exact Source.of_read? h

/-- So is what follows from it. -/
theorem Source.exists_of_read? {text : String} {Q : Source → Build → Prop}
    (h : ∃ s ∈ Source.read? text, ∃ b, Build.Ends (m s.program) {} () b ∧ P s b)
    (hQ : ∀ s b, Source.ofText text = .ok s → Build.Ends (m s.program) {} () b → P s b → Q s b) :
    ∃ s b, Source.ofText text = .ok s ∧ Build.Ends (m s.program) {} () b ∧ Q s b := by
  obtain ⟨s, b, hs, hb, hp⟩ := ends_of_read? m text h
  exact ⟨s, b, hs, hb, hQ s b hs hb hp⟩

end

end Scriptc
