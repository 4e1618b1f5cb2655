import Scriptc.Proofs.Notes

/-!
# Scriptc: from quadruples to blocks

The quadruples are divided into the code outside of functions and the code of each function
(`Program.split`), and translated one after the other, the functions last. Quadruples that follow
one another in the intermediate code, with no beginning or end of a function among them, are
translated one directly after the other (`Program.segment_ends`), in a state of which one thing is
known: which functions it may be in (`Select.Calm`).
-/

namespace Scriptc.Mips

open Select (Ends ends_bind ends_pure ends_mapM_append ends_mapM_cons)

variable {input : Input} {s s' : Select}

namespace Program

/-! ## Dividing -/

/-- What has been divided so far: whether a function is open, the code outside and that of each
function, all in reverse. -/
abbrev Division := Bool × List Numbered × List (List Numbered)

/-- Puts one more quadruple where it belongs. -/
def divide (acc : Division) (e : Numbered) : Division :=
  if (functionLabel? e.1).isSome then (true, acc.2.1, [e] :: acc.2.2)
  else if acc.1 then
    match acc.2.2 with
    | [] => acc
    | g :: gs => (e.1.op ≠ .leave, acc.2.1, (e :: g) :: gs)
  else (acc.1, e :: acc.2.1, acc.2.2)

theorem split_eq (qs : List Numbered) : split qs =
    ((qs.foldl divide (false, [], [])).2.1.reverse,
      ((qs.foldl divide (false, [], [])).2.2.map List.reverse).reverse) :=
  rfl

namespace Division

variable {acc : Division} {e : Numbered} {g qs : List Numbered}

def pieces (acc : Division) : List (List Numbered) := acc.2.1 :: acc.2.2

/-- A function that is open has begun. -/
def Open (acc : Division) : Prop := acc.1 = true → acc.2.2 ≠ []

/-- The piece that the next quadruple belongs to, unless it begins a function. -/
def atHand (acc : Division) : List Numbered := if acc.1 then acc.2.2.headD [] else acc.2.1

theorem Open.atHand_mem (h : acc.Open) : acc.atHand ∈ acc.pieces := by
  obtain ⟨inside, outer, groups⟩ := acc
  unfold atHand pieces
  cases inside with
  | false => exact (.head _)
  | true =>
    obtain ⟨g, gs, hgroups⟩ := List.exists_cons_of_ne_nil (h rfl)
    grind

theorem Open.divide (h : acc.Open) : (divide acc e).Open := by
  obtain ⟨inside, outer, groups⟩ := acc
  unfold Program.divide
  split
  · exact fun _ => List.cons_ne_nil _ _
  split
  · split
    · exact h
    · exact fun _ => List.cons_ne_nil _ _
  · exact h

/-- Pieces grow in front only, and none is lost. -/
theorem exists_suffix_divide (hg : g ∈ acc.pieces) : ∃ g' ∈ (divide acc e).pieces, g <:+ g' := by
  obtain ⟨inside, outer, groups⟩ := acc
  unfold Program.divide
  split
  · refine ⟨g, ?_, List.suffix_rfl⟩
    rcases List.mem_cons.mp hg with rfl | hg
    · exact (.head _)
    · exact List.mem_cons_of_mem _ (.tail _ hg)
  split
  · split
    · exact ⟨g, hg, List.suffix_rfl⟩
    · rename_i last gs hgroups
      dsimp only at hgroups
      rw [pieces, hgroups] at hg
      rcases List.mem_cons.mp hg with rfl | hg
      · exact ⟨_, (.head _), List.suffix_rfl⟩
      rcases List.mem_cons.mp hg with rfl | hg
      · exact ⟨e :: g, List.mem_cons_of_mem _ (.head _), List.suffix_cons _ _⟩
      · exact ⟨g, List.mem_cons_of_mem _ (.tail _ hg), List.suffix_rfl⟩
  · rcases List.mem_cons.mp hg with rfl | hg
    · exact ⟨_, (.head _), List.suffix_cons _ _⟩
    · exact ⟨g, List.mem_cons_of_mem _ hg, List.suffix_rfl⟩

/-- A quadruple that neither begins nor ends a function goes to the piece at hand, which stays
so. -/
theorem Open.atHand_divide (h : acc.Open) (hlabel : functionLabel? e.1 = none)
    (hleave : e.1.op ≠ .leave) :
    (Program.divide acc e).atHand = e :: acc.atHand := by
  obtain ⟨inside, outer, groups⟩ := acc
  unfold Program.divide
  rw [hlabel, if_neg (by simp)]
  cases inside with
  | false => rfl
  | true =>
    obtain ⟨g, gs, hgroups⟩ := List.exists_cons_of_ne_nil (h rfl)
    dsimp only at hgroups
    subst hgroups
    simp [atHand, hleave]

/-- What is in the pieces is what was put there. -/
theorem mem_divide {x : Numbered} (hg : g ∈ (Program.divide acc e).pieces) (hx : x ∈ g) :
    x = e ∨ ∃ g' ∈ acc.pieces, x ∈ g' := by
  obtain ⟨inside, outer, groups⟩ := acc
  unfold Program.divide at hg
  split at hg
  · rcases List.mem_cons.mp hg with rfl | hg
    · exact .inr ⟨_, (.head _), hx⟩
    rcases List.mem_cons.mp hg with rfl | hg
    · exact .inl (List.mem_singleton.mp hx)
    · exact .inr ⟨g, List.mem_cons_of_mem _ hg, hx⟩
  split at hg
  · split at hg
    · exact .inr ⟨g, hg, hx⟩
    · rename_i last gs hgroups
      dsimp only at hgroups
      subst hgroups
      rcases List.mem_cons.mp hg with rfl | hg
      · exact .inr ⟨_, (.head _), hx⟩
      rcases List.mem_cons.mp hg with rfl | hg
      · exact (List.mem_cons.mp hx).imp_right fun hx =>
          ⟨last, List.mem_cons_of_mem _ (.head _), hx⟩
      · exact .inr ⟨g, List.mem_cons_of_mem _ (.tail _ hg), hx⟩
  · rcases List.mem_cons.mp hg with rfl | hg
    · exact (List.mem_cons.mp hx).imp_right fun hx => ⟨_, (.head _), hx⟩
    · exact .inr ⟨g, List.mem_cons_of_mem _ hg, hx⟩

theorem Open.foldl (h : acc.Open) : (qs.foldl Program.divide acc).Open := by
  induction qs generalizing acc with
  | nil => exact h
  | cons e qs ih => exact ih h.divide

theorem exists_suffix_foldl (qs : List Numbered) (hg : g ∈ acc.pieces) :
    ∃ g' ∈ (qs.foldl Program.divide acc).pieces, g <:+ g' := by
  induction qs generalizing acc g with
  | nil => exact ⟨g, hg, List.suffix_rfl⟩
  | cons e qs ih =>
    obtain ⟨g₁, hg₁, hsuffix₁⟩ := exists_suffix_divide (e := e) hg
    grind

theorem mem_foldl {x : Numbered} (hg : g ∈ (qs.foldl Program.divide acc).pieces)
    (hx : x ∈ g) : x ∈ qs ∨ ∃ g' ∈ acc.pieces, x ∈ g' := by
  induction qs generalizing acc with
  | nil => exact .inr ⟨g, hg, hx⟩
  | cons e qs ih =>
    rcases ih hg with hx | ⟨g', hg', hx⟩
    · exact .inl (.tail _ hx)
    · exact (mem_divide hg' hx).imp_left fun he => List.mem_cons.mpr (.inl he)

theorem Open.atHand_foldl (h : acc.Open)
    (hqs : ∀ e ∈ qs, functionLabel? e.1 = none ∧ e.1.op ≠ .leave) :
    (qs.foldl Program.divide acc).atHand = qs.reverse ++ acc.atHand := by
  induction qs generalizing acc with
  | nil => rfl
  | cons e qs ih =>
    have he := hqs e (.head _)
    rw [List.foldl_cons, ih h.divide fun e' he' => hqs e' (.tail _ he'),
      h.atHand_divide he.1 he.2, List.reverse_cons, List.append_assoc]
    rfl

end Division

theorem mem_of_mem_split {qs g : List Numbered} (hg : g ∈ (split qs).1 :: (split qs).2)
    {x : Numbered} (hx : x ∈ g) : x ∈ qs := by
  have hpiece : g.reverse ∈ Division.pieces (qs.foldl divide (false, [], [])) := by
    rw [split_eq] at hg
    rcases List.mem_cons.mp hg with rfl | hg
    · rw [List.reverse_reverse]
      exact (.head _)
    · obtain ⟨g', hg', rfl⟩ := List.mem_map.mp (List.mem_reverse.mp hg)
      rw [List.reverse_reverse]
      exact List.mem_cons_of_mem _ hg'
  rcases Division.mem_foldl hpiece (List.mem_reverse.mpr hx) with hx | ⟨g', hg', hx⟩
  · exact hx
  · rw [List.mem_singleton.mp hg'] at hx
    cases hx

/-- Quadruples that follow one another within a function, or outside of all, stay together. -/
theorem infix_split (before after : List Numbered) {seg : List Numbered}
    (hseg : ∀ e ∈ seg, functionLabel? e.1 = none ∧ e.1.op ≠ .leave) :
    ∃ g ∈ (split (before ++ seg ++ after)).1 :: (split (before ++ seg ++ after)).2, seg <:+: g := by
  have hopen : Division.Open (before.foldl divide (false, [], [])) := Division.Open.foldl nofun
  have hopen' : Division.Open (seg.foldl divide (before.foldl divide (false, [], []))) :=
    hopen.foldl
  obtain ⟨g, hg, hsuffix⟩ := Division.exists_suffix_foldl after hopen'.atHand_mem
  rw [hopen.atHand_foldl hseg] at hsuffix
  rw [← List.foldl_append, ← List.foldl_append, ← List.append_assoc] at hg
  refine ⟨g.reverse, ?_, ?_⟩
  · rw [split_eq]
    rcases List.mem_cons.mp hg with rfl | hg
    · exact (.head _)
    · exact List.mem_cons_of_mem _ (List.mem_reverse.mpr (List.mem_map_of_mem hg))
  · rw [← List.reverse_infix, List.reverse_reverse]
    exact (List.prefix_append _ _).isInfix.trans hsuffix.isInfix

end Program

/-! ## Translating -/

namespace Select

/-- The state within a program whose labels are `labels`, none of which a routine replaces: the
function at hand is one of them, if there is one. -/
@[grind cases] structure Calm (labels : List String) (s : Select) : Prop where
  skipping : s.skipping = false
  function : ∀ f, s.function? = some f → f ∈ labels

/-- A quadruple is translated within the functions of its program. -/
theorem Calm.quad {labels : List String} {q : Quad} (h : s.Calm labels)
    (hlabel : q.op = .label → q.result.toLabel ∈ labels)
    (hkept : ∀ l ∈ labels, Routine.replacement? l = none) {code : List Line}
    (hend : Ends input (quad q) s code s') : s'.Calm labels := by
  by_cases hop : q.op = .label
  · have hbegun : Ends input (label q) s code s' := by
      unfold Select.quad at hend
      grind
    obtain ⟨hskipping, hfunction⟩ := label_ends (hkept _ (hlabel hop)) hbegun
    refine ⟨hskipping.trans h.skipping, fun f hf => ?_⟩
    grind
  · have hsteady := quad_steady hop h.skipping hend
    exact ⟨hsteady.skipping.trans h.skipping, fun f hf => h.function f (hsteady.function? ▸ hf)⟩

end Select

/-- The labels of a program. -/
def Input.labels (input : Input) : List String :=
  (input.quads.filter (·.op = .label)).map (·.result.toLabel)

namespace Program

/-- All blocks of a program. -/
def allBlocks (p : Program) : List Block := p.main ++ p.functions.flatten

variable {qs : List Numbered} {bs : List Block}

theorem blocks_cons_ends {q : Quad} {i : Nat} :
    Ends input (blocks ((q, i) :: qs)) s bs s' ↔ ∃ code s₁ rest,
      Ends input (Select.quad q) s code s₁ ∧
      Ends input (blocks qs) s₁ rest s' ∧ bs = ⟨i, q, code⟩ :: rest := by
  unfold blocks
  rw [ends_mapM_cons]
  constructor
  · rintro ⟨block, s₁, rest, hblock, hrest, rfl⟩
    obtain ⟨code, s₂, hcode, hblock⟩ := ends_bind.mp hblock
    grind
  · rintro ⟨code, s₁, rest, hcode, hrest, rfl⟩
    exact ⟨_, s₁, rest, ends_bind.mpr ⟨code, s₁, hcode, ends_pure.mpr ⟨rfl, rfl⟩⟩, hrest, rfl⟩

/-- Translating quadruples of a program stays within its functions. -/
theorem blocks_calm (hqs : ∀ e ∈ qs, e.1 ∈ input.quads)
    (hkept : ∀ l ∈ input.labels, Routine.replacement? l = none) (hs : s.Calm input.labels)
    (h : Ends input (blocks qs) s bs s') : s'.Calm input.labels := by
  refine Select.mapM_preserves (fun e he s code s' hs hend => ?_) hs h
  obtain ⟨code, s₂, hcode, hend⟩ := ends_bind.mp hend
  obtain ⟨-, rfl⟩ := ends_pure.mp hend
  refine hs.quad (fun hop => List.mem_map.mpr ⟨e.1, ?_, rfl⟩) hkept hcode
  exact List.mem_filter.mpr ⟨hqs e he, by simp [hop]⟩

/-- The parts of a translation: the code outside of functions comes first. -/
theorem ofInput_ends {p : Program} (h : ofInput input = .ok p) : ∃ s s',
    Ends input (blocks (split input.quads.zipIdx).1) (start input) p.main s ∧
    Ends input ((split input.quads.zipIdx).2.mapM blocks) s p.functions s' := by
  generalize hsteps : (do
      let main ← blocks (split input.quads.zipIdx).1
      let functions ← (split input.quads.zipIdx).2.mapM blocks
      return (⟨dataLines input, heapRegs input, main, functions⟩ : Program) :
        SelectM Program) = steps
  have hend : Ends input steps (start input) p ((start input).run input steps).2 := by
    subst hsteps
    exact Prod.ext h rfl
  rw [← hsteps] at hend
  simp only [ends_bind, ends_pure] at hend
  obtain ⟨main, s, hmain, functions, s', hfunctions, rfl, -⟩ := hend
  exact ⟨s, s', hmain, hfunctions⟩

/-- A piece of quadruples, in the course of translating all. -/
theorem infix_ends {seg : List Numbered} (hseg : seg <:+: qs) (hqs : ∀ e ∈ qs, e.1 ∈ input.quads)
    (hkept : ∀ l ∈ input.labels, Routine.replacement? l = none) (hs : s.Calm input.labels)
    (h : Ends input (blocks qs) s bs s') :
    ∃ s₁ bs₁ s₂, s₁.Calm input.labels ∧ Ends input (blocks seg) s₁ bs₁ s₂ ∧ ∀ b ∈ bs₁, b ∈ bs := by
  obtain ⟨before, after, rfl⟩ := hseg
  obtain ⟨bs₁, s₂, bs₂, hfirst, -, rfl⟩ := ends_mapM_append.mp h
  obtain ⟨bs₃, s₁, bs₄, hbefore, hseg, rfl⟩ := ends_mapM_append.mp hfirst
  refine ⟨s₁, bs₄, s₂, blocks_calm (fun e he => hqs e ?_) hkept hs hbefore, hseg, fun b hb => ?_⟩
  · exact List.mem_append_left _ (List.mem_append_left _ he)
  · exact List.mem_append_left _ (List.mem_append_right _ hb)

/-- Quadruples that follow one another within a function, or outside of all, are translated one
directly after the other. -/
theorem segment_ends {before seg after : List Numbered}
    (hquads : input.quads.zipIdx = before ++ seg ++ after)
    (hseg : ∀ e ∈ seg, functionLabel? e.1 = none ∧ e.1.op ≠ .leave)
    (hkept : ∀ l ∈ input.labels, Routine.replacement? l = none) {p : Program}
    (h : ofInput input = .ok p) :
    ∃ s bs s', s.Calm input.labels ∧ Ends input (blocks seg) s bs s' ∧ ∀ b ∈ bs,
      b ∈ p.allBlocks := by
  obtain ⟨s₁, s₂, hmain, hfunctions⟩ := ofInput_ends h
  obtain ⟨g, hg, hpiece⟩ := infix_split before after hseg
  rw [← hquads] at hg
  have hqs : ∀ g ∈ (split input.quads.zipIdx).1 :: (split input.quads.zipIdx).2, ∀ e ∈ g,
      e.1 ∈ input.quads :=
        fun g hg e he => (List.mem_zipIdx' (mem_of_mem_split hg he)).2 ▸ List.getElem_mem _
  have hstart : (start input).Calm input.labels := ⟨rfl, nofun⟩
  -- The piece lies outside of functions, or in one, in front of which others are translated.
  rcases List.mem_cons.mp hg with rfl | hg
  · obtain ⟨s, bs, s', hs, hbs, hall⟩ := infix_ends hpiece (hqs _ (.head _)) hkept hstart hmain
    exact ⟨s, bs, s', hs, hbs, fun b hb => List.mem_append_left _ (hall b hb)⟩
  · have hs₁ := blocks_calm (hqs _ (.head _)) hkept hstart hmain
    obtain ⟨gs, gs', hgroups⟩ := List.append_of_mem hg
    have hmem : ∀ g' ∈ gs ++ g :: gs', ∀ e ∈ g', e.1 ∈ input.quads := fun g' hg' =>
      hqs g' (.tail _ (hgroups ▸ hg'))
    rw [hgroups] at hfunctions
    obtain ⟨fs, s₃, fs', hearlier, hlater, hall⟩ := ends_mapM_append.mp hfunctions
    obtain ⟨f, s₄, fs'', hf, -, rfl⟩ := ends_mapM_cons.mp hlater
    have hs₃ : s₃.Calm input.labels := Select.mapM_preserves
      (fun g' hg' _ _ _ hs => blocks_calm (hmem g' (List.mem_append_left _ hg'))
        hkept hs) hs₁ hearlier
    obtain ⟨s, bs, s', hs, hbs, hin⟩ := infix_ends hpiece (hmem g (by simp)) hkept hs₃ hf
    refine ⟨s, bs, s', hs, hbs, fun b hb => List.mem_append_right _ ?_⟩
    grind

end Program

end Scriptc.Mips
